/-
  ProximaDb.Memtable.IdIndex

  The id index of a partition against the batches it indexes. The index keeps one batch for each
  id, the last one added, while several batches may hold the id; a removal forgets the entry and
  does not look for an older holder.
-/
import ProximaDb.Memtable.Winner

namespace ProximaDb.Memtable

open ProximaDb.Lib List CollectionPartition Option AList

/-! ## Retiring an exact set of batches -/

variable {batch : WALVectorBatch} {id : String} {b : WALVectorBatch × Nat} {ids : List String}

namespace CollectionPartition

/-- Take one claimed batch out; `none` when it is not there. -/
def retireOne (p : CollectionPartition) (batchId : String) : Option (CollectionPartition × Nat) :=
  (p.walBatches.lookup batchId).map (fun b =>
    ({ p with
        walBatches := p.walBatches.erase batchId
        vectorCount := p.vectorCount - b.1.vectorRecords.length
        totalSize := p.totalSize - b.1.totalSizeBytes
        batchCount := p.batchCount - 1
        vectorIdIndex := unindexOwned p.vectorIdIndex batchId b.1.vectorRecords },
      b.1.vectorRecords.length))

/-- The loop of `remove_batches_exact`. A batch that is gone ends it with an error; what was retired
    before stays retired, and the scan index is then not reset. -/
def retireAll (collectionId : String) :
    List String → CollectionPartition → Nat → CollectionPartition × Except String Nat
  | [], p, removed => ({ p with scanIndex := none }, .ok removed)
  | batchId :: rest, p, removed =>
    match p.retireOne batchId with
    | none =>
      (p, .error ("claimed batch '" ++ collectionId ++ ":" ++ batchId ++
        "' disappeared during exact retirement"))
    | some (p', records) => retireAll collectionId rest p' (removed + records)

/-- `remove_batches_exact`: the whole set is looked up before anything is removed. -/
def removeBatchesExact (p : CollectionPartition) (collectionId : String) (batchIds : List String) :
    CollectionPartition × Except String Nat :=
  match batchIds.find? (fun id => (p.walBatches.lookup id).isNone) with
  | some missing =>
    (p, .error ("claimed batch '" ++ collectionId ++ ":" ++ missing ++
      "' is absent from the WAL partition"))
  | none => retireAll collectionId batchIds p 0

end CollectionPartition

/-! ## Operations -/

/-- What a partition can be asked to do, reads apart. -/
inductive Operation where
  | addBatch (batch : WALVectorBatch)
  | addBatchInsertOnly (batch : WALVectorBatch)
  | removeBatch (collectionId batchId : String)
  | removeBatchesExact (collectionId : String) (batchIds : List String)
  | markAllFlushed
  | clearFlushed

/-- The partition after a call that may fail without effect. -/
def orSame (p : CollectionPartition) (result : Except String CollectionPartition) :
    CollectionPartition :=
  match result with
  | .error _ => p
  | .ok p' => p'

def perform (p : CollectionPartition) : Operation → CollectionPartition
  | .addBatch batch => orSame p (p.addBatch batch)
  | .addBatchInsertOnly batch => orSame p (p.addBatchInsertOnly batch)
  | .removeBatch collectionId batchId => orSame p (p.removeBatch collectionId batchId)
  | .removeBatchesExact collectionId batchIds => (p.removeBatchesExact collectionId batchIds).1
  | .markAllFlushed => p.markAllFlushed
  | .clearFlushed => p.clearFlushed.1

/-- The partition after a run from the empty one. -/
def performAll (operations : List Operation) : CollectionPartition :=
  operations.foldl perform {}

def Operation.added : Operation → Option String
  | .addBatch batch => some batch.batchId
  | .addBatchInsertOnly batch => some batch.batchId
  | _ => none

/-! ## What is held -/

def namedOids (batch : WALVectorBatch) : List String :=
  (batch.vectorRecords.map (fun r => r.oid)).filter (fun oid => decide (oid ≠ ""))

/-- The batch under `batchId` holds the id. -/
def HeldBy (p : CollectionPartition) (batchId oid : String) : Prop :=
  ∃ b, p.walBatches.lookup batchId = some b ∧ oid ∈ namedOids b.1

def Held (p : CollectionPartition) (oid : String) : Prop := ∃ batchId, HeldBy p batchId oid

def sumOver (f : WALVectorBatch → Nat) (m : BatchMap) : Nat :=
  (m.entries.map (fun e => f e.2.1)).sum

structure IndexExact (p : CollectionPartition) : Prop where
  indexed : ∀ oid, (p.vectorIdIndex.lookup oid).isSome ↔ Held p oid
  present : ∀ oid batchId, p.vectorIdIndex.lookup oid = some batchId →
    (p.walBatches.lookup batchId).isSome
  vectorCount : p.vectorCount = sumOver (fun b => b.vectorRecords.length) p.walBatches
  totalSize : p.totalSize = sumOver (fun b => b.totalSizeBytes) p.walBatches
  batchCount : p.batchCount = p.walBatches.entries.length
  admission : ∀ batch, (∃ message, p.addBatchInsertOnly batch = .error message) ↔
    ¬ (namedOids batch).Nodup ∨ ∃ oid ∈ namedOids batch, Held p oid

/-! ## What an operation takes out -/

/-- The part of a list before its first repetition. -/
def untilRepeat : List String → List String → List String
  | _, [] => []
  | seen, id :: rest => if id ∈ seen then [] else id :: untilRepeat (id :: seen) rest

def retired (p : CollectionPartition) : Operation → List String
  | .removeBatch _ batchId => if (p.walBatches.lookup batchId).isSome then [batchId] else []
  | .removeBatchesExact _ batchIds =>
    if batchIds.all (fun id => (p.walBatches.lookup id).isSome) then untilRepeat [] batchIds
    else []
  | .clearFlushed => (p.walBatches.entries.filter (fun e => e.2.1.isFlushed)).map Sigma.fst
  | _ => []

/-- No holder of an id is left behind. The two exact removals forget the ids the index attributes to
    a batch they take; clearing forgets every id of such a batch. -/
def TakesAllHolders (p : CollectionPartition) (op : Operation) : Prop :=
  match op with
  | .clearFlushed => ∀ oid, (∃ id ∈ retired p op, HeldBy p id oid) →
      ∀ id, HeldBy p id oid → id ∈ retired p op
  | _ => ∀ oid id, p.vectorIdIndex.lookup oid = some id → id ∈ retired p op →
      ∀ id', HeldBy p id' oid → id' ∈ retired p op

/-! ## Lookups after a fold over records -/

variable {oid : String} (index : KeyMap String String)

section Folds

open CollectionPartition

variable {f : WALVectorBatch → Nat} {m : BatchMap}

theorem mem_namedOids :
    oid ∈ namedOids batch ↔ oid ≠ "" ∧ ∃ r ∈ batch.vectorRecords, r.oid = oid := by
  simp [namedOids, and_comm]

/-- Setting or forgetting the id of every named record, one record after the other, is setting or
    forgetting the ids of the batch. -/
theorem lookup_foldl_named {step : KeyMap String String → String → KeyMap String String}
    {v : Option String}
    (hstep : ∀ m k k', (step m k).lookup k' = if k' = k then v else m.lookup k')
    (batch : WALVectorBatch) (oid : String) :
    (batch.vectorRecords.foldl (fun m r => if r.oid = "" then m else step m r.oid) index).lookup
      oid = if oid ∈ namedOids batch then v else index.lookup oid := by
  obtain ⟨batchId, records, -, -, -⟩ := batch
  simp only [mem_namedOids]
  induction records generalizing index with
  | nil => simp
  | cons r records ih =>
    rw [foldl_cons, ih]
    by_cases hempty : r.oid = ""
    · rw [if_pos hempty]
      refine if_congr ?_ rfl rfl
      exact and_congr_right (fun hne => by simp [hempty, Ne.symm hne])
    · rw [if_neg hempty, hstep]
      by_cases hoid : r.oid = oid
      · subst hoid
        simp [hempty]
      · simp [hoid, Ne.symm hoid]

theorem lookup_indexRecords (batch : WALVectorBatch) (oid : String) :
    (indexRecords index batch.batchId batch.vectorRecords).lookup oid =
      if oid ∈ namedOids batch then some batch.batchId else index.lookup oid :=
  lookup_foldl_named index (fun m k k' => lookup_insert_eq m k k' batch.batchId) batch oid

theorem lookup_unindexRecords (batch : WALVectorBatch) (oid : String) :
    (unindexRecords index batch.vectorRecords).lookup oid =
      if oid ∈ namedOids batch then none else index.lookup oid :=
  lookup_foldl_named index lookup_erase_eq batch oid

theorem lookup_unindexOwned (batchId : String) (batch : WALVectorBatch) (oid : String) :
    (unindexOwned index batchId batch.vectorRecords).lookup oid =
      if oid ∈ namedOids batch ∧ index.lookup oid = some batchId then none
      else index.lookup oid := by
  obtain ⟨ownId, records, -, -, -⟩ := batch
  simp only [mem_namedOids, unindexOwned]
  induction records generalizing index with
  | nil => simp
  | cons r records ih =>
    rw [foldl_cons, ih]
    by_cases hown : r.oid ≠ "" ∧ index.lookup r.oid = some batchId
    · rw [if_pos hown]
      by_cases hoid : r.oid = oid
      · subst hoid
        simp [lookup_erase, hown.1, hown.2]
      · rw [lookup_erase_ne (Ne.symm hoid)]
        simp [hoid]
    · rw [if_neg hown]
      refine if_congr ?_ rfl rfl
      simp only [mem_cons, exists_eq_or_imp]
      constructor
      · rintro ⟨⟨hne, hx⟩, hl⟩
        exact ⟨⟨hne, Or.inr hx⟩, hl⟩
      · rintro ⟨⟨hne, hx⟩, hl⟩
        rcases hx with hx | hx
        · subst hx
          exact absurd ⟨hne, hl⟩ hown
        · exact ⟨⟨hne, hx⟩, hl⟩

/-! ## Sums over the batches -/

theorem sumOver_insert (h : m.lookup id = none) : sumOver f (m.insert id b) = f b.1 + sumOver f m :=
  total_insert (f := fun b : WALVectorBatch × Nat => f b.1) h

theorem sumOver_erase (h : m.lookup id = some b) : sumOver f m = f b.1 + sumOver f (m.erase id) :=
  total_erase (f := fun b : WALVectorBatch × Nat => f b.1) h

theorem length_erase (h : m.lookup id = some b) :
    m.entries.length = (m.erase id).entries.length + 1 :=
  (perm_cons_erase h).length_eq

theorem sumOver_markAllFlushed {p : CollectionPartition}
    (h : ∀ b, f { b with isFlushed := true } = f b) :
    sumOver f p.markAllFlushed.walBatches = sumOver f p.walBatches := by
  simp [sumOver, markAllFlushed, mapValues, h, Function.comp_def]

end Folds

/-! ## What always holds -/

/-- An indexed id is held by the batch the index names. -/
def IndexSound (p : CollectionPartition) : Prop :=
  ∀ oid id, p.vectorIdIndex.lookup oid = some id → HeldBy p id oid

def IndexComplete (p : CollectionPartition) : Prop :=
  ∀ oid, Held p oid → (p.vectorIdIndex.lookup oid).isSome

/-- The statistics are the sums over the batches. -/
structure Counted (p : CollectionPartition) : Prop where
  vectorCount : p.vectorCount = sumOver (fun b => b.vectorRecords.length) p.walBatches
  totalSize : p.totalSize = sumOver (fun b => b.totalSizeBytes) p.walBatches
  batchCount : p.batchCount = p.walBatches.entries.length

variable {p p' : CollectionPartition}

/-- `p'` has the batches of `p` but for `ids`. -/
def Without (p p' : CollectionPartition) (ids : List String) : Prop :=
  ∀ id, p'.walBatches.lookup id = if id ∈ ids then none else p.walBatches.lookup id

/-- Batches `ids` are taken out, and the index forgets what it attributed to them. -/
structure Retires (p p' : CollectionPartition) (ids : List String) : Prop where
  batches : Without p p' ids
  index : ∀ oid, p'.vectorIdIndex.lookup oid =
    (p.vectorIdIndex.lookup oid).filter (fun id => decide (id ∉ ids))

theorem Retires.refl (p : CollectionPartition) : Retires p p [] :=
  ⟨fun id => by simp, fun oid => by cases p.vectorIdIndex.lookup oid <;> simp [filter_some]⟩

theorem Without.heldBy_iff (h : Without p p' ids) :
    HeldBy p' id oid ↔ id ∉ ids ∧ HeldBy p id oid := by
  unfold HeldBy
  rw [h]
  by_cases hid : id ∈ ids <;> simp [hid]

theorem Without.isSome (h : Without p p' ids) (hsome : (p'.walBatches.lookup id).isSome) :
    (p.walBatches.lookup id).isSome := by
  rw [h] at hsome
  split_ifs at hsome with hid
  · cases hsome
  · exact hsome

theorem Retires.trans {p₁ p₂ : CollectionPartition} {ids' : List String}
    (h : Retires p p₁ ids) (h' : Retires p₁ p₂ ids') : Retires p p₂ (ids ++ ids') := by
  refine ⟨fun id => ?_, fun oid => ?_⟩
  · rw [h'.batches, h.batches]
    by_cases hid : id ∈ ids <;> by_cases hid' : id ∈ ids' <;> simp [hid, hid']
  · rw [h'.index, h.index]
    cases p.vectorIdIndex.lookup oid with
    | none => rfl
    | some id =>
      by_cases hid : id ∈ ids <;> by_cases hid' : id ∈ ids' <;>
        simp [filter_some, hid, hid']

theorem Retires.sound (h : Retires p p' ids) (hsound : IndexSound p) : IndexSound p' := by
  intro oid id hlook
  rw [h.index, filter_eq_some_iff] at hlook
  rw [h.batches.heldBy_iff]
  exact ⟨by simpa using hlook.2, hsound oid id hlook.1⟩

/-- The index stays complete exactly if every holder of a forgotten id goes too. -/
theorem Retires.complete_iff (h : Retires p p' ids) (hcomplete : IndexComplete p) :
    IndexComplete p' ↔ ∀ oid id, p.vectorIdIndex.lookup oid = some id → id ∈ ids →
      ∀ id', HeldBy p id' oid → id' ∈ ids := by
  constructor
  · intro hc oid id hlook hid id' hheld
    by_contra hstays
    have hsome := hc oid ⟨id', h.batches.heldBy_iff.2 ⟨hstays, hheld⟩⟩
    rw [h.index, hlook] at hsome
    simp [hid] at hsome
  · rintro hall oid ⟨id', hheld⟩
    obtain ⟨hstays, hheld⟩ := h.batches.heldBy_iff.1 hheld
    obtain ⟨id, hlook⟩ := isSome_iff_exists.1 (hcomplete oid ⟨id', hheld⟩)
    have hid : id ∉ ids := fun hid => hstays (hall oid id hlook hid id' hheld)
    rw [h.index, hlook]
    simp [hid]

variable {op : Operation} {operations : List Operation}

section Consistent

-- what every operation starts from
variable (hsound : IndexSound p) (hcount : Counted p) {acc : CollectionPartition × Nat × Nat}
  (collectionId : String)

include hsound

theorem retires_one (hlook : p.walBatches.lookup id = some b)
    (hb : p'.walBatches = p.walBatches.erase id)
    (hi : p'.vectorIdIndex = unindexOwned p.vectorIdIndex id b.1.vectorRecords) :
    Retires p p' [id] := by
  refine ⟨fun id' => ?_, fun oid => ?_⟩
  · rw [hb, lookup_erase_eq]
    simp
  · rw [hi, lookup_unindexOwned]
    cases hl : p.vectorIdIndex.lookup oid with
    | none => simp
    | some id' =>
      by_cases hid : id' = id
      · -- the batch holds what the index attributes to it
        subst hid
        obtain ⟨b', hb', hmem⟩ := hsound oid id' hl
        rw [hlook, some.injEq] at hb'
        subst hb'
        simp [hmem, filter_some]
      · simp [hid, filter_some]

omit hsound in
theorem Counted.retire (h : Counted p) (hlook : p.walBatches.lookup id = some b)
    (hb : p'.walBatches = p.walBatches.erase id)
    (hv : p'.vectorCount = p.vectorCount - b.1.vectorRecords.length)
    (ht : p'.totalSize = p.totalSize - b.1.totalSizeBytes) (hc : p'.batchCount = p.batchCount - 1) :
    Counted p' := by
  have hsum := @sumOver_erase id b (fun b => b.vectorRecords.length) p.walBatches hlook
  have hsize := @sumOver_erase id b (fun b => b.totalSizeBytes) p.walBatches hlook
  have hlen := length_erase hlook
  refine ⟨?_, ?_, ?_⟩
  · rw [hv, h.vectorCount, hb, hsum]
    omega
  · rw [ht, h.totalSize, hb, hsize]
    omega
  · rw [hc, h.batchCount, hb, hlen]
    omega

/-! ## The exact removals -/

include hcount

theorem retireOne_eq_some {records : Nat} (h : p.retireOne id = some (p', records)) :
    Retires p p' [id] ∧ Counted p' := by
  obtain ⟨b, hlook, heq⟩ := map_eq_some_iff.1 h
  cases heq
  exact ⟨retires_one hsound hlook rfl rfl, hcount.retire hlook rfl rfl rfl rfl⟩

theorem retireAll_spec {seen : List String} {removed : Nat}
    (hpresent : ∀ id ∈ ids, id ∉ seen → (p.walBatches.lookup id).isSome)
    (hgone : ∀ id ∈ seen, p.walBatches.lookup id = none) :
    Retires p (retireAll collectionId ids p removed).1 (untilRepeat seen ids) ∧
      Counted (retireAll collectionId ids p removed).1 := by
  induction ids generalizing p seen removed with
  | nil =>
    have hsame := Retires.refl p
    exact ⟨{ hsame with }, { hcount with }⟩
  | cons id ids ih =>
    rw [retireAll, untilRepeat]
    by_cases hseen : id ∈ seen
    · have hnone : p.retireOne id = none := by
        rw [retireOne, hgone id hseen]
        rfl
      rw [hnone, if_pos hseen]
      exact ⟨Retires.refl p, hcount⟩
    · rw [if_neg hseen]
      cases hone : p.retireOne id with
      | none =>
        have hsome := hpresent id (by simp) hseen
        unfold retireOne at hone
        rw [map_eq_none_iff] at hone
        simp [hone] at hsome
      | some result =>
        obtain ⟨p₁, records⟩ := result
        obtain ⟨hret, hcount₁⟩ := retireOne_eq_some hsound hcount hone
        have hrest := @ih p₁ (hret.sound hsound) hcount₁ (id :: seen) (removed + records) ?_ ?_
        · exact ⟨hret.trans hrest.1, hrest.2⟩
        · intro id' hid' hnew
          rw [hret.batches, if_neg (by simp at hnew ⊢; exact hnew.1)]
          exact hpresent id' (by simp [hid']) (fun h => hnew (by simp [h]))
        · intro id' hid'
          rw [hret.batches]
          rcases mem_cons.1 hid' with rfl | hid'
          · simp
          · simp [hgone id' hid']

theorem removeBatchesExact_spec (ids : List String) :
    Retires p (p.removeBatchesExact collectionId ids).1
        (retired p (.removeBatchesExact collectionId ids)) ∧
      Counted (p.removeBatchesExact collectionId ids).1 := by
  unfold removeBatchesExact retired
  dsimp only
  cases hfind : ids.find? (fun id => (p.walBatches.lookup id).isNone) with
  | some missing =>
    have habsent := List.find?_some hfind
    have hall : ids.all (fun id => (p.walBatches.lookup id).isSome) = false := by
      refine all_eq_false.2 ⟨missing, mem_of_find?_eq_some hfind, ?_⟩
      simpa using habsent
    rw [hall]
    exact ⟨Retires.refl p, hcount⟩
  | none =>
    have hpresent : ∀ id ∈ ids, (p.walBatches.lookup id).isSome := by
      simpa [isSome_iff_ne_none] using hfind
    rw [all_eq_true.2 hpresent]
    exact retireAll_spec hsound hcount collectionId (fun id hid _ => hpresent id hid) (by simp)

theorem removeBatch_spec (collectionId id : String) :
    Retires p (orSame p (p.removeBatch collectionId id)) (retired p (.removeBatch collectionId id)) ∧
      Counted (orSame p (p.removeBatch collectionId id)) := by
  unfold removeBatch retired
  dsimp only
  cases hlook : p.walBatches.lookup id with
  | none => exact ⟨Retires.refl p, hcount⟩
  | some b => exact ⟨retires_one hsound hlook rfl rfl, hcount.retire hlook rfl rfl rfl rfl⟩

/-! ## Clearing flushed batches -/

/-- What holds after the batches `ids` were cleared: their ids are forgotten whatever batch the
    index names, and the statistics still have to be corrected. -/
structure Cleared (p : CollectionPartition) (acc : CollectionPartition × Nat × Nat)
    (ids : List String) : Prop where
  batches : ∀ id, acc.1.walBatches.lookup id = if id ∈ ids then none else p.walBatches.lookup id
  forgotten : ∀ oid id, id ∈ ids → HeldBy p id oid → acc.1.vectorIdIndex.lookup oid = none
  kept : ∀ oid, (∀ id ∈ ids, ¬ HeldBy p id oid) →
    acc.1.vectorIdIndex.lookup oid = p.vectorIdIndex.lookup oid
  vectorCount : acc.1.vectorCount =
    sumOver (fun b => b.vectorRecords.length) acc.1.walBatches + acc.2.1
  totalSize : acc.1.totalSize = sumOver (fun b => b.totalSizeBytes) acc.1.walBatches + acc.2.2
  batchCount : acc.1.batchCount = acc.1.walBatches.entries.length

omit hsound hcount in
theorem Cleared.one (h : Cleared p acc ids) (id : String) :
    Cleared p (clearOne acc id) (ids ++ [id]) := by
  unfold clearOne
  have hbatch := h.batches id
  cases hlook : acc.1.walBatches.lookup id with
  | none =>
    -- nothing is under this id now, so it was cleared before or never there
    rw [hlook] at hbatch
    refine ⟨fun id' => ?_, fun oid id' hid' hheld => ?_, fun oid hnone => ?_, h.vectorCount,
      h.totalSize, h.batchCount⟩
    · rw [h.batches]
      by_cases hid : id' ∈ ids
      · simp [hid]
      · by_cases heq : id' = id
        · subst heq
          rw [if_neg hid] at hbatch
          simp [hid, ← hbatch]
        · simp [hid, heq]
    · by_cases hid : id' ∈ ids
      · exact h.forgotten oid id' hid hheld
      · have heq : id' = id := by simpa [hid] using hid'
        subst heq
        obtain ⟨b, hb, -⟩ := hheld
        rw [if_neg hid, hb] at hbatch
        cases hbatch
    · exact h.kept oid (fun id' hid' => hnone id' (mem_append_left _ hid'))
  | some b =>
    rw [hlook] at hbatch
    have hnew : id ∉ ids := by
      intro hid
      rw [if_pos hid] at hbatch
      cases hbatch
    rw [if_neg hnew] at hbatch
    have hsum := @sumOver_erase id b (fun b => b.vectorRecords.length) acc.1.walBatches hlook
    have hsize := @sumOver_erase id b (fun b => b.totalSizeBytes) acc.1.walBatches hlook
    have hlen := length_erase hlook
    refine ⟨fun id' => ?_, fun oid id' hid' hheld => ?_, fun oid hnone => ?_, ?_, ?_, ?_⟩
    · rw [lookup_erase_eq, h.batches]
      by_cases heq : id' = id <;> simp [heq]
    · rw [lookup_unindexRecords]
      split_ifs with hmem
      · rfl
      · by_cases hid : id' ∈ ids
        · exact h.forgotten oid id' hid hheld
        · have heq : id' = id := by simpa [hid] using hid'
          subst heq
          obtain ⟨b', hb', hmem'⟩ := hheld
          rw [← hbatch, some.injEq] at hb'
          subst hb'
          exact absurd hmem' hmem
    · rw [lookup_unindexRecords, if_neg (fun hmem => hnone id (by simp) ⟨b, hbatch.symm, hmem⟩)]
      exact h.kept oid (fun id' hid' => hnone id' (mem_append_left _ hid'))
    · show acc.1.vectorCount = sumOver (fun b => b.vectorRecords.length)
        (acc.1.walBatches.erase id) + (acc.2.1 + b.1.vectorRecords.length)
      rw [h.vectorCount, hsum]
      omega
    · show acc.1.totalSize = sumOver (fun b => b.totalSizeBytes)
        (acc.1.walBatches.erase id) + (acc.2.2 + b.1.totalSizeBytes)
      rw [h.totalSize, hsize]
      omega
    · show acc.1.batchCount - 1 = (acc.1.walBatches.erase id).entries.length
      rw [h.batchCount, hlen]
      omega

omit hsound hcount in
theorem Cleared.all (h : Cleared p acc ids) (more : List String) :
    Cleared p (more.foldl clearOne acc) (ids ++ more) := by
  induction more generalizing acc ids with
  | nil => simpa using h
  | cons id more ih => simpa using ih (h.one id)

omit hsound in
theorem cleared_clearFlushed : Cleared p ((retired p .clearFlushed).foldl clearOne (p, 0, 0))
      (retired p .clearFlushed) := by
  have hstart : Cleared p (p, 0, 0) [] := by
    refine ⟨fun id => by simp, fun oid id hid => by simp at hid, fun oid _ => rfl,
      hcount.vectorCount, hcount.totalSize, hcount.batchCount⟩
  exact hstart.all (retired p .clearFlushed)

omit hsound in
theorem without_clearFlushed : Without p p.clearFlushed.1 (retired p .clearFlushed) :=
  (cleared_clearFlushed hcount).batches

theorem clearFlushed_sound : IndexSound p.clearFlushed.1 ∧ Counted p.clearFlushed.1 := by
  have h := cleared_clearFlushed hcount
  refine ⟨fun oid id hlook => ?_, ?_, ?_, h.batchCount⟩
  · -- an entry that is left belongs to a batch that is left
    have hlook' : (((retired p .clearFlushed).foldl clearOne
        (p, 0, 0)).1.vectorIdIndex).lookup oid = some id := hlook
    have hnone : ∀ id ∈ retired p .clearFlushed, ¬ HeldBy p id oid := by
      intro id' hid' hheld
      rw [h.forgotten oid id' hid' hheld] at hlook'
      cases hlook'
    rw [h.kept oid hnone] at hlook'
    have hheld := hsound oid id hlook'
    obtain ⟨b, hb, hmem⟩ := hheld
    refine ⟨b, (h.batches id).trans ?_, hmem⟩
    rw [if_neg (fun hid => hnone id hid ⟨b, hb, hmem⟩), hb]
  · exact (congrArg (· - _) h.vectorCount).trans (Nat.add_sub_cancel _ _)
  · exact (congrArg (· - _) h.totalSize).trans (Nat.add_sub_cancel _ _)

omit hsound in
theorem clearFlushed_complete_iff (hcomplete : IndexComplete p) :
    IndexComplete p.clearFlushed.1 ↔ TakesAllHolders p .clearFlushed := by
  have h := cleared_clearFlushed hcount
  have hwithout := without_clearFlushed hcount
  constructor
  · rintro hc oid ⟨id, hid, hgone⟩ id' hholds
    by_contra hstays
    have hsome := hc oid ⟨id', hwithout.heldBy_iff.2 ⟨hstays, hholds⟩⟩
    have hnone : p.clearFlushed.1.vectorIdIndex.lookup oid = none := h.forgotten oid id hid hgone
    rw [hnone] at hsome
    cases hsome
  · rintro hall oid ⟨id', hholds⟩
    obtain ⟨hstays, hholds⟩ := hwithout.heldBy_iff.1 hholds
    have hkept : p.clearFlushed.1.vectorIdIndex.lookup oid = p.vectorIdIndex.lookup oid :=
      h.kept oid (fun id hid hgone => hstays (hall oid ⟨id, hid, hgone⟩ id' hholds))
    rw [hkept]
    exact hcomplete oid ⟨id', hholds⟩

/-! ## Adding a batch -/

omit hsound hcount in
theorem heldBy_store (hfresh : p.walBatches.lookup batch.batchId = none) :
    HeldBy (p.store batch) id oid ↔
      (id = batch.batchId ∧ oid ∈ namedOids batch) ∨ HeldBy p id oid := by
  unfold HeldBy store
  by_cases hid : id = batch.batchId
  · subst hid
    simp [lookup_insert, hfresh]
  · rw [lookup_insert_ne hid]
    simp [hid]

theorem store_spec (hfresh : p.walBatches.lookup batch.batchId = none) :
    IndexSound (p.store batch) ∧ Counted (p.store batch) ∧
      (IndexComplete p → IndexComplete (p.store batch)) := by
  have hlook : ∀ oid, (p.store batch).vectorIdIndex.lookup oid =
      if oid ∈ namedOids batch then some batch.batchId else p.vectorIdIndex.lookup oid :=
    fun oid => lookup_indexRecords p.vectorIdIndex batch oid
  refine ⟨fun oid id h => ?_, ⟨?_, ?_, ?_⟩, fun hcomplete oid hheld => ?_⟩
  · rw [hlook] at h
    rw [heldBy_store hfresh]
    split_ifs at h with hmem
    · cases h
      exact Or.inl ⟨rfl, hmem⟩
    · exact Or.inr (hsound oid id h)
  · show p.vectorCount + _ = sumOver _ (p.walBatches.insert _ _)
    rw [sumOver_insert hfresh, hcount.vectorCount, Nat.add_comm]
  · show p.totalSize + _ = sumOver _ (p.walBatches.insert _ _)
    rw [sumOver_insert hfresh, hcount.totalSize, Nat.add_comm]
  · show p.batchCount + 1 = (p.walBatches.insert _ _).entries.length
    rw [entries_insert_of_notMem (lookup_eq_none.1 hfresh), length_cons, hcount.batchCount]
  · rw [hlook]
    obtain ⟨id, hheld⟩ := hheld
    split_ifs with hmem
    · rfl
    · rcases (heldBy_store hfresh).1 hheld with ⟨-, hin⟩ | hold
      · exact absurd hin hmem
      · exact hcomplete oid ⟨id, hold⟩

omit hsound hcount in
theorem insertConflict_eq_none_iff (requestIds : List String) (records : List ProximaRecord) :
    insertConflict index requestIds records = none ↔
      ((records.map (fun r => r.oid)).filter (fun oid => decide (oid ≠ ""))).Nodup ∧
        ∀ oid ∈ (records.map (fun r => r.oid)).filter (fun oid => decide (oid ≠ "")),
          oid ∉ requestIds ∧ index.lookup oid = none := by
  fun_induction insertConflict index requestIds records with
  | case1 => simp
  | case2 requestIds r records hempty ih =>
    rw [map_cons, ih, filter_cons_of_neg (by simp [hempty])]
  | case3 requestIds r records hempty hseen =>
    refine iff_of_false (by simp) (fun hall => ?_)
    exact (hall.2 r.oid (by simp [hempty])).1 hseen
  | case4 requestIds r records hempty hseen hlook =>
    refine iff_of_false (by simp) (fun hall => ?_)
    rw [(hall.2 r.oid (by simp [hempty])).2] at hlook
    cases hlook
  | case5 requestIds r records hempty hseen hlook ih =>
    rw [map_cons, filter_cons_of_pos (by simp [hempty]), nodup_cons, ih]
    constructor
    · rintro ⟨hnodup, hall⟩
      refine ⟨⟨fun hmem => (hall _ hmem).1 (by simp), hnodup⟩, fun oid hoid => ?_⟩
      rcases mem_cons.1 hoid with rfl | hoid
      · exact ⟨hseen, by simpa using hlook⟩
      · exact ⟨fun hin => (hall oid hoid).1 (by simp [hin]), (hall oid hoid).2⟩
    · rintro ⟨⟨hnew, hnodup⟩, hall⟩
      refine ⟨hnodup, fun oid hoid => ⟨fun hin => ?_, (hall oid (mem_cons_of_mem _ hoid)).2⟩⟩
      rcases mem_cons.1 hin with rfl | hin
      · exact hnew hoid
      · exact (hall oid (mem_cons_of_mem _ hoid)).1 hin

omit hsound hcount in
theorem addBatchInsertOnly_rejects_iff (batch : WALVectorBatch) :
    (∃ message, p.addBatchInsertOnly batch = .error message) ↔
      ¬ (namedOids batch).Nodup ∨
        ∃ oid ∈ namedOids batch, (p.vectorIdIndex.lookup oid).isSome := by
  unfold addBatchInsertOnly addBatchInternal
  rw [if_pos rfl]
  have hiff := (insertConflict_eq_none_iff p.vectorIdIndex [] batch.vectorRecords).not
  simp only [not_and_or, not_forall, exists_prop] at hiff
  have hsome : ∀ oid, (p.vectorIdIndex.lookup oid).isSome ↔
      ¬ oid ∉ ([] : List String) ∨ ¬ p.vectorIdIndex.lookup oid = none := by
    simp [isSome_iff_ne_none]
  simp only [hsome]
  refine Iff.trans ?_ hiff
  cases insertConflict p.vectorIdIndex [] batch.vectorRecords <;> simp

/-! ## Steps -/

/-- The operation brings no batch under an id in use. -/
def BringsNew (p : CollectionPartition) (op : Operation) : Prop :=
  ∀ id, op.added = some id → p.walBatches.lookup id = none

omit hsound hcount in
theorem orSame_addBatchInternal (p : CollectionPartition) (batch : WALVectorBatch)
    (insertOnly : Bool) : orSame p (p.addBatchInternal batch insertOnly) = p ∨
      orSame p (p.addBatchInternal batch insertOnly) = p.store batch := by
  unfold addBatchInternal
  split_ifs
  · split
    · exact Or.inl rfl
    · exact Or.inr rfl
  · exact Or.inr rfl

omit hsound hcount in
/-- An addition stores its batch or does nothing, and retires nothing. -/
theorem perform_of_added (h : op.added = some id) : (∃ batch : WALVectorBatch, batch.batchId = id ∧
      (perform p op = p ∨ perform p op = p.store batch)) ∧ TakesAllHolders p op := by
  have hnone : ∀ oid id', p.vectorIdIndex.lookup oid = some id' → id' ∈ ([] : List String) →
      ∀ id'', HeldBy p id'' oid → id'' ∈ ([] : List String) :=
    fun _ _ _ hmem => absurd hmem not_mem_nil
  cases op with
  | addBatch batch =>
    exact ⟨⟨batch, some.inj h, orSame_addBatchInternal p batch false⟩, hnone⟩
  | addBatchInsertOnly batch =>
    exact ⟨⟨batch, some.inj h, orSame_addBatchInternal p batch true⟩, hnone⟩
  | removeBatch | removeBatchesExact | markAllFlushed | clearFlushed => cases h

omit hsound hcount in
theorem heldBy_markAllFlushed : HeldBy p.markAllFlushed id oid ↔ HeldBy p id oid := by
  unfold HeldBy markAllFlushed
  rw [lookup_mapValues]
  cases p.walBatches.lookup id with
  | none => simp
  | some b => simp [namedOids]

/-- What an operation keeps. A complete index stays complete exactly if no holder is left behind,
    and a batch that is there was there or is the one that was added. -/
theorem perform_spec (hnew : BringsNew p op) : IndexSound (perform p op) ∧ Counted (perform p op) ∧
      (IndexComplete p → (IndexComplete (perform p op) ↔ TakesAllHolders p op)) ∧
      ∀ id, ((perform p op).walBatches.lookup id).isSome →
        op.added = some id ∨ (p.walBatches.lookup id).isSome := by
  cases hop : op.added with
  | some id =>
    obtain ⟨⟨batch, rfl, h | h⟩, htakes⟩ := perform_of_added (p := p) hop
    · rw [h]
      exact ⟨hsound, hcount, fun hcomplete => iff_of_true hcomplete htakes, fun _ => .inr⟩
    · rw [h]
      obtain ⟨hs, hc, hcomp⟩ := store_spec hsound hcount (hnew _ hop)
      refine ⟨hs, hc, fun hcomplete => iff_of_true (hcomp hcomplete) htakes, fun id hsome => ?_⟩
      by_cases hid : id = batch.batchId
      · exact .inl (congrArg some hid.symm)
      · have hlook : (p.store batch).walBatches.lookup id = p.walBatches.lookup id :=
          lookup_insert_ne hid
        rw [hlook] at hsome
        exact .inr hsome
  | none =>
    cases op with
    | addBatch | addBatchInsertOnly => cases hop
    | removeBatch collectionId id =>
      obtain ⟨hret, hc⟩ := removeBatch_spec hsound hcount collectionId id
      exact ⟨hret.sound hsound, hc, hret.complete_iff, fun _ h => .inr (hret.batches.isSome h)⟩
    | removeBatchesExact collectionId ids =>
      obtain ⟨hret, hc⟩ := removeBatchesExact_spec hsound hcount collectionId ids
      exact ⟨hret.sound hsound, hc, hret.complete_iff, fun _ h => .inr (hret.batches.isSome h)⟩
    | markAllFlushed =>
      refine ⟨fun oid id h => heldBy_markAllFlushed.2 (hsound oid id h), ⟨?_, ?_, ?_⟩,
        fun hcomplete => iff_of_true ?_ (fun oid id _ hid => absurd hid not_mem_nil),
        fun id h => .inr ?_⟩
      · exact hcount.vectorCount.trans (sumOver_markAllFlushed (fun _ => rfl)).symm
      · exact hcount.totalSize.trans (sumOver_markAllFlushed (fun _ => rfl)).symm
      · exact hcount.batchCount.trans (length_map _).symm
      · rintro oid ⟨id, hheld⟩
        exact hcomplete oid ⟨id, heldBy_markAllFlushed.1 hheld⟩
      · have hlook : (perform p .markAllFlushed).walBatches.lookup id =
            (p.walBatches.lookup id).map (fun b => ({ b.1 with isFlushed := true }, b.2)) :=
          lookup_mapValues _ _ _
        rw [hlook, isSome_map] at h
        exact h
    | clearFlushed =>
      obtain ⟨hs, hc⟩ := clearFlushed_sound hsound hcount
      exact ⟨hs, hc, clearFlushed_complete_iff hcount,
        fun _ h => .inr ((without_clearFlushed hcount).isSome h)⟩

theorem indexExact_iff : IndexExact p ↔ IndexComplete p := by
  refine ⟨fun h oid hheld => (h.indexed oid).2 hheld, fun hcomplete => ?_⟩
  have hindexed : ∀ oid, (p.vectorIdIndex.lookup oid).isSome ↔ Held p oid := by
    refine fun oid => ⟨fun hsome => ?_, hcomplete oid⟩
    obtain ⟨id, hlook⟩ := isSome_iff_exists.1 hsome
    exact ⟨id, hsound oid id hlook⟩
  refine ⟨hindexed, fun oid id hlook => ?_, hcount.vectorCount, hcount.totalSize,
    hcount.batchCount, fun batch => ?_⟩
  · obtain ⟨b, hb, -⟩ := hsound oid id hlook
    rw [hb]
    rfl
  · rw [addBatchInsertOnly_rejects_iff]
    simp only [hindexed]

/-! ## Runs -/

omit hsound hcount in
theorem performAll_append (operations : List Operation) (op : Operation) :
    performAll (operations ++ [op]) = perform (performAll operations) op := by
  simp [performAll]

end Consistent

theorem bringsNew_of_nodup (h : ((operations ++ [op]).filterMap Operation.added).Nodup)
    (hkeys : ∀ id, ((performAll operations).walBatches.lookup id).isSome →
      id ∈ operations.filterMap Operation.added) : BringsNew (performAll operations) op := by
  intro id hadded
  rw [filterMap_append] at h
  by_contra hold
  have hmem := hkeys id (isSome_iff_ne_none.2 hold)
  exact (nodup_append.1 h).2.2 id hmem id (by simp [hadded]) rfl

/-- In every run with batch ids of its own, the index is sound, the statistics are right and every
    batch was brought by the run. -/
theorem performAll_sound (h : (operations.filterMap Operation.added).Nodup) :
    IndexSound (performAll operations) ∧ Counted (performAll operations) ∧
      ∀ id, ((performAll operations).walBatches.lookup id).isSome →
        id ∈ operations.filterMap Operation.added := by
  induction operations using List.reverseRecOn with
  | nil =>
    refine ⟨fun oid id hlook => ?_, ⟨rfl, rfl, rfl⟩, fun id hsome => ?_⟩
    · cases hlook
    · cases hsome
  | append_singleton operations op ih =>
    have hfront := h.sublist ((sublist_append_left operations [op]).filterMap _)
    obtain ⟨hsound, hcount, hkeys⟩ := ih hfront
    rw [performAll_append]
    obtain ⟨hsound', hcount', -, hlookup⟩ :=
      perform_spec hsound hcount (bringsNew_of_nodup h hkeys)
    refine ⟨hsound', hcount', fun id hsome => ?_⟩
    rw [filterMap_append]
    rcases hlookup id hsome with hadded | hold
    · exact mem_append_right _ (by simp [hadded])
    · exact mem_append_left _ (hkeys id hold)

/-- In every run whose batches have ids of their own, the index and the statistics are exact in
    every state if and only if every removal takes all holders of the ids it forgets. -/
theorem idIndex_exact_iff (operations : List Operation)
    (h : (operations.filterMap Operation.added).Nodup) :
    (∀ n, IndexExact (performAll (operations.take n))) ↔
      ∀ n op, operations[n]? = some op → TakesAllHolders (performAll (operations.take n)) op := by
  have hsub : ∀ n, ((operations.take n).filterMap Operation.added).Nodup :=
    fun n => h.sublist ((take_sublist n operations).filterMap _)
  have hstep : ∀ n op, operations[n]? = some op → operations.take (n + 1) =
      operations.take n ++ [op] := by
    intro n op hop
    rw [take_add_one, hop]
    rfl
  have hnew : ∀ n op, operations[n]? = some op → BringsNew (performAll (operations.take n)) op := by
    intro n op hop
    have hnodup := hsub (n + 1)
    rw [hstep n op hop] at hnodup
    exact bringsNew_of_nodup hnodup (performAll_sound (hsub n)).2.2
  have hiff : ∀ n op, operations[n]? = some op → IndexExact (performAll (operations.take n)) →
      (IndexExact (performAll (operations.take (n + 1))) ↔
        TakesAllHolders (performAll (operations.take n)) op) := by
    intro n op hop hexact
    obtain ⟨hsound, hcount, -⟩ := performAll_sound (hsub n)
    obtain ⟨hsound', hcount', -⟩ := performAll_sound (hsub (n + 1))
    rw [indexExact_iff hsound' hcount', hstep n op hop, performAll_append]
    exact (perform_spec hsound hcount (hnew n op hop)).2.2.1
      ((indexExact_iff hsound hcount).1 hexact)
  constructor
  · intro hexact n op hop
    exact (hiff n op hop (hexact n)).1 (hexact (n + 1))
  · intro hclean n
    induction n with
    | zero =>
      obtain ⟨hsound, hcount, -⟩ := performAll_sound (hsub 0)
      refine (indexExact_iff hsound hcount).2 ?_
      rintro oid ⟨id, b, hb, -⟩
      cases hb
    | succ n ih =>
      cases hop : operations[n]? with
      | some op => exact (hiff n op hop ih).2 (hclean n op hop)
      | none =>
        -- the run is over
        rw [List.getElem?_eq_none_iff] at hop
        rw [take_of_length_le hop] at ih
        rwa [take_of_length_le (by omega)]

/-- A batch of live records with the given ids. -/
def liveBatch (batchId : String) (oids : List String) : WALVectorBatch where
  batchId := batchId
  vectorRecords := oids.map (fun oid => { oid := oid })

/-- Batches that share no id, one of them removed. -/
def disjointBatches : List Operation :=
  [.addBatch (liveBatch "b1" ["a"]), .addBatch (liveBatch "b2" ["b"]), .removeBatch "c" "b2"]

/-- The index is exact after each of the operations. -/
theorem idIndex_exact_disjointBatches : (disjointBatches.filterMap Operation.added).Nodup ∧
    ∀ n, IndexExact (performAll (disjointBatches.take n)) := by
  refine ⟨by decide, (idIndex_exact_iff disjointBatches (by decide)).2 (fun n op hop => ?_)⟩
  match n, hop with
  | 0, hop | 1, hop =>
    cases hop
    exact (perform_of_added rfl).2
  | 2, hop =>
    cases hop
    -- the index attributes only `b` to the batch, and no other batch holds it
    intro oid id hlookup hid id' hheld
    obtain ⟨held, hbatch, hnamed⟩ := hheld
    have hid' : id = "b2" := List.mem_singleton.1 hid
    have hindexed := AList.mem_lookup_iff.1 hlookup
    have hholder := AList.mem_lookup_iff.1 hbatch
    have hoid : oid = "b" := by
      rcases List.mem_pair.1 hindexed with heq | heq <;> cases heq
      · rfl
      · exact absurd hid' (by decide)
    rcases List.mem_pair.1 hholder with heq | heq <;> cases heq
    · exact List.mem_singleton_self _
    · subst hoid
      simp [namedOids, liveBatch] at hnamed
  | n + 3, hop => simp [disjointBatches] at hop

/-- Two batches with the same id, the later one removed. -/
def sharedOid : List Operation :=
  [.addBatch (liveBatch "b1" ["a"]), .addBatch (liveBatch "b2" ["a"]), .removeBatch "c" "b2"]

/-- The earlier batch still holds the id, the index has forgotten it, and an insert-only batch with
    the id is let in. -/
theorem sharedOid_forgotten :
    (sharedOid.filterMap Operation.added).Nodup ∧ Held (performAll sharedOid) "a" ∧
      (performAll sharedOid).vectorIdIndex.lookup "a" = none ∧
      ¬ ∃ message, (performAll sharedOid).addBatchInsertOnly (liveBatch "b3" ["a"]) =
        .error message := by
  refine ⟨by decide, ⟨"b1", (liveBatch "b1" ["a"], 0), by rfl, by decide⟩, by rfl, ?_⟩
  rw [addBatchInsertOnly_rejects_iff]
  decide

end ProximaDb.Memtable
