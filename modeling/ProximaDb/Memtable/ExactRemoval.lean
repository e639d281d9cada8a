/-
  ProximaDb.Memtable.ExactRemoval

  `remove_batches_exact` against what it promises: the named batches and nothing else, or nothing
  at all. All claimed ids are looked up before the loop, but each against the partition as it was
  then, so a batch that is named twice is gone when its second turn comes.
-/
import ProximaDb.Memtable.IdIndex

namespace ProximaDb.Memtable

open ProximaDb.Lib List CollectionPartition Option AList

/-- What the batches under the ids count for together. -/
def countedUnder (p : CollectionPartition) (size : WALVectorBatch → Nat) (ids : List String) : Nat :=
  (ids.map (fun id => (p.walBatches.lookup id).elim 0 (fun b => size b.1))).sum

/-- Exactly the batches `ids` are gone, all of them were there, and every statistic is down by what
    they counted for, so that sums over the batches stay sums over the batches. -/
structure RetiredExactly (p p' : CollectionPartition) (ids : List String) (removed : Nat) :
    Prop where
  present : ∀ id ∈ ids, (p.walBatches.lookup id).isSome
  batches : Without p p' ids
  vectorCount : p'.vectorCount = p.vectorCount - countedUnder p (fun b => b.vectorRecords.length) ids
  totalSize : p'.totalSize = p.totalSize - countedUnder p (fun b => b.totalSizeBytes) ids
  batchCount : p'.batchCount = p.batchCount - ids.length
  counted : Counted p → Counted p'
  removed : removed = countedUnder p (fun b => b.vectorRecords.length) ids

variable {p p₁ p' : CollectionPartition} {id : String} {ids : List String} {records removed : Nat}

/-- One turn of the loop takes the batch it names. -/
theorem retiredExactly_retireOne (h : p.retireOne id = some (p', records)) :
    RetiredExactly p p' [id] records := by
  obtain ⟨b, hlook, heq⟩ := map_eq_some_iff.1 h
  cases heq
  refine ⟨by simp [hlook], fun id' => ?_, by simp [countedUnder, hlook],
    by simp [countedUnder, hlook], rfl, fun hc => hc.retire hlook rfl rfl rfl rfl,
    by simp [countedUnder, hlook]⟩
  rw [lookup_erase_eq]
  simp

theorem RetiredExactly.cons (h : RetiredExactly p p₁ [id] records) (hnew : id ∉ ids)
    (h' : RetiredExactly p₁ p' ids removed) :
    RetiredExactly p p' (id :: ids) (records + removed) := by
  have hsame : ∀ id' ∈ ids, p₁.walBatches.lookup id' = p.walBatches.lookup id' := by
    intro id' hid'
    have hne : id' ≠ id := fun heq => hnew (heq ▸ hid')
    rw [h.batches, if_neg (by simpa using hne)]
  have hheld : ∀ size, countedUnder p size (id :: ids) =
      countedUnder p size [id] + countedUnder p₁ size ids := by
    intro size
    have hrest : countedUnder p₁ size ids = countedUnder p size ids :=
      congrArg List.sum (map_congr_left (fun id' hid' => by rw [hsame id' hid']))
    rw [hrest]
    simp [countedUnder]
  refine ⟨fun id' hid' => ?_, fun id' => ?_, ?_, ?_, ?_, fun hc => h'.counted (h.counted hc), ?_⟩
  · rcases mem_cons.1 hid' with rfl | hid'
    · exact h.present id' (by simp)
    · exact hsame id' hid' ▸ h'.present id' hid'
  · rw [h'.batches, h.batches]
    by_cases heq : id' = id <;> simp [heq]
  · rw [h'.vectorCount, h.vectorCount, hheld, Nat.sub_sub]
  · rw [h'.totalSize, h.totalSize, hheld, Nat.sub_sub]
  · rw [h'.batchCount, h.batchCount, Nat.sub_sub, ← length_append, singleton_append]
  · rw [h.removed, h'.removed, hheld]

/-- The loop over present ids without repetition comes to its end. -/
theorem retireAll_eq_ok (collectionId : String) (hnodup : ids.Nodup)
    (hpresent : ∀ id ∈ ids, (p.walBatches.lookup id).isSome) (before : Nat) :
    ∃ removed, (retireAll collectionId ids p before).2 = .ok (before + removed) ∧
      RetiredExactly p (retireAll collectionId ids p before).1 ids removed := by
  induction ids generalizing p before with
  | nil =>
    exact ⟨0, rfl, hpresent, fun _ => by simp [retireAll], rfl, rfl, rfl, fun hc => { hc with }, rfl⟩
  | cons id ids ih =>
    obtain ⟨hnew, hnodup⟩ := nodup_cons.1 hnodup
    obtain ⟨hfirst, hrest⟩ := forall_mem_cons.1 hpresent
    obtain ⟨b, hlook⟩ := isSome_iff_exists.1 hfirst
    obtain ⟨p₁, records, hone⟩ : ∃ p₁ records, p.retireOne id = some (p₁, records) :=
      ⟨_, _, map_eq_some_iff.2 ⟨b, hlook, rfl⟩⟩
    have hfirst := retiredExactly_retireOne hone
    obtain ⟨removed, hok, hret⟩ := ih hnodup (p := p₁) (fun id' hid' => by
      have hne : id' ≠ id := fun heq => hnew (heq ▸ hid')
      rw [hfirst.batches, if_neg (by simpa using hne)]
      exact hrest id' hid') (before + records)
    simp only [retireAll, hone]
    exact ⟨records + removed, by rw [hok, Nat.add_assoc], hfirst.cons hnew hret⟩

/-- What is not there before the loop is not there after it. -/
theorem lookup_retireAll (collectionId : String) {before : Nat} (h : p.walBatches.lookup id = none) :
    (retireAll collectionId ids p before).1.walBatches.lookup id = none := by
  induction ids generalizing p before with
  | nil => exact h
  | cons id' ids ih =>
    rw [retireAll]
    cases hone : p.retireOne id' with
    | none => exact h
    | some result =>
      refine ih ?_
      rw [(retiredExactly_retireOne hone).batches, h, ite_self]

theorem lookup_retireAll_head (collectionId : String) {before : Nat}
    (h : (p.walBatches.lookup id).isSome) :
    (retireAll collectionId (id :: ids) p before).1.walBatches.lookup id = none := by
  obtain ⟨b, hlook⟩ := isSome_iff_exists.1 h
  have hone : p.retireOne id = some _ := map_eq_some_iff.2 ⟨b, hlook, rfl⟩
  rw [retireAll, hone]
  refine lookup_retireAll collectionId ?_
  rw [(retiredExactly_retireOne hone).batches, if_pos (mem_singleton_self id)]

/-- The loop comes to its end only if no id is repeated. -/
theorem nodup_of_retireAll {collectionId : String} {before removed : Nat}
    (h : (retireAll collectionId ids p before).2 = .ok removed) :
    ids.Nodup ∧ ∀ id ∈ ids, (p.walBatches.lookup id).isSome := by
  induction ids generalizing p before with
  | nil => exact ⟨nodup_nil, nofun⟩
  | cons id ids ih =>
    rw [retireAll] at h
    cases hone : p.retireOne id with
    | none =>
      rw [hone] at h
      cases h
    | some result =>
      rw [hone] at h
      obtain ⟨hnodup, hpresent⟩ := ih h
      have hfirst := retiredExactly_retireOne hone
      refine ⟨nodup_cons.2 ⟨fun hid => ?_, hnodup⟩, forall_mem_cons.2 ⟨?_, fun id' hid' => ?_⟩⟩
      · have hsome := hpresent id hid
        rw [hfirst.batches, if_pos (mem_singleton_self id)] at hsome
        cases hsome
      · exact hfirst.present id (mem_singleton_self id)
      · exact hfirst.batches.isSome (hpresent id' hid')

/-- `remove_batches_exact` takes out exactly the named batches, or fails and leaves the partition as
    it was. -/
def AllOrNothing (p : CollectionPartition) (collectionId : String) (ids : List String) : Prop :=
  (∃ removed, (p.removeBatchesExact collectionId ids).2 = .ok removed ∧
      RetiredExactly p (p.removeBatchesExact collectionId ids).1 ids removed) ∨
    ∃ message, p.removeBatchesExact collectionId ids = (p, .error message)

/-- In every state of a partition, a call is all or nothing exactly if no id is repeated or one of
    them is absent. -/
theorem removeBatchesExact_all_or_nothing (p : CollectionPartition) (collectionId : String)
    (ids : List String) : AllOrNothing p collectionId ids ↔
      ids.Nodup ∨ ∃ id ∈ ids, p.walBatches.lookup id = none := by
  unfold AllOrNothing removeBatchesExact
  cases hfind : ids.find? (fun id => (p.walBatches.lookup id).isNone) with
  | some missing =>
    have habsent : p.walBatches.lookup missing = none := by simpa using List.find?_some hfind
    exact ⟨fun _ => .inr ⟨missing, mem_of_find?_eq_some hfind, habsent⟩, fun _ => .inr ⟨_, rfl⟩⟩
  | none =>
    have hpresent : ∀ id ∈ ids, (p.walBatches.lookup id).isSome := by
      intro id hid
      simpa [isSome_iff_ne_none] using find?_eq_none.1 hfind id hid
    constructor
    · rintro (⟨removed, hok, -⟩ | ⟨message, herror⟩)
      · exact .inl (nodup_of_retireAll hok).1
      · -- the first of the named batches is gone, so that the partition is not as it was
        cases ids with
        | nil => exact .inl nodup_nil
        | cons id ids =>
          have hsame : (retireAll collectionId (id :: ids) p 0).1 = p := congrArg Prod.fst herror
          have hsome := hpresent id mem_cons_self
          have hgone : (retireAll collectionId (id :: ids) p 0).1.walBatches.lookup id = none :=
            lookup_retireAll_head collectionId hsome
          rw [hsame] at hgone
          rw [hgone] at hsome
          cases hsome
    · intro h
      have hnodup : ids.Nodup := by
        refine h.resolve_right ?_
        rintro ⟨id, hid, hnone⟩
        simpa [hnone] using hpresent id hid
      obtain ⟨removed, hok, hret⟩ := retireAll_eq_ok collectionId hnodup hpresent 0
      exact .inl ⟨removed, by rw [hok, Nat.zero_add], hret⟩

/-- The state of a partition after two batches of one record each. -/
def twoBatches : CollectionPartition := performAll (sharedOid.take 2)

/-- A batch named twice: the call fails, and the batch is gone all the same. -/
theorem batch_named_twice_removed :
    twoBatches.batchCount = 2 ∧ (twoBatches.removeBatchesExact "c" ["b1", "b1"]).1.batchCount = 1 ∧
      (twoBatches.removeBatchesExact "c" ["b1", "b1"]).2 =
        .error "claimed batch 'c:b1' disappeared during exact retirement" := by
  refine ⟨?_, ?_, ?_⟩ <;> rfl

end ProximaDb.Memtable
