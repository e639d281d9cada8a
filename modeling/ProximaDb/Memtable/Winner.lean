/-
  ProximaDb.Memtable.Winner

  What each read surface of a partition picks for one id, as a function of the versions visited:
  all but the search take a maximum, and the first of equals.
-/
import ProximaDb.Memtable.Partition

namespace ProximaDb.Memtable

open ProximaDb.Lib ProximaDb.WriteAheadLog List CollectionPartition ScanWinner AList

/-! ## The versions of one id -/

variable {p p' : CollectionPartition}

def versionsIn (oid : String) (e : BatchEntry) : List Versioned :=
  (tagged e).filter (fun v => decide (v.1.oid = oid))

def datedIn (oid : String) (e : BatchEntry) : List Dated :=
  (dated e.2.1).filter (fun d => decide (d.1.oid = oid))

theorem visitedOf_eq_flatMap (order : List BatchEntry) (oid : String) :
    visitedOf order oid = order.flatMap (versionsIn oid) := by
  unfold visitedOf visited versionsIn
  rw [filter_flatMap]

variable {oid : String}

theorem mem_versionsIn {e : BatchEntry} {v : Versioned} :
    v ∈ versionsIn oid e ↔ v.1 ∈ e.2.1.vectorRecords ∧ v.2 = e.2.2 ∧ v.1.oid = oid := by
  obtain ⟨r, s⟩ := v
  simp only [versionsIn, tagged, mem_filter, mem_map, Prod.mk.injEq, decide_eq_true_eq]
  constructor
  · rintro ⟨⟨r', hr', rfl, rfl⟩, h⟩
    exact ⟨hr', rfl, h⟩
  · rintro ⟨hr, rfl, h⟩
    exact ⟨⟨r, hr, rfl, rfl⟩, h⟩

/-- A batch's versions of one id, as records. -/
def recordsOf (oid : String) (e : BatchEntry) : List ProximaRecord :=
  e.2.1.vectorRecords.filter (fun r => decide (r.oid = oid))

theorem versionsIn_eq_map (oid : String) (e : BatchEntry) :
    versionsIn oid e = (recordsOf oid e).map (fun r => (r, e.2.2)) := by
  unfold versionsIn recordsOf tagged
  rw [filter_map]
  rfl

theorem datedIn_eq_map (oid : String) (e : BatchEntry) :
    datedIn oid e = (recordsOf oid e).map (fun r => (r, e.2.1.timestamp)) := by
  unfold datedIn recordsOf dated
  rw [filter_map]
  rfl

theorem filter_oid_of_ne {α : Type} {oidOf : α → String} (h : oid ≠ "") (l : List α) :
    (l.filter (fun x => decide (oidOf x ≠ ""))).filter (fun x => decide (oidOf x = oid)) =
      l.filter (fun x => decide (oidOf x = oid)) := by
  rw [filter_filter]
  apply filter_congr
  intro x _
  by_cases hx : oidOf x = oid
  · simp [hx, h]
  · simp [hx]

theorem lookup_empty_oid {α ν : Type} (oidOf : α → String) (update : Option ν → α → Option ν)
    (l : List α) :
    ((l.filter (fun x => decide (oidOf x ≠ ""))).foldl (keyedStep oidOf update) ∅).lookup "" =
      none := by
  have hnil : (l.filter (fun x => decide (oidOf x ≠ ""))).filter
      (fun x => decide (oidOf x = "")) = [] := by
    rw [filter_filter, filter_eq_nil_iff]
    intro x _
    simp
  rw [lookup_foldl_keyedStep, hnil]
  rfl

theorem lookup_scanWinners_empty (order : List BatchEntry) : (scanWinners order).lookup "" = none :=
  lookup_empty_oid _ _ _

/-! ## What each surface picks -/

section Choices

variable {oid : String} (h : oid ≠ "") (order : List BatchEntry)
include h

theorem latestVersionById_eq :
    latestVersionById order oid = ((visitedOf order oid).argmax mvccKey).map Prod.fst := by
  rw [latestVersionById, if_neg h, newest_eq_argmax isNewer_iff]

theorem lookup_idToLatest :
    (idToLatest order).lookup oid = (visitedOf order oid).argmax mvccKey := by
  rw [idToLatest, lookup_foldl_keyedStep, lookup_empty, filter_oid_of_ne h]
  exact newest_eq_argmax isNewer_iff _

theorem lookup_searchFirstPass (nowNs : Int) :
    (searchFirstPass order nowNs).lookup oid = (visitedOf order oid).foldl
      (keepOrForget isNewer (fun v => isSearchTombstone v.1 nowNs)) none := by
  have hstep : searchUpdate nowNs =
      keepOrForget isNewer (fun v => isSearchTombstone v.1 nowNs) := by
    funext current v
    cases current <;> rfl
  rw [searchFirstPass, lookup_foldl_keyedStep, lookup_empty, filter_oid_of_ne h, hstep]
  rfl

theorem lookup_freshestUnflushedIndex :
    (freshestUnflushedIndex (order.map (fun e => e.2.1))).lookup oid =
      (order.flatMap (datedIn oid)).argmax datedKey := by
  rw [freshestUnflushedIndex, lookup_foldl_keyedStep, lookup_empty, filter_oid_of_ne h,
    flatMap_map, filter_flatMap]
  exact newest_eq_argmax unflushedWins_iff _

/-! ### The scan index -/

theorem lookup_scanWinners : (scanWinners order).lookup oid =
      (((order.flatMap located).filter (fun x => decide (x.1.1.oid = oid))).argmax
        (mvccKey ∘ Prod.fst)).map of := by
  rw [scanWinners, lookup_foldl_keyedStep, lookup_empty, filter_oid_of_ne h]
  -- the inlined comparison is `isNewer` on what the entry remembers of the record
  have hstep : ∀ (cur : Option Located) (x : Located),
      scanUpdate (cur.map of) x =
        (keepNewer (fun a b : Located => isNewer a.1 b.1) cur x).map of := by
    intro cur x
    cases cur with
    | none => rfl
    | some c =>
      have hcmp : scanIsNewer x.1.1 x.1.2 (of c) = isNewer x.1 c.1 := rfl
      simp only [Option.map_some, scanUpdate, keepNewer, hcmp]
      split_ifs <;> rfl
  have hnew : ∀ l : List Located,
      newest (fun a b => isNewer a.1 b.1) l = l.argmax (mvccKey ∘ Prod.fst) :=
    newest_eq_argmax (fun a b => isNewer_iff a.1 b.1)
  rw [← hnew, newest, ← foldl_hom (Option.map of) hstep]
  rfl

end Choices

/-! ## Locators -/

/-- `order` is an iteration order over the partition's batches. -/
def Visits (p : CollectionPartition) (order : List BatchEntry) : Prop :=
  order.Perm p.walBatches.entries

theorem map_fst_located (e : BatchEntry) : (located e).map Prod.fst = tagged e := by
  unfold located tagged
  rw [map_map]
  conv_rhs => rw [← zipIdx_map_fst 0 e.2.1.vectorRecords, map_map]
  rfl

variable {order : List BatchEntry}

theorem resolve_located (hv : Visits p order) {x : Located}
    (hx : x ∈ order.flatMap located) : p.resolve x.2 = some x.1.1 := by
  obtain ⟨e, he, hxe⟩ := mem_flatMap.mp hx
  obtain ⟨⟨r, i⟩, hri, rfl⟩ := mem_map.mp hxe
  have hlook : p.walBatches.lookup e.1 = some e.2 := mem_lookup_iff.mpr (hv.mem_iff.mp he)
  have hget : e.2.1.vectorRecords[i]? = some r := by
    simpa using mem_zipIdx_iff_getElem?.mp hri
  simp [resolve, hlook, hget]

theorem mem_ordered_buildScanIndex {x : (Int × String) × RecordLocator} :
    x ∈ (buildScanIndex order).ordered ↔
      ∃ w, (scanWinners order).lookup x.1.2 = some w ∧ x = ((w.updatedAtNs, x.1.2), w.locator) := by
  unfold buildScanIndex
  rw [(sortOf_sortBy _ _).perm.mem_iff, mem_map]
  constructor
  · rintro ⟨e, he, rfl⟩
    exact ⟨e.2, mem_lookup_iff.mpr he, rfl⟩
  · rintro ⟨w, hw, hx⟩
    exact ⟨⟨x.1.2, w⟩, mem_lookup_iff.mp hw, hx.symm⟩

theorem located_argmax (order : List BatchEntry) (oid : String) :
    (((order.flatMap located).filter (fun x => decide (x.1.1.oid = oid))).argmax
      (mvccKey ∘ Prod.fst)).map Prod.fst = (visitedOf order oid).argmax mvccKey := by
  rw [← argmax_map]
  congr 1
  have hmap : (order.flatMap located).map Prod.fst = visited order := by
    rw [map_flatMap]
    exact congrArg (fun f => order.flatMap f) (funext map_fst_located)
  rw [visitedOf, ← hmap, filter_map]
  rfl

theorem resolve_scanWinner (hv : Visits p order)
    (h : oid ≠ "") {w : ScanWinner} (hw : (scanWinners order).lookup oid = some w) :
    p.resolve w.locator = latestVersionById order oid ∧
      ∃ r, latestVersionById order oid = some r ∧ r.updatedAtNs = w.updatedAtNs ∧ r.oid = oid := by
  rw [lookup_scanWinners h, Option.map_eq_some_iff] at hw
  obtain ⟨x, hx, rfl⟩ := hw
  have hlatest : latestVersionById order oid = some x.1.1 := by
    rw [latestVersionById_eq h, ← located_argmax, hx]
    rfl
  have hmem := mem_filter.mp (argmax_mem hx)
  refine ⟨?_, x.1.1, hlatest, rfl, by simpa using hmem.2⟩
  rw [hlatest]
  exact resolve_located hv hmem.1

theorem resolve_ordered (hv : Visits p order) {x : (Int × String) × RecordLocator}
    (hx : x ∈ (buildScanIndex order).ordered) :
    ∃ r, p.resolve x.2 = some r ∧ x.1 = (r.updatedAtNs, r.oid) ∧ r.oid ≠ "" ∧
      latestVersionById order r.oid = some r := by
  obtain ⟨w, hw, hxw⟩ := mem_ordered_buildScanIndex.1 hx
  have hne : x.1.2 ≠ "" := by
    intro hnil
    rw [hnil, lookup_scanWinners_empty] at hw
    cases hw
  obtain ⟨hloc, r, hr, hts, hoid⟩ := resolve_scanWinner hv hne hw
  have hloc' : x.2 = w.locator := congrArg Prod.snd hxw
  have hkey : x.1 = (w.updatedAtNs, x.1.2) := congrArg Prod.fst hxw
  refine ⟨r, by rw [hloc', hloc, hr], ?_, by rw [hoid]; exact hne, by rw [hoid]; exact hr⟩
  rw [hkey, hts, hoid]

theorem exists_ordered (hv : Visits p order) (h : oid ≠ "") {r : ProximaRecord}
    (hr : latestVersionById order oid = some r) :
    ∃ x ∈ (buildScanIndex order).ordered, x.1.2 = oid ∧ p.resolve x.2 = some r := by
  have hlatest := hr
  rw [latestVersionById_eq h, ← located_argmax, Option.map_map] at hlatest
  obtain ⟨x, hx, -⟩ := Option.map_eq_some_iff.1 hlatest
  have hlook : (scanWinners order).lookup oid = some (of x) := by
    rw [lookup_scanWinners h, hx]
    rfl
  exact ⟨((x.1.1.updatedAtNs, oid), x.2), mem_ordered_buildScanIndex.2 ⟨of x, hlook, rfl⟩, rfl,
    (resolve_scanWinner hv h hlook).1.trans hr⟩

theorem indexedVersion_of_build (hv : Visits p order)
    (hidx : p.scanIndex = some (buildScanIndex order)) (h : oid ≠ "") :
    p.indexedVersion oid = latestVersionById order oid := by
  unfold indexedVersion
  rw [hidx, Option.bind_some]
  cases hf : (buildScanIndex order).ordered.find? (fun x => decide (x.1.2 = oid)) with
  | some x =>
    obtain ⟨w, hw, hxw⟩ := mem_ordered_buildScanIndex.mp (mem_of_find?_eq_some hf)
    have hoid : x.1.2 = oid := by simpa using List.find?_some hf
    rw [hoid] at hw hxw
    rw [Option.bind_some, hxw]
    exact (resolve_scanWinner hv h hw).1
  | none =>
    -- no entry for the id: it has no version at all
    cases hr : latestVersionById order oid with
    | none => rfl
    | some r =>
      obtain ⟨x, hx, hoid, -⟩ := exists_ordered hv h hr
      exact absurd (decide_eq_true hoid) (List.find?_eq_none.mp hf x hx)

/-! ## The unflushed index in every order -/

/-- The records the unflushed index may hold for an id, depending on the iteration order: the first
    freshest version of a batch that no version beats under freshness and batch time. -/
def MayPick (p : CollectionPartition) (oid : String) (u : ProximaRecord) : Prop :=
  ∃ e ∈ p.walBatches.entries, (recordsOf oid e).argmax ProximaRecord.freshKey = some u ∧
    ∀ e' ∈ p.walBatches.entries, ∀ y ∈ recordsOf oid e',
      datedKey (y, e'.2.1.timestamp) ≤ datedKey (u, e.2.1.timestamp)

theorem argmax_datedIn (oid : String) (e : BatchEntry) : (datedIn oid e).argmax datedKey =
      ((recordsOf oid e).argmax ProximaRecord.freshKey).map (fun r => (r, e.2.1.timestamp)) := by
  rw [datedIn_eq_map, argmax_map]
  congr 1
  exact argmax_congr (fun a b => by simp [datedKey, Prod.Lex.toLex_lt_toLex]) _

theorem mayPick_iff (h : oid ≠ "") {u : ProximaRecord} : MayPick p oid u ↔ ∃ order, Visits p order ∧
      ((freshestUnflushedIndex (order.map (fun e => e.2.1))).lookup oid).map Prod.fst = some u := by
  constructor
  · rintro ⟨e, he, hu, hle⟩
    -- visit `e` first: nothing later beats its candidate
    refine ⟨e :: p.walBatches.entries.erase e, (perm_cons_erase he).symm, ?_⟩
    have hmax : (datedIn oid e).argmax datedKey = some (u, e.2.1.timestamp) := by
      rw [argmax_datedIn, hu]
      rfl
    rw [lookup_freshestUnflushedIndex h, argmax_flatMap_cons hmax ?_]
    · rfl
    · intro e' he' d hd
      rw [datedIn_eq_map] at hd
      obtain ⟨y, hy, rfl⟩ := mem_map.mp hd
      exact hle e' (mem_of_mem_erase he') y hy
  · rintro ⟨order, hv, hlook⟩
    obtain ⟨d, hd, rfl⟩ := Option.map_eq_some_iff.mp hlook
    rw [lookup_freshestUnflushedIndex h] at hd
    obtain ⟨e, he, hmax⟩ := exists_argmax_of_argmax_flatMap hd
    rw [argmax_datedIn, Option.map_eq_some_iff] at hmax
    obtain ⟨x, hx, rfl⟩ := hmax
    refine ⟨e, hv.mem_iff.mp he, hx, ?_⟩
    intro e' he' y hy
    refine le_of_mem_argmax (mem_flatMap.mpr ⟨e', hv.mem_iff.mpr he', ?_⟩) hd
    rw [datedIn_eq_map]
    exact mem_map_of_mem hy

/-- The unflushed index has no entry for an id exactly if no version of it was visited. -/
theorem lookup_unflushed_eq_none_iff (h : oid ≠ "") (order : List BatchEntry) :
    (freshestUnflushedIndex (order.map (fun e => e.2.1))).lookup oid = none ↔
      latestVersionById order oid = none := by
  have hempty : ∀ e : BatchEntry, datedIn oid e = [] ↔ versionsIn oid e = [] := by
    intro e
    rw [datedIn_eq_map, versionsIn_eq_map, map_eq_nil_iff, map_eq_nil_iff]
  rw [lookup_freshestUnflushedIndex h, latestVersionById_eq h, Option.map_eq_none_iff,
    argmax_eq_none, argmax_eq_none, visitedOf_eq_flatMap, flatMap_eq_nil_iff,
    flatMap_eq_nil_iff]
  exact forall₂_congr (fun e _ => hempty e)

/-! ## Runs -/

/-- One operation on the partition.  A failed operation changes nothing. -/
inductive Step : CollectionPartition → CollectionPartition → Prop
  | add {p p' : CollectionPartition} (batch : WALVectorBatch) (insertOnly : Bool)
      (h : p.addBatchInternal batch insertOnly = .ok p') : Step p p'
  | remove {p p' : CollectionPartition} (collectionId batchId : String)
      (h : p.removeBatch collectionId batchId = .ok p') : Step p p'
  | clear (p : CollectionPartition) : Step p p.clearFlushed.1
  | markFlushed (p : CollectionPartition) : Step p p.markAllFlushed
  | scan {p : CollectionPartition} {order : List BatchEntry} (h : Visits p order) :
      Step p (p.ensureScanIndex order)

/-- The partitions a run from the empty one can reach. -/
def Reachable (p : CollectionPartition) : Prop :=
  Relation.ReflTransGen Step {} p

/-! ## The invariant -/

/-- Batch sequences are below the counter and pairwise distinct. -/
structure Sequenced (p : CollectionPartition) : Prop where
  below : ∀ e ∈ p.walBatches.entries, e.2.2 < p.nextBatchSequence
  distinct : ∀ e ∈ p.walBatches.entries, ∀ e' ∈ p.walBatches.entries, e.2.2 = e'.2.2 → e = e'

def IndexCurrent (p : CollectionPartition) : Prop :=
  ∀ index, p.scanIndex = some index → ∃ order, Visits p order ∧ index = buildScanIndex order

structure WellFormed (p : CollectionPartition) : Prop where
  sequenced : Sequenced p
  current : IndexCurrent p

theorem Sequenced.of_subset (h : Sequenced p) (hsub : p'.walBatches.entries ⊆ p.walBatches.entries)
    (hnext : p'.nextBatchSequence = p.nextBatchSequence) : Sequenced p' where
  below e he := by
    rw [hnext]
    exact h.below e (hsub he)
  distinct e he e' he' := h.distinct e (hsub he) e' (hsub he')

theorem IndexCurrent.of_none (h : p.scanIndex = none) : IndexCurrent p := by
  intro index hidx
  rw [h] at hidx
  cases hidx

/-! ## Steps keep it -/

theorem Sequenced.store (h : Sequenced p) (batch : WALVectorBatch) : Sequenced (p.store batch) := by
  have hmem : ∀ e ∈ (p.store batch).walBatches.entries,
      e = ⟨batch.batchId, (batch, p.nextBatchSequence)⟩ ∨ e ∈ p.walBatches.entries := by
    intro e he
    rw [CollectionPartition.store, entries_insert, mem_cons] at he
    exact he.imp id (fun h' => (kerase_sublist _ _).subset h')
  constructor
  · intro e he
    rcases hmem e he with rfl | he
    · exact Nat.lt_succ_self _
    · exact (h.below e he).trans (Nat.lt_succ_self _)
  · intro e he e' he' heq
    -- the new batch takes the counter's value, which no older batch has
    rcases hmem e he with rfl | he <;> rcases hmem e' he' with rfl | he'
    · rfl
    · exact absurd heq.symm (h.below e' he').ne
    · exact absurd heq (h.below e he).ne
    · exact h.distinct e he e' he' heq

theorem WellFormed.add (h : WellFormed p) {batch : WALVectorBatch} {insertOnly : Bool}
    (hadd : p.addBatchInternal batch insertOnly = .ok p') : WellFormed p' := by
  have hp' : p' = p.store batch := by
    unfold addBatchInternal at hadd
    split_ifs at hadd with hio
    · split at hadd
      · cases hadd
      · exact (Except.ok.inj hadd).symm
    · exact (Except.ok.inj hadd).symm
  subst hp'
  exact ⟨h.sequenced.store batch, IndexCurrent.of_none rfl⟩

theorem WellFormed.remove (h : WellFormed p) {collectionId batchId : String}
    (hrem : p.removeBatch collectionId batchId = .ok p') : WellFormed p' := by
  unfold removeBatch at hrem
  split at hrem
  · cases hrem
  · obtain rfl := (Except.ok.inj hrem).symm
    refine ⟨h.sequenced.of_subset ?_ rfl, IndexCurrent.of_none rfl⟩
    exact (kerase_sublist _ _).subset

theorem WellFormed.markFlushed (h : WellFormed p) : WellFormed p.markAllFlushed := by
  refine ⟨⟨?_, ?_⟩, IndexCurrent.of_none rfl⟩
  · intro e he
    obtain ⟨e₀, he₀, rfl⟩ := mem_map.mp he
    exact h.sequenced.below e₀ he₀
  · intro e he e' he' heq
    obtain ⟨e₀, he₀, rfl⟩ := mem_map.mp he
    obtain ⟨e₁, he₁, rfl⟩ := mem_map.mp he'
    rw [h.sequenced.distinct e₀ he₀ e₁ he₁ heq]

theorem WellFormed.scan (h : WellFormed p) (hv : Visits p order) :
    WellFormed (p.ensureScanIndex order) := by
  unfold ensureScanIndex
  split
  · exact h
  · refine ⟨⟨h.sequenced.below, h.sequenced.distinct⟩, ?_⟩
    intro index hidx
    exact ⟨order, hv, (Option.some.inj hidx).symm⟩

/-! ### Clearing flushed batches -/

theorem flatMap_kerase {β : Type} {f : BatchEntry → List β} {k : String} {l : List BatchEntry}
    (h : ∀ e ∈ l, e.1 = k → f e = []) : (l.kerase k).flatMap f = l.flatMap f := by
  induction l with
  | nil => simp
  | cons e l ih =>
    by_cases hk : e.1 = k
    · rw [kerase_cons_eq hk.symm, flatMap_cons, h e (by simp) hk, nil_append]
    · rw [kerase_cons_ne (Ne.symm hk), flatMap_cons, flatMap_cons,
        ih (fun e' he' => h e' (by simp [he']))]

theorem buildScanIndex_kerase {k : String} (h : ∀ e ∈ order, e.1 = k → e.2.1.vectorRecords = []) :
    buildScanIndex (order.kerase k) = buildScanIndex order := by
  have hloc : (order.kerase k).flatMap located = order.flatMap located :=
    flatMap_kerase (fun e he hk => by simp [located, h e he hk])
  have hvis : visited (order.kerase k) = visited order :=
    flatMap_kerase (fun e he hk => by simp [tagged, h e he hk])
  unfold buildScanIndex scanWinners
  rw [hloc, hvis]

/-- What holds while flushed batches are taken out one by one: the cached index stays current as
    long as no record has gone. -/
structure Clearing (acc : CollectionPartition × Nat × Nat) : Prop where
  sequenced : Sequenced acc.1
  current : acc.2.1 = 0 → IndexCurrent acc.1

theorem Clearing.clearOne {acc : CollectionPartition × Nat × Nat} (h : Clearing acc)
    (batchId : String) : Clearing (clearOne acc batchId) := by
  unfold CollectionPartition.clearOne
  cases hlook : acc.1.walBatches.lookup batchId with
  | none => exact h
  | some b =>
    refine ⟨h.sequenced.of_subset (kerase_sublist _ _).subset rfl, ?_⟩
    intro hzero index hidx
    have hsum : acc.2.1 + b.1.vectorRecords.length = 0 := hzero
    have hrec : b.1.vectorRecords = [] := length_eq_zero_iff.mp (by omega)
    obtain ⟨order, hv, rfl⟩ := h.current (by omega) index hidx
    have hnd : order.NodupKeys := (perm_nodupKeys hv).mpr acc.1.walBatches.nodupKeys
    refine ⟨order.kerase batchId, List.Perm.kerase hnd hv, ?_⟩
    symm
    apply buildScanIndex_kerase
    intro e he hk
    -- the only entry under this key is the batch found there
    have hmem : acc.1.walBatches.lookup e.1 = some e.2 := mem_lookup_iff.mpr (hv.mem_iff.mp he)
    rw [hk, hlook, Option.some.injEq] at hmem
    rw [← hmem]
    exact hrec

theorem WellFormed.clear (h : WellFormed p) : WellFormed p.clearFlushed.1 := by
  have hend : Clearing (((p.walBatches.entries.filter (fun e => e.2.1.isFlushed)).map Sigma.fst).foldl
      clearOne (p, 0, 0)) :=
    List.foldlRecOn _ clearOne ⟨h.sequenced, fun _ => h.current⟩
      (fun _ hacc id _ => hacc.clearOne id)
  refine ⟨⟨hend.sequenced.below, hend.sequenced.distinct⟩, ?_⟩
  intro index hidx
  simp only [clearFlushed] at hidx
  split_ifs at hidx with hpos
  exact hend.current (by omega) index hidx

/-! ## Runs keep it -/

theorem WellFormed.step (h : WellFormed p) (hs : Step p p') : WellFormed p' := by
  cases hs with
  | add batch insertOnly hadd => exact h.add hadd
  | remove collectionId batchId hrem => exact h.remove hrem
  | clear => exact h.clear
  | markFlushed => exact h.markFlushed
  | scan hv => exact h.scan hv

theorem Reachable.wellFormed (h : Reachable p) : WellFormed p := by
  induction h with
  | refl =>
    refine ⟨⟨?_, ?_⟩, IndexCurrent.of_none rfl⟩
    · intro e he
      cases he
    · intro e he
      cases he
  | tail _ hs ih => exact ih.step hs

end ProximaDb.Memtable
