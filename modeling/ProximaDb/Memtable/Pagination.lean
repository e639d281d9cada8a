/-
  ProximaDb.Memtable.Pagination

  Paginated scans of a partition. A page is served from the cached index or from the full scan,
  and the two give the same page for every cursor.
-/
import ProximaDb.Memtable.IdIndex
import ProximaDb.Memtable.OneWinner
import ProximaDb.Lib.Pages

namespace ProximaDb.Memtable

open ProximaDb.Lib List CollectionPartition

/-! ## The call and the loop around it -/

def recordKey (r : ProximaRecord) : ℤ ×ₗ String := pageKey (r.updatedAtNs, r.oid)

/-- `scan_collection_paginated` of a collection that has a partition. `disabled` is the kill switch
    of the index; the partition may come back with its index built. -/
def scanCollectionPaginated (disabled : Bool) (p : CollectionPartition) (order : List BatchEntry)
    (after : Option (Int × String)) (limit : Nat) (predicate : ProximaRecord → Bool)
    (nowNs clockNs : Int) : List ProximaRecord × CollectionPartition :=
  if disabled then (scanPaginatedLegacy order after limit predicate clockNs, p)
  else
    match p.scanIndex with
    | some _ => (p.serveFromIndex order after limit predicate nowNs clockNs, p)
    | none =>
      ((p.ensureScanIndex order).serveFromIndex order after limit predicate nowNs clockNs,
        p.ensureScanIndex order)

/-- Scan after scan, each from the key of the last record returned, until an empty page; `none` when
    the fuel does not last. -/
def scanPages (disabled : Bool) (order : List BatchEntry) (limit : Nat)
    (predicate : ProximaRecord → Bool) (nowNs : Int) :
    Nat → CollectionPartition → Option (Int × String) → Option (List (List ProximaRecord))
  | 0, _, _ => none
  | fuel + 1, p, after =>
    let scan := scanCollectionPaginated disabled p order after limit predicate nowNs nowNs
    match scan.1.getLast? with
    | none => some []
    | some r =>
      (scanPages disabled order limit predicate nowNs fuel scan.2
        (some (r.updatedAtNs, r.oid))).map (fun rest => scan.1 :: rest)

/-- The loop ends, and the pages together are the matching records of `get_all_vectors`, each once,
    in key order. -/
def Lossless (disabled : Bool) (p : CollectionPartition) (order : List BatchEntry) (limit : Nat)
    (predicate : ProximaRecord → Bool) (nowNs : Int) : Prop :=
  ∃ fuel pages, scanPages disabled order limit predicate nowNs fuel p none = some pages ∧
    pages.flatten.Perm ((getAllVectors order nowNs).filter predicate) ∧
    pages.flatten.Pairwise (fun a b => recordKey a ≤ recordKey b)

/-- The records a scan is to return, in key order. -/
def wanted (order : List BatchEntry) (predicate : ProximaRecord → Bool) (nowNs : Int) :
    List ProximaRecord :=
  (sortBy recordKey (getAllVectors order nowNs)).filter predicate

/-! ## The partitions scans run on -/

def NamesOnce : Operation → Prop
  | .removeBatchesExact _ batchIds => batchIds.Nodup
  | _ => True

inductive ScanStep : CollectionPartition → CollectionPartition → Prop
  | operate (p : CollectionPartition) (op : Operation) (h : NamesOnce op) : ScanStep p (perform p op)
  | scan {p : CollectionPartition} {order : List BatchEntry} (h : Visits p order) :
      ScanStep p (p.ensureScanIndex order)

def ScanReachable (p : CollectionPartition) : Prop :=
  Relation.ReflTransGen ScanStep {} p

variable {p : CollectionPartition} {p' : CollectionPartition} {ids : List String}

theorem Sequenced.retireOne (h : Sequenced p) {id : String} {n : Nat}
    (hone : p.retireOne id = some (p', n)) : Sequenced p' := by
  obtain ⟨b, -, heq⟩ := Option.map_eq_some_iff.1 hone
  cases heq
  exact h.of_subset (kerase_sublist _ _).subset rfl

/-- Batches that are all there and named once are all retired, and the cached index with them. -/
theorem WellFormed.retireAll {collectionId : String}
    {removed : Nat} (h : Sequenced p) (hnodup : ids.Nodup)
    (hpresent : ∀ id ∈ ids, (p.walBatches.lookup id).isSome) :
    WellFormed (retireAll collectionId ids p removed).1 := by
  induction ids generalizing p removed with
  | nil => exact ⟨⟨h.below, h.distinct⟩, IndexCurrent.of_none rfl⟩
  | cons id ids ih =>
    rw [CollectionPartition.retireAll]
    obtain ⟨hnew, hnodup⟩ := nodup_cons.1 hnodup
    cases hone : p.retireOne id with
    | none =>
      have hsome := hpresent id (by simp)
      unfold retireOne at hone
      rw [Option.map_eq_none_iff] at hone
      rw [hone] at hsome
      cases hsome
    | some result =>
      obtain ⟨p', n⟩ := result
      refine ih (h.retireOne hone) hnodup (fun id' hid' => ?_)
      obtain ⟨b, -, heq⟩ := Option.map_eq_some_iff.1 hone
      cases heq
      have hne : id' ≠ id := fun heq => hnew (heq ▸ hid')
      rw [AList.lookup_erase_ne hne]
      exact hpresent id' (by simp [hid'])

theorem WellFormed.removeBatchesExact (h : WellFormed p) (collectionId : String)
    (hnodup : ids.Nodup) : WellFormed (p.removeBatchesExact collectionId ids).1 := by
  unfold CollectionPartition.removeBatchesExact
  cases hfind : ids.find? (fun id => (p.walBatches.lookup id).isNone) with
  | some missing => exact h
  | none =>
    refine WellFormed.retireAll h.sequenced hnodup (fun id hid => ?_)
    have := List.find?_eq_none.1 hfind id hid
    cases hl : p.walBatches.lookup id with
    | none => simp [hl] at this
    | some b => rfl

theorem WellFormed.orSame (h : WellFormed p) {result : Except String CollectionPartition}
    (hok : ∀ p', result = .ok p' → WellFormed p') : WellFormed (orSame p result) := by
  cases result with
  | error e => exact h
  | ok p' => exact hok p' rfl

theorem WellFormed.scanStep (h : WellFormed p) (hs : ScanStep p p') : WellFormed p' := by
  cases hs with
  | scan hv => exact h.scan hv
  | operate op hop =>
    cases op with
    | addBatch batch => exact @WellFormed.orSame p h (p.addBatch batch) (fun p' hadd => h.add hadd)
    | addBatchInsertOnly batch =>
      exact @WellFormed.orSame p h (p.addBatchInsertOnly batch) (fun p' hadd => h.add hadd)
    | removeBatch collectionId id => exact h.orSame (fun p' hrem => h.remove hrem)
    | removeBatchesExact collectionId ids => exact h.removeBatchesExact collectionId hop
    | markAllFlushed => exact h.markFlushed
    | clearFlushed => exact h.clear

theorem ScanReachable.wellFormed (h : ScanReachable p) : WellFormed p := by
  induction h with
  | refl => exact Reachable.wellFormed Relation.ReflTransGen.refl
  | tail _ hs ih => exact ih.scanStep hs

/-! ## The two paths agree -/

section Agree

variable {order : List BatchEntry} {r : ProximaRecord}

theorem mem_getAllVectors (hids : withoutId order = []) {nowNs : Int} :
    r ∈ getAllVectors order nowNs ↔
      r.oid ≠ "" ∧ latestVersionById order r.oid = some r ∧ r.isExpired nowNs = false := by
  rw [getAllVectors, hids, filter_nil, append_nil, mem_filter, mem_values_idToLatest, and_assoc,
    Bool.not_eq_true']

theorem nodup_getAllVectors (hids : withoutId order = []) (nowNs : Int) :
    (getAllVectors order nowNs).Nodup := by
  rw [getAllVectors, hids, filter_nil, append_nil]
  refine List.Nodup.filter _ ?_
  refine List.Nodup.of_map (fun r => r.oid) ?_
  have hkeys : (((idToLatest order).entries.map (fun e => e.2.1)).map (fun r => r.oid)) =
      (idToLatest order).keys := by
    rw [map_map, AList.keys, List.keys]
    refine map_congr_left (fun e he => ?_)
    exact (of_mem_idToLatest he).2.2
  rw [hkeys]
  exact (idToLatest order).keys_nodup

theorem filterMap_ordered (hs : Sequenced p) {built : List BatchEntry} (hbuilt : Visits p built)
    (hv : Visits p order) (hids : withoutId order = []) (nowNs : Int) :
    ((buildScanIndex built).ordered.filterMap (fun x => p.resolve x.2)).filter
        (fun r => !r.isExpired nowNs) = sortBy recordKey (getAllVectors order nowNs) := by
  have hsame : ∀ {oid : String}, oid ≠ "" →
      latestVersionById order oid = latestVersionById built oid :=
    fun hne => latestVersionById_perm hs hv hbuilt hne
  have hmem : ∀ r, r ∈ (buildScanIndex built).ordered.filterMap (fun x => p.resolve x.2) ↔
      r.oid ≠ "" ∧ latestVersionById order r.oid = some r := by
    intro r
    rw [mem_filterMap]
    constructor
    · rintro ⟨x, hx, hres⟩
      obtain ⟨r', hr', -, hne, hlatest⟩ := resolve_ordered hbuilt hx
      rw [hres, Option.some.injEq] at hr'
      subst hr'
      exact ⟨hne, (hsame hne).trans hlatest⟩
    · rintro ⟨hne, hlatest⟩
      obtain ⟨x, hx, -, hres⟩ := exists_ordered hbuilt hne ((hsame hne).symm.trans hlatest)
      exact ⟨x, hx, hres⟩
  -- the keys of the index are sorted and belong to different ids
  have hkeys : (buildScanIndex built).ordered.Pairwise (fun x y => pageKey x.1 < pageKey y.1) := by
    have hsorted : (buildScanIndex built).ordered.Pairwise
        (fun x y => pageKey x.1 ≤ pageKey y.1) := (sortOf_sortBy _ _).sorted
    have hnodup : (buildScanIndex built).ordered.Pairwise (fun x y => x.1.2 ≠ y.1.2) := by
      have hperm : (buildScanIndex built).ordered.Perm
          ((scanWinners built).entries.map (fun e => ((e.2.updatedAtNs, e.1), e.2.locator))) :=
        (sortOf_sortBy _ _).perm
      have hids : ((buildScanIndex built).ordered.map (fun x => x.1.2)).Nodup := by
        refine (hperm.map _).nodup_iff.2 ?_
        rw [map_map]
        exact (scanWinners built).keys_nodup
      exact pairwise_map.1 hids
    refine (hsorted.and hnodup).imp (fun {x y} hxy => ?_)
    refine lt_of_le_of_ne hxy.1 (fun heq => hxy.2 ?_)
    exact congrArg (fun k => (ofLex k).2) heq
  have hstrict : ((buildScanIndex built).ordered.filterMap (fun x => p.resolve x.2)).Pairwise
      (fun a b => recordKey a < recordKey b) := by
    rw [pairwise_filterMap]
    refine hkeys.imp_of_mem (fun {x y} hx hy hlt a ha b hb => ?_)
    obtain ⟨r, hr, hkr, -, -⟩ := resolve_ordered hbuilt hx
    obtain ⟨r', hr', hkr', -, -⟩ := resolve_ordered hbuilt hy
    rw [ha, Option.some.injEq] at hr
    rw [hb, Option.some.injEq] at hr'
    subst hr hr'
    rw [hkr, hkr'] at hlt
    exact hlt
  have hsort := sortOf_sortBy recordKey (getAllVectors order nowNs)
  refine SortOf.unique ?_ ⟨?_, ?_⟩ hsort
  · intro a ha b hb heq
    have hoid : a.oid = b.oid := congrArg (fun k => (ofLex k).2) heq
    have hlatest := ((mem_getAllVectors hids).1 ha).2.1
    rw [hoid, ((mem_getAllVectors hids).1 hb).2.1, Option.some.injEq] at hlatest
    exact hlatest.symm
  · refine (perm_ext_iff_of_nodup ?_ (nodup_getAllVectors hids nowNs)).2 (fun r => ?_)
    · exact (hstrict.imp (fun h heq => absurd (heq ▸ h) (lt_irrefl _))).filter _
    · rw [mem_filter, hmem, mem_getAllVectors hids]
      simp [and_assoc]
  · exact (hstrict.imp le_of_lt).filter _

theorem serveFromIndex_eq_legacy (hs : Sequenced p) (hc : IndexCurrent p) (hv : Visits p order)
    (after : Option (Int × String)) (limit : Nat) (predicate : ProximaRecord → Bool)
    (nowNs : Int) : p.serveFromIndex order after limit predicate nowNs nowNs =
      scanPaginatedLegacy order after limit predicate nowNs := by
  unfold serveFromIndex
  cases hidx : p.scanIndex with
  | none => rfl
  | some index =>
    obtain ⟨built, hbuilt, rfl⟩ := hc index hidx
    dsimp only
    split_ifs with hempty
    · rfl
    · have hids : withoutId order = [] := by
        refine filter_eq_nil_iff.2 (fun r hr => ?_)
        obtain ⟨v, hvis, rfl⟩ := mem_map.1 hr
        have hperm : (visited order).Perm (visited built) :=
          List.Perm.flatMap_right _ (hv.trans hbuilt.symm)
        intro hoid
        exact hempty (any_eq_true.2 ⟨v, hperm.mem_iff.1 hvis, hoid⟩)
      unfold scanPaginatedLegacy
      dsimp only
      have hall : _ = sortBy (fun r : ProximaRecord => pageKey (r.updatedAtNs, r.oid))
          (getAllVectors order nowNs) := filterMap_ordered hs hbuilt hv hids nowNs
      have hcut : ((buildScanIndex built).ordered.filter (fun x => isAfter after x.1)).filterMap
          (fun x => p.resolve x.2) =
          ((buildScanIndex built).ordered.filterMap (fun x => p.resolve x.2)).filter
            (fun r => isAfter after (r.updatedAtNs, r.oid)) := by
        rw [filterMap_filter, filter_filterMap]
        refine filterMap_congr (fun x hx => ?_)
        obtain ⟨r, hr, hkey, -, -⟩ := resolve_ordered hbuilt hx
        rw [hr, hkey]
        simp [Option.filter_some]
      rw [hcut, filter_filter, filter_filter, ← hall, filter_filter, filter_filter]
      congr 1
      refine filter_congr (fun r _ => ?_)
      cases predicate r <;> cases isAfter after (r.updatedAtNs, r.oid) <;>
        cases r.isExpired nowNs <;> rfl

end Agree

/-! ## From page to page -/

section Loop

variable {order : List BatchEntry} {limit : Nat} {predicate : ProximaRecord → Bool} {nowNs : Int}

theorem scanCollectionPaginated_spec (h : WellFormed p) (hv : Visits p order) (disabled : Bool)
    (after : Option (Int × String)) :
    (scanCollectionPaginated disabled p order after limit predicate nowNs nowNs).1 =
        scanPaginatedLegacy order after limit predicate nowNs ∧
      WellFormed (scanCollectionPaginated disabled p order after limit predicate nowNs nowNs).2 ∧
      Visits (scanCollectionPaginated disabled p order after limit predicate nowNs nowNs).2
        order := by
  unfold scanCollectionPaginated
  cases disabled with
  | true => exact ⟨rfl, h, hv⟩
  | false =>
    rw [if_neg Bool.false_ne_true]
    cases hidx : p.scanIndex with
    | some index =>
      exact ⟨serveFromIndex_eq_legacy h.sequenced h.current hv _ _ _ _, h, hv⟩
    | none =>
      have hscan := h.scan hv
      have hv' : Visits (p.ensureScanIndex order) order := by
        unfold Visits
        rw [ensureScanIndex_walBatches]
        exact hv
      exact ⟨serveFromIndex_eq_legacy hscan.sequenced hscan.current hv' _ _ _ _, hscan, hv'⟩

theorem scanPaginatedLegacy_eq (after : Option (ℤ ×ₗ String)) :
    scanPaginatedLegacy order (after.map ofLex) limit predicate nowNs =
      (following recordKey (wanted order predicate nowNs) after).take limit := by
  unfold scanPaginatedLegacy following wanted
  dsimp only
  rw [filter_filter, filter_filter]
  congr 1
  refine filter_congr (fun r _ => ?_)
  rw [Bool.and_comm]
  cases after with
  | none | some => rfl

theorem scanPages_eq (h : WellFormed p) (hv : Visits p order) (disabled : Bool) (fuel : Nat)
    (after : Option (ℤ ×ₗ String)) :
    scanPages disabled order limit predicate nowNs fuel p (after.map ofLex) = readPages recordKey
        (fun c => scanPaginatedLegacy order (c.map ofLex) limit predicate nowNs) fuel after := by
  induction fuel generalizing p after with
  | zero => rfl
  | succ fuel ih =>
    obtain ⟨hpage, hwf, hvis⟩ := @scanCollectionPaginated_spec p order limit
      predicate nowNs h hv disabled (after.map ofLex)
    rw [scanPages, readPages, hpage]
    cases (scanPaginatedLegacy order (after.map ofLex) limit predicate nowNs).getLast? with
    | none => rfl
    | some r =>
      have hrest := ih hwf hvis (some (recordKey r))
      dsimp only [Option.map_some] at hrest ⊢
      rw [← hrest]
      rfl

theorem sorted_wanted : (wanted order predicate nowNs).Pairwise
    (fun a b => recordKey a ≤ recordKey b) :=
  (sortOf_sortBy _ _).sorted.filter _

theorem wanted_perm :
    (wanted order predicate nowNs).Perm ((getAllVectors order nowNs).filter predicate) :=
  (sortOf_sortBy _ _).perm.filter _

theorem lossless_iff (h : WellFormed p) (hv : Visits p order) (disabled : Bool)
    (hlimit : 1 ≤ limit) : Lossless disabled p order limit predicate nowNs ↔
      CutsBetweenKeys recordKey limit (wanted order predicate nowNs) := by
  have hfetch := fun after =>
    @scanPaginatedLegacy_eq order limit predicate nowNs after
  have hloop : ∀ fuel, scanPages disabled order limit predicate nowNs fuel p none =
      readPages recordKey (fun c => scanPaginatedLegacy order (c.map ofLex) limit predicate nowNs)
        fuel none := fun fuel => scanPages_eq h hv disabled fuel none
  have hpages : ∀ {fuel pages}, scanPages disabled order limit predicate nowNs fuel p none =
      some pages → pages.flatten.Sublist (wanted order predicate nowNs) ∧
        (pages.flatten = wanted order predicate nowNs ↔
          CutsBetweenKeys recordKey limit (wanted order predicate nowNs)) := by
    intro fuel pages hread
    rw [hloop] at hread
    have hflat := flatten_readPages hfetch sorted_wanted hlimit hread
    rwa [following_none] at hflat
  constructor
  · rintro ⟨fuel, pages, hread, hperm, -⟩
    obtain ⟨hsub, hiff⟩ := hpages hread
    exact hiff.1 (hsub.eq_of_length (hperm.trans wanted_perm.symm).length_eq)
  · intro hcuts
    obtain ⟨pages, hread⟩ := exists_readPages hfetch sorted_wanted hlimit
      (Nat.lt_succ_self (following recordKey (wanted order predicate nowNs) none).length)
    rw [← hloop] at hread
    have hall := (hpages hread).2.2 hcuts
    refine ⟨_, pages, hread, ?_, ?_⟩
    · rw [hall]
      exact wanted_perm
    · rw [hall]
      exact sorted_wanted

end Loop

/-- On every partition that operations and scans lead to, the indexed path and the full scan give
    one page for every cursor. The pages together are the wanted records exactly if no page ends
    between two records of one key. -/
theorem scanCollectionPaginated_lossless_iff (hp : ScanReachable p) (order : List BatchEntry)
    (hv : Visits p order) (limit : Nat) (hlimit : 1 ≤ limit) (predicate : ProximaRecord → Bool)
    (nowNs : Int) :
    (∀ after, (scanCollectionPaginated false p order after limit predicate nowNs nowNs).1 =
      (scanCollectionPaginated true p order after limit predicate nowNs nowNs).1) ∧
    ∀ disabled, Lossless disabled p order limit predicate nowNs ↔
      CutsBetweenKeys recordKey limit (wanted order predicate nowNs) := by
  refine ⟨fun after => ?_, fun disabled => lossless_iff hp.wellFormed hv disabled hlimit⟩
  rw [(scanCollectionPaginated_spec hp.wellFormed hv false after).1,
    (scanCollectionPaginated_spec hp.wellFormed hv true after).1]

/-- Two records without an id, written at one time. -/
def anonymousPair : CollectionPartition :=
  perform {} (.addBatch { batchId := "b1", vectorRecords := [{ oid := "" }, { oid := "" }] })

theorem scanReachable_anonymousPair : ScanReachable anonymousPair :=
  Relation.ReflTransGen.refl.tail (.operate _ _ trivial)

/-- On one page the two records are both there. -/
theorem anonymousPair_onePage : ScanReachable anonymousPair ∧
    (wanted anonymousPair.walBatches.entries (fun _ => true) 10).length = 2 ∧
      ∀ disabled, Lossless disabled anonymousPair anonymousPair.walBatches.entries 2
        (fun _ => true) 10 := by
  have hlength : (wanted anonymousPair.walBatches.entries (fun _ => true) 10).length = 2 := by rfl
  refine ⟨scanReachable_anonymousPair, hlength, fun disabled => ?_⟩
  exact ((scanCollectionPaginated_lossless_iff scanReachable_anonymousPair _ (visits_entries _) 2
    (by omega) (fun _ => true) 10).2 disabled).2 (cutsBetweenKeys_of_length_le hlength.le)

/-- With one record a page the second record is lost: `get_all_vectors` has two records, and the
    pages hold one. -/
theorem anonymousPair_secondLost : ScanReachable anonymousPair ∧
      (getAllVectors anonymousPair.walBatches.entries 10).length = 2 ∧
      (scanPages false anonymousPair.walBatches.entries 1 (fun _ => true) 10 3 anonymousPair
        none).map (fun pages => pages.flatten.length) = some 1 ∧
      ¬ Lossless false anonymousPair anonymousPair.walBatches.entries 1 (fun _ => true) 10 := by
  refine ⟨scanReachable_anonymousPair, by rfl, by rfl, ?_⟩
  rw [lossless_iff scanReachable_anonymousPair.wellFormed (visits_entries _) false (le_refl 1)]
  intro hcuts
  have hwanted : wanted anonymousPair.walBatches.entries (fun _ => true) 10 =
      [{ oid := "" }, { oid := "" }] := by rfl
  rw [hwanted] at hcuts
  exact lt_irrefl _ (hcuts 0 _ _ rfl rfl)

end ProximaDb.Memtable
