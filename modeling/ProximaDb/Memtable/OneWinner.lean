/-
  ProximaDb.Memtable.OneWinner

  Do all unflushed read surfaces pick one version per id, whatever order the batches are visited
  in? `surfacesAgree_iff` says exactly when.
-/
import ProximaDb.Memtable.Winner

namespace ProximaDb.Memtable

open ProximaDb.Lib ProximaDb.WriteAheadLog List ProximaRecord

/-! ## The property -/

def isGone (r : ProximaRecord) (nowNs : Int) : Bool :=
  r.isDeleteMarker || r.isExpired nowNs

/-- Some record of `l` has this id. -/
def Returns (oid : String) (l : List ProximaRecord) : Prop :=
  ∃ r ∈ l, r.oid = oid

/-- Every surface picks `winner` for the id in every iteration order, and a winner that is gone
    hides the id. The search drops the entry of a deleted id, so its first pass may also have none
    when the winner is gone. -/
structure OneWinner (p : CollectionPartition) (nowNs : Int) (oid : String)
    (winner : Option ProximaRecord) : Prop where
  latest : ∀ order, Visits p order → latestVersionById order oid = winner
  getAll : ∀ order, Visits p order → ((idToLatest order).lookup oid).map Prod.fst = winner
  scan : ∀ order, Visits p order → (p.ensureScanIndex order).indexedVersion oid = winner
  unflushed : ∀ order, Visits p order →
    ((freshestUnflushedIndex (order.map (fun e => e.2.1))).lookup oid).map Prod.fst = winner
  search : ∀ order, Visits p order →
    ((searchFirstPass order nowNs).lookup oid).map Prod.fst = winner ∨
      ((searchFirstPass order nowNs).lookup oid = none ∧ winner.any (isGone · nowNs) = true)
  hidden : ∀ w, winner = some w → isGone w nowNs = true → ∀ order, Visits p order →
    (∀ clockNs, nowNs ≤ clockNs → ¬ Returns oid (getAllVectors order clockNs)) ∧
    (∀ order' after limit predicate clockNs, Visits p order' → nowNs ≤ clockNs →
      ¬ Returns oid ((p.ensureScanIndex order').serveFromIndex order after limit predicate nowNs
        clockNs)) ∧
    ∀ (σ : Type) (distance : List UInt32 → σ),
      ¬ Returns oid ((searchVectors distance order nowNs).map Prod.snd)

/-- Whichever record may win a full tie by batch time, it is `w`. -/
def TiesSettled (p : CollectionPartition) (oid : String) (w : ProximaRecord) : Prop :=
  ∀ u, MayPick p oid u → u = w

/-- Every version the search would keep is followed, in its own batch, by a fresher search
    tombstone. -/
def DeletesInBatch (p : CollectionPartition) (nowNs : Int) (oid : String) : Prop :=
  ∀ e ∈ p.walBatches.entries, ∀ pre x post, recordsOf oid e = pre ++ x :: post →
    isSearchTombstone x nowNs = false →
    ∃ t ∈ post, isSearchTombstone t nowNs = true ∧ x.freshKey < t.freshKey

/-- When the surfaces agree on an id whose winner is `w`. -/
structure Agreeable (p : CollectionPartition) (nowNs : Int) (oid : String) (w : ProximaRecord) :
    Prop where
  ties : TiesSettled p oid w
  live : isGone w nowNs = false → isSearchTombstone w nowNs = false
  marker : w.isDeleteMarker = true → 0 < nowNs
  deletes : isSearchTombstone w nowNs = true → DeletesInBatch p nowNs oid

/-! ## The winner does not depend on the order -/

variable {p : CollectionPartition} {oid : String}

theorem latestVersionById_perm (hs : Sequenced p)
    {order order' : List BatchEntry} (hv : Visits p order) (hv' : Visits p order')
    (h : oid ≠ "") : latestVersionById order oid = latestVersionById order' oid := by
  rw [latestVersionById_eq h, latestVersionById_eq h, visitedOf_eq_flatMap, visitedOf_eq_flatMap]
  have hnd : order.Nodup := (List.Perm.nodup_iff hv).mpr p.walBatches.nodupKeys.nodup
  refine congrArg _ (argmax_flatMap_perm hnd (List.Perm.trans hv hv'.symm) ?_)
  intro e he e' he' a ha b hb hkey
  -- equal keys have equal sequences, and those name the batch
  have hseq : a.2 = b.2 := by
    have := congrArg (fun k => (ofLex k).2) hkey
    simpa [mvccKey] using this
  rw [(mem_versionsIn.mp ha).2.1, (mem_versionsIn.mp hb).2.1] at hseq
  exact hs.distinct e (hv.mem_iff.mp he) e' (hv.mem_iff.mp he') hseq

variable {order : List BatchEntry} {r : ProximaRecord} {clockNs : Int}

theorem oid_of_latestVersionById
    (h : oid ≠ "") (hr : latestVersionById order oid = some r) : r.oid = oid := by
  rw [latestVersionById_eq h, Option.map_eq_some_iff] at hr
  obtain ⟨v, hv, rfl⟩ := hr
  have := argmax_mem hv
  simpa [visitedOf] using (mem_filter.mp this).2

/-! ## The search -/

section Search

variable {p : CollectionPartition} {oid : String} {nowNs : Int} {v : Versioned}

/-- The first pass ends without the id exactly if every version it would keep is followed by a newer
    search tombstone. -/
theorem searchFirstPass_eq_none_iff (h : oid ≠ "") (order : List BatchEntry) :
    (searchFirstPass order nowNs).lookup oid = none ↔
      ∀ pre v post, order.flatMap (versionsIn oid) = pre ++ v :: post →
        isSearchTombstone v.1 nowNs = false →
        ∃ t ∈ post, isSearchTombstone t.1 nowNs = true ∧ mvccKey v < mvccKey t := by
  rw [lookup_searchFirstPass h order nowNs, visitedOf_eq_flatMap]
  exact foldl_keepOrForget_eq_none_iff isNewer_iff _

/-- The first pass forgets the id in every order exactly if its deletes sit in the batches they
    delete from. -/
theorem searchFirstPass_none_iff (h : oid ≠ "") :
    (∀ order, Visits p order → (searchFirstPass order nowNs).lookup oid = none) ↔
      DeletesInBatch p nowNs oid := by
  constructor
  · intro hall e he pre x post hdec hx
    -- visit `e` last: nothing after it can remove what it leaves
    have hv : Visits p (p.walBatches.entries.erase e ++ [e]) :=
      (perm_append_singleton _ _).trans (List.perm_cons_erase he).symm
    have hitems : versionsIn oid e =
        pre.map (fun r => (r, e.2.2)) ++ (x, e.2.2) :: post.map (fun r => (r, e.2.2)) := by
      rw [versionsIn_eq_map, hdec, map_append, map_cons]
    obtain ⟨t, ht, htomb, hlt⟩ := (searchFirstPass_eq_none_iff h _).mp (hall _ hv)
      ((p.walBatches.entries.erase e).flatMap (versionsIn oid) ++ pre.map (fun r => (r, e.2.2)))
      (x, e.2.2) (post.map (fun r => (r, e.2.2))) (by simp [hitems]) hx
    obtain ⟨r, hr, rfl⟩ := mem_map.mp ht
    exact ⟨r, hr, htomb, (mvccKey_lt_iff x r e.2.2).mp hlt⟩
  · intro hdel order hv
    rw [searchFirstPass_eq_none_iff h]
    intro pre v post hdec hx
    obtain ⟨E₁, e, E₂, q₁, q₂, rfl, hitems, -, rfl⟩ := flatMap_eq_append_cons hdec
    rw [versionsIn_eq_map, map_eq_append_iff] at hitems
    obtain ⟨pre', tail, hsplit, -, htail⟩ := hitems
    obtain ⟨x, post', rfl, rfl, rfl⟩ := map_eq_cons_iff.mp htail
    obtain ⟨t, ht, htomb, hlt⟩ :=
      hdel e (hv.mem_iff.mp (by simp)) pre' x post' hsplit hx
    exact ⟨(t, e.2.2), by simp [ht], htomb, (mvccKey_lt_iff x t e.2.2).mpr hlt⟩

end Search

/-! ## What the surfaces return -/

section Returned

variable {p : CollectionPartition} {oid : String} {order : List BatchEntry}
  {predicate : ProximaRecord → Bool} {after : Option (Int × String)} {limit : Nat}

theorem lookup_of_mem_entries {ν : Type} {m : KeyMap String ν} (hempty : m.lookup "" = none)
    {e : Sigma (fun _ : String => ν)} (he : e ∈ m.entries) :
    e.1 ≠ "" ∧ m.lookup e.1 = some e.2 := by
  have hlook : m.lookup e.1 = some e.2 := AList.mem_lookup_iff.mpr he
  refine ⟨?_, hlook⟩
  intro h
  rw [h, hempty] at hlook
  cases hlook

theorem not_returns_withoutId (h : oid ≠ "") (f : ProximaRecord → Bool) :
    ¬ Returns oid ((withoutId order).filter f) := by
  rintro ⟨r, hr, hoid⟩
  have hr' := (mem_filter.mp (mem_filter.mp hr).1).2
  exact h (hoid ▸ by simpa using hr')

theorem returns_append {l l' : List ProximaRecord} :
    Returns oid (l ++ l') ↔ Returns oid l ∨ Returns oid l' := by
  simp only [Returns, mem_append, or_and_right, exists_or]

theorem of_mem_idToLatest {e : Sigma (fun _ : String => Versioned)}
    (he : e ∈ (idToLatest order).entries) :
    e.1 ≠ "" ∧ latestVersionById order e.1 = some e.2.1 ∧ e.2.1.oid = e.1 := by
  obtain ⟨hne, hlook⟩ := lookup_of_mem_entries (m := idToLatest order) (lookup_empty_oid _ _ _) he
  have hw : latestVersionById order e.1 = some e.2.1 := by
    rw [latestVersionById_eq hne, ← lookup_idToLatest hne, hlook]
    rfl
  exact ⟨hne, hw, oid_of_latestVersionById hne hw⟩

theorem mem_values_idToLatest : r ∈ (idToLatest order).entries.map (fun e => e.2.1) ↔
      r.oid ≠ "" ∧ latestVersionById order r.oid = some r := by
  constructor
  · intro hr
    obtain ⟨e, he, rfl⟩ := mem_map.1 hr
    obtain ⟨hne, hw, hoid⟩ := of_mem_idToLatest he
    rw [hoid]
    exact ⟨hne, hw⟩
  · rintro ⟨hne, hw⟩
    rw [latestVersionById_eq hne, ← lookup_idToLatest hne] at hw
    obtain ⟨v, hv, hvr⟩ := Option.map_eq_some_iff.1 hw
    exact mem_map.2 ⟨⟨r.oid, v⟩, AList.mem_lookup_iff.1 hv, hvr⟩

theorem returns_getAllVectors (h : oid ≠ "") (clockNs : Int) :
    Returns oid (getAllVectors order clockNs) ↔
      ∃ w, latestVersionById order oid = some w ∧ w.isExpired clockNs = false := by
  rw [getAllVectors, returns_append, or_iff_left (not_returns_withoutId h _)]
  constructor
  · rintro ⟨r, hr, rfl⟩
    obtain ⟨hmem, hexp⟩ := mem_filter.mp hr
    exact ⟨r, (mem_values_idToLatest.1 hmem).2, by simpa using hexp⟩
  · rintro ⟨w, hw, hexp⟩
    obtain rfl := oid_of_latestVersionById h hw
    exact ⟨w, mem_filter.mpr ⟨mem_values_idToLatest.2 ⟨h, hw⟩, by simp [hexp]⟩, rfl⟩

/-- A point read finds an id exactly if a full read returns it. -/
theorem isSome_vectorById (h : oid ≠ "") (clockNs : Int) :
    (vectorById order oid clockNs).isSome ↔ Returns oid (getAllVectors order clockNs) := by
  rw [returns_getAllVectors h, vectorById]
  cases hw : latestVersionById order oid with
  | none => simp
  | some w => cases hexp : w.isExpired clockNs <;> simp [Option.filter, hexp]

theorem searchFirstPass_of_returns (h : oid ≠ "") {σ : Type} {distance : List UInt32 → σ}
    {nowNs : Int} (hr : Returns oid ((searchVectors distance order nowNs).map Prod.snd)) :
    ∃ v, (searchFirstPass order nowNs).lookup oid = some v ∧ v.1.isExpired nowNs = false := by
  simp only [searchVectors, map_map] at hr
  have hid : (Prod.snd ∘ fun r => (distance (searchValues r), r)) = id := rfl
  rw [hid, map_id, returns_append, or_iff_left (not_returns_withoutId h _)] at hr
  obtain ⟨r, hr, hoid⟩ := hr
  obtain ⟨hmem, hexp⟩ := mem_filter.mp hr
  obtain ⟨e, he, rfl⟩ := mem_map.mp hmem
  obtain ⟨hne, hlook⟩ := lookup_of_mem_entries (m := searchFirstPass order nowNs)
    (lookup_empty_oid _ _ _) he
  -- the entry's key is the id of the record in it
  have hkey : e.1 = e.2.1.oid := by
    have hfold := hlook
    rw [lookup_searchFirstPass hne] at hfold
    obtain ⟨pre, post, hdec, -, -⟩ := foldl_keepOrForget_eq_some isNewer_iff hfold
    have hmem' : e.2 ∈ visitedOf order e.1 := by simp [hdec]
    have := (mem_filter.mp hmem').2
    simpa using (of_decide_eq_true this).symm
  rw [← hkey] at hoid
  rw [← hoid]
  exact ⟨e.2, hlook, by simpa using hexp⟩

/-- A page served from a current index returns only winners, and none that has expired on the clock
    it was checked against. -/
theorem winner_of_returns_serve (hs : Sequenced p) (hc : IndexCurrent p) (h : oid ≠ "")
    (hv : Visits p order)
    {nowNs clockNs : Int}
    (hr : Returns oid (p.serveFromIndex order after limit predicate nowNs clockNs)) :
    ∃ w, latestVersionById order oid = some w ∧
      (w.isExpired nowNs = false ∨ w.isExpired clockNs = false) := by
  have hlegacy : Returns oid (scanPaginatedLegacy order after limit predicate clockNs) →
      ∃ w, latestVersionById order oid = some w ∧
        (w.isExpired nowNs = false ∨ w.isExpired clockNs = false) := by
    rintro ⟨r, hr, hoid⟩
    have hpage := (mem_filter.mp (mem_of_mem_take hr)).1
    have hall := (sortOf_sortBy _ _).perm.mem_iff.mp (mem_filter.mp hpage).1
    obtain ⟨w, hw, hexp⟩ := (returns_getAllVectors h clockNs).mp ⟨r, hall, hoid⟩
    exact ⟨w, hw, Or.inr hexp⟩
  unfold CollectionPartition.serveFromIndex at hr
  split at hr
  · exact hlegacy hr
  · rename_i index hidx
    split_ifs at hr with hempty
    · exact hlegacy hr
    · obtain ⟨built, hbuilt, rfl⟩ := hc index hidx
      obtain ⟨r, hr, hoid⟩ := hr
      obtain ⟨hmem, hexp⟩ := mem_filter.mp (mem_filter.mp (mem_of_mem_take hr)).1
      obtain ⟨x, hx, hres⟩ := mem_filterMap.mp hmem
      -- the entry resolves to the winner of its own id, so that id is the one asked for
      obtain ⟨w, hres', -, -, hw⟩ := resolve_ordered hbuilt (mem_filter.mp hx).1
      rw [hres', Option.some.injEq] at hres
      subst hres
      rw [hoid] at hw
      exact ⟨w, (latestVersionById_perm hs hv hbuilt h).trans hw, Or.inl (by simpa using hexp)⟩

end Returned

/-! ## When the surfaces agree -/

section Main

variable {p : CollectionPartition} {oid : String} {nowNs : Int}

theorem visits_entries (p : CollectionPartition) : Visits p p.walBatches.entries :=
  List.Perm.refl _

theorem ensureScanIndex_walBatches (order : List BatchEntry) :
    (p.ensureScanIndex order).walBatches = p.walBatches := by
  unfold CollectionPartition.ensureScanIndex
  split <;> rfl

variable {w : ProximaRecord}

/-- A winner that is gone has expired by any later clock, once delete markers lie in the past. -/
theorem isExpired_of_isGone (hg : isGone w nowNs = true)
    (hm : w.isDeleteMarker = true → 0 < nowNs) (hle : nowNs ≤ clockNs) :
    w.isExpired clockNs = true := by
  rw [isGone, Bool.or_eq_true] at hg
  rcases hg with hg | hg
  · have hz : w.validToNs = some 0 := of_decide_eq_true hg
    have := hm hg
    simp only [isExpired, hz, Option.any_some, decide_eq_true_eq]
    omega
  · cases hv : w.validToNs with
    | none => simp [isExpired, hv] at hg
    | some v =>
      simp only [isExpired, hv, Option.any_some, decide_eq_true_eq] at hg ⊢
      omega

theorem OneWinner.agreeable (h : oid ≠ "")
    (hone : OneWinner p nowNs oid (some w)) : Agreeable p nowNs oid w := by
  have hchoice : ∀ order, Visits p order → isSearchTombstone w nowNs = true →
      (searchFirstPass order nowNs).lookup oid = none := by
    intro order hv htomb
    rcases hone.search order hv with hsame | ⟨hnone, -⟩
    · -- the first pass cannot have kept a tombstone
      obtain ⟨v, hv', rfl⟩ := Option.map_eq_some_iff.mp hsame
      rw [lookup_searchFirstPass h] at hv'
      obtain ⟨-, -, -, hlive, -⟩ := foldl_keepOrForget_eq_some isNewer_iff hv'
      rw [hlive] at htomb
      cases htomb
    · exact hnone
  refine ⟨?_, ?_, ?_, ?_⟩
  · intro u hu
    obtain ⟨order, hv, hlook⟩ := (mayPick_iff h).mp hu
    have hsame := hone.unflushed order hv
    rw [hlook] at hsame
    exact Option.some.inj hsame
  · intro hlive
    rw [← Bool.not_eq_true]
    intro htomb
    have hnone := hchoice _ (visits_entries p) htomb
    rcases hone.search _ (visits_entries p) with hsame | ⟨-, hgone⟩
    · rw [hnone] at hsame
      cases hsame
    · rw [Option.any_some, hlive] at hgone
      cases hgone
  · intro hmark
    have hg : isGone w nowNs = true := by rw [isGone, hmark, Bool.true_or]
    have hhid := (hone.hidden w rfl hg _ (visits_entries p)).1 nowNs (le_refl _)
    rw [returns_getAllVectors h] at hhid
    by_contra hle
    refine hhid ⟨w, hone.latest _ (visits_entries p), ?_⟩
    have hz : w.validToNs = some 0 := of_decide_eq_true hmark
    simp only [isExpired, hz, Option.any_some, decide_eq_false_iff_not]
    exact hle
  · intro htomb
    exact (searchFirstPass_none_iff h).mp (fun order hv => hchoice order hv htomb)

theorem indexedVersion_eq (hw : WellFormed p) (h : oid ≠ "") (hv : Visits p order) :
    (p.ensureScanIndex order).indexedVersion oid = latestVersionById order oid := by
  have hbatches := ensureScanIndex_walBatches (p := p) order
  have hcur := (hw.scan hv).current
  -- after the lazy rebuild there is an index, and it is current
  have hsome : ∃ index, (p.ensureScanIndex order).scanIndex = some index := by
    unfold CollectionPartition.ensureScanIndex
    cases hidx : p.scanIndex with
    | some index => exact ⟨index, hidx⟩
    | none => exact ⟨_, rfl⟩
  obtain ⟨index, hindex⟩ := hsome
  obtain ⟨built, hbuilt, rfl⟩ := hcur index hindex
  rw [indexedVersion_of_build hbuilt hindex h]
  refine latestVersionById_perm hw.sequenced ?_ hv h
  unfold Visits at hbuilt ⊢
  rwa [hbatches] at hbuilt

theorem oneWinner_none (hw : WellFormed p) (h : oid ≠ "")
    (hnone : latestVersionById p.walBatches.entries oid = none) : OneWinner p nowNs oid none := by
  have hlatest : ∀ order, Visits p order → latestVersionById order oid = none := fun order hv =>
    (latestVersionById_perm hw.sequenced hv (visits_entries p) h).trans hnone
  have hnil : ∀ order, Visits p order → visitedOf order oid = [] := by
    intro order hv
    have := hlatest order hv
    rwa [latestVersionById_eq h, Option.map_eq_none_iff, argmax_eq_none] at this
  refine ⟨hlatest, ?_, ?_, ?_, ?_, ?_⟩
  · intro order hv
    rw [lookup_idToLatest h, hnil order hv]
    rfl
  · intro order hv
    rw [indexedVersion_eq hw h hv, hlatest order hv]
  · intro order hv
    rw [(lookup_unflushed_eq_none_iff h order).mpr (hlatest order hv)]
    rfl
  · intro order hv
    rw [lookup_searchFirstPass h, hnil order hv]
    exact Or.inl rfl
  · intro w hwin
    cases hwin

theorem Agreeable.oneWinner (hw : WellFormed p) (h : oid ≠ "")
    (hlat : latestVersionById p.walBatches.entries oid = some w)
    (ha : Agreeable p nowNs oid w) : OneWinner p nowNs oid (some w) := by
  have hlatest : ∀ order, Visits p order → latestVersionById order oid = some w := fun order hv =>
    (latestVersionById_perm hw.sequenced hv (visits_entries p) h).trans hlat
  have hkept : ∀ order, Visits p order → isSearchTombstone w nowNs = false →
      ((searchFirstPass order nowNs).lookup oid).map Prod.fst = some w := by
    intro order hv hlive
    have hl := hlatest order hv
    rw [latestVersionById_eq h, Option.map_eq_some_iff] at hl
    obtain ⟨v, hv', rfl⟩ := hl
    rw [lookup_searchFirstPass h, foldl_keepOrForget_of_isFirstMax isNewer_iff
      ((argmax_eq_some_iff_isFirstMax _ _ _).mp hv') hlive]
    rfl
  refine ⟨hlatest, ?_, ?_, ?_, ?_, ?_⟩
  · intro order hv
    rw [lookup_idToLatest h, ← latestVersionById_eq h, hlatest order hv]
  · intro order hv
    rw [indexedVersion_eq hw h hv, hlatest order hv]
  · intro order hv
    cases hd : (freshestUnflushedIndex (order.map (fun e => e.2.1))).lookup oid with
    | some d =>
      rw [Option.map_some, ha.ties d.1 ((mayPick_iff h).mpr ⟨order, hv, by rw [hd]; rfl⟩)]
    | none =>
      rw [lookup_unflushed_eq_none_iff h, hlatest order hv] at hd
      cases hd
  · intro order hv
    cases htomb : isSearchTombstone w nowNs with
    | false => exact Or.inl (hkept order hv htomb)
    | true =>
      refine Or.inr ⟨(searchFirstPass_none_iff h).mpr (ha.deletes htomb) order hv, ?_⟩
      cases hg : isGone w nowNs with
      | true => exact hg
      | false =>
        rw [ha.live hg] at htomb
        cases htomb
  · intro w' hw' hg order hv
    obtain rfl : w = w' := Option.some.inj hw'
    have hexp : ∀ clockNs, nowNs ≤ clockNs → w.isExpired clockNs = true := fun clockNs hle =>
      isExpired_of_isGone hg ha.marker hle
    refine ⟨?_, ?_, ?_⟩
    · intro clockNs hle
      rw [returns_getAllVectors h, hlatest order hv]
      rintro ⟨r, hr, hlive⟩
      rw [← Option.some.inj hr, hexp clockNs hle] at hlive
      cases hlive
    · intro order' after limit predicate clockNs hv' hle hret
      have hws := hw.scan hv'
      have hvis : Visits (p.ensureScanIndex order') order := by
        unfold Visits
        rw [ensureScanIndex_walBatches]
        exact hv
      obtain ⟨r, hr, hlive⟩ := winner_of_returns_serve hws.sequenced hws.current h hvis hret
      rw [hlatest order hv] at hr
      rw [← Option.some.inj hr, hexp clockNs hle, hexp nowNs (le_refl _)] at hlive
      simp at hlive
    · intro σ distance hret
      obtain ⟨v, hv', hlive⟩ := searchFirstPass_of_returns h hret
      cases htomb : isSearchTombstone w nowNs with
      | true =>
        rw [(searchFirstPass_none_iff h).mpr (ha.deletes htomb) order hv] at hv'
        cases hv'
      | false =>
        have hk := hkept order hv htomb
        rw [hv', Option.map_some, Option.some.injEq] at hk
        rw [hk, hexp nowNs (le_refl _)] at hlive
        cases hlive

end Main

def SurfacesAgree (p : CollectionPartition) (nowNs : Int) : Prop :=
  ∀ oid, oid ≠ "" → ∃ winner, OneWinner p nowNs oid winner

/-- In every reachable partition the surfaces agree exactly if, for every id, full ties are not
    decided by batch time, a live winner is no search tombstone, delete markers lie in the past, and
    deletes sit in the batches they delete from. -/
theorem surfacesAgree_iff (p : CollectionPartition) (nowNs : Int) (hp : Reachable p) :
    SurfacesAgree p nowNs ↔
      ∀ oid w, oid ≠ "" → latestVersionById p.walBatches.entries oid = some w →
        Agreeable p nowNs oid w := by
  have hw := hp.wellFormed
  constructor
  · intro hall oid w h hlat
    obtain ⟨winner, hone⟩ := hall oid h
    have hwin := hone.latest _ (visits_entries p)
    rw [hlat] at hwin
    subst hwin
    exact hone.agreeable h
  · intro hall oid h
    cases hlat : latestVersionById p.walBatches.entries oid with
    | none => exact ⟨none, oneWinner_none hw h hlat⟩
    | some w => exact ⟨some w, (hall oid w h hlat).oneWinner hw h hlat⟩

/-! ### A delete in a later batch -/

/-- A live record with a one-dimensional vector. -/
def liveA : ProximaRecord :=
  { oid := "a", recordVersion := 1, createdAtNs := 1, updatedAtNs := 1,
    embeddings := [⟨.fp32 [1]⟩] }

/-- The record is written in one batch and deleted in the next. -/
def deletedAcrossBatches : CollectionPartition :=
  (CollectionPartition.store {} { batchId := "b1", vectorRecords := [liveA], timestamp := 1 }).store
    { batchId := "b2", vectorRecords := [ProximaRecord.tombstone "a" 2], timestamp := 2 }

theorem reachable_deletedAcrossBatches : Reachable deletedAcrossBatches :=
  (Relation.ReflTransGen.refl.tail (.add _ false rfl)).tail (.add _ false rfl)

/-- The two batches of `deletedAcrossBatches`, the deleting one first. -/
def deletingFirst : List BatchEntry :=
  [⟨"b2", ({ batchId := "b2", vectorRecords := [ProximaRecord.tombstone "a" 2], timestamp := 2 }, 1)⟩,
    ⟨"b1", ({ batchId := "b1", vectorRecords := [liveA], timestamp := 1 }, 0)⟩]

/-- Visiting the deleting batch first, the search returns the deleted record. -/
theorem search_returns_deletedRecord :
    Reachable deletedAcrossBatches ∧ Visits deletedAcrossBatches deletingFirst ∧
      latestVersionById deletingFirst "a" = some (ProximaRecord.tombstone "a" 2) ∧
      searchVectors List.length deletingFirst 10 = [(1, liveA)] ∧
      ¬ SurfacesAgree deletedAcrossBatches 10 := by
  have hv : Visits deletedAcrossBatches deletingFirst := by
    have hentries : deletedAcrossBatches.walBatches.entries = deletingFirst := by decide
    exact List.Perm.of_eq hentries.symm
  refine ⟨reachable_deletedAcrossBatches, hv, by decide, by decide, ?_⟩
  intro hall
  obtain ⟨winner, hone⟩ := hall "a" (by decide)
  have hfirst : ((searchFirstPass deletingFirst 10).lookup "a").map Prod.fst = some liveA := by
    decide
  have hlatest := hone.latest deletingFirst hv
  rw [show latestVersionById deletingFirst "a" = some (tombstone "a" 2) by decide]
    at hlatest
  rcases hone.search deletingFirst hv with hsame | ⟨hnone, -⟩
  · rw [hfirst, ← hlatest] at hsame
    exact absurd hsame (by decide)
  · rw [hnone] at hfirst
    cases hfirst

/-- A record written and deleted in one batch. -/
def deletedInBatch : CollectionPartition :=
  CollectionPartition.store {}
    { batchId := "b1", vectorRecords := [liveA, ProximaRecord.tombstone "a" 2], timestamp := 1 }

theorem agreeable_deletedInBatch : Agreeable deletedInBatch 10 "a" (tombstone "a" 2) := by
  have hentry : ∀ e ∈ deletedInBatch.walBatches.entries,
      recordsOf "a" e = [liveA, tombstone "a" 2] := by decide
  refine ⟨?_, by decide, by decide, ?_⟩
  · rintro x ⟨e, he, hx, -⟩
    rw [hentry e he, show [liveA, tombstone "a" 2].argmax freshKey =
      some (tombstone "a" 2) by decide] at hx
    exact (Option.some.inj hx).symm
  · intro _ e he pre x post hdec hx
    rw [hentry e he] at hdec
    -- `x` can only be the live record, with the tombstone after it
    rcases pre with _ | ⟨y, _ | ⟨z, pre⟩⟩
    · obtain ⟨rfl, rfl⟩ := List.cons.inj hdec
      exact ⟨tombstone "a" 2, by simp, by decide, by decide⟩
    · obtain ⟨-, htail⟩ := List.cons.inj hdec
      obtain ⟨rfl, -⟩ := List.cons.inj htail
      exact absurd hx (by decide)
    · simp at hdec

theorem surfacesAgree_deletedInBatch :
    Reachable deletedInBatch ∧ SurfacesAgree deletedInBatch 10 := by
  have hp : Reachable deletedInBatch := Relation.ReflTransGen.refl.tail (.add _ false rfl)
  refine ⟨hp, (surfacesAgree_iff deletedInBatch 10 hp).mpr ?_⟩
  intro oid w hne hlat
  by_cases hoid : oid = "a"
  · subst hoid
    rw [show latestVersionById deletedInBatch.walBatches.entries "a" =
      some (tombstone "a" 2) by decide] at hlat
    exact Option.some.inj hlat ▸ agreeable_deletedInBatch
  · -- no other id has a version
    have hall : ∀ v ∈ visited deletedInBatch.walBatches.entries, v.1.oid = "a" := by decide
    have hw := oid_of_latestVersionById hne hlat
    rw [latestVersionById_eq hne, Option.map_eq_some_iff] at hlat
    obtain ⟨v, hv, rfl⟩ := hlat
    have hmem := (mem_filter.mp (argmax_mem hv)).1
    exact absurd (hw.symm.trans (hall v hmem)) hoid

end ProximaDb.Memtable
