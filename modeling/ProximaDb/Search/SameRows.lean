/-
  ProximaDb.Search.SameRows

  Do get-by-id and search see the same rows? `sameRows_iff` gives the exact condition, for every
  set of unflushed batches, every set of flushed versions and every time, over all the orders in
  which the two paths may meet them.
-/
import ProximaDb.Search.PerId
import ProximaDb.Memtable.OneWinner

namespace ProximaDb.Search

open ProximaDb.Lib ProximaDb.Memtable ProximaDb.WriteAheadLog List ProximaRecord Vectors Option

/-! ## The property -/

variable {oid : String} {p : CollectionPartition} {w u : ProximaRecord}
  {flushed : List ProximaRecord} {order : List BatchEntry} (unflushed : Option ProximaRecord)
  (stored : List ProximaRecord) (nowNs : Int)

def flushedOf (flushed : List ProximaRecord) (oid : String) : List ProximaRecord :=
  flushed.filter (fun r => decide (r.oid = oid))

/-- Both paths return the same version of the id, or neither returns one: whatever order they visit
    the batches in, and whatever order storage answers in. -/
def SameRows (p : CollectionPartition) (flushed : List ProximaRecord) (nowNs : Int)
    (oid : String) : Prop :=
  ∀ order order' stored others ranked, Visits p order → Visits p order' →
    stored.Perm (flushedOf flushed oid) → others.Perm flushed →
    ranked.Perm (scoredCandidates
      (freshestUnflushedIndex (order'.map (fun e => e.2.1))) nowNs) →
    ∀ r, Vectors.vector (latestVersionById order oid) stored nowNs true true = some r ↔
      ∃ hit ∈ unfilteredSearch (order'.map (fun e => e.2.1)) ranked others nowNs,
        hit.id = oid ∧ hit.record = r

/-! ## The condition -/

/-- Without unflushed versions: a freshest flushed version is live on one path exactly if it is on
    the other, and then it is the same one. -/
def StoredAgree (stored : List ProximaRecord) (nowNs : Int) : Prop :=
  ∀ f g, IsMaxOf ProximaRecord.freshKey stored f → IsMaxOf msKey stored g →
    (f.isDead nowNs = false ↔ isRecordDead g.validToNs nowNs = false) ∧
      (f.isDead nowNs = false → f = g)

/-- Behind a dead unflushed winner `w`, with `u` what the search holds in its place. -/
def StoredAgreeBehind (stored : List ProximaRecord) (nowNs : Int) (w u : ProximaRecord) : Prop :=
  ∀ f g, IsMaxOf ProximaRecord.freshKey stored f → IsMaxOf msKey stored g →
    (f.isDead nowNs = false ∧ w.updatedAtNs < f.updatedAtNs ↔
      isRecordDead u.validToNs nowNs = true ∧ nsToMs u.updatedAtNs < nsToMs g.updatedAtNs ∧
        isRecordDead g.validToNs nowNs = false) ∧
      (f.isDead nowNs = false → w.updatedAtNs < f.updatedAtNs → f = g)

def RowsAgree (p : CollectionPartition) (flushed : List ProximaRecord) (nowNs : Int)
    (oid : String) : Prop :=
  match latestVersionById p.walBatches.entries oid with
  | none => StoredAgree (flushedOf flushed oid) nowNs
  | some w =>
    if w.isDead nowNs then
      ∀ u, MayPick p oid u →
        (isRecordDead u.validToNs nowNs = false → isScorable u = false) ∧
          StoredAgreeBehind (flushedOf flushed oid) nowNs w u
    else isRecordDead w.validToNs nowNs = false ∧ isScorable w = true ∧ TiesSettled p oid w

/-! ## Reduction to one choice per source -/

theorem vector_true_true :
    vector unflushed stored nowNs true true = served unflushed stored nowNs := by
  unfold vector
  cases served unflushed stored nowNs <;> rfl

/-- The point read, from the unflushed winner and one freshest flushed version. -/
def getServed (unflushed stored : Option ProximaRecord) (nowNs : Int) : Option ProximaRecord :=
  match unflushed with
  | some w =>
    if w.isDead nowNs then
      stored.filter (fun f => !f.isDead nowNs && decide (w.updatedAtNs < f.updatedAtNs))
    else some w
  | none => stored.filter (fun f => !f.isDead nowNs)

theorem served_eq_getServed : served unflushed stored nowNs =
      getServed unflushed (stored.argmax freshKey) nowNs := by
  unfold served getServed
  rw [freshestVersion_eq_argmax]
  cases unflushed with
  | none => rfl
  | some w => cases hd : w.isDead nowNs <;> simp [hd]

/-- A possible choice among the flushed versions under a key: none if there are none, a maximum
    otherwise. -/
def Chosen {κ : Type} [LinearOrder κ] (key : ProximaRecord → κ) (stored : List ProximaRecord) :
    Option ProximaRecord → Prop
  | none => stored = []
  | some x => IsMaxOf key stored x

section Choices

variable {κ : Type} [LinearOrder κ] {key : ProximaRecord → κ} {c : Option ProximaRecord}

theorem chosen_argmax {stored l : List ProximaRecord} (hp : l.Perm stored) :
    Chosen key stored (l.argmax key) := by
  cases h : l.argmax key with
  | none =>
    rw [argmax_eq_none] at h
    subst h
    exact hp.symm.eq_nil
  | some x => exact (isMaxOf_of_argmax h).perm hp

theorem exists_perm_of_chosen {stored : List ProximaRecord}
    (hc : Chosen key stored c) : ∃ l : List ProximaRecord, l.Perm stored ∧ l.argmax key = c := by
  cases c with
  | none => exact ⟨[], (show stored = [] from hc) ▸ List.Perm.refl _, rfl⟩
  | some x =>
    refine ⟨x :: stored.erase x, (perm_cons_erase hc.1).symm, ?_⟩
    exact argmax_cons_of_isMaxOf (fun y hy => hc.2 y (mem_of_mem_erase hy))

theorem exists_perm_filter_of_chosen (hc : Chosen key (flushedOf flushed oid) c) :
    ∃ l, l.Perm flushed ∧ (flushedOf l oid).argmax key = c := by
  cases c with
  | none =>
    refine ⟨flushed, List.Perm.refl _, ?_⟩
    rw [show flushedOf flushed oid = [] from hc]
    rfl
  | some x =>
    obtain ⟨hmem, hoid⟩ := mem_filter.mp hc.1
    refine ⟨x :: flushed.erase x, (perm_cons_erase hmem).symm, ?_⟩
    rw [flushedOf, filter_cons, if_pos hoid]
    refine argmax_cons_of_isMaxOf (fun y hy => hc.2 y ?_)
    obtain ⟨hy, hyo⟩ := mem_filter.mp hy
    exact mem_filter.mpr ⟨mem_of_mem_erase hy, hyo⟩

end Choices

/-- What the unflushed index may say about an id. -/
def UnflushedChoice (p : CollectionPartition) (oid : String) (u : Option ProximaRecord) : Prop :=
  ∃ order, Visits p order ∧
    ((freshestUnflushedIndex (order.map (fun e => e.2.1))).lookup oid).map Prod.fst = u

theorem latestVersionById_entries (hs : Sequenced p) (hv : Visits p order)
    (oid : String) : latestVersionById order oid = latestVersionById p.walBatches.entries oid := by
  by_cases h : oid = ""
  · simp [latestVersionById, h]
  · exact latestVersionById_perm hs hv (visits_entries p) h

theorem lookup_unflushed_none_iff (hs : Sequenced p) (hv : Visits p order) (oid : String) :
    (freshestUnflushedIndex (order.map (fun e => e.2.1))).lookup oid = none ↔
      latestVersionById p.walBatches.entries oid = none := by
  rw [← latestVersionById_entries hs hv]
  by_cases h : oid = ""
  · subst h
    exact iff_of_true (lookup_empty_oid (fun d : Dated => d.1.oid) _ _) rfl
  · exact lookup_unflushed_eq_none_iff h order

theorem unflushedChoice_none (hs : Sequenced p)
    (hw : latestVersionById p.walBatches.entries oid = none) (u : Option ProximaRecord) :
    UnflushedChoice p oid u ↔ u = none := by
  have hnone : ∀ order, Visits p order →
      (freshestUnflushedIndex (order.map (fun e => e.2.1))).lookup oid = none :=
    fun order hv => (lookup_unflushed_none_iff hs hv oid).mpr hw
  constructor
  · rintro ⟨order, hv, rfl⟩
    rw [hnone order hv]
    rfl
  · rintro rfl
    refine ⟨_, visits_entries p, ?_⟩
    rw [hnone _ (visits_entries p)]
    rfl

theorem unflushedChoice_some (hs : Sequenced p) (h : oid ≠ "")
    (hw : latestVersionById p.walBatches.entries oid = some w) (u : Option ProximaRecord) :
    UnflushedChoice p oid u ↔ ∃ r, u = some r ∧ MayPick p oid r := by
  constructor
  · rintro ⟨order, hv, rfl⟩
    cases hl : (freshestUnflushedIndex (order.map (fun e => e.2.1))).lookup oid with
    | none =>
      rw [lookup_unflushed_none_iff hs hv, hw] at hl
      cases hl
    | some d => exact ⟨d.1, rfl, (mayPick_iff h).mpr ⟨order, hv, by rw [hl]; rfl⟩⟩
  · rintro ⟨r, rfl, hr⟩
    exact (mayPick_iff h).mp hr

theorem sameRows_iff_choices (hs : Sequenced p) (flushed : List ProximaRecord) (nowNs : Int)
    (oid : String) : SameRows p flushed nowNs oid ↔
      ∀ u, UnflushedChoice p oid u → ∀ f g,
        Chosen freshKey (flushedOf flushed oid) f →
        Chosen msKey (flushedOf flushed oid) g →
        getServed (latestVersionById p.walBatches.entries oid) f nowNs =
          searchServed u g nowNs := by
  have hlatest : ∀ order, Visits p order →
      latestVersionById order oid = latestVersionById p.walBatches.entries oid :=
    fun order hv => latestVersionById_entries hs hv oid
  constructor
  · rintro hsame u ⟨order', hv', rfl⟩ f g hf hg
    obtain ⟨stored, hstored, rfl⟩ := exists_perm_of_chosen hf
    obtain ⟨others, hothers, rfl⟩ := exists_perm_filter_of_chosen hg
    have hall := hsame p.walBatches.entries order' stored others _ (visits_entries p) hv' hstored
      hothers (List.Perm.refl _)
    ext r
    rw [← served_eq_getServed, ← vector_true_true]
    exact (hall r).trans (returned_iff (List.Perm.refl _) oid r)
  · intro hall order order' stored others ranked hv hv' hstored hothers hranked r
    rw [returned_iff hranked, vector_true_true, served_eq_getServed, hlatest order hv]
    rw [hall _ ⟨order', hv', rfl⟩ _ _ (chosen_argmax hstored) (chosen_argmax (hothers.filter _))]

/-! ## The cases -/

section Cases

variable {stored : List ProximaRecord} {nowNs : Int}

/-- Two choices from one list: both fail on the empty list, otherwise both succeed. -/
theorem chosen_both {κ κ' : Type} [LinearOrder κ] [LinearOrder κ'] {key : ProximaRecord → κ}
    {key' : ProximaRecord → κ'} {f g : Option ProximaRecord} (hf : Chosen key stored f)
    (hg : Chosen key' stored g) : f = none ∧ g = none ∨
      ∃ x y, f = some x ∧ g = some y ∧ IsMaxOf key stored x ∧ IsMaxOf key' stored y := by
  cases f with
  | none =>
    cases g with
    | none => exact Or.inl ⟨rfl, rfl⟩
    | some y => exact absurd hg.1 (by rw [show stored = [] from hf]; simp)
  | some x =>
    cases g with
    | none => exact absurd hf.1 (by rw [show stored = [] from hg]; simp)
    | some y => exact Or.inr ⟨x, y, rfl, rfl, hf, hg⟩

/-- Two one-element filters agree exactly if their tests do and what passes is the same. -/
theorem filter_some_eq_iff {α : Type} {x y : α} {b c : α → Bool} :
    (some x).filter b = (some y).filter c ↔ (b x = true ↔ c y = true) ∧ (b x = true → x = y) := by
  cases hb : b x <;> cases hc : c y <;> simp [filter_some, hb, hc]

theorem getServed_none (f : Option ProximaRecord) :
    getServed none f nowNs = f.filter (fun f => !f.isDead nowNs) := rfl

theorem getServed_dead (hw : w.isDead nowNs = true) (f : Option ProximaRecord) :
    getServed (some w) f nowNs =
      f.filter (fun f => !f.isDead nowNs && decide (w.updatedAtNs < f.updatedAtNs)) := by
  simp [getServed, hw]

theorem searchServed_none (g : Option ProximaRecord) :
    searchServed none g nowNs = g.filter (fun g => !isRecordDead g.validToNs nowNs) := rfl

theorem searchServed_dead (hu : isRecordDead u.validToNs nowNs = true) (g : Option ProximaRecord) :
    searchServed (some u) g nowNs = g.filter (fun g =>
      decide (nsToMs u.updatedAtNs < nsToMs g.updatedAtNs) &&
        !isRecordDead g.validToNs nowNs) := by
  simp [searchServed, hu]

theorem searchServed_live (hu : isRecordDead u.validToNs nowNs = false) (g : Option ProximaRecord) :
    searchServed (some u) g nowNs = if isScorable u then some u else none := by
  simp [searchServed, hu]

theorem chosen_filter_iff {b c : ProximaRecord → Bool} :
    (∀ f g, Chosen freshKey stored f → Chosen msKey stored g → f.filter b = g.filter c) ↔
      ∀ f g, IsMaxOf freshKey stored f → IsMaxOf msKey stored g →
        (b f = true ↔ c g = true) ∧ (b f = true → f = g) := by
  constructor
  · intro hall f g hf hg
    exact filter_some_eq_iff.mp (hall (some f) (some g) hf hg)
  · intro hagree f g hf hg
    rcases chosen_both hf hg with ⟨rfl, rfl⟩ | ⟨x, y, rfl, rfl, hx, hy⟩
    · rfl
    · exact filter_some_eq_iff.mpr (hagree x y hx hy)

theorem storedAgreeBehind_iff (hw : w.isDead nowNs = true) (hu : u.updatedAtNs = w.updatedAtNs) :
    (∀ f g, Chosen freshKey stored f → Chosen msKey stored g →
      getServed (some w) f nowNs = searchServed (some u) g nowNs) ↔
      (isRecordDead u.validToNs nowNs = false → isScorable u = false) ∧
        StoredAgreeBehind stored nowNs w u := by
  simp only [getServed_dead hw]
  cases hdead : isRecordDead u.validToNs nowNs with
  | true =>
    simp only [searchServed_dead hdead, chosen_filter_iff]
    simp [StoredAgreeBehind, hdead]
  | false =>
    simp only [searchServed_live hdead]
    constructor
    · intro hall
      -- the point read cannot return `u`: it is no newer than the winner
      have hsc : isScorable u = false := by
        rw [← Bool.not_eq_true]
        intro hsc
        have hone := hall _ _ (chosen_argmax (List.Perm.refl stored))
          (chosen_argmax (List.Perm.refl stored))
        rw [if_pos hsc, filter_eq_some_iff] at hone
        have hlt : w.updatedAtNs < u.updatedAtNs := by simpa using (Bool.and_eq_true_iff.mp hone.2).2
        omega
      refine ⟨fun _ => hsc, fun f g hf hg => ?_⟩
      have hone := hall (some f) (some g) hf hg
      rw [hsc, if_neg Bool.false_ne_true, filter_eq_none_iff] at hone
      have hno : ¬ (f.isDead nowNs = false ∧ w.updatedAtNs < f.updatedAtNs) := by
        simpa using hone f rfl
      refine ⟨⟨fun h => absurd h hno, fun h => ?_⟩, fun h h' => absurd ⟨h, h'⟩ hno⟩
      rw [hdead] at h
      cases h.1
    · rintro ⟨hsc, hagree⟩ f g hf hg
      rw [hsc trivial, if_neg Bool.false_ne_true]
      rcases chosen_both hf hg with ⟨rfl, rfl⟩ | ⟨x, y, rfl, rfl, hx, hy⟩
      · rfl
      · have hno : ¬ (x.isDead nowNs = false ∧ w.updatedAtNs < x.updatedAtNs) := by
          intro h
          have := ((hagree x y hx hy).1.mp h).1
          rw [hdead] at this
          cases this
        rw [filter_eq_none_iff]
        intro a ha
        rw [← some.inj ha]
        simpa using hno

end Cases

theorem updatedAtNs_of_mayPick (h : oid ≠ "")
    (hw : latestVersionById p.walBatches.entries oid = some w) (hu : MayPick p oid u) :
    u.updatedAtNs = w.updatedAtNs := by
  rw [latestVersionById_eq h, map_eq_some_iff] at hw
  obtain ⟨v, hv, rfl⟩ := hw
  obtain ⟨e, he, hmax, hle⟩ := hu
  -- both are freshest among all versions of the id
  have hvm := argmax_mem hv
  rw [visitedOf_eq_flatMap, mem_flatMap] at hvm
  obtain ⟨e', he', hve⟩ := hvm
  have hv1 : v.1 ∈ recordsOf oid e' := by
    rw [versionsIn_eq_map] at hve
    obtain ⟨r, hr, rfl⟩ := mem_map.mp hve
    exact hr
  have hvu : v.1.freshKey ≤ u.freshKey := by
    have := hle e' he' v.1 hv1
    rcases Prod.Lex.le_iff.mp this with hlt | heq
    · exact le_of_lt hlt
    · exact le_of_eq heq.1
  have huv : u.freshKey ≤ v.1.freshKey := by
    have hmem : (u, e.2.2) ∈ visitedOf p.walBatches.entries oid := by
      rw [visitedOf_eq_flatMap, mem_flatMap]
      refine ⟨e, he, ?_⟩
      rw [versionsIn_eq_map]
      exact mem_map_of_mem (argmax_mem hmax)
    have := le_of_mem_argmax hmem hv
    rcases Prod.Lex.le_iff.mp this with hlt | heq
    · exact le_of_lt hlt
    · exact le_of_eq heq.1
  exact congrArg (fun k => (ofLex k).1) (le_antisymm huv hvu)

/-- With a live unflushed winner, the search must hold that very version, live and scorable. -/
theorem live_iff {nowNs : Int} (h : oid ≠ "")
    (hw : latestVersionById p.walBatches.entries oid = some w) (hlive : w.isDead nowNs = false) :
    (∀ u r, u = some r → MayPick p oid r → ∀ f g,
      Chosen freshKey (flushedOf flushed oid) f →
      Chosen msKey (flushedOf flushed oid) g →
      getServed (some w) f nowNs = searchServed u g nowNs) ↔
      isRecordDead w.validToNs nowNs = false ∧ isScorable w = true ∧ TiesSettled p oid w := by
  have hget : ∀ f, getServed (some w) f nowNs = some w := by simp [getServed, hlive]
  simp only [hget]
  constructor
  · intro hall
    have hsame : ∀ u, MayPick p oid u →
        u = w ∧ isRecordDead w.validToNs nowNs = false ∧ isScorable w = true := by
      intro u hu
      have hone := hall (some u) u rfl hu _ _ (chosen_argmax (List.Perm.refl _))
        (chosen_argmax (List.Perm.refl _))
      cases hdead : isRecordDead u.validToNs nowNs with
      | true =>
        -- a flushed copy of the winner is not newer than the winner
        rw [searchServed_dead hdead, eq_comm, filter_eq_some_iff,
          updatedAtNs_of_mayPick h hw hu] at hone
        simp at hone
      | false =>
        rw [searchServed_live hdead] at hone
        split_ifs at hone with hsc
        obtain rfl := some.inj hone
        exact ⟨rfl, hdead, hsc⟩
    obtain ⟨u, hu⟩ : ∃ u, MayPick p oid u := by
      cases hl : (freshestUnflushedIndex (p.walBatches.entries.map (fun e => e.2.1))).lookup oid with
      | none =>
        rw [lookup_unflushed_eq_none_iff h, hw] at hl
        cases hl
      | some d => exact ⟨d.1, (mayPick_iff h).mpr ⟨_, visits_entries p, by rw [hl]; rfl⟩⟩
    exact ⟨(hsame u hu).2.1, (hsame u hu).2.2, fun u hu => (hsame u hu).1⟩
  · rintro ⟨hdead, hsc, hties⟩ _ u rfl hu f g - -
    rw [hties u hu, searchServed_live hdead, if_pos hsc]

/-- Get-by-id and search return the same version of an id, whatever order they meet the batches and
    the flushed versions in, exactly under `RowsAgree`. -/
theorem sameRows_iff (p : CollectionPartition) (flushed : List ProximaRecord) (nowNs : Int)
    (oid : String) (hs : Sequenced p) :
    SameRows p flushed nowNs oid ↔ RowsAgree p flushed nowNs oid := by
  rw [sameRows_iff_choices hs, RowsAgree]
  cases hw : latestVersionById p.walBatches.entries oid with
  | none =>
    simp only [unflushedChoice_none hs hw, forall_eq]
    simp only [getServed_none, searchServed_none, chosen_filter_iff]
    simp [StoredAgree]
  | some w =>
    have h : oid ≠ "" := by
      rintro rfl
      simp [latestVersionById] at hw
    simp only [unflushedChoice_some hs h hw, forall_exists_index, and_imp]
    cases hdead : w.isDead nowNs with
    | true =>
      rw [if_pos rfl]
      constructor
      · intro hall u hu
        exact (storedAgreeBehind_iff hdead (updatedAtNs_of_mayPick h hw hu)).mp
          (hall (some u) u rfl hu)
      · rintro hall _ u rfl hu
        exact (storedAgreeBehind_iff hdead (updatedAtNs_of_mayPick h hw hu)).mpr (hall u hu)
    | false =>
      rw [if_neg Bool.false_ne_true]
      exact live_iff h hw hdead

/-! ### Delete and re-insert within one millisecond -/

/-- The write buffer after a flush that kept only a tombstone. -/
def retainedTombstone : CollectionPartition :=
  CollectionPartition.store {}
    { batchId := "b1", vectorRecords := [ProximaRecord.tombstone "a" 1000001], timestamp := 1 }

def reinsertedAt (updatedAtNs : Int) : ProximaRecord :=
  { oid := "a", recordVersion := 1, createdAtNs := updatedAtNs, updatedAtNs,
    embeddings := [⟨.fp32 [1]⟩] }

theorem sequenced_retainedTombstone : Sequenced retainedTombstone :=
  Sequenced.store ⟨fun _ he => absurd he (by simp), fun _ he => absurd he (by simp)⟩ _

/-- Re-inserted one nanosecond after the delete, the record is served by id but not found by a
    search. -/
theorem search_misses_reinsertedRecord :
    Vectors.vector (latestVersionById retainedTombstone.walBatches.entries "a")
        [reinsertedAt 1000002] 5000000 true true = some (reinsertedAt 1000002) ∧
      unfilteredSearch (retainedTombstone.walBatches.entries.map (fun e => e.2.1)) []
        [reinsertedAt 1000002] 5000000 = [] ∧
      ¬ SameRows retainedTombstone [reinsertedAt 1000002] 5000000 "a" := by
  have hget : vector (latestVersionById retainedTombstone.walBatches.entries "a")
      [reinsertedAt 1000002] 5000000 true true = some (reinsertedAt 1000002) := by decide
  have hsearch : unfilteredSearch (retainedTombstone.walBatches.entries.map (fun e => e.2.1)) []
      [reinsertedAt 1000002] 5000000 = [] := by decide
  refine ⟨hget, hsearch, fun hsame => ?_⟩
  have hscored : scoredCandidates (freshestUnflushedIndex
      (retainedTombstone.walBatches.entries.map (fun e => e.2.1))) 5000000 = [] := by decide
  have hall := hsame _ _ [reinsertedAt 1000002] [reinsertedAt 1000002] []
    (visits_entries _) (visits_entries _) (List.Perm.refl _) (List.Perm.refl _)
    (hscored ▸ List.Perm.refl _) (reinsertedAt 1000002)
  obtain ⟨hit, hmem, -⟩ := hall.mp hget
  rw [hsearch] at hmem
  cases hmem

/-- Re-inserted in a later millisecond, it is seen by both. -/
theorem sameRows_reinsertedLater :
    SameRows retainedTombstone [reinsertedAt 3000000] 5000000 "a" := by
  rw [sameRows_iff _ _ _ _ sequenced_retainedTombstone, RowsAgree,
    show latestVersionById retainedTombstone.walBatches.entries "a" =
      some (tombstone "a" 1000001) by decide]
  have hpick : ∀ u, MayPick retainedTombstone "a" u → u = tombstone "a" 1000001 := by
    rintro u ⟨e, he, hu, -⟩
    have hentry : ∀ e ∈ retainedTombstone.walBatches.entries,
        recordsOf "a" e = [tombstone "a" 1000001] := by decide
    rw [hentry e he] at hu
    exact (some.inj hu).symm
  have hstored : flushedOf [reinsertedAt 3000000] "a" = [reinsertedAt 3000000] := by decide
  simp only
  rw [if_pos (by decide)]
  intro u hu
  rw [hpick u hu, hstored]
  refine ⟨by decide, fun f g hf hg => ?_⟩
  rw [mem_singleton.mp hf.1, mem_singleton.mp hg.1]
  exact ⟨by decide, fun _ _ => rfl⟩

end ProximaDb.Search
