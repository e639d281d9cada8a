/-
  ProximaDb.Mvcc.Stages

  Compacting in stages against compacting at once.

  A compaction keeps one version per id and forgets the chain below it, while the next compaction
  again demands a chain that starts at version 1.
-/
import ProximaDb.Mvcc.Agreement

namespace ProximaDb.Mvcc

open ProximaDb.Lib List

variable {nowNs : Int} {a b m : List ProximaRecord} {s t : ProximaRecord} {A B : List ProximaRecord}

/-! ## Statements -/

/-- Compacting `A` first and then its result together with `B` leaves the same records per versioned
    id as compacting `A ++ B`. -/
def StagedAgrees (nowNs : Int) (A B : List ProximaRecord) : Prop :=
  ∀ mid staged atOnce, Resolves nowNs A mid → Resolves nowNs (mid ++ B) staged →
    Resolves nowNs (A ++ B) atOnce → ∀ oid, isAppendOnlyOid oid = false →
      versionsOf oid staged = versionsOf oid atOnce

/-- A second compaction of a compaction's output changes no versioned id. -/
def CompactionIdempotent (nowNs : Int) (A : List ProximaRecord) : Prop :=
  ∀ once twice, Resolves nowNs A once → Resolves nowNs once twice →
    ∀ oid, isAppendOnlyOid oid = false → versionsOf oid twice = versionsOf oid once

/-- The condition on one id's versions `a` (first stage) and `b` (second stage). If something
    survives at once, it is the only survivor, the chain below it is held by `b` apart from the
    version the first stage keeps, and it is itself that version or a record of `b`; if nothing
    does, `b` alone restarts no chain. -/
structure StagedSafe (nowNs : Int) (a b : List ProximaRecord) : Prop where
  survivor : ∀ s, Survivor nowNs timeStamp (a ++ b) s →
    (∀ t, Survivor nowNs timeStamp (a ++ b) t → t = s) ∧
    ∀ kept, ChainTop (versionSet a) kept →
      (∀ i, 1 ≤ i → i ≤ effectiveVersion s → i ∈ versionSet b ∨ i = kept) ∧
      (effectiveVersion s = kept ∨ s ∈ b)
  none : (∀ s, ¬ Survivor nowNs timeStamp (a ++ b) s) →
    (∃ r ∈ b, r.isExpired nowNs = true) ∨ 1 ∉ versionSet b

/-! ## One id through a first stage -/

@[simp] theorem versionSet_singleton (r : ProximaRecord) :
    versionSet [r] = {effectiveVersion r} := by
  ext v
  simp [versionSet, eq_comm]

theorem Outcome.mem {κ : Type} [LinearOrder κ] {stamp : ProximaRecord → κ}
    (h : Outcome nowNs stamp a m) {r : ProximaRecord} (hr : r ∈ m) : Survivor nowNs stamp a r := by
  cases h with
  | kept hs => rw [mem_singleton.mp hr]; exact hs
  | dropped _ => cases hr

theorem Outcome.kept_of_one_mem {κ : Type} [LinearOrder κ] {stamp : ProximaRecord → κ}
    (h : Outcome nowNs stamp a m) (hexp : ∀ r ∈ a, r.isExpired nowNs = false)
    (h1 : 1 ∈ versionSet a) : ∃ r, m = [r] ∧ Survivor nowNs stamp a r := by
  cases h with
  | kept hs => exact ⟨_, rfl, hs⟩
  | dropped hnone =>
    obtain ⟨s, hs⟩ := exists_survivor stamp hexp h1
    exact absurd hs (hnone s)

theorem versionSet_stage_subset (h : Outcome nowNs timeStamp a m) :
    versionSet (m ++ b) ⊆ versionSet (a ++ b) := by
  rintro v ⟨r, hr, rfl⟩
  rcases mem_append.mp hr with hr | hr
  · exact ⟨r, mem_append_left _ (h.mem hr).mem, rfl⟩
  · exact ⟨r, mem_append_right _ hr, rfl⟩

/-! ## Two stages of one id -/

/-- A version up to the survivor's is in `b` or is the one the first stage kept. -/
theorem StagedSafe.mem_stage (h : StagedSafe nowNs a b) (hm : Outcome nowNs timeStamp a m)
    (hs : Survivor nowNs timeStamp (a ++ b) s) : ∀ i, 1 ≤ i → i ≤ effectiveVersion s →
      i ∈ versionSet (m ++ b) := by
  intro i h1 hi
  obtain ⟨kept, hkept⟩ := exists_top a
  rw [versionSet_append]
  rcases ((h.survivor s hs).2 kept hkept).1 i h1 hi with hb | rfl
  · exact Or.inr hb
  · obtain ⟨r, rfl, hr⟩ := hm.kept_of_one_mem
      (fun r hr => hs.unexpired r (mem_append_left _ hr)) (hkept.one_mem h1)
    exact Or.inl ⟨r, mem_singleton_self r, hr.top.unique hkept⟩

theorem StagedSafe.survivor_stage (h : StagedSafe nowNs a b) (hm : Outcome nowNs timeStamp a m)
    (hs : Survivor nowNs timeStamp (a ++ b) s) (ht : Survivor nowNs timeStamp (m ++ b) t) :
    t = s := by
  obtain ⟨kept, hkept⟩ := exists_top a
  obtain ⟨huniq, hrest⟩ := h.survivor s hs
  obtain ⟨-, hlast⟩ := hrest kept hkept
  have htop : ChainTop (versionSet (m ++ b)) (effectiveVersion s) :=
    ⟨h.mem_stage hm hs, fun hmem => hs.top.2 (versionSet_stage_subset hm hmem)⟩
  have hver : effectiveVersion t = effectiveVersion s := ht.top.unique htop
  apply huniq t
  refine ⟨hs.unexpired, ?_, hver ▸ hs.top, ?_⟩
  · rcases mem_append.mp ht.mem with hmem | hmem
    · exact mem_append_left _ (hm.mem hmem).mem
    · exact mem_append_right _ hmem
  · intro r hr hrt
    rcases mem_append.mp hr with hra | hrb
    · rcases hlast with hsk | hsb
      · -- the first stage kept an earliest copy of this version
        obtain ⟨r', rfl, hr'⟩ := hm.kept_of_one_mem
          (fun r hr => hs.unexpired r (mem_append_left _ hr))
          (hkept.one_mem (hsk ▸ one_le_effectiveVersion s))
        have hr'v : effectiveVersion r' = effectiveVersion t :=
          (hr'.top.unique hkept).trans (hsk.symm.trans hver.symm)
        calc timeStamp t ≤ timeStamp r' := ht.earliest r' (by simp) hr'v
          _ ≤ timeStamp r := hr'.earliest r hra (hrt.trans hr'v.symm)
      · calc timeStamp t ≤ timeStamp s := ht.earliest s (mem_append_right _ hsb) hver.symm
          _ ≤ timeStamp r := hs.earliest r hr (hrt.trans hver)
    · exact ht.earliest r (mem_append_right _ hrb) hrt

theorem StagedSafe.stage_eq (h : StagedSafe nowNs a b) {staged atOnce : List ProximaRecord}
    (hm : Outcome nowNs timeStamp a m) (hst : Outcome nowNs timeStamp (m ++ b) staged)
    (hat : Outcome nowNs timeStamp (a ++ b) atOnce) : staged = atOnce := by
  cases hat with
  | @kept s hs =>
    cases hst with
    | kept ht => rw [h.survivor_stage hm hs ht]
    | dropped hnone =>
      exfalso
      have hexpA : ∀ r ∈ a, r.isExpired nowNs = false :=
        fun r hr => hs.unexpired r (mem_append_left _ hr)
      have hexp : ∀ r ∈ m ++ b, r.isExpired nowNs = false := forall_mem_append.mpr
        ⟨fun r hr => hexpA r (hm.mem hr).mem, fun r hr => hs.unexpired r (mem_append_right _ hr)⟩
      obtain ⟨t, ht⟩ := exists_survivor timeStamp hexp
        (h.mem_stage hm hs 1 le_rfl (one_le_effectiveVersion s))
      exact hnone t ht
  | dropped hnone =>
    cases hst with
    | dropped _ => rfl
    | @kept t ht =>
      exfalso
      rcases h.none hnone with ⟨r, hr, hexp⟩ | hb
      · rw [ht.unexpired r (mem_append_right _ hr)] at hexp
        cases hexp
      · have h1 := ht.one_mem
        rw [versionSet_append] at h1
        rcases h1 with ⟨r, hr, hr1⟩ | h1
        · -- the first stage kept version 1, so the chain also starts at once
          have hra := hm.mem hr
          have hexp : ∀ x ∈ a ++ b, x.isExpired nowNs = false := forall_mem_append.mpr
            ⟨hra.unexpired, fun x hx => ht.unexpired x (mem_append_right _ hx)⟩
          obtain ⟨u, hu⟩ := exists_survivor timeStamp hexp
            ⟨r, mem_append_left _ hra.mem, hr1⟩
          exact hnone u hu
        · exact hb h1

theorem Outcome.repeat_eq {out : List ProximaRecord} (h : Outcome nowNs timeStamp a m)
    (hv : ∀ s, Survivor nowNs timeStamp a s → effectiveVersion s = 1)
    (h' : Outcome nowNs timeStamp m out) : out = m := by
  cases h' with
  | kept ht =>
    cases h with
    | kept hs => rw [mem_singleton.mp ht.mem]
    | dropped _ => cases ht.mem
  | dropped hnone =>
    cases h with
    | dropped _ => rfl
    | @kept s hs =>
      exfalso
      have hexp : ∀ r ∈ [s], r.isExpired nowNs = false := by
        simpa using hs.unexpired s hs.mem
      obtain ⟨t, ht⟩ := exists_survivor timeStamp hexp ⟨s, mem_singleton_self s, hv s hs⟩
      exact hnone t ht

/-! ## Both directions, over whole batches -/

theorem stagedAgrees_of_safe
    (h : ∀ oid, isAppendOnlyOid oid = false → StagedSafe nowNs (versionsOf oid A) (versionsOf oid B)) :
    StagedAgrees nowNs A B := by
  intro mid staged atOnce hmid hstaged hatOnce oid hver
  have hst := hstaged.versioned hver
  have hat := hatOnce.versioned hver
  rw [versionsOf_append] at hst hat
  exact (h oid hver).stage_eq (hmid.versioned hver) hst hat

theorem safe_of_stagedAgrees (h : StagedAgrees nowNs A B) {oid : String}
    (hver : isAppendOnlyOid oid = false) :
    StagedSafe nowNs (versionsOf oid A) (versionsOf oid B) := by
  have hmid := resolves_resolveSortedBatch nowNs A
  set mid := resolveSortedBatch nowNs A with hmidDef
  have hstaged := resolves_resolveSortedBatch nowNs (mid ++ B)
  set staged := resolveSortedBatch nowNs (mid ++ B) with hstagedDef
  have hm := hmid.versioned hver
  have hst := hstaged.versioned hver
  rw [versionsOf_append] at hst
  have hout : ∀ s, Survivor nowNs timeStamp (versionsOf oid A ++ versionsOf oid B) s →
      versionsOf oid staged = [s] := by
    intro s hs
    rw [← versionsOf_append] at hs
    obtain ⟨atOnce, hat, hs'⟩ := exists_resolves_of_survivor hver hs
    rw [h mid staged atOnce hmid hstaged hat oid hver, hs']
  refine ⟨?_, ?_⟩
  · intro s hs
    have hsout := hout s hs
    rw [hsout] at hst
    have hss : Survivor nowNs timeStamp (versionsOf oid mid ++ versionsOf oid B) s :=
      hst.mem (mem_singleton_self s)
    refine ⟨fun t ht => ?_, fun kept hkept => ⟨?_, ?_⟩⟩
    · have := (hout t ht).symm.trans hsout
      simpa using this
    · intro i h1 hi
      have hi' := hss.top.1 i h1 hi
      rw [versionSet_append] at hi'
      rcases hi' with hi' | hi'
      · obtain ⟨r, hr, rfl⟩ := hi'
        exact Or.inr ((hm.mem hr).top.unique hkept)
      · exact Or.inl hi'
    · rcases mem_append.mp hss.mem with hsm | hsb
      · exact Or.inl ((hm.mem hsm).top.unique hkept)
      · exact Or.inr hsb
  · intro hnone
    by_contra hcon
    rw [not_or, not_not] at hcon
    obtain ⟨hunexp, h1⟩ := hcon
    -- nothing survives at once, so nothing may survive the second stage
    have hat := (resolves_resolveSortedBatch nowNs (A ++ B)).versioned hver
    rw [versionsOf_append] at hat
    have hempty := h mid staged _ hmid hstaged (resolves_resolveSortedBatch nowNs (A ++ B)) oid hver
    have hexp : ∀ r ∈ versionsOf oid mid ++ versionsOf oid B, r.isExpired nowNs = false :=
      forall_mem_append.mpr ⟨fun r hr => (hm.mem hr).unexpired r (hm.mem hr).mem,
        fun r hr => Bool.eq_false_iff.mpr (fun he => hunexp ⟨r, hr, he⟩)⟩
    obtain ⟨t, ht⟩ := exists_survivor timeStamp hexp (by rw [versionSet_append]; exact Or.inr h1)
    cases hst' : versionsOf oid staged with
    | nil =>
      rw [hst'] at hst
      cases hst with
      | dropped hn => exact hn t ht
    | cons x rest =>
      rw [hst'] at hempty
      rw [← hempty] at hat
      exact hnone x (hat.mem mem_cons_self)

theorem compactionIdempotent_iff :
    CompactionIdempotent nowNs A ↔ ∀ oid, isAppendOnlyOid oid = false → ∀ s,
      Survivor nowNs timeStamp (versionsOf oid A) s → effectiveVersion s = 1 := by
  constructor
  · intro h oid hver s hs
    obtain ⟨once, honce, hout⟩ := exists_resolves_of_survivor hver hs
    have htwice := resolves_resolveSortedBatch nowNs once
    have heq := h once _ honce htwice oid hver
    have hres := htwice.versioned hver
    rw [heq, hout] at hres
    have hself := (hres.mem (mem_singleton_self s)).top
    rw [versionSet_singleton, ChainTop.singleton_iff] at hself
    have := one_le_effectiveVersion s
    omega
  · intro h once twice honce htwice oid hver
    exact (honce.versioned hver).repeat_eq (h oid hver) (htwice.versioned hver)

/-- Staged compaction agrees with compaction at once exactly on `StagedSafe` inputs, and a
    compaction may be repeated without loss exactly when every surviving record has version 1. -/
theorem stagedCompaction_iff (nowNs : Int) (A B : List ProximaRecord) :
    (StagedAgrees nowNs A B ↔ ∀ oid, isAppendOnlyOid oid = false →
      StagedSafe nowNs (versionsOf oid A) (versionsOf oid B)) ∧
    (CompactionIdempotent nowNs A ↔ ∀ oid, isAppendOnlyOid oid = false → ∀ s,
      Survivor nowNs timeStamp (versionsOf oid A) s → effectiveVersion s = 1) :=
  ⟨⟨fun h _ hver => safe_of_stagedAgrees h hver, stagedAgrees_of_safe⟩, compactionIdempotent_iff⟩

def updatedOnce : List ProximaRecord :=
  [{ oid := "a", recordVersion := 1, createdAtNs := 1, updatedAtNs := 1 },
   { oid := "a", recordVersion := 2, createdAtNs := 2, updatedAtNs := 2 }]

/-- The second compaction of an updated id deletes it. -/
theorem second_compaction_drops_updatedOnce :
    ∃ once twice, Resolves 10 updatedOnce once ∧ Resolves 10 once twice ∧
      once = updatedOnce.drop 1 ∧ twice = [] ∧ isAppendOnlyOid "a" = false :=
  ⟨_, _, resolves_resolveSortedBatch 10 updatedOnce, resolves_resolveSortedBatch 10 _,
    by decide, by decide, by decide⟩

end ProximaDb.Mvcc
