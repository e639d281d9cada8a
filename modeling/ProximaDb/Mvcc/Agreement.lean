/-
  ProximaDb.Mvcc.Agreement

  What the two resolvers may return, one id at a time, and when they are interchangeable: copies
  of one version with equal `created_at` are told apart by `updated_at` in the first and by their
  position in the input in the second.
-/
import ProximaDb.Mvcc.Resolver

namespace ProximaDb.Mvcc

open ProximaDb.Lib List ProximaRecord

variable {nowNs : Int} {records out : List ProximaRecord} {oid : String} {s : ProximaRecord}

/-! ## One id of a resolver's output -/

variable {versions sorted : List ProximaRecord} {group : List ProximaRecord}

/-- `out` holds one survivor of `versions`, or nothing if there is none. -/
inductive Outcome {κ : Type} [LinearOrder κ] (nowNs : Int) (stamp : ProximaRecord → κ)
    (versions : List ProximaRecord) : List ProximaRecord → Prop
  | kept {s : ProximaRecord} (h : Survivor nowNs stamp versions s) : Outcome nowNs stamp versions [s]
  | dropped (h : ∀ s, ¬ Survivor nowNs stamp versions s) : Outcome nowNs stamp versions []

theorem outcome_resolveVersions {κ : Type} [LinearOrder κ] {stamp : ProximaRecord → κ}
    (hperm : sorted.Perm versions)
    (hs : VersionSorted stamp sorted) :
    Outcome nowNs stamp versions (resolveVersions nowNs sorted).toList := by
  cases hr : resolveVersions nowNs sorted with
  | none =>
    refine Outcome.dropped ?_
    intro s hsurv
    have := resolveVersions_isSome_of_survivor hs (hsurv.congr (fun r => hperm.mem_iff.symm))
    simp [hr] at this
  | some s =>
    exact Outcome.kept ((survivor_of_resolveVersions hs hr).congr (fun r => hperm.mem_iff))

theorem resolveVersions_mem (h : resolveVersions nowNs versions = some s) : s ∈ versions := by
  cases versions with
  | nil => simp [resolveVersions] at h
  | cons first rest =>
    simp only [resolveVersions] at h
    split_ifs at h
    rcases chainLoop_mem h with hm | hn
    · exact hm
    · cases hn

/-! ## `resolve_sorted_batch` -/

theorem selects_resolveGroup (nowNs : Int) : Selects (resolveGroup nowNs) where
  nil := rfl
  sublist := by
    intro g
    cases g with
    | nil => exact List.Sublist.refl _
    | cons first rest =>
      simp only [resolveGroup]
      split_ifs with happ
      · exact filter_sublist
      · cases hr : resolveVersions nowNs (first :: rest) with
        | none => exact nil_sublist _
        | some s => exact singleton_sublist.mpr (resolveVersions_mem hr)

section Sorted

variable (h : sorted.Pairwise (fun a b => sortKey a ≤ sortKey b))

include h

theorem sorted_by_oid : sorted.Pairwise (fun a b => a.oid ≤ b.oid) :=
  h.imp (fun hab => Prod.Lex.monotone_fst _ _ hab)

theorem versionsOf_scanSorted (oid : String) :
    versionsOf oid (scanSorted nowNs sorted) = resolveGroup nowNs (versionsOf oid sorted) :=
  filter_groupScan (selects_resolveGroup nowNs) oid _ _ le_rfl (sorted_by_oid h)

theorem versionSorted_versionsOf (oid : String) : VersionSorted timeStamp (versionsOf oid sorted) := by
  have hsub : (versionsOf oid sorted).Pairwise (fun a b => sortKey a ≤ sortKey b) :=
    h.sublist filter_sublist
  refine List.Pairwise.imp_of_mem ?_ hsub
  intro a b ha hb hab
  have hoid : a.oid = b.oid := (mem_versionsOf.mp ha).2.trans (mem_versionsOf.mp hb).2.symm
  rcases Prod.Lex.le_iff.mp hab with hlt | hle
  · exact absurd hoid (ne_of_lt hlt)
  · exact hle.2

end Sorted

theorem resolveGroup_appendOnly
    (hoid : ∀ r ∈ group, r.oid = oid) (happ : isAppendOnlyOid oid = true) :
    resolveGroup nowNs group = group.filter (fun r => !r.isExpired nowNs) := by
  cases group with
  | nil => rfl
  | cons first => simp [resolveGroup, hoid first mem_cons_self, happ]

theorem resolveGroup_versioned
    (hoid : ∀ r ∈ group, r.oid = oid) (hver : isAppendOnlyOid oid = false) :
    resolveGroup nowNs group = (resolveVersions nowNs group).toList := by
  cases group with
  | nil => rfl
  | cons first => simp [resolveGroup, hoid first mem_cons_self, hver]

theorem oid_of_mem_versionsOf {l : List ProximaRecord} : ∀ r ∈ versionsOf oid l, r.oid = oid :=
  fun _ hr => (mem_versionsOf.mp hr).2

theorem Resolves.versioned (h : Resolves nowNs records out) (hver : isAppendOnlyOid oid = false) :
    Outcome nowNs timeStamp (versionsOf oid records) (versionsOf oid out) := by
  obtain ⟨sorted, hsort, rfl⟩ := h
  rw [versionsOf_scanSorted hsort.sorted, resolveGroup_versioned oid_of_mem_versionsOf hver]
  exact outcome_resolveVersions (hsort.perm.filter _) (versionSorted_versionsOf hsort.sorted oid)

theorem Resolves.appendOnly (h : Resolves nowNs records out) (happ : isAppendOnlyOid oid = true) :
    (versionsOf oid out).Perm ((versionsOf oid records).filter (fun r => !r.isExpired nowNs)) := by
  obtain ⟨sorted, hsort, rfl⟩ := h
  rw [versionsOf_scanSorted hsort.sorted, resolveGroup_appendOnly oid_of_mem_versionsOf happ]
  exact (hsort.perm.filter _).filter _

/-- A record that survives among its id's versions is what some sort makes the scan return: sort
    stably with that record moved to the front. -/
theorem exists_resolves_of_survivor (hver : isAppendOnlyOid oid = false)
    (hs : Survivor nowNs timeStamp (versionsOf oid records) s) :
    ∃ out, Resolves nowNs records out ∧ versionsOf oid out = [s] := by
  obtain ⟨hsmem, hsoid⟩ := mem_versionsOf.mp hs.mem
  have hperm : (s :: records.erase s).Perm records := (perm_cons_erase hsmem).symm
  set front := s :: records.erase s with hfront
  have hsort := sortOf_sortBy sortKey front
  refine ⟨scanSorted nowNs (sortBy sortKey front), ⟨_, hsort.of_perm hperm, rfl⟩, ?_⟩
  have hsorted := versionSorted_versionsOf hsort.sorted oid
  have hsurv : Survivor nowNs timeStamp (versionsOf oid (sortBy sortKey front)) s :=
    hs.congr (fun r => ((hsort.perm.trans hperm).filter _).mem_iff.symm)
  -- the class of `s` keeps its order, so `s` leads it
  have hclass : (versionsOf oid (sortBy sortKey front)).filter
      (fun r => decide (versionKey timeStamp r = versionKey timeStamp s)) =
        front.filter (fun r => decide (sortKey r = sortKey s)) := by
    rw [← filter_sortBy sortKey front (sortKey s), versionsOf, filter_filter]
    apply filter_congr
    intro r _
    simp [sortKey, hsoid, Bool.and_comm]
  rw [versionsOf_scanSorted hsort.sorted, resolveGroup_versioned oid_of_mem_versionsOf hver,
    resolveVersions_eq_head hsorted hsurv, hclass]
  simp [hfront]

/-! ## `resolve_batch` -/

theorem mem_idGroups {g : List ProximaRecord} : (oid, g) ∈ idGroups records ↔
      isAppendOnlyOid oid = false ∧ g = versionsOf oid records ∧ g ≠ [] := by
  rw [idGroups, (groupInto_spec _ _).2, filter_filter]
  have hfilter : records.filter (fun r => decide (r.oid = oid) && !isAppendOnlyOid r.oid) =
      records.filter (fun r => decide (r.oid = oid) && !isAppendOnlyOid oid) := by
    refine filter_congr (fun r _ => ?_)
    by_cases hr : r.oid = oid
    · rw [hr]
    · simp [hr]
  rw [hfilter]
  cases isAppendOnlyOid oid <;> simp [versionsOf]

theorem oid_of_mem_resolveEntry {e : String × List ProximaRecord} (he : e ∈ idGroups records)
    {r : ProximaRecord} (hr : r ∈ resolveEntry nowNs e.2) : r.oid = e.1 := by
  obtain ⟨oid, g⟩ := e
  obtain ⟨-, rfl, -⟩ := mem_idGroups.mp he
  rw [resolveEntry, Option.mem_toList] at hr
  exact oid_of_mem_versionsOf r ((sortOf_sortBy _ _).perm.mem_iff.mp (resolveVersions_mem hr))

theorem mem_fst_idGroups : oid ∈ (idGroups records).map Prod.fst ↔
    isAppendOnlyOid oid = false ∧ versionsOf oid records ≠ [] := by
  constructor
  · intro h
    obtain ⟨⟨_, g⟩, he, rfl⟩ := mem_map.mp h
    obtain ⟨hver, rfl, hne⟩ := mem_idGroups.mp he
    exact ⟨hver, hne⟩
  · rintro ⟨hver, hne⟩
    exact mem_map.mpr ⟨(oid, _), mem_idGroups.mpr ⟨hver, rfl, hne⟩, rfl⟩

theorem ResolvesBatch.versionsOf_eq (h : ResolvesBatch nowNs records out)
    (hver : isAppendOnlyOid oid = false) :
    versionsOf oid out = resolveEntry nowNs (versionsOf oid records) := by
  obtain ⟨groups, hgroups, rfl⟩ := h
  have hnd : (groups.map Prod.fst).Nodup :=
    (hgroups.map Prod.fst).nodup_iff.mpr (groupInto_spec _ _).1
  have htail : versionsOf oid
      ((records.filter (fun r => isAppendOnlyOid r.oid)).filter (fun r => !r.isExpired nowNs)) =
        [] := by
    rw [versionsOf, filter_eq_nil_iff]
    intro r hr hoid
    have := (mem_filter.mp (mem_filter.mp hr).1).2
    simp only [decide_eq_true_eq] at hoid
    simp [hoid, hver] at this
  rw [resolveBatchIn, versionsOf_append, htail, append_nil]
  have hoids : ∀ e ∈ groups, ∀ r ∈ resolveEntry nowNs e.2, r.oid = e.1 :=
    fun e he r hr => oid_of_mem_resolveEntry (hgroups.mem_iff.mp he) hr
  by_cases hnil : versionsOf oid records = []
  · -- no entry for this id, so no survivor either
    have hnot : oid ∉ groups.map Prod.fst := by
      rw [(hgroups.map Prod.fst).mem_iff, mem_fst_idGroups]
      exact fun h => h.2 hnil
    rw [hnil]
    exact filter_flatMap_other hoids hnot
  · exact filter_flatMap_key hnd hoids (hgroups.mem_iff.mpr (mem_idGroups.mpr ⟨hver, rfl, hnil⟩))

theorem ResolvesBatch.versioned (h : ResolvesBatch nowNs records out)
    (hver : isAppendOnlyOid oid = false) :
    Outcome nowNs createdAtNs (versionsOf oid records) (versionsOf oid out) := by
  rw [h.versionsOf_eq hver]
  have hsort := sortOf_sortBy (versionKey createdAtNs) (versionsOf oid records)
  exact outcome_resolveVersions hsort.perm hsort.sorted

theorem ResolvesBatch.appendOnly (h : ResolvesBatch nowNs records out)
    (happ : isAppendOnlyOid oid = true) :
    versionsOf oid out = (versionsOf oid records).filter (fun r => !r.isExpired nowNs) := by
  obtain ⟨groups, hgroups, rfl⟩ := h
  have hhead : versionsOf oid (groups.flatMap (fun e => resolveEntry nowNs e.2)) = [] := by
    refine filter_flatMap_other
      (fun e he r hr => oid_of_mem_resolveEntry (hgroups.mem_iff.mp he) hr) ?_
    rw [(hgroups.map Prod.fst).mem_iff, mem_fst_idGroups, happ]
    simp
  rw [resolveBatchIn, versionsOf_append, hhead, nil_append]
  simp only [versionsOf, filter_filter]
  apply filter_congr
  intro r _
  by_cases hr : r.oid = oid
  · simp [hr, happ]
  · simp [hr]

/-- Moving a survivor to the front of the input makes `resolve_batch` return it. -/
theorem versionsOf_resolvesBatch_front (hver : isAppendOnlyOid oid = false)
    (hs : Survivor nowNs createdAtNs (versionsOf oid records) s)
    (h : ResolvesBatch nowNs (s :: records.erase s) out) : versionsOf oid out = [s] := by
  obtain ⟨hsmem, hsoid⟩ := mem_versionsOf.mp hs.mem
  have hperm : (s :: records.erase s).Perm records := (perm_cons_erase hsmem).symm
  have hsort := sortOf_sortBy (versionKey createdAtNs) (versionsOf oid (s :: records.erase s))
  have hsurv : Survivor nowNs createdAtNs
      (sortBy (versionKey createdAtNs) (versionsOf oid (s :: records.erase s))) s :=
    hs.congr (fun r => (hsort.perm.trans (hperm.filter _)).mem_iff.symm)
  rw [h.versionsOf_eq hver, resolveEntry, resolveVersions_eq_head hsort.sorted hsurv, filter_sortBy]
  simp [versionsOf, hsoid]

/-- The two resolvers return the same multiset, and neither depends on the order of its input. -/
structure ResolversAgree (nowNs : Int) (records : List ProximaRecord) : Prop where
  agree : ∀ out out', ResolvesBatch nowNs records out → Resolves nowNs records out' →
    out.Perm out'
  batchOrder : ∀ records' out out', records'.Perm records → ResolvesBatch nowNs records out →
    ResolvesBatch nowNs records' out' → out.Perm out'
  sortedOrder : ∀ records' out out', records'.Perm records → Resolves nowNs records out →
    Resolves nowNs records' out' → out.Perm out'

/-- Every versioned id has at most one earliest-created copy of its last chained version. -/
def UniqueEarliest (nowNs : Int) (records : List ProximaRecord) : Prop :=
  ∀ oid, isAppendOnlyOid oid = false → ∀ s t,
    Survivor nowNs ProximaRecord.createdAtNs (versionsOf oid records) s →
    Survivor nowNs ProximaRecord.createdAtNs (versionsOf oid records) t → s = t

theorem Survivor.created (h : Survivor nowNs timeStamp versions s) :
    Survivor nowNs createdAtNs versions s where
  unexpired := h.unexpired
  mem := h.mem
  top := h.top
  earliest := fun r hr hver => Prod.Lex.monotone_fst _ _ (h.earliest r hr hver)

variable {out : List ProximaRecord}

theorem outcome_created (h : Outcome nowNs timeStamp versions out) :
    Outcome nowNs createdAtNs versions out := by
  cases h with
  | kept hs => exact Outcome.kept hs.created
  | dropped hnone =>
    refine Outcome.dropped ?_
    intro s hs
    obtain ⟨t, ht⟩ := exists_survivor timeStamp hs.unexpired hs.one_mem
    exact hnone t ht

theorem Outcome.congr {κ : Type} [LinearOrder κ] {stamp : ProximaRecord → κ}
    {a b out : List ProximaRecord} (hab : ∀ r, r ∈ a ↔ r ∈ b) (h : Outcome nowNs stamp a out) :
    Outcome nowNs stamp b out := by
  cases h with
  | kept hs => exact Outcome.kept (hs.congr hab)
  | dropped hnone =>
    exact Outcome.dropped (fun s hs => hnone s (hs.congr (fun r => (hab r).symm)))

theorem Outcome.unique {κ : Type} [LinearOrder κ] {stamp : ProximaRecord → κ}
    {out out' : List ProximaRecord}
    (huniq : ∀ s t, Survivor nowNs stamp versions s → Survivor nowNs stamp versions t → s = t)
    (h : Outcome nowNs stamp versions out) (h' : Outcome nowNs stamp versions out') :
    out = out' := by
  cases h with
  | kept hs =>
    cases h' with
    | kept ht => rw [huniq _ _ hs ht]
    | dropped hnone => exact absurd hs (hnone _)
  | dropped hnone =>
    cases h' with
    | kept ht => exact absurd ht (hnone _)
    | dropped _ => rfl

/-- A result of either resolver, as far as multisets are concerned: the unexpired rows of
    append-only ids and one outcome per versioned id. -/
structure Resolution (nowNs : Int) (records out : List ProximaRecord) : Prop where
  appendOnly : ∀ oid, isAppendOnlyOid oid = true →
    (versionsOf oid out).Perm ((versionsOf oid records).filter (fun r => !r.isExpired nowNs))
  versioned : ∀ oid, isAppendOnlyOid oid = false →
    Outcome nowNs ProximaRecord.createdAtNs (versionsOf oid records) (versionsOf oid out)

theorem Resolves.resolution (h : Resolves nowNs records out) : Resolution nowNs records out where
  appendOnly := fun _ happ => h.appendOnly happ
  versioned := fun _ hver => outcome_created (h.versioned hver)

theorem ResolvesBatch.resolution
    (h : ResolvesBatch nowNs records out) : Resolution nowNs records out where
  appendOnly := fun _ happ => by rw [h.appendOnly happ]
  versioned := fun _ hver => h.versioned hver

theorem Resolution.of_perm {records' out : List ProximaRecord} (h : Resolution nowNs records' out)
    (hperm : records'.Perm records) : Resolution nowNs records out where
  appendOnly := fun oid happ => (h.appendOnly oid happ).trans ((hperm.filter _).filter _)
  versioned := fun oid hver => (h.versioned oid hver).congr (fun _ => (hperm.filter _).mem_iff)

theorem Resolution.perm {out out' : List ProximaRecord} (huniq : UniqueEarliest nowNs records)
    (h : Resolution nowNs records out) (h' : Resolution nowNs records out') : out.Perm out' := by
  refine perm_of_filter_perm oid ?_
  intro oid
  change (versionsOf oid out).Perm (versionsOf oid out')
  cases happ : isAppendOnlyOid oid with
  | true => exact (h.appendOnly oid happ).trans (h'.appendOnly oid happ).symm
  | false =>
    rw [(h.versioned oid happ).unique (huniq oid happ) (h'.versioned oid happ)]

/-- The resolvers agree, and are insensitive to input order, exactly when no versioned id has two
    different earliest-created copies of its last chained version. -/
theorem resolversAgree_iff (nowNs : Int) (records : List ProximaRecord) :
    ResolversAgree nowNs records ↔ UniqueEarliest nowNs records := by
  constructor
  · intro h oid hver s t hs ht
    -- bring either copy to the front; `resolve_batch` returns whichever leads
    have hout := fun u => resolvesBatch_idGroups nowNs (u :: records.erase u)
    have hcopy : ∀ u, Survivor nowNs createdAtNs (versionsOf oid records) u →
        (u :: records.erase u).Perm records := fun u hu =>
      (perm_cons_erase (mem_versionsOf.mp hu.mem).1).symm
    have hbase := resolvesBatch_idGroups nowNs records
    have hs' := h.batchOrder _ _ _ (hcopy s hs) hbase (hout s)
    have ht' := h.batchOrder _ _ _ (hcopy t ht) hbase (hout t)
    have hst := (hs'.symm.trans ht').filter (fun r => decide (r.oid = oid))
    have hstList : ([s] : List ProximaRecord).Perm [t] := by
      rw [← versionsOf_resolvesBatch_front hver hs (hout s),
        ← versionsOf_resolvesBatch_front hver ht (hout t)]
      exact hst
    simpa using hstList
  · intro huniq
    exact
      { agree := fun _ _ h h' => h.resolution.perm huniq h'.resolution
        batchOrder := fun _ _ _ hperm h h' =>
          h.resolution.perm huniq (h'.resolution.of_perm hperm)
        sortedOrder := fun _ _ _ hperm h h' =>
          h.resolution.perm huniq (h'.resolution.of_perm hperm) }

/-- Two writes of version 1 in one instant, the later update first. -/
def rewrittenVersion : List ProximaRecord :=
  [{ oid := "a", recordVersion := 1, createdAtNs := 1, updatedAtNs := 2 },
   { oid := "a", recordVersion := 1, createdAtNs := 1, updatedAtNs := 1 }]

/-- On `rewrittenVersion` the hash-grouped resolver keeps the first copy and the sorted one the
    second. -/
theorem resolvers_disagree_on_rewrittenVersion :
    ∃ out out', ResolvesBatch 10 rewrittenVersion out ∧ Resolves 10 rewrittenVersion out' ∧
      out.map ProximaRecord.updatedAtNs = [2] ∧ out'.map ProximaRecord.updatedAtNs = [1] ∧
      ¬ out.Perm out' := by
  refine ⟨_, _, resolvesBatch_idGroups 10 rewrittenVersion,
    resolves_resolveSortedBatch 10 rewrittenVersion, by decide, by decide, by decide⟩

end ProximaDb.Mvcc
