/-
  ProximaDb.Mvcc.Resolver

  The MVCC resolver: `resolve_batch` (hash grouping) and `resolve_sorted_batch` (sort and scan).
-/
import ProximaDb.Records
import ProximaDb.Lib.Bytes
import ProximaDb.Lib.Sorting
import ProximaDb.Lib.Grouping

namespace ProximaDb.Mvcc

open ProximaDb.Lib List

/-! ## Versions and ids -/

/-- Version 0 is the unversioned default and counts as version 1. -/
def effectiveVersion (r : ProximaRecord) : Nat :=
  if r.recordVersion = 0 then 1 else r.recordVersion

theorem one_le_effectiveVersion (r : ProximaRecord) : 1 ≤ effectiveVersion r := by
  unfold effectiveVersion
  split_ifs <;> omega

/-- Ids that do not name a logical record: their rows are appended, never versioned. -/
def isAppendOnlyOid (oid : String) : Bool :=
  oid.toList.isEmpty || oid == "null" || oid == "none" || oid.toList.all isWhitespace

/-- The records filed under one id, in input order. -/
def versionsOf (oid : String) (records : List ProximaRecord) : List ProximaRecord :=
  records.filter (fun r => decide (r.oid = oid))

@[simp] theorem mem_versionsOf {oid : String} {records : List ProximaRecord} {r : ProximaRecord} :
    r ∈ versionsOf oid records ↔ r ∈ records ∧ r.oid = oid := by
  simp [versionsOf]

@[simp] theorem versionsOf_append (oid : String) (a b : List ProximaRecord) :
    versionsOf oid (a ++ b) = versionsOf oid a ++ versionsOf oid b := by
  simp [versionsOf]

/-! ## The versions of one id -/

/-- The winner loop. `expected` is the next version of the chain; a higher version is a gap and ends
    the walk, a lower one is an older duplicate and is skipped. -/
def chainLoop (expected : Nat) (lastValid : Option ProximaRecord) :
    List ProximaRecord → Option ProximaRecord
  | [] => lastValid
  | r :: rest =>
    if effectiveVersion r = expected then chainLoop (expected + 1) (some r) rest
    else if expected < effectiveVersion r then lastValid
    else chainLoop expected lastValid rest

/-- The surviving version of one id, given its versions in ascending order. -/
def resolveVersions (nowNs : Int) (versions : List ProximaRecord) : Option ProximaRecord :=
  match versions with
  | [] => none
  | first :: _ =>
    if versions.any (fun r => r.isExpired nowNs) then none
    else if 1 < effectiveVersion first then none
    else chainLoop (effectiveVersion first) none versions

/-! ## `resolve_sorted_batch` -/

/-- Order of equal versions: creation, then last update. -/
def timeStamp (r : ProximaRecord) : ℤ ×ₗ ℤ :=
  toLex (r.createdAtNs, r.updatedAtNs)

def versionKey {κ : Type} (stamp : ProximaRecord → κ) (r : ProximaRecord) : ℕ ×ₗ κ :=
  toLex (effectiveVersion r, stamp r)

theorem versionKey_eq_iff {κ : Type} {stamp : ProximaRecord → κ} {a b : ProximaRecord} :
    versionKey stamp a = versionKey stamp b ↔
      effectiveVersion a = effectiveVersion b ∧ stamp a = stamp b := by
  simp [versionKey]

/-- The comparator of the unstable sort: `(oid, version, created_at, updated_at)`. -/
def sortKey (r : ProximaRecord) : String ×ₗ ℕ ×ₗ ℤ ×ₗ ℤ :=
  toLex (r.oid, versionKey timeStamp r)

/-- What the scan keeps of one group of equal ids. -/
def resolveGroup (nowNs : Int) (group : List ProximaRecord) : List ProximaRecord :=
  match group with
  | [] => []
  | first :: _ =>
    if isAppendOnlyOid first.oid then group.filter (fun r => !r.isExpired nowNs)
    else (resolveVersions nowNs group).toList

def scanSorted (nowNs : Int) (sorted : List ProximaRecord) : List ProximaRecord :=
  groupScan ProximaRecord.oid (resolveGroup nowNs) sorted.length sorted

/-- `out` is a possible result of `resolve_sorted_batch`. -/
def Resolves (nowNs : Int) (records out : List ProximaRecord) : Prop :=
  ∃ sorted, SortOf sortKey records sorted ∧ out = scanSorted nowNs sorted

/-- The result under a stable sort, one of those the unstable sort may give. -/
def resolveSortedBatch (nowNs : Int) (records : List ProximaRecord) : List ProximaRecord :=
  scanSorted nowNs (sortBy sortKey records)

theorem resolves_resolveSortedBatch (nowNs : Int) (records : List ProximaRecord) :
    Resolves nowNs records (resolveSortedBatch nowNs records) :=
  ⟨_, sortOf_sortBy sortKey records, rfl⟩

/-! ## `resolve_batch` -/

/-- The hash map of versioned ids, in one of its iteration orders. -/
def idGroups (records : List ProximaRecord) : List (String × List ProximaRecord) :=
  groupInto ProximaRecord.oid (records.filter (fun r => !isAppendOnlyOid r.oid))

/-- The survivor of one entry of the hash map; `sort_by` is stable. -/
def resolveEntry (nowNs : Int) (versions : List ProximaRecord) : List ProximaRecord :=
  (resolveVersions nowNs (sortBy (versionKey ProximaRecord.createdAtNs) versions)).toList

/-- The output for one iteration order `groups` of the hash map. -/
def resolveBatchIn (nowNs : Int) (groups : List (String × List ProximaRecord))
    (records : List ProximaRecord) : List ProximaRecord :=
  groups.flatMap (fun e => resolveEntry nowNs e.2) ++
    (records.filter (fun r => isAppendOnlyOid r.oid)).filter (fun r => !r.isExpired nowNs)

/-- `out` is a possible result of `resolve_batch`. -/
def ResolvesBatch (nowNs : Int) (records out : List ProximaRecord) : Prop :=
  ∃ groups, groups.Perm (idGroups records) ∧ out = resolveBatchIn nowNs groups records

theorem resolvesBatch_idGroups (nowNs : Int) (records : List ProximaRecord) :
    ResolvesBatch nowNs records (resolveBatchIn nowNs (idGroups records) records) :=
  ⟨_, List.Perm.refl _, rfl⟩

/-! ## What survives

`Survivor nowNs stamp versions s` is the resolver's rule with the iteration taken out:
no version has expired, `s` carries the last version of the gap-free chain, and no
other copy of that version has an earlier stamp. -/

variable {versions : List ProximaRecord} {s : ProximaRecord} {w : Option ProximaRecord}
  {l : List ProximaRecord}

section Survivors

variable {κ : Type} [LinearOrder κ] {a b : List ProximaRecord} {nowNs : Int}

def versionSet (versions : List ProximaRecord) : Set ℕ :=
  {v | ∃ r ∈ versions, effectiveVersion r = v}

structure Survivor (nowNs : Int) (stamp : ProximaRecord → κ) (versions : List ProximaRecord)
    (s : ProximaRecord) : Prop where
  unexpired : ∀ r ∈ versions, r.isExpired nowNs = false
  mem : s ∈ versions
  top : ChainTop (versionSet versions) (effectiveVersion s)
  earliest : ∀ r ∈ versions, effectiveVersion r = effectiveVersion s → stamp s ≤ stamp r

theorem versionSet_finite (versions : List ProximaRecord) : (versionSet versions).Finite := by
  have h : versionSet versions = {v | v ∈ versions.map effectiveVersion} := by
    ext v
    simp [versionSet]
  rw [h]
  exact finite_toSet _

theorem exists_top (versions : List ProximaRecord) : ∃ k, ChainTop (versionSet versions) k :=
  exists_chainTop (versionSet_finite versions)

theorem versionSet_append (a b : List ProximaRecord) :
    versionSet (a ++ b) = versionSet a ∪ versionSet b := by
  ext v
  simp [versionSet, or_and_right, exists_or]

theorem versionSet_congr (h : ∀ r, r ∈ a ↔ r ∈ b) : versionSet a = versionSet b := by
  ext v
  simp [versionSet, h]

theorem Survivor.congr {stamp : ProximaRecord → κ}
    (h : ∀ r, r ∈ a ↔ r ∈ b) (hs : Survivor nowNs stamp a s) : Survivor nowNs stamp b s where
  unexpired := fun r hr => hs.unexpired r ((h r).mpr hr)
  mem := (h s).mp hs.mem
  top := versionSet_congr h ▸ hs.top
  earliest := fun r hr => hs.earliest r ((h r).mpr hr)

theorem exists_survivor (stamp : ProximaRecord → κ)
    (hexp : ∀ r ∈ versions, r.isExpired nowNs = false) (h1 : 1 ∈ versionSet versions) :
    ∃ s, Survivor nowNs stamp versions s := by
  obtain ⟨k, hk⟩ := exists_top versions
  have hpos : 1 ≤ k := hk.pos_iff.mpr h1
  obtain ⟨r, hr, hrk⟩ := hk.mem hpos
  -- the earliest copy of version `k`
  set copies := versions.filter (fun r => decide (effectiveVersion r = k)) with hcopies
  have hne : copies ≠ [] := ne_nil_of_mem (mem_filter.mpr ⟨hr, by simpa using hrk⟩)
  obtain ⟨s, hs⟩ := exists_mem_of_ne_nil _ hne
  obtain ⟨m, hm, hmin⟩ : ∃ m ∈ copies, ∀ x ∈ copies, stamp m ≤ stamp x := by
    have := Set.exists_min_image {x | x ∈ copies} stamp (finite_toSet _) ⟨s, hs⟩
    simpa using this
  obtain ⟨hmv, hmk⟩ := mem_filter.mp hm
  have hmk' : effectiveVersion m = k := by simpa using hmk
  refine ⟨m, hexp, hmv, hmk' ▸ hk, ?_⟩
  intro x hx hxm
  exact hmin x (mem_filter.mpr ⟨hx, by simpa using hxm.trans hmk'⟩)

theorem Survivor.one_mem {stamp : ProximaRecord → κ}
    (hs : Survivor nowNs stamp versions s) : 1 ∈ versionSet versions :=
  hs.top.one_mem (one_le_effectiveVersion s)

end Survivors

/-! ## The winner loop computes the survivor -/

theorem chainLoop_mem {e : Nat} (h : chainLoop e w l = some s) : s ∈ l ∨ w = some s := by
  fun_induction chainLoop e w l with
  | case1 => exact Or.inr h
  | case2 w r rest ih =>
    rcases ih h with hm | hw
    · exact Or.inl (mem_cons_of_mem _ hm)
    · exact Or.inl (by simp [Option.some.inj hw])
  | case3 => exact Or.inr h
  | case4 e w r rest _ _ ih =>
    rcases ih h with hm | hw
    · exact Or.inl (mem_cons_of_mem _ hm)
    · exact Or.inr hw

/-- The loop stops at the end `k` of the chain that starts at `e`, holding the first copy of version
    `k`. -/
theorem chainLoop_eq_find {k e : Nat}
    (hs : l.Pairwise (fun a b => effectiveVersion a ≤ effectiveVersion b))
    (hlow : ∀ r ∈ l, e ≤ effectiveVersion r + 1)
    (hchain : ∀ i, e ≤ i → i ≤ k → ∃ r ∈ l, effectiveVersion r = i)
    (hstop : ∀ r ∈ l, effectiveVersion r ≠ k + 1) (hek : e ≤ k + 1) : chainLoop e w l =
      if k < e then w else l.find? (fun r => decide (effectiveVersion r = k)) := by
  -- a version other than that of the first record is found in the rest
  have hrest : ∀ {e r rest}, (∀ i, e ≤ i → i ≤ k → ∃ x ∈ r :: rest, effectiveVersion x = i) →
      ∀ i, i ≠ effectiveVersion r → e ≤ i → i ≤ k → ∃ x ∈ rest, effectiveVersion x = i := by
    intro e r rest hchain i hne hi hik
    obtain ⟨x, hx, hxi⟩ := hchain i hi hik
    rcases mem_cons.mp hx with rfl | hx
    · exact absurd hxi.symm hne
    · exact ⟨x, hx, hxi⟩
  fun_induction chainLoop e w l with
  | case1 e w =>
    rw [if_pos]
    by_contra hk
    obtain ⟨r, hr, -⟩ := hchain e le_rfl (by omega)
    cases hr
  | case2 w r rest ih =>
    obtain ⟨hfirst, hs⟩ := pairwise_cons.mp hs
    obtain ⟨hstopr, hstop⟩ := forall_mem_cons.mp hstop
    rw [ih hs (fun x hx => by have := hfirst x hx; omega)
      (fun i hi hik => hrest hchain i (by omega) (by omega) hik) hstop (by omega),
      if_neg (show ¬ k < effectiveVersion r by omega)]
    by_cases hkr : k = effectiveVersion r
    · rw [if_pos (by omega), List.find?_cons_of_pos (by simpa using hkr.symm)]
    · rw [if_neg (by omega), List.find?_cons_of_neg (by simpa using Ne.symm hkr)]
  | case3 e w r rest _ hgt =>
    -- a gap: `e` itself is missing, so the chain already ended
    rw [if_pos]
    by_contra hke
    obtain ⟨x, hx, hxe⟩ := hchain e le_rfl (by omega)
    rcases mem_cons.mp hx with rfl | hx
    · omega
    · have := (pairwise_cons.mp hs).1 x hx
      omega
  | case4 e w r rest hne hle ih =>
    -- an older duplicate: skipped by the loop, and not of version `k` either
    rw [ih (pairwise_cons.mp hs).2 (forall_mem_cons.mp hlow).2
      (fun i hi hik => hrest hchain i (by omega) hi hik) (forall_mem_cons.mp hstop).2 hek]
    by_cases hke : k < e
    · rw [if_pos hke, if_pos hke]
    · rw [if_neg hke, if_neg hke, List.find?_cons_of_neg (by simp only [decide_eq_true_eq]; omega)]

theorem resolveVersions_eq_find (nowNs : Int) {k : Nat}
    (hs : versions.Pairwise (fun a b => effectiveVersion a ≤ effectiveVersion b))
    (hk : ChainTop (versionSet versions) k) : resolveVersions nowNs versions =
      if versions.any (fun r => r.isExpired nowNs) then none
      else versions.find? (fun r => decide (effectiveVersion r = k)) := by
  cases versions with
  | nil => rfl
  | cons first rest =>
    have hs' := pairwise_cons.mp hs
    have hfirst : ∀ r ∈ first :: rest, effectiveVersion first ≤ effectiveVersion r :=
      forall_mem_cons.mpr ⟨le_rfl, hs'.1⟩
    have hpos := one_le_effectiveVersion first
    simp only [resolveVersions]
    split_ifs with hexp hgap
    · rfl
    · -- the chain never starts, so no copy of version `k = 0` exists
      have h1 : 1 ∉ versionSet (first :: rest) := by
        rintro ⟨r, hr, hr1⟩
        have := hfirst r hr
        omega
      have hk0 : k = 0 := hk.unique (ChainTop.zero_iff.mpr h1)
      symm
      rw [List.find?_eq_none]
      intro r _
      have := one_le_effectiveVersion r
      simp only [decide_eq_true_eq]
      omega
    · have hone : effectiveVersion first = 1 := by omega
      have hkpos : 1 ≤ k := hk.pos_iff.mpr ⟨first, mem_cons_self, hone⟩
      rw [hone, chainLoop_eq_find hs (fun r _ => by have := one_le_effectiveVersion r; omega)
        hk.1 (fun r hr h => hk.2 ⟨r, hr, h⟩) (by omega), if_neg (by omega)]

section Sound

variable {κ : Type} [LinearOrder κ] {stamp : ProximaRecord → κ} {nowNs : Int}
  {versions : List ProximaRecord} {s : ProximaRecord}

/-- The versions in the order the resolver walks them. -/
def VersionSorted (stamp : ProximaRecord → κ) (versions : List ProximaRecord) : Prop :=
  versions.Pairwise (fun a b => versionKey stamp a ≤ versionKey stamp b)

theorem VersionSorted.byVersion (h : VersionSorted stamp versions) :
    versions.Pairwise (fun a b => effectiveVersion a ≤ effectiveVersion b) := by
  exact h.imp (fun hab => Prod.Lex.monotone_fst _ _ hab)

variable (hs : VersionSorted stamp versions)

include hs

theorem survivor_of_resolveVersions
    (h : resolveVersions nowNs versions = some s) : Survivor nowNs stamp versions s := by
  obtain ⟨k, hk⟩ := exists_top versions
  rw [resolveVersions_eq_find nowNs hs.byVersion hk] at h
  split_ifs at h with hexp
  have hunexp : ∀ r ∈ versions, r.isExpired nowNs = false := by simpa using hexp
  obtain ⟨hsk, pre, post, rfl, hpre⟩ := List.find?_eq_some_iff_append.mp h
  simp only [decide_eq_true_eq] at hsk
  refine ⟨hunexp, by simp, hsk ▸ hk, ?_⟩
  intro r hr hrs
  -- a copy of the same version cannot stand before `s`
  rcases mem_append.mp hr with hr | hr
  · have := hpre r hr
    simp [hrs, hsk] at this
  · rcases mem_cons.mp hr with rfl | hr
    · exact le_rfl
    · have hle := (pairwise_cons.mp (pairwise_append.mp hs).2.1).1 r hr
      rcases Prod.Lex.le_iff.mp hle with hlt | hle
      · exact absurd hrs (ne_of_gt hlt)
      · exact hle.2

theorem resolveVersions_isSome_of_survivor
    (h : Survivor nowNs stamp versions s) : (resolveVersions nowNs versions).isSome := by
  rw [resolveVersions_eq_find nowNs hs.byVersion h.top, if_neg (by simpa using h.unexpired),
    List.find?_isSome]
  exact ⟨s, h.mem, by simp⟩

theorem resolveVersions_eq_head (h : Survivor nowNs stamp versions s) :
    resolveVersions nowNs versions =
      (versions.filter (fun r => decide (versionKey stamp r = versionKey stamp s))).head? := by
  obtain ⟨y, hy⟩ := Option.isSome_iff_exists.mp (resolveVersions_isSome_of_survivor hs h)
  have hysurv := survivor_of_resolveVersions hs hy
  have hver : effectiveVersion y = effectiveVersion s := hysurv.top.unique h.top
  have hkey : versionKey stamp y = versionKey stamp s := versionKey_eq_iff.mpr
    ⟨hver, le_antisymm (hysurv.earliest s h.mem hver.symm) (h.earliest y hysurv.mem hver)⟩
  rw [hy, List.head?_filter]
  rw [resolveVersions_eq_find nowNs hs.byVersion h.top, if_neg (by simpa using h.unexpired)] at hy
  obtain ⟨-, pre, post, hsplit, hpre⟩ := List.find?_eq_some_iff_append.mp hy
  refine (List.find?_eq_some_iff_append.mpr ⟨by simpa using hkey, pre, post, hsplit, ?_⟩).symm
  intro r hr
  have hne := hpre r hr
  simp only [Bool.not_eq_eq_eq_not, Bool.not_true, decide_eq_false_iff_not] at hne ⊢
  exact fun hk => hne (versionKey_eq_iff.mp hk).1

end Sound

end ProximaDb.Mvcc
