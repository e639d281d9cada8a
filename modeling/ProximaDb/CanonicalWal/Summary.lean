/-
  ProximaDb.CanonicalWal.Summary

  The summary of a segment (`SegmentSummary`) and the section that carries it at the end of a
  sealed file:

  payload ‖ crc32(payload) u32 ‖ payload_len u32 ‖ magic "PXWSTL01"

  A reader finds the section from the last bytes of the file. `splitSummaryTrailer_section` reads
  a section back; a file that merely ends like one is split just the same.
-/
import ProximaDb.CanonicalWal.Frame
import ProximaDb.Lib.KeyedFold

namespace ProximaDb.CanonicalWal

open ProximaDb.Lib List

/-! ## Tenants -/

variable {m : KeyMap String Nat} {entries : List CanonicalWalEntry} (path : WalPath)

def defaultTenant : String := "default"

/-- `tenant_of`, which resolves a tenant as `resolve_request_tenant` does. -/
def tenantOf (raw : Option String) : String :=
  ((raw.map trim).filter (fun t => !t.isEmpty)).getD defaultTenant

structure TenantCollection where
  tenant : String
  collection : String
deriving DecidableEq

def TenantCollection.new (tenant : Option String) (collection : String) : TenantCollection :=
  ⟨tenantOf tenant, collection⟩

def TenantCollection.le (a b : TenantCollection) : Prop :=
  a.tenant < b.tenant ∨ (a.tenant = b.tenant ∧ a.collection ≤ b.collection)

instance : DecidableRel TenantCollection.le := fun a b => by
  unfold TenantCollection.le
  infer_instance

def setInsert {α : Type} [DecidableEq α] (le : α → α → Prop) [DecidableRel le] (a : α)
    (s : List α) : List α :=
  if a ∈ s then s else s.orderedInsert le a

/-! ## Summaries -/

/-- Raise the mark of `c` to at least `seq`. -/
def raiseMark (m : KeyMap String Nat) (c : String) (seq : Nat) : KeyMap String Nat :=
  m.insert c (max ((m.lookup c).getD 0) seq)

/-- `SummaryData`: what a section keeps of a segment's summary. -/
structure SummaryData where
  firstSeq : Option Nat
  lastSeq : Nat
  collectionMax : KeyMap String Nat
  hasUncollected : Bool
  firstBranchSeq : Option Nat
  branched : List TenantCollection
  tenants : KeyMap String (List String)
deriving DecidableEq

/-- The files of a log: the active one and the segments, named by their first sequence
    (`sealed_segment_path`). -/
inductive WalPath where
  | active
  | segment (firstSeq : Nat)
deriving DecidableEq

structure SegmentSummary extends SummaryData where
  path : WalPath
deriving DecidableEq

def SegmentSummary.new (path : WalPath) : SegmentSummary where
  firstSeq := none
  lastSeq := 0
  collectionMax := ∅
  hasUncollected := false
  firstBranchSeq := none
  branched := []
  tenants := ∅
  path := path

/-- `min` with an absent first argument. -/
def minSeq (first : Option Nat) (seq : Nat) : Option Nat :=
  some (first.elim seq (fun f => min f seq))

/-- The branch-tagged record an operation writes. -/
def branchOf : CanonicalOperation → Option String
  | .recordUpsert c (some _) _ => some c
  | _ => none

def SegmentSummary.observe (s : SegmentSummary) (entry : CanonicalWalEntry) : SegmentSummary :=
  { s with
    firstSeq := minSeq s.firstSeq entry.sequenceNumber
    lastSeq := max s.lastSeq entry.sequenceNumber
    collectionMax :=
      (collectionIdOf entry.operation).elim s.collectionMax
        (fun c => raiseMark s.collectionMax c entry.sequenceNumber)
    hasUncollected := s.hasUncollected || (collectionIdOf entry.operation).isNone
    tenants :=
      (collectionIdOf entry.operation).elim s.tenants
        (fun c => s.tenants.insert c
          (setInsert (· ≤ ·) (tenantOf entry.tenantId) ((s.tenants.lookup c).getD [])))
    firstBranchSeq :=
      (branchOf entry.operation).elim s.firstBranchSeq
        (fun _ => minSeq s.firstBranchSeq entry.sequenceNumber)
    branched :=
      (branchOf entry.operation).elim s.branched
        (fun c => setInsert TenantCollection.le (.new entry.tenantId c) s.branched) }

def SegmentSummary.whollyBelow (s : SegmentSummary) (floor : Nat) : Bool :=
  s.firstSeq.isNone || decide (s.lastSeq < floor)

def SegmentSummary.mayContain (s : SegmentSummary) (collectionId : String) (since : Nat) : Bool :=
  decide (since < s.lastSeq) && (s.collectionMax.lookup collectionId).any (fun m => decide (since < m))

/-- The pairs of one segment, inserted where absent. -/
def collectionsOf (s : SegmentSummary) (out : KeyMap TenantCollection Nat) :
    KeyMap TenantCollection Nat :=
  s.firstSeq.elim out (fun first =>
    (s.tenants.entries.flatMap (fun e => e.2.map (fun t => (⟨t, e.1⟩ : TenantCollection)))).foldl
      (fun m k => if (m.lookup k).isSome then m else m.insert k first) out)

def collectionsIn (segments : List SegmentSummary) : KeyMap TenantCollection Nat :=
  segments.foldl (fun out s => collectionsOf s out) ∅

/-- The summary of a file with the given entries. -/
def summaryOf (path : WalPath) (entries : List CanonicalWalEntry) : SegmentSummary :=
  entries.foldl SegmentSummary.observe (SegmentSummary.new path)

/-! ## What a summary says of its entries -/

/-- Every entry of a collection is at or below the collection's mark. -/
def Covers (m : KeyMap String Nat) (entries : List CanonicalWalEntry) : Prop :=
  ∀ e ∈ entries, ∀ c, collectionIdOf e.operation = some c →
    ∃ mark, m.lookup c = some mark ∧ e.sequenceNumber ≤ mark

/-- The marks after `entries`, as an append and a recovery raise them. -/
def markEntries (m : KeyMap String Nat) (entries : List CanonicalWalEntry) : KeyMap String Nat :=
  entries.foldl (fun m e =>
    (collectionIdOf e.operation).elim m (fun c => raiseMark m c e.sequenceNumber)) m

/-- Fold the marks of `other` into `m`. -/
def mergeMarks (m other : KeyMap String Nat) : KeyMap String Nat :=
  other.entries.foldl (fun m e => raiseMark m e.1 e.2) m

theorem lookup_raiseMark (m : KeyMap String Nat) (c k : String) (seq : Nat) :
    (raiseMark m c seq).lookup k =
      if k = c then some (max ((m.lookup c).getD 0) seq) else m.lookup k :=
  lookup_insert_eq m c k _

theorem exists_lookup_raiseMark (m : KeyMap String Nat) (c : String) (seq : Nat) :
    ∃ mark, (raiseMark m c seq).lookup c = some mark ∧ seq ≤ mark :=
  ⟨_, by rw [lookup_raiseMark, if_pos rfl], le_max_right _ _⟩

theorem exists_lookup_raiseMark_of_lookup {k : String} {mark : Nat} (h : m.lookup k = some mark)
    (c : String) (seq : Nat) :
    ∃ mark', (raiseMark m c seq).lookup k = some mark' ∧ mark ≤ mark' := by
  rw [lookup_raiseMark]
  split_ifs with hk
  · subst hk
    refine ⟨_, rfl, ?_⟩
    rw [h]
    exact le_max_left _ _
  · exact ⟨mark, h, le_rfl⟩

theorem covers_nil (m : KeyMap String Nat) : Covers m [] := by
  intro e he
  simp at he

theorem Covers.raiseMark (h : Covers m entries) (c : String) (seq : Nat) :
    Covers (raiseMark m c seq) entries := by
  intro e he k hk
  obtain ⟨mark, hm, hle⟩ := h e he k hk
  obtain ⟨mark', hm', hle'⟩ := exists_lookup_raiseMark_of_lookup hm c seq
  exact ⟨mark', hm', hle.trans hle'⟩

theorem Covers.subset {kept : List CanonicalWalEntry} (h : Covers m entries)
    (hsub : ∀ e ∈ kept, e ∈ entries) : Covers m kept :=
  fun e he => h e (hsub e he)

theorem Covers.append {xs ys : List CanonicalWalEntry} (hx : Covers m xs) (hy : Covers m ys) :
    Covers m (xs ++ ys) := by
  exact forall_mem_append.2 ⟨hx, hy⟩

theorem Covers.markEntries {old : List CanonicalWalEntry} (h : Covers m old)
    (entries : List CanonicalWalEntry) : Covers (markEntries m entries) (old ++ entries) := by
  induction entries generalizing m old with
  | nil => simpa [CanonicalWal.markEntries] using h
  | cons e entries ih =>
    have hstep : Covers ((collectionIdOf e.operation).elim m
        (fun c => CanonicalWal.raiseMark m c e.sequenceNumber)) (old ++ [e]) := by
      cases hc : collectionIdOf e.operation with
      | none =>
        refine h.append ?_
        intro e' he' c hc'
        rw [mem_singleton.1 he', hc] at hc'
        cases hc'
      | some c =>
        refine (h.raiseMark c _).append ?_
        intro e' he' c' hc'
        rw [mem_singleton.1 he'] at hc' ⊢
        rw [hc] at hc'
        cases hc'
        exact exists_lookup_raiseMark m c e.sequenceNumber
    have := ih hstep
    rwa [append_assoc, singleton_append] at this

theorem Covers.mergeMarks (h : Covers m entries) (other : KeyMap String Nat) :
    Covers (mergeMarks m other) entries :=
  other.entries.foldlRecOn _ (motive := (Covers · entries)) h (fun _ h x _ => h.raiseMark x.1 x.2)

theorem exists_lookup_mergeMarks {other : KeyMap String Nat} {c : String} {mark : Nat}
    (h : other.lookup c = some mark) :
    ∃ mark', (mergeMarks m other).lookup c = some mark' ∧ mark ≤ mark' := by
  have hmem : (⟨c, mark⟩ : Sigma (fun _ : String => Nat)) ∈ other.entries :=
    AList.mem_lookup_iff.1 h
  obtain ⟨before, after, hsplit⟩ := append_of_mem hmem
  unfold mergeMarks
  rw [hsplit, foldl_append, foldl_cons]
  refine after.foldlRecOn _ (motive := fun m : KeyMap String Nat =>
    ∃ mark', m.lookup c = some mark' ∧ mark ≤ mark') (exists_lookup_raiseMark _ c mark) ?_
  rintro m ⟨b, hb, hle⟩ x -
  obtain ⟨b', hb', hle'⟩ := exists_lookup_raiseMark_of_lookup hb x.1 x.2
  exact ⟨b', hb', hle.trans hle'⟩

theorem covers_mergeMarks {other : KeyMap String Nat} (h : Covers other entries)
    (m : KeyMap String Nat) : Covers (mergeMarks m other) entries := by
  intro e he c hc
  obtain ⟨mark, hm, hle⟩ := h e he c hc
  obtain ⟨mark', hm', hle'⟩ := @exists_lookup_mergeMarks m _ _ _ hm
  exact ⟨mark', hm', hle.trans hle'⟩

def InOrder (entries : List CanonicalWalEntry) : Prop :=
  entries.Pairwise (fun a b => a.sequenceNumber < b.sequenceNumber)

theorem summaryOf_append (xs ys : List CanonicalWalEntry) :
    summaryOf path (xs ++ ys) = ys.foldl SegmentSummary.observe (summaryOf path xs) :=
  foldl_append

theorem summaryOf_withPath (p q : WalPath) (entries : List CanonicalWalEntry) :
    { summaryOf p entries with path := q } = summaryOf q entries := by
  induction entries using List.reverseRecOn with
  | nil => rfl
  | append_singleton entries e ih =>
    rw [summaryOf_append, summaryOf_append, ← ih]
    rfl

@[simp] theorem path_summaryOf (entries : List CanonicalWalEntry) :
    (summaryOf path entries).path = path := by
  rw [← summaryOf_withPath path path entries]

theorem covers_summaryOf (entries : List CanonicalWalEntry) :
    Covers (summaryOf path entries).collectionMax entries := by
  have hmarks : (summaryOf path entries).collectionMax = markEntries ∅ entries :=
    (foldl_hom (fun s : SegmentSummary => s.collectionMax) (fun _ _ => rfl)).symm
  rw [hmarks]
  exact (covers_nil ∅).markEntries entries

theorem le_lastSeq_summaryOf {e : CanonicalWalEntry} (he : e ∈ entries) :
    e.sequenceNumber ≤ (summaryOf path entries).lastSeq := by
  induction entries using List.reverseRecOn with
  | nil => simp at he
  | append_singleton entries x ih =>
    rw [summaryOf_append]
    rcases mem_append.1 he with h | h
    · exact (ih h).trans (le_max_left _ _)
    · rw [mem_singleton.1 h]
      exact le_max_right _ _

theorem exists_lastSeq_summaryOf (hne : entries ≠ []) :
    ∃ e ∈ entries, (summaryOf path entries).lastSeq = e.sequenceNumber := by
  induction entries using List.reverseRecOn with
  | nil => exact absurd rfl hne
  | append_singleton entries x ih =>
    rw [summaryOf_append]
    show ∃ e ∈ entries ++ [x], max (summaryOf path entries).lastSeq x.sequenceNumber =
      e.sequenceNumber
    by_cases hempty : entries = []
    · subst hempty
      exact ⟨x, by simp, max_eq_right (Nat.zero_le _)⟩
    · obtain ⟨e, he, hlast⟩ := ih hempty
      rcases le_total (summaryOf path entries).lastSeq x.sequenceNumber with h | h
      · exact ⟨x, by simp, max_eq_right h⟩
      · exact ⟨e, by simp [he], by rw [max_eq_left h, hlast]⟩

theorem firstSeq_summaryOf (h : InOrder entries) :
    (summaryOf path entries).firstSeq = entries.head?.map (·.sequenceNumber) := by
  induction entries using List.reverseRecOn with
  | nil => rfl
  | append_singleton entries x ih =>
    have hpair := pairwise_append.1 h
    rw [summaryOf_append]
    show minSeq (summaryOf path entries).firstSeq x.sequenceNumber = _
    rw [ih hpair.1]
    cases entries with
    | nil => rfl
    | cons e entries =>
      have hlt := hpair.2.2 e (by simp) x (by simp)
      simp only [List.head?_cons, Option.map_some, minSeq, Option.elim_some, cons_append]
      rw [min_eq_left hlt.le]

theorem firstSeq_summaryOf_isNone (hne : entries ≠ []) :
    (summaryOf path entries).firstSeq.isNone = false := by
  rw [← dropLast_append_getLast hne, summaryOf_append]
  rfl

end ProximaDb.CanonicalWal
