/-
  ProximaDb.Search.PerId

  The search merge looked at one id: what it returns is a function of the unflushed index's entry
  for the id and of the candidate that wins among the flushed versions.
-/
import ProximaDb.Memtable.Winner

namespace ProximaDb.Search

open ProximaDb.Lib ProximaDb.Memtable ProximaDb.WriteAheadLog List AList

/-! ## Hits -/

/-- A search hit. `record` stands for the fields copied out of the record as they are (vector,
    metadata) and for the score computed from them. -/
structure OptimizedSearchRecord where
  id : String
  version : Option Nat
  timestamp : Option Int
  updatedAt : Option Int
  expiresAt : Option Int
  validToNs : Option Int
  record : ProximaRecord
deriving DecidableEq

/-- Integer division of the source: towards zero. -/
def nsToMs (ns : Int) : Int := ns.tdiv 1000000

/-- The hit made from a record, in the write buffer and, by `stamp_persisted_version`, in flushed
    storage. -/
def hitOf (r : ProximaRecord) : OptimizedSearchRecord where
  id := r.oid
  version := some (r.recordVersion % 2 ^ 32)
  timestamp := some (nsToMs r.createdAtNs)
  updatedAt := some (nsToMs r.updatedAtNs)
  expiresAt := r.validToNs.map (fun ns => ns.tdiv 1000000000)
  validToNs := r.validToNs
  record := r

@[simp] theorem hitOf_id (r : ProximaRecord) : (hitOf r).id = r.oid := rfl

@[simp] theorem hitOf_validToNs (r : ProximaRecord) : (hitOf r).validToNs = r.validToNs := rfl

@[simp] theorem hitOf_record (r : ProximaRecord) : (hitOf r).record = r := rfl

/-- A zero-score marker has the version facts of a hit. -/
def zeroScoreMarker (r : ProximaRecord) : OptimizedSearchRecord := hitOf r

def isWalTombstone (h : OptimizedSearchRecord) : Bool :=
  decide (h.validToNs = some 0)

/-! ## The unflushed leg -/

/-- Whether the first embedding has any values to score. -/
def isScorable (r : ProximaRecord) : Bool :=
  match r.embeddings with
  | [] => false
  | cell :: _ => decide (0 < cell.values.len)

/-- The live, scorable freshest versions: `score_unflushed` without a filter, before the ranking. -/
def scoredCandidates (index : KeyMap String Dated) (nowNs : Int) : List OptimizedSearchRecord :=
  ((index.entries.map (fun e => e.2.1)).filter
    (fun r => !isRecordDead r.validToNs nowNs && isScorable r)).map hitOf

/-- The markers of the dead freshest versions. -/
def markers (index : KeyMap String Dated) (nowNs : Int) : List OptimizedSearchRecord :=
  ((index.entries.map (fun e => e.2.1)).filter
    (fun r => isRecordDead r.validToNs nowNs)).map zeroScoreMarker

/-- The state of an id's freshest unflushed version. -/
inductive WalOidState where
  | live
  | dead (updatedAtMs : Int)
deriving DecidableEq

def unflushedOidState (index : KeyMap String Dated) (oid : String) (nowNs : Int) :
    Option WalOidState :=
  (index.lookup oid).map (fun d =>
    if isRecordDead d.1.validToNs nowNs then .dead (nsToMs d.1.updatedAtNs) else .live)

/-! ## Candidates -/

/-- Where a candidate came from; the earlier constructor wins an exact tie. -/
inductive CandidateSource where
  | wal
  | axis
  | storage
deriving DecidableEq

def CandidateSource.rank : CandidateSource → Nat
  | wal => 0
  | axis => 1
  | storage => 2

abbrev Candidate := CandidateSource × OptimizedSearchRecord

/-- `i64::MIN`, the time of a hit without one. -/
def noUpdate : Int := -2 ^ 63

def updatedOf (c : Candidate) : Int := c.2.updatedAt.getD noUpdate

def versionOf (c : Candidate) : Nat := c.2.version.getD 0

def supersedes (candidate current : Candidate) : Bool :=
  if updatedOf candidate ≠ updatedOf current then
    decide (updatedOf current < updatedOf candidate)
  else if isWalTombstone candidate.2 ≠ isWalTombstone current.2 then isWalTombstone candidate.2
  else if versionOf candidate ≠ versionOf current then
    decide (versionOf current < versionOf candidate)
  else decide (candidate.1.rank < current.1.rank)

def resolveFreshest (candidates : List Candidate) : KeyMap String Candidate :=
  candidates.foldl (keyedStep (fun c => c.2.id) (keepNewer supersedes)) ∅

/-! ## Reconciliation -/

/-- Whether a candidate survives against the unflushed state of its id. -/
def keeps (state : Option WalOidState) (candidate : OptimizedSearchRecord) : Bool :=
  match state with
  | none => true
  | some .live => false
  | some (.dead updatedAtMs) => candidate.updatedAt.any (fun u => decide (updatedAtMs < u))

/-- The live hits of the unflushed leg, by id. -/
def insertHits (walHits : List OptimizedSearchRecord) (nowNs : Int) :
    KeyMap String OptimizedSearchRecord :=
  walHits.foldl (fun m h =>
    if isWalTombstone h || isRecordDead h.validToNs nowNs then m else m.insert h.id h) ∅

def reconcileAgainstWalState (walHits : List OptimizedSearchRecord) (others : List Candidate)
    (walState : String → Option WalOidState) (nowNs : Int) : KeyMap String OptimizedSearchRecord :=
  (mapValues Prod.snd (resolveFreshest others)).entries.foldl
    (fillAbsent (fun oid candidate => keeps (walState oid) candidate)) (insertHits walHits nowNs)

/-- The unfiltered two-stage search with no bound on the number of results: `ranked` is the
    unflushed leg's scored hits in the order of their scores, `flushed` the versions storage
    returns. -/
def unfilteredSearch (snapshot : List WALVectorBatch) (ranked : List OptimizedSearchRecord)
    (flushed : List ProximaRecord) (nowNs : Int) : List OptimizedSearchRecord :=
  let index := freshestUnflushedIndex snapshot
  let merged := reconcileAgainstWalState (ranked ++ markers index nowNs)
    (flushed.map (fun r => (.storage, hitOf r))) (fun oid => unflushedOidState index oid nowNs) nowNs
  (merged.entries.map (fun e => e.2)).filter (fun h => !isRecordDead h.validToNs nowNs)

/-! ## The freshest flushed candidate -/

/-- What the search orders flushed versions by. -/
def msKey (r : ProximaRecord) : ℤ ×ₗ Bool ×ₗ ℕ :=
  toLex (nsToMs r.updatedAtNs, toLex (r.isDeleteMarker, r.recordVersion % 2 ^ 32))

theorem supersedes_storage_iff (a b : ProximaRecord) :
    supersedes (.storage, hitOf a) (.storage, hitOf b) = true ↔ msKey b < msKey a := by
  have hu : ∀ r, updatedOf (.storage, hitOf r) = nsToMs r.updatedAtNs := fun _ => rfl
  have ht : ∀ r, isWalTombstone (hitOf r) = r.isDeleteMarker := fun _ => rfl
  have hv : ∀ r, versionOf (.storage, hitOf r) = r.recordVersion % 2 ^ 32 := fun _ => rfl
  simp only [msKey, Prod.Lex.toLex_lt_toLex, supersedes, hu, ht, hv]
  generalize nsToMs a.updatedAtNs = ua
  generalize nsToMs b.updatedAtNs = ub
  generalize a.recordVersion % 2 ^ 32 = va
  generalize b.recordVersion % 2 ^ 32 = vb
  by_cases hu : ua = ub
  · by_cases ht : a.isDeleteMarker = b.isDeleteMarker
    · by_cases hv : va = vb <;> simp [hu, ht, hv]
    · cases ha : a.isDeleteMarker <;> cases hb : b.isDeleteMarker <;> simp_all
  · simp [hu, Ne.symm hu]

theorem lookup_resolveFreshest (flushed : List ProximaRecord) (oid : String) :
    (resolveFreshest (flushed.map (fun r => (.storage, hitOf r)))).lookup oid =
      ((flushed.filter (fun r => decide (r.oid = oid))).argmax msKey).map
        (fun r => (.storage, hitOf r)) := by
  rw [resolveFreshest, lookup_foldl_keyedStep, lookup_empty, filter_map,
    ← newest_eq_argmax supersedes_storage_iff, ← newest_map]
  rfl

/-! ## The unflushed hits -/

variable {snapshot : List WALVectorBatch} {oid : String}

theorem oid_of_lookup_unflushed {d : Dated}
    (h : (freshestUnflushedIndex snapshot).lookup oid = some d) : d.1.oid = oid := by
  rw [freshestUnflushedIndex, lookup_foldl_keyedStep, lookup_empty] at h
  have hmax := (newest_eq_argmax unflushedWins_iff _).symm.trans h
  simpa using (mem_filter.mp (argmax_mem hmax)).2

variable {h : OptimizedSearchRecord} {l : List OptimizedSearchRecord} {nowNs : Int}

theorem mem_of_lookup_insertHits (hl : (insertHits l nowNs).lookup oid = some h) :
    h ∈ l ∧ h.id = oid ∧ isRecordDead h.validToNs nowNs = false := by
  unfold insertHits at hl
  induction l using List.reverseRecOn with
  | nil => simp at hl
  | append_singleton l a ih =>
    rw [foldl_append, foldl_cons, foldl_nil] at hl
    have hold : _ → h ∈ l ++ [a] ∧ h.id = oid ∧ isRecordDead h.validToNs nowNs = false :=
      fun hl' => (ih hl').imp_left (fun hm => by simp [hm])
    split_ifs at hl with hdead
    · exact hold hl
    · by_cases hid : a.id = oid
      · subst hid
        rw [lookup_insert, Option.some.injEq] at hl
        subst hl
        exact ⟨by simp, rfl, by simp_all⟩
      · rw [lookup_insert_ne (Ne.symm hid)] at hl
        exact hold hl

theorem lookup_insertHits_of_mem (hm : h ∈ l) (hlive : isRecordDead h.validToNs nowNs = false) :
    ((insertHits l nowNs).lookup h.id).isSome = true := by
  have htomb : isWalTombstone h = false := by
    rw [isWalTombstone, decide_eq_false_iff_not]
    intro hz
    simp [hz, isRecordDead] at hlive
  unfold insertHits
  induction l using List.reverseRecOn with
  | nil => cases hm
  | append_singleton l a ih =>
    rw [foldl_append, foldl_cons, foldl_nil]
    by_cases hid : a.id = h.id
    · split_ifs with hdead
      · -- a dead hit adds nothing, so `h` is an earlier one
        rcases mem_append.mp hm with hm | hm
        · exact ih hm
        · rw [← mem_singleton.mp hm, htomb, hlive] at hdead
          cases hdead
      · rw [hid, lookup_insert]
        rfl
    · rcases mem_append.mp hm with hm | hm
      · split_ifs
        · exact ih hm
        · rw [lookup_insert_ne (Ne.symm hid)]
          exact ih hm
      · exact absurd (congrArg OptimizedSearchRecord.id (mem_singleton.mp hm).symm) hid

/-- The unflushed leg contributes an id exactly if the freshest unflushed version is live and
    scorable. -/
theorem lookup_unflushedHits {ranked : List OptimizedSearchRecord}
    (hr : ranked.Perm (scoredCandidates (freshestUnflushedIndex snapshot) nowNs))
    (oid : String) :
    (insertHits (ranked ++ markers (freshestUnflushedIndex snapshot) nowNs) nowNs).lookup oid =
      (((freshestUnflushedIndex snapshot).lookup oid).filter
        (fun d => !isRecordDead d.1.validToNs nowNs && isScorable d.1)).map
          (fun d => hitOf d.1) := by
  set index := freshestUnflushedIndex snapshot
  -- a live hit comes from the index entry of its own id
  have hsource : ∀ h ∈ ranked ++ markers index nowNs,
      isRecordDead h.validToNs nowNs = false →
      ∃ d, index.lookup h.id = some d ∧ h = hitOf d.1 ∧ isScorable d.1 = true := by
    intro h hm hlive
    rcases mem_append.mp hm with hm | hm
    · obtain ⟨r, hrm, rfl⟩ := mem_map.mp (hr.mem_iff.mp hm)
      obtain ⟨hmap, hcond⟩ := mem_filter.mp hrm
      obtain ⟨e, he, rfl⟩ := mem_map.mp hmap
      have hlook : index.lookup e.1 = some e.2 := mem_lookup_iff.mpr he
      have hoid : (hitOf e.2.1).id = e.1 := oid_of_lookup_unflushed hlook
      refine ⟨e.2, by rw [hoid, hlook], rfl, ?_⟩
      exact (Bool.and_eq_true_iff.mp hcond).2
    · obtain ⟨r, hrm, rfl⟩ := mem_map.mp hm
      have hdead := (mem_filter.mp hrm).2
      rw [show (zeroScoreMarker r).validToNs = r.validToNs from rfl, hdead] at hlive
      cases hlive
  refine Option.ext (fun h => ?_)
  rw [Option.map_eq_some_iff]
  constructor
  · intro hl
    obtain ⟨hm, rfl, hlive⟩ := mem_of_lookup_insertHits hl
    obtain ⟨d, hd, heq, hsc⟩ := hsource h hm hlive
    rw [heq] at hlive
    exact ⟨d, Option.filter_eq_some_iff.2 ⟨hd, by simpa [hsc] using hlive⟩, heq.symm⟩
  · rintro ⟨d, hd, rfl⟩
    obtain ⟨hd, hcond⟩ := Option.filter_eq_some_iff.1 hd
    have hmem : hitOf d.1 ∈ ranked ++ markers index nowNs := by
      refine mem_append_left _ (hr.mem_iff.mpr (mem_map.mpr ⟨d.1, ?_, rfl⟩))
      refine mem_filter.mpr ⟨mem_map.mpr ⟨⟨oid, d⟩, ?_, rfl⟩, hcond⟩
      exact mem_lookup_iff.mp hd
    have hlive : isRecordDead (hitOf d.1).validToNs nowNs = false := by
      simpa using (Bool.and_eq_true_iff.mp hcond).1
    have hsome := lookup_insertHits_of_mem hmem hlive
    rw [show (hitOf d.1).id = oid from oid_of_lookup_unflushed hd] at hsome
    obtain ⟨h, hl⟩ := Option.isSome_iff_exists.mp hsome
    obtain ⟨hm, rfl, hlive'⟩ := mem_of_lookup_insertHits hl
    obtain ⟨d', hd', heq, -⟩ := hsource h hm hlive'
    rw [hd, Option.some.injEq] at hd'
    rw [hl, heq, hd']

/-! ## The whole search -/

/-- What the search returns for an id, from the unflushed index's version `unflushed` and the
    flushed candidate `stored`. -/
def searchServed (unflushed stored : Option ProximaRecord) (nowNs : Int) : Option ProximaRecord :=
  match unflushed with
  | some u =>
    if isRecordDead u.validToNs nowNs then
      stored.filter (fun g =>
        decide (nsToMs u.updatedAtNs < nsToMs g.updatedAtNs) && !isRecordDead g.validToNs nowNs)
    else if isScorable u then some u else none
  | none => stored.filter (fun g => !isRecordDead g.validToNs nowNs)

/-- The reconciled map of `unfilteredSearch`. -/
def mergedHits (snapshot : List WALVectorBatch) (ranked : List OptimizedSearchRecord)
    (flushed : List ProximaRecord) (nowNs : Int) : KeyMap String OptimizedSearchRecord :=
  reconcileAgainstWalState (ranked ++ markers (freshestUnflushedIndex snapshot) nowNs)
    (flushed.map (fun r => (.storage, hitOf r)))
    (fun oid => unflushedOidState (freshestUnflushedIndex snapshot) oid nowNs) nowNs

section Merged

variable {snapshot : List WALVectorBatch} {ranked : List OptimizedSearchRecord}
  {flushed : List ProximaRecord} {nowNs : Int}
  (hr : ranked.Perm (scoredCandidates (freshestUnflushedIndex snapshot) nowNs))

include hr

theorem lookup_mergedHits (oid : String) : (mergedHits snapshot ranked flushed nowNs).lookup oid =
      ((((freshestUnflushedIndex snapshot).lookup oid).filter
        (fun d => !isRecordDead d.1.validToNs nowNs && isScorable d.1)).map (fun d => hitOf d.1)).or
      ((((flushed.filter (fun r => decide (r.oid = oid))).argmax msKey).map hitOf).filter
        (keeps (unflushedOidState (freshestUnflushedIndex snapshot) oid nowNs))) := by
  rw [mergedHits, reconcileAgainstWalState, lookup_foldl_fillAbsent, lookup_mapValues,
    lookup_resolveFreshest, lookup_unflushedHits hr, Option.map_map]
  rfl

theorem id_of_lookup_mergedHits
    (hl : (mergedHits snapshot ranked flushed nowNs).lookup oid = some h) : h.id = oid := by
  rw [lookup_mergedHits hr, Option.or_eq_some_iff] at hl
  rcases hl with hl | ⟨-, hl⟩
  · obtain ⟨d, hd, rfl⟩ := Option.map_eq_some_iff.mp hl
    exact oid_of_lookup_unflushed (Option.filter_eq_some_iff.mp hd).1
  · obtain ⟨r, hr', rfl⟩ := Option.map_eq_some_iff.mp (Option.filter_eq_some_iff.mp hl).1
    simpa using (mem_filter.mp (argmax_mem hr')).2

theorem returned_iff_lookup (oid : String) (r : ProximaRecord) :
    (∃ hit ∈ unfilteredSearch snapshot ranked flushed nowNs, hit.id = oid ∧ hit.record = r) ↔
      ∃ hit, (mergedHits snapshot ranked flushed nowNs).lookup oid = some hit ∧
        isRecordDead hit.validToNs nowNs = false ∧ hit.record = r := by
  constructor
  · rintro ⟨hit, hm, rfl, rfl⟩
    obtain ⟨hmap, hlive⟩ := mem_filter.mp hm
    obtain ⟨e, he, rfl⟩ := mem_map.mp hmap
    have hlook : (mergedHits snapshot ranked flushed nowNs).lookup e.1 = some e.2 :=
      mem_lookup_iff.mpr he
    rw [id_of_lookup_mergedHits hr hlook]
    exact ⟨e.2, hlook, by simpa using hlive, rfl⟩
  · rintro ⟨hit, hlook, hlive, rfl⟩
    refine ⟨hit, ?_, id_of_lookup_mergedHits hr hlook, rfl⟩
    refine mem_filter.mpr ⟨mem_map.mpr ⟨⟨oid, hit⟩, ?_, rfl⟩, by simp [hlive]⟩
    exact mem_lookup_iff.mp hlook

theorem returned_iff (oid : String) (r : ProximaRecord) :
    (∃ hit ∈ unfilteredSearch snapshot ranked flushed nowNs, hit.id = oid ∧ hit.record = r) ↔
      searchServed (((freshestUnflushedIndex snapshot).lookup oid).map Prod.fst)
        ((flushed.filter (fun r => decide (r.oid = oid))).argmax msKey) nowNs = some r := by
  rw [returned_iff_lookup hr, lookup_mergedHits hr, unflushedOidState]
  generalize (flushed.filter (fun r => decide (r.oid = oid))).argmax msKey = stored
  cases (freshestUnflushedIndex snapshot).lookup oid with
  | none =>
    -- only storage knows the id
    cases stored with
    | none => simp [searchServed]
    | some g => simp [searchServed, keeps, Option.filter_some, and_comm]
  | some d =>
    cases hdead : isRecordDead d.1.validToNs nowNs with
    | true =>
      cases stored with
      | none => simp [searchServed, hdead, Option.filter_some]
      | some g =>
        by_cases hms : nsToMs d.1.updatedAtNs < nsToMs g.updatedAtNs
        · simp [searchServed, keeps, hdead, Option.filter_some, hitOf, hms]
        · simp [searchServed, keeps, hdead, Option.filter_some, hitOf, hms]
    | false =>
      cases hsc : isScorable d.1 with
      | true => simp [searchServed, hdead, hsc, Option.filter_some]
      | false => cases stored <;> simp [searchServed, keeps, hdead, hsc, Option.filter_some]

end Merged

end ProximaDb.Search
