/-
  ProximaDb.Mvcc.ReadPreservation

  Compaction against reads. Reads serve the freshest version of an id unless it is dead;
  compaction keeps the earliest copy of the last gap-free version and drops the id altogether once
  any of its versions has expired.
-/
import ProximaDb.Mvcc.Agreement

namespace ProximaDb.Mvcc

open ProximaDb.Lib ProximaDb.Vectors

variable {nowNs readNs : Int} {records versions out : List ProximaRecord} {oid : String}

/-! ## What compaction hands on -/

/-- Age from which a compacted tombstone counts as removed. -/
def tombstoneRetentionNs : Int := 60 * 60 * 1000000000

def saturatingSub (a b : Int) : Int :=
  max (-(2 ^ 63)) (min (a - b) (2 ^ 63 - 1))

/-- The fields of `PreparedCompactionRecords`. -/
structure PreparedCompactionRecords where
  records : List ProximaRecord
  deletedVectorIds : List String
  mergedVectors : List ProximaRecord
  expiredRecordsCount : Nat
  tombstonesRemovedCount : Nat

/-- Expired rows whose id is reported as deleted: sorted, without repetitions. -/
def deletedVectorIds (nowNs : Int) (records : List ProximaRecord) : List String :=
  (sortBy id ((records.filter (fun r => r.isExpired nowNs)).map ProximaRecord.oid)).dedup

/-- `prepare_canonical_records`, given what the resolver returned for the batch. -/
def prepareCanonicalRecords (nowNs : Int) (trackMerged : Bool)
    (records resolved : List ProximaRecord) : PreparedCompactionRecords where
  records := resolved
  deletedVectorIds := deletedVectorIds nowNs records
  mergedVectors := if trackMerged then resolved.filter (fun r => !r.embeddings.isEmpty) else []
  expiredRecordsCount := records.countP (fun r => r.isExpired nowNs && !r.embeddings.isEmpty)
  tombstonesRemovedCount := records.countP (fun r => r.isExpired nowNs && r.embeddings.isEmpty &&
    decide (tombstoneRetentionNs ≤ saturatingSub nowNs r.createdAtNs))

/-- `prepared` is a possible result of `prepare_canonical_records`. -/
def Prepares (nowNs : Int) (trackMerged : Bool) (records : List ProximaRecord)
    (prepared : PreparedCompactionRecords) : Prop :=
  ∃ resolved, Resolves nowNs records resolved ∧
    prepared = prepareCanonicalRecords nowNs trackMerged records resolved

theorem Prepares.resolves {trackMerged : Bool} {prepared : PreparedCompactionRecords}
    (h : Prepares nowNs trackMerged records prepared) :
    Resolves nowNs records prepared.records := by
  obtain ⟨resolved, hres, rfl⟩ := h
  exact hres

/-! ## Reads before and after -/

/-- The live record a read at `readNs` serves for an id, over the given versions. -/
def liveRead (readNs : Int) (oid : String) (records : List ProximaRecord) : Option ProximaRecord :=
  (freshestVersion (versionsOf oid records)).filter (fun r => !r.isDead readNs)

/-- Compaction at `nowNs` changes no read at `readNs` of a versioned id. -/
def ReadsPreserved (nowNs readNs : Int) (trackMerged : Bool) (records : List ProximaRecord) :
    Prop :=
  ∀ prepared, Prepares nowNs trackMerged records prepared →
    ∀ oid, isAppendOnlyOid oid = false →
      liveRead readNs oid prepared.records = liveRead readNs oid records

/-- On one id's versions: a live freshest version is the only survivor of compaction; a dead one is
    replaced by nothing live. -/
def FreshestSurvives (nowNs readNs : Int) (versions : List ProximaRecord) : Prop :=
  ∀ w, freshestVersion versions = some w →
    if w.isDead readNs then ∀ s, Survivor nowNs timeStamp versions s → s.isDead readNs = true
    else Survivor nowNs timeStamp versions w ∧
      ∀ s, Survivor nowNs timeStamp versions s → s = w

theorem FreshestSurvives.read_eq (h : FreshestSurvives nowNs readNs versions)
    {kept : List ProximaRecord} (hk : Outcome nowNs timeStamp versions kept) :
    (freshestVersion kept).filter (fun r => !r.isDead readNs) =
      (freshestVersion versions).filter (fun r => !r.isDead readNs) := by
  cases hw : freshestVersion versions with
  | none =>
    rw [freshestVersion_eq_argmax, List.argmax_eq_none] at hw
    subst hw
    cases hk with
    | kept hs => cases hs.mem
    | dropped _ => rfl
  | some w =>
    have hcase := h w hw
    by_cases hdead : w.isDead readNs = true
    · rw [if_pos hdead] at hcase
      cases hk with
      | @kept s hs => simp [Option.filter_some, hdead, hcase s hs]
      | dropped _ => simp [Option.filter_some, hdead]
    · rw [if_neg hdead] at hcase
      cases hk with
      | @kept s hs => simp [hcase.2 s hs]
      | dropped hnone => exact absurd hcase.1 (hnone w)

/-- Conversely, if every outcome of one id reads like its versions, then its freshest version
    survives in the sense above. -/
theorem freshestSurvives_of_read_eq (hread : ∀ kept, Outcome nowNs timeStamp versions kept →
      (freshestVersion kept).filter (fun r => !r.isDead readNs) =
        (freshestVersion versions).filter (fun r => !r.isDead readNs)) :
    FreshestSurvives nowNs readNs versions := by
  intro w hw
  have hkept : ∀ s, Survivor nowNs timeStamp versions s →
      (some s).filter (fun r => !r.isDead readNs) =
        (some w).filter (fun r => !r.isDead readNs) := by
    intro s hs
    have := hread [s] (Outcome.kept hs)
    rwa [freshestVersion_singleton, hw] at this
  by_cases hdead : w.isDead readNs = true
  · rw [if_pos hdead]
    intro s hs
    have := hkept s hs
    by_contra hlive
    simp [Option.filter_some, hdead, hlive] at this
  · rw [if_neg hdead]
    have huniq : ∀ s, Survivor nowNs timeStamp versions s → s = w := by
      intro s hs
      have := hkept s hs
      by_cases hsd : s.isDead readNs = true
      · simp [Option.filter_some, hdead, hsd] at this
      · simpa [Option.filter_some, hdead, hsd] using this
    refine ⟨?_, huniq⟩
    -- the id may not disappear, so there is a survivor, and it is `w`
    by_contra hno
    have hnone : ∀ s, ¬ Survivor nowNs timeStamp versions s := fun s hs => hno (huniq s hs ▸ hs)
    have := hread [] (Outcome.dropped hnone)
    rw [hw] at this
    simp [Option.filter_some, hdead] at this

/-- Compaction preserves what reads see exactly when, for every versioned id, a live freshest
    version is the one survivor and a dead one is not replaced. -/
theorem readsPreserved_iff (nowNs readNs : Int) (trackMerged : Bool)
    (records : List ProximaRecord) : ReadsPreserved nowNs readNs trackMerged records ↔
      ∀ oid, isAppendOnlyOid oid = false →
        FreshestSurvives nowNs readNs (versionsOf oid records) := by
  constructor
  · intro h oid hver
    apply freshestSurvives_of_read_eq
    intro kept hk
    -- each outcome of the id is reached by some compaction of the whole batch
    obtain ⟨out, hout, hkeep⟩ : ∃ out, Resolves nowNs records out ∧ versionsOf oid out = kept := by
      cases hk with
      | kept hs => exact exists_resolves_of_survivor hver hs
      | dropped hnone =>
        refine ⟨_, resolves_resolveSortedBatch nowNs records, ?_⟩
        have := (resolves_resolveSortedBatch nowNs records).versioned hver
        generalize versionsOf oid (resolveSortedBatch nowNs records) = out at this
        cases this with
        | kept hs => exact absurd hs (hnone _)
        | dropped _ => rfl
    have hread := h _ ⟨out, hout, rfl⟩ oid hver
    rwa [liveRead, liveRead, prepareCanonicalRecords, hkeep] at hread
  · intro h prepared hprep oid hver
    exact (h oid hver).read_eq (hprep.resolves.versioned hver)

/-- Written, deleted, and written again one nanosecond later. -/
def deletedThenReinserted : List ProximaRecord :=
  [{ oid := "a", recordVersion := 1, createdAtNs := 1, updatedAtNs := 1 },
   ProximaRecord.tombstone "a" 2,
   { oid := "a", recordVersion := 1, createdAtNs := 3, updatedAtNs := 3 }]

/-- Before compaction a read at time 10 serves the re-inserted record; the compaction at time 10
    leaves nothing to read. -/
theorem compaction_loses_deletedThenReinserted :
    ∃ prepared, Prepares 10 false deletedThenReinserted prepared ∧ isAppendOnlyOid "a" = false ∧
      liveRead 10 "a" deletedThenReinserted = deletedThenReinserted[2]? ∧
      prepared.records = [] ∧ liveRead 10 "a" prepared.records = none :=
  ⟨_, ⟨_, resolves_resolveSortedBatch 10 deletedThenReinserted, rfl⟩, by decide, by decide,
    by decide, by decide⟩

end ProximaDb.Mvcc
