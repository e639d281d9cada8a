/-
  ProximaDb.Records

  The canonical record envelope and the predicates every layer above reads it through: which
  version a record is, whether it is a tombstone, whether it has expired and whether a read may
  return it; and get-by-id, with its freshness order between the stored versions.
-/
import ProximaDb.Lib.FirstMax

namespace ProximaDb

/-! ## The record envelope -/

/-- The typed payload of an embedding cell (`EmbeddingValues`). -/
inductive EmbeddingValues where
  | fp32 (values : List UInt32)
  | fp16 (values : List UInt16)
  | bf16 (values : List UInt16)
  | int8Scalar (values : List UInt8) (scale : UInt32) (zeroPoint : UInt8)
  | uInt8Scalar (values : List UInt8) (scale : UInt32) (zeroPoint : UInt8)
deriving DecidableEq

structure EmbeddingCell where
  values : EmbeddingValues
deriving DecidableEq

/-- Number of scalars in the payload (`EmbeddingValues::len`). -/
def EmbeddingValues.len : EmbeddingValues → Nat
  | .fp32 v => v.length
  | .fp16 v => v.length
  | .bf16 v => v.length
  | .int8Scalar v _ _ => v.length
  | .uInt8Scalar v _ _ => v.length

/-- The borrowed fp32 view: empty for every other precision. -/
def EmbeddingCell.asFp32Slice (c : EmbeddingCell) : List UInt32 :=
  match c.values with
  | .fp32 v => v
  | _ => []

/-- A stored version of a logical record (`ProximaRecord`). `carried` stands for the fields no
    modelled function reads (tenancy, provenance, labels, topology, ...); it keeps two records with
    different contents different. -/
structure ProximaRecord where
  schemaVersion : Nat := 1
  oid : String
  recordVersion : Nat := 0
  createdAtNs : Int := 0
  updatedAtNs : Int := 0
  validFromNs : Option Int := none
  validToNs : Option Int := none
  origin : Option String := none
  props : List (String × List UInt8) := []
  embeddings : List EmbeddingCell := []
  carried : List UInt8 := []
deriving DecidableEq

/-! ## Liveness -/

/-- The dead-record rule on `valid_to_ns` alone (`is_record_dead`): `Some(0)` is a delete marker, `0
    < v < now` has expired. -/
def isRecordDead (validToNs : Option Int) (nowNs : Int) : Bool :=
  match validToNs with
  | some v => decide (v = 0) || (decide (0 < v) && decide (v < nowNs))
  | none => false

namespace ProximaRecord

/-- A delete marker in the encoding of the legacy vector paths. -/
def isTombstoneAt (r : ProximaRecord) (snapshotTimeNs : Int) : Bool :=
  r.validToNs.any (fun v => decide (v ≤ snapshotTimeNs)) && r.embeddings.isEmpty &&
    decide (r.origin = some "delete")

/-- `valid_from` is inclusive and `valid_to` exclusive. -/
def isVisibleAt (r : ProximaRecord) (snapshotTimeNs : Int) : Bool :=
  if r.isTombstoneAt snapshotTimeNs then false
  else
    r.validFromNs.all (fun v => decide (v ≤ snapshotTimeNs)) &&
      r.validToNs.all (fun v => decide (snapshotTimeNs < v))

/-- Whether a read at `nowNs` must not return the record. -/
def isDead (r : ProximaRecord) (nowNs : Int) : Bool :=
  !r.isVisibleAt nowNs

/-- The delete marker of the winner folds: `valid_to_ns == Some(0)`. -/
def isDeleteMarker (r : ProximaRecord) : Bool :=
  decide (r.validToNs = some 0)

/-- TTL expiry as the resolver and the memtable test it: `valid_to < now`. -/
def isExpired (r : ProximaRecord) (currentTimeNs : Int) : Bool :=
  r.validToNs.any (fun v => decide (v < currentTimeNs))

def tombstone (oid : String) (timestampNs : Int) : ProximaRecord :=
  { oid, createdAtNs := timestampNs, updatedAtNs := timestampNs, validToNs := some 0,
    origin := some "delete" }

/-! ## Freshness -/

/-- What the serving paths order versions by: last update, then delete markers over writes, then the
    record version. -/
def freshKey (r : ProximaRecord) : ℤ ×ₗ Bool ×ₗ ℕ :=
  toLex (r.updatedAtNs, toLex (r.isDeleteMarker, r.recordVersion))

/-- The freshness comparison the serving paths share, each under its own name. -/
def supersedes (candidate current : ProximaRecord) : Bool :=
  if candidate.updatedAtNs ≠ current.updatedAtNs then
    decide (current.updatedAtNs < candidate.updatedAtNs)
  else if candidate.isDeleteMarker ≠ current.isDeleteMarker then candidate.isDeleteMarker
  else decide (current.recordVersion < candidate.recordVersion)

theorem supersedes_iff (candidate current : ProximaRecord) :
    supersedes candidate current = true ↔ current.freshKey < candidate.freshKey := by
  unfold supersedes freshKey
  rw [Prod.Lex.toLex_lt_toLex, Prod.Lex.toLex_lt_toLex]
  by_cases hu : candidate.updatedAtNs = current.updatedAtNs
  · by_cases ht : candidate.isDeleteMarker = current.isDeleteMarker
    · simp [hu, ht]
    · -- only one of the two is a tombstone
      cases hc : candidate.isDeleteMarker <;> cases hd : current.isDeleteMarker <;>
        simp_all
  · simp [hu, Ne.symm hu]

end ProximaRecord

end ProximaDb

namespace ProximaDb.Vectors

open ProximaDb.Lib

/-! ## Freshness -/

/-- Whether `candidate` supersedes `current`: later update, then tombstone over write, then higher
    version. -/
def isFresher (candidate current : ProximaRecord) : Bool :=
  candidate.supersedes current

/-- The freshest of several versions of one id (`reduce` over `is_fresher`). -/
def freshestVersion (records : List ProximaRecord) : Option ProximaRecord :=
  newest isFresher records

theorem freshestVersion_eq_argmax (records : List ProximaRecord) :
    freshestVersion records = records.argmax ProximaRecord.freshKey :=
  newest_eq_argmax ProximaRecord.supersedes_iff records

@[simp] theorem freshestVersion_nil : freshestVersion [] = none := rfl

@[simp] theorem freshestVersion_singleton (r : ProximaRecord) : freshestVersion [r] = some r := rfl

/-! ## The read coordinator -/

def project (includeVector includeMetadata : Bool) (r : ProximaRecord) : ProximaRecord :=
  { r with
    embeddings := if includeVector then r.embeddings else []
    props := if includeMetadata then r.props else [] }

/-- Which record a point read serves, before projection. `unflushed` is the write buffer's winner,
    tombstones included; `stored` are the flushed versions. -/
def served (unflushed : Option ProximaRecord) (stored : List ProximaRecord) (nowNs : Int) :
    Option ProximaRecord :=
  match unflushed with
  | some w =>
    if !w.isDead nowNs then some w
    else
      -- a dead winner still yields to a live, strictly newer stored copy
      (freshestVersion stored).filter
        (fun f => !f.isDead nowNs && decide (w.updatedAtNs < f.updatedAtNs))
  | none => (freshestVersion stored).filter (fun f => !f.isDead nowNs)

/-- `VectorReadCoordinator::vector` over one id. -/
def vector (unflushed : Option ProximaRecord) (stored : List ProximaRecord) (nowNs : Int)
    (includeVector includeMetadata : Bool) : Option ProximaRecord :=
  (served unflushed stored nowNs).map (project includeVector includeMetadata)

/-- Insert-only conflict detection goes through the same read. -/
def contains (unflushed : Option ProximaRecord) (stored : List ProximaRecord) (nowNs : Int) :
    Bool :=
  (vector unflushed stored nowNs false false).isSome

end ProximaDb.Vectors
