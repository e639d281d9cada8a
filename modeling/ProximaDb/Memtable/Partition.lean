/-
  ProximaDb.Memtable.Partition

  One collection's partition of the memtable: the unflushed batches, each with its insertion
  sequence, the id index, the statistics and the lazily built scan index, and the read surfaces
  over them. Where the source iterates over a hash map the model takes the iteration order as an
  argument.
-/
import ProximaDb.Records
import ProximaDb.Lib.KeyedFold
import ProximaDb.Lib.Sorting

namespace ProximaDb.Memtable

open ProximaDb.Lib

/-! ## State -/

/-- A batch as the write path hands it over.  `timestamp` is its wall-clock time. -/
structure WALVectorBatch where
  batchId : String
  vectorRecords : List ProximaRecord
  timestamp : Int := 0
  totalSizeBytes : Nat := 0
  isFlushed : Bool := false
deriving DecidableEq

/-- Where a record sits: the key of its batch and its index there. -/
structure RecordLocator where
  batchKey : String
  idx : Nat
deriving DecidableEq

/-- The deduplicated, time-ordered projection that serves paginated scans; `ordered` is the B-tree
    map as its sorted list of entries. -/
structure ScanIndex where
  ordered : List ((Int × String) × RecordLocator)
  hasEmptyOid : Bool
deriving DecidableEq

/-- The batches by id, with their insertion sequence. -/
abbrev BatchMap := KeyMap String (WALVectorBatch × Nat)

abbrev BatchEntry := Sigma (fun _ : String => WALVectorBatch × Nat)

structure CollectionPartition where
  walBatches : BatchMap := ∅
  nextBatchSequence : Nat := 0
  vectorIdIndex : KeyMap String String := ∅
  totalSize : Nat := 0
  vectorCount : Nat := 0
  batchCount : Nat := 0
  scanIndex : Option ScanIndex := none

/-! ## Mutations -/

/-- The insert-only admission check, over the records still to be looked at. -/
def insertConflict (index : KeyMap String String) (requestIds : List String) :
    List ProximaRecord → Option String
  | [] => none
  | r :: rest =>
    if r.oid = "" then insertConflict index requestIds rest
    else if r.oid ∈ requestIds then
      some ("INSERT_CONFLICT: record '" ++ r.oid ++ "' appears more than once in insert batch")
    else if (index.lookup r.oid).isSome then
      some ("INSERT_CONFLICT: record '" ++ r.oid ++ "' already exists")
    else insertConflict index (r.oid :: requestIds) rest

namespace CollectionPartition

/-- Point every non-empty id of a batch at it. -/
def indexRecords (index : KeyMap String String) (batchId : String)
    (records : List ProximaRecord) : KeyMap String String :=
  records.foldl (fun m r => if r.oid = "" then m else m.insert r.oid batchId) index

def unindexRecords (index : KeyMap String String) (records : List ProximaRecord) :
    KeyMap String String :=
  records.foldl (fun m r => if r.oid = "" then m else m.erase r.oid) index

/-- Forget the ids of a removed batch that the index still points at it. -/
def unindexOwned (index : KeyMap String String) (batchId : String)
    (records : List ProximaRecord) : KeyMap String String :=
  records.foldl
    (fun m r => if r.oid ≠ "" ∧ m.lookup r.oid = some batchId then m.erase r.oid else m) index

/-- `add_batch_internal` once the admission check has passed. -/
def store (p : CollectionPartition) (batch : WALVectorBatch) : CollectionPartition where
  walBatches := p.walBatches.insert batch.batchId (batch, p.nextBatchSequence)
  nextBatchSequence := p.nextBatchSequence + 1
  vectorIdIndex := indexRecords p.vectorIdIndex batch.batchId batch.vectorRecords
  totalSize := p.totalSize + batch.totalSizeBytes
  vectorCount := p.vectorCount + batch.vectorRecords.length
  batchCount := p.batchCount + 1
  scanIndex := none

def addBatchInternal (p : CollectionPartition) (batch : WALVectorBatch) (insertOnly : Bool) :
    Except String CollectionPartition :=
  if insertOnly then
    match insertConflict p.vectorIdIndex [] batch.vectorRecords with
    | some message => .error message
    | none => .ok (p.store batch)
  else .ok (p.store batch)

def addBatch (p : CollectionPartition) (batch : WALVectorBatch) : Except String CollectionPartition :=
  p.addBatchInternal batch false

def addBatchInsertOnly (p : CollectionPartition) (batch : WALVectorBatch) :
    Except String CollectionPartition :=
  p.addBatchInternal batch true

/-- `remove_batch`: roll one batch back. -/
def removeBatch (p : CollectionPartition) (collectionId batchId : String) :
    Except String CollectionPartition :=
  match p.walBatches.lookup batchId with
  | none => .error ("Batch " ++ batchId ++ " not found in collection " ++ collectionId)
  | some (batch, _) =>
    .ok { p with
      walBatches := p.walBatches.erase batchId
      vectorCount := p.vectorCount - batch.vectorRecords.length
      totalSize := p.totalSize - batch.totalSizeBytes
      batchCount := p.batchCount - 1
      vectorIdIndex := unindexOwned p.vectorIdIndex batchId batch.vectorRecords
      scanIndex := none }

/-- Take one flushed batch out, counting its records and bytes. -/
def clearOne (acc : CollectionPartition × Nat × Nat) (batchId : String) :
    CollectionPartition × Nat × Nat :=
  match acc.1.walBatches.lookup batchId with
  | none => acc
  | some (batch, _) =>
    ({ acc.1 with
        walBatches := acc.1.walBatches.erase batchId
        vectorIdIndex := unindexRecords acc.1.vectorIdIndex batch.vectorRecords
        batchCount := acc.1.batchCount - 1 },
      acc.2.1 + batch.vectorRecords.length, acc.2.2 + batch.totalSizeBytes)

/-- `clear_flushed`: drop every batch marked as flushed. -/
def clearFlushed (p : CollectionPartition) : CollectionPartition × Nat :=
  let flushed := (p.walBatches.entries.filter (fun e => e.2.1.isFlushed)).map Sigma.fst
  let acc := flushed.foldl clearOne (p, 0, 0)
  ({ acc.1 with
      vectorCount := acc.1.vectorCount - acc.2.1
      totalSize := acc.1.totalSize - acc.2.2
      scanIndex := if 0 < acc.2.1 then none else acc.1.scanIndex }, acc.2.1)

/-- `mark_all_batches_as_flushed`. -/
def markAllFlushed (p : CollectionPartition) : CollectionPartition :=
  { p with
    walBatches := mapValues (fun b => ({ b.1 with isFlushed := true }, b.2)) p.walBatches
    scanIndex := none }

end CollectionPartition

/-! ## The winner rule -/

/-- The memtable's total order: last update, tombstone on a tie, then version and batch sequence. -/
def mvccIsNewer (candidate : ProximaRecord) (candidateBatchSeq : Nat) (current : ProximaRecord)
    (currentBatchSeq : Nat) : Bool :=
  if candidate.updatedAtNs ≠ current.updatedAtNs then
    decide (current.updatedAtNs < candidate.updatedAtNs)
  else if candidate.isDeleteMarker ≠ current.isDeleteMarker then candidate.isDeleteMarker
  else
    decide (toLex (current.recordVersion, currentBatchSeq) <
      toLex (candidate.recordVersion, candidateBatchSeq))

/-- A version with the sequence of the batch that holds it. -/
abbrev Versioned := ProximaRecord × Nat

def isNewer (candidate current : Versioned) : Bool :=
  mvccIsNewer candidate.1 candidate.2 current.1 current.2

def mvccKey (v : Versioned) : (ℤ ×ₗ Bool ×ₗ ℕ) ×ₗ ℕ :=
  toLex (v.1.freshKey, v.2)

theorem mvccKey_lt_iff (a b : ProximaRecord) (seq : Nat) :
    mvccKey (a, seq) < mvccKey (b, seq) ↔ a.freshKey < b.freshKey := by
  simp [mvccKey, Prod.Lex.toLex_lt_toLex]

theorem isNewer_iff (candidate current : Versioned) :
    isNewer candidate current = true ↔ mvccKey current < mvccKey candidate := by
  obtain ⟨c, cs⟩ := candidate
  obtain ⟨d, ds⟩ := current
  simp only [isNewer, mvccIsNewer, mvccKey, ProximaRecord.freshKey, Prod.Lex.toLex_lt_toLex,
    EmbeddingLike.apply_eq_iff_eq, Prod.mk.injEq]
  by_cases hu : c.updatedAtNs = d.updatedAtNs
  · by_cases ht : c.isDeleteMarker = d.isDeleteMarker
    · simp [hu, ht]
    · cases hc : c.isDeleteMarker <;> cases hd : d.isDeleteMarker <;> simp_all
  · simp [hu, Ne.symm hu]

/-! ## Reading the batches -/

/-- The records of a batch, tagged with its sequence. -/
def tagged (e : BatchEntry) : List Versioned :=
  e.2.1.vectorRecords.map (fun r => (r, e.2.2))

/-- All records in the order an iteration over the batches visits them. -/
def visited (order : List BatchEntry) : List Versioned :=
  order.flatMap tagged

def visitedOf (order : List BatchEntry) (oid : String) : List Versioned :=
  (visited order).filter (fun v => decide (v.1.oid = oid))

/-- `latest_version_by_id`: the winner, tombstones and expired versions included. -/
def latestVersionById (order : List BatchEntry) (vectorId : String) : Option ProximaRecord :=
  if vectorId = "" then none
  else (newest isNewer (visitedOf order vectorId)).map Prod.fst

/-- `vector_by_id`: the winner unless it has expired. -/
def vectorById (order : List BatchEntry) (vectorId : String) (nowNs : Int) :
    Option ProximaRecord :=
  (latestVersionById order vectorId).filter (fun r => !r.isExpired nowNs)

/-- The map `get_all_vectors` builds: the latest version of each non-empty id. -/
def idToLatest (order : List BatchEntry) : KeyMap String Versioned :=
  ((visited order).filter (fun v => decide (v.1.oid ≠ ""))).foldl
    (keyedStep (fun v => v.1.oid) (keepNewer isNewer)) ∅

/-- Rows without an id are never deduplicated. -/
def withoutId (order : List BatchEntry) : List ProximaRecord :=
  ((visited order).map Prod.fst).filter (fun r => decide (r.oid = ""))

def getAllVectors (order : List BatchEntry) (nowNs : Int) : List ProximaRecord :=
  ((idToLatest order).entries.map (fun e => e.2.1)).filter (fun r => !r.isExpired nowNs) ++
    (withoutId order).filter (fun r => !r.isExpired nowNs)

/-! ## The scan index -/

/-- What `rebuild_scan_index` remembers of an id's winner: the comparison key and where the record
    is. -/
structure ScanWinner where
  updatedAtNs : Int
  isTombstone : Bool
  recordVersion : Nat
  batchSeq : Nat
  locator : RecordLocator
deriving DecidableEq

/-- A visited record together with where it is. -/
abbrev Located := Versioned × RecordLocator

/-- The records of a batch with their locators. -/
def located (e : BatchEntry) : List Located :=
  e.2.1.vectorRecords.zipIdx.map (fun x => ((x.1, e.2.2), ⟨e.1, x.2⟩))

def ScanWinner.of (x : Located) : ScanWinner where
  updatedAtNs := x.1.1.updatedAtNs
  isTombstone := x.1.1.isDeleteMarker
  recordVersion := x.1.1.recordVersion
  batchSeq := x.1.2
  locator := x.2

/-- The winner comparison as `rebuild_scan_index` inlines it. -/
def scanIsNewer (rec : ProximaRecord) (batchSeq : Nat) (existing : ScanWinner) : Bool :=
  if rec.updatedAtNs ≠ existing.updatedAtNs then decide (existing.updatedAtNs < rec.updatedAtNs)
  else if rec.isDeleteMarker ≠ existing.isTombstone then rec.isDeleteMarker
  else
    decide (toLex (existing.recordVersion, existing.batchSeq) <
      toLex (rec.recordVersion, batchSeq))

def scanUpdate (current : Option ScanWinner) (x : Located) : Option ScanWinner :=
  match current with
  | none => some (ScanWinner.of x)
  | some existing =>
    if scanIsNewer x.1.1 x.1.2 existing then some (ScanWinner.of x) else some existing

/-- The `winners` map of `rebuild_scan_index`. -/
def scanWinners (order : List BatchEntry) : KeyMap String ScanWinner :=
  ((order.flatMap located).filter (fun x => decide (x.1.1.oid ≠ ""))).foldl
    (keyedStep (fun x => x.1.1.oid) scanUpdate) ∅

def pageKey (k : Int × String) : ℤ ×ₗ String := toLex k

/-- `rebuild_scan_index`. -/
def buildScanIndex (order : List BatchEntry) : ScanIndex where
  ordered := sortBy (fun x => pageKey x.1)
    ((scanWinners order).entries.map (fun e => ((e.2.updatedAtNs, e.1), e.2.locator)))
  hasEmptyOid := (visited order).any (fun v => decide (v.1.oid = ""))

namespace CollectionPartition

/-- The record a locator points at, if its batch still holds one there. -/
def resolve (p : CollectionPartition) (locator : RecordLocator) : Option ProximaRecord :=
  (p.walBatches.lookup locator.batchKey).bind (fun b => b.1.vectorRecords[locator.idx]?)

/-- The lazy rebuild at the head of `scan_paginated`. -/
def ensureScanIndex (p : CollectionPartition) (order : List BatchEntry) : CollectionPartition :=
  match p.scanIndex with
  | some _ => p
  | none => { p with scanIndex := some (buildScanIndex order) }

/-- The version the cached index records for an id. -/
def indexedVersion (p : CollectionPartition) (oid : String) : Option ProximaRecord :=
  (p.scanIndex.bind (fun index => index.ordered.find? (fun x => decide (x.1.2 = oid)))).bind
    (fun x => p.resolve x.2)

end CollectionPartition

/-- Whether a pagination key lies strictly after the cursor. -/
def isAfter (after : Option (Int × String)) (k : Int × String) : Bool :=
  match after with
  | none => true
  | some a => decide (pageKey a < pageKey k)

/-- `scan_paginated_legacy`: a page of `get_all_vectors`, which reads its own clock. -/
def scanPaginatedLegacy (order : List BatchEntry) (after : Option (Int × String)) (limit : Nat)
    (predicate : ProximaRecord → Bool) (clockNs : Int) : List ProximaRecord :=
  let records := sortBy (fun r => pageKey (r.updatedAtNs, r.oid)) (getAllVectors order clockNs)
  ((records.filter (fun r => isAfter after (r.updatedAtNs, r.oid))).filter predicate).take limit

namespace CollectionPartition

/-- `serve_from_index`; without a predicate `predicate` is constantly true. -/
def serveFromIndex (p : CollectionPartition) (order : List BatchEntry)
    (after : Option (Int × String)) (limit : Nat) (predicate : ProximaRecord → Bool)
    (nowNs clockNs : Int) : List ProximaRecord :=
  match p.scanIndex with
  | none => scanPaginatedLegacy order after limit predicate clockNs
  | some index =>
    if index.hasEmptyOid then scanPaginatedLegacy order after limit predicate clockNs
    else
      let candidates :=
        (index.ordered.filter (fun x => isAfter after x.1)).filterMap (fun x => p.resolve x.2)
      ((candidates.filter (fun r => !r.isExpired nowNs)).filter predicate).take limit

end CollectionPartition

/-! ## Similarity search -/

def searchValues (r : ProximaRecord) : List UInt32 :=
  match r.embeddings with
  | [] => []
  | cell :: _ => cell.asFp32Slice

/-- What the first pass of the search takes for a deletion: no values, and `valid_to` not in the
    future. -/
def isSearchTombstone (r : ProximaRecord) (nowNs : Int) : Bool :=
  (searchValues r).isEmpty && r.validToNs.any (fun e => decide (e ≤ nowNs))

/-- One record's effect on its id's entry: a newer tombstone removes the entry, and with it the
    memory that there was one. -/
def searchUpdate (nowNs : Int) (current : Option Versioned) (v : Versioned) : Option Versioned :=
  let newer := match current with
    | some existing => isNewer v existing
    | none => true
  if newer then (if isSearchTombstone v.1 nowNs then none else some v) else current

/-- The `id_to_latest` map after the first pass of `search_vectors` without a filter. -/
def searchFirstPass (order : List BatchEntry) (nowNs : Int) : KeyMap String Versioned :=
  ((visited order).filter (fun v => decide (v.1.oid ≠ ""))).foldl
    (keyedStep (fun v => v.1.oid) (searchUpdate nowNs)) ∅

/-- `search_vectors`: the records it returns, with what the distance function says. -/
def searchVectors {σ : Type} (distance : List UInt32 → σ) (order : List BatchEntry)
    (nowNs : Int) : List (σ × ProximaRecord) :=
  let final := ((searchFirstPass order nowNs).entries.map (fun e => e.2.1)).filter
    (fun r => !r.isExpired nowNs)
  let noId := (withoutId order).filter
    (fun r => !(searchValues r).isEmpty && !r.isExpired nowNs)
  (final ++ noId).map (fun r => (distance (searchValues r), r))

end ProximaDb.Memtable

namespace ProximaDb.WriteAheadLog

open ProximaDb.Lib ProximaDb.Memtable

/-- Whether an unflushed version supersedes another on the search path. -/
def unflushedSupersedes (candidate current : ProximaRecord) : Bool :=
  candidate.supersedes current

/-- A record of a snapshot with the time of the batch that holds it: what a `(batch_idx,
    record_idx)` entry of the index points at. -/
abbrev Dated := ProximaRecord × Int

/-- The records of a batch, tagged with its time. -/
def dated (batch : WALVectorBatch) : List Dated :=
  batch.vectorRecords.map (fun r => (r, batch.timestamp))

/-- Freshness, with a full tie going to the later-written batch. -/
def unflushedWins (candidate current : Dated) : Bool :=
  unflushedSupersedes candidate.1 current.1 ||
    (!unflushedSupersedes current.1 candidate.1 && decide (current.2 < candidate.2))

def datedKey (d : Dated) : (ℤ ×ₗ Bool ×ₗ ℕ) ×ₗ ℤ :=
  toLex (d.1.freshKey, d.2)

theorem unflushedWins_iff (candidate current : Dated) :
    unflushedWins candidate current = true ↔ datedKey current < datedKey candidate := by
  have h₁ := ProximaRecord.supersedes_iff candidate.1 current.1
  have h₂ := ProximaRecord.supersedes_iff current.1 candidate.1
  simp only [unflushedWins, unflushedSupersedes, datedKey, Prod.Lex.toLex_lt_toLex,
    Bool.or_eq_true, Bool.and_eq_true, Bool.not_eq_true', decide_eq_true_eq, h₁,
    ← Bool.not_eq_true, h₂, not_lt]
  constructor
  · rintro (h | ⟨hle, ht⟩)
    · exact Or.inl h
    · rcases hle.lt_or_eq with hlt | heq
      · exact Or.inl hlt
      · exact Or.inr ⟨heq, ht⟩
  · rintro (h | ⟨heq, ht⟩)
    · exact Or.inl h
    · exact Or.inr ⟨heq.le, ht⟩

def freshestUnflushedIndex (snapshot : List WALVectorBatch) : KeyMap String Dated :=
  ((snapshot.flatMap dated).filter (fun d => decide (d.1.oid ≠ ""))).foldl
    (keyedStep (fun d => d.1.oid) (keepNewer unflushedWins)) ∅

end ProximaDb.WriteAheadLog
