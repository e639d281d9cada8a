/-
  ProximaDb.CanonicalWal.Appender

  The appender of a log (`FramedTableWalAppender`): what it holds in memory, the operations that
  run under the append lock, and the open that rebuilds it from the files. Each operation yields
  the actions it takes on the files, the appender afterwards and its result; how its reads,
  writes, syncs and renames go is an argument.
-/
import ProximaDb.CanonicalWal.Disk

namespace ProximaDb.CanonicalWal

open ProximaDb.Lib

/-- `u64::saturating_add(1)`. -/
def saturatingSucc (n : Nat) : Nat := min (n + 1) (2 ^ 64 - 1)

/-- What a merge-base checkpoint made durable for the truncation that follows it. -/
structure BranchFence where
  covered : List TenantCollection
  marked : List TenantCollection

/-- `FramedTableWalAppender`.  `pins` counts the holders of each pinned floor. -/
structure Appender where
  nextSequence : Nat
  atomicGroups : Bool
  poisoned : Bool
  collectionMax : KeyMap String Nat
  segmentBytes : Nat
  sealedList : List SegmentSummary
  active : SegmentSummary
  retainedFrom : Nat
  pins : KeyMap Nat Nat
  branchFence : Option BranchFence

/-- An operation's effect: actions on the files, the appender after it, the result. -/
structure Outcome (ρ : Type) where
  plan : List Action
  appender : Appender
  result : ρ

variable (C : WalCodec)

/-! ## Sealing the active file -/

/-- How writing the summary section goes. `unopened`: the file could not be opened or sized, and the
    length to roll back to stays `0`; `failed`: `written` bytes got out before the write or its sync
    failed. -/
inductive SectionIo where
  | skipped
  | written
  | unopened (rolledBack : Bool)
  | failed (written : Nat) (rolledBack : Bool)
deriving DecidableEq

structure RotateIo where
  summarySection : SectionIo
  renamed : Bool
deriving DecidableEq

/-- `append_summary_trailer` on an active file of `len` bytes. -/
def appendSummaryTrailer (io : SectionIo) (summary : SegmentSummary) (len : Nat) : List Action :=
  match io with
  | .skipped => []
  | .written => [.writeSection (encodeSummaryTrailer C summary), .sync]
  | .unopened rolledBack => if rolledBack then [.setLen 0] else []
  | .failed written rolledBack =>
    .writeSection ((encodeSummaryTrailer C summary).take written) ::
      if rolledBack then [.setLen len] else []

/-- `rotate_active`.  A failed rename leaves the section in the active file. -/
def rotateActive (io : RotateIo) (a : Appender) (len : Nat) : List Action × Appender :=
  match a.active.firstSeq with
  | none => ([], a)
  | some firstSeq =>
    if io.renamed then
      (appendSummaryTrailer C io.summarySection a.active len ++ [.rename firstSeq],
        { a with
          sealedList := a.sealedList ++ [{ a.active with path := .segment firstSeq }]
          active := SegmentSummary.new .active })
    else (appendSummaryTrailer C io.summarySection a.active len, a)

/-! ## Appending -/

inductive RollbackIo where
  | done
  | setLenFails
  | syncFails
deriving DecidableEq

inductive WriteIo where
  | done
  | openFails
  | writeFails (written : Nat) (rollback : RollbackIo)
  | syncFails (rollback : RollbackIo)
deriving DecidableEq

/-- `owner`: the writer fence still names this process. -/
structure AppendIo where
  owner : Bool
  write : WriteIo
  rotate : RotateIo
deriving DecidableEq

inductive AppendError where
  | fenced
  | poisoned
  | notEncoded
  | notOpened
  | rolledBack
  | indeterminate
deriving DecidableEq

/-- The entries of an append: consecutive sequences from `seq` on, in 64 bits. -/
def assignSequences (now : Nat) : Nat → List (CanonicalOperation × Option String) →
    List CanonicalWalEntry
  | _, [] => []
  | seq, (operation, tenantId) :: rest =>
    ⟨seq % 2 ^ 64, now, operation, tenantId⟩ :: assignSequences now (seq + 1) rest

/-- The frames of an append: one group frame, or a frame for each entry. -/
def framesOf (group : Bool) (entries : List CanonicalWalEntry) : List Frame :=
  match group, entries with
  | true, first :: rest => [.group first rest]
  | true, [] => []
  | false, entries => entries.map .single

/-- Their bytes; `none` when a payload does not fit a frame. -/
def encodeFrames (group : Bool) (entries : List CanonicalWalEntry) : Option Bytes :=
  if group then encodeGroupFrame C.toFrameCodec entries
  else (entries.mapM (encodeFrame C.toFrameCodec)).map List.flatten

def acknowledge (a : Appender) (entries : List CanonicalWalEntry) : Appender :=
  { a with
    nextSequence := (a.nextSequence + entries.length) % 2 ^ 64
    collectionMax := markEntries a.collectionMax entries
    active := entries.foldl SegmentSummary.observe a.active }

/-- Rolling the file back to its length before the append. -/
def rollback (preLen : Nat) : RollbackIo → List Action
  | .done => [.setLen preLen, .sync]
  | .setLenFails => []
  | .syncFails => [.setLen preLen]

/-- Writing the frames of `entries` behind `preLen` bytes: write, sync, and on success publish and
    seal the file if it has grown enough. -/
def writeFrames (io : AppendIo) (entries : List CanonicalWalEntry) (frames : Bytes) (a : Appender)
    (preLen : Nat) : Outcome (Except AppendError (List CanonicalWalEntry)) :=
  match io.write with
  | .openFails => ⟨[], a, .error .notOpened⟩
  | .writeFails written back =>
    -- a rollback that fails leaves the outcome unknown
    if back = .done then
      ⟨.write (frames.take written) :: rollback preLen back, a, .error .rolledBack⟩
    else
      ⟨.write (frames.take written) :: rollback preLen back, { a with poisoned := true },
        .error .indeterminate⟩
  | .syncFails back =>
    -- after a failed sync not even a rollback can be trusted
    ⟨.write frames :: rollback preLen back, { a with poisoned := true }, .error .indeterminate⟩
  | .done =>
    if 0 < a.segmentBytes ∧ a.segmentBytes ≤ preLen + frames.length then
      let rotated := rotateActive C io.rotate (acknowledge a entries) (preLen + frames.length)
      ⟨.write frames :: .sync :: rotated.1, rotated.2, .ok entries⟩
    else ⟨[.write frames, .sync], acknowledge a entries, .ok entries⟩

def appendEntries (io : AppendIo) (now : Nat)
    (operations : List (CanonicalOperation × Option String)) (group : Bool) (a : Appender)
    (d : Disk) : Outcome (Except AppendError (List CanonicalWalEntry)) :=
  if operations = [] then ⟨[], a, .ok []⟩
  else if io.owner = false then ⟨[], a, .error .fenced⟩
  else if a.poisoned then ⟨[], a, .error .poisoned⟩
  else
    let entries := assignSequences now (a.nextSequence + 1) operations
    match encodeFrames C group entries with
    | none => ⟨[], a, .error .notEncoded⟩
    | some frames => writeFrames C io entries frames a d.activeBytes.length

/-- `append_operations_atomic`: a single operation is atomic as it is. -/
def appendOperationsAtomic (io : AppendIo) (now : Nat)
    (operations : List (CanonicalOperation × Option String)) (a : Appender) (d : Disk) :
    Outcome (Except AppendError (List CanonicalWalEntry)) :=
  appendEntries C io now operations (decide (1 < operations.length)) a d

/-! ## Pins -/

/-- A read or a pin asked for entries the log no longer holds. -/
structure WalHistoryTruncated where
  since : Nat
  retainedFrom : Nat
deriving DecidableEq

/-- `pin_history`: the snapshot's LSN, clamped to the head, and the appender with the pin. -/
def pinHistory (snapshotLsn : Nat → Nat) (a : Appender) :
    Except WalHistoryTruncated (Nat × Appender) :=
  let lsn := min (snapshotLsn a.nextSequence) a.nextSequence
  let floor := saturatingSucc lsn
  if floor < a.retainedFrom then .error ⟨lsn, a.retainedFrom⟩
  else .ok (lsn, { a with pins := a.pins.insert floor ((a.pins.lookup floor).getD 0 + 1) })

/-- `WalHistoryPin::drop`. -/
def dropPin (floor : Nat) (a : Appender) : Appender :=
  match a.pins.lookup floor with
  | none => a
  | some count =>
    { a with
      pins := if count - 1 = 0 then a.pins.erase floor else a.pins.insert floor (count - 1) }

/-! ## Truncation -/

inductive MarkerIo where
  | done
  | fails
  | directorySyncFails
deriving DecidableEq

/-- How a truncation's I/O goes; `deletes` tells the segments it can delete. -/
structure TruncateIo where
  marker : MarkerIo
  deletes : Nat → Bool

structure WalTruncation where
  segments : Nat
  truncatedThrough : Nat
deriving DecidableEq

inductive TruncateError where
  | uncovered (through : Nat) (collections : List TenantCollection)
  | unmarked (through : Nat) (collections : List TenantCollection)
  | marker
  | undeleted (through : Nat) (segments : List Nat)
deriving DecidableEq

/-- `branch_summary`'s collections: every pair with a retained branch-tagged record. -/
def branchedCollections (a : Appender) : List TenantCollection :=
  (a.sealedList.flatMap (fun s => s.branched)).foldl
    (fun out c => setInsert TenantCollection.le c out) a.active.branched

/-- The pairs with history in `victims`, in order. -/
def doomedCollections (victims : List SegmentSummary) : List TenantCollection :=
  (collectionsIn victims).keys.insertionSort TenantCollection.le

/-- Why an armed fence refuses to remove `victims`. -/
def fenceRefuses (a : Appender) (victims : List SegmentSummary) (through : Nat) :
    Option TruncateError :=
  a.branchFence.bind (fun fence =>
    let uncovered := (doomedCollections victims).filter
      (fun c => decide (c ∈ branchedCollections a) && decide (c ∉ fence.covered))
    let unmarked := (doomedCollections victims).filter (fun c => decide (c ∉ fence.marked))
    if uncovered ≠ [] then some (.uncovered through uncovered)
    else if unmarked ≠ [] then some (.unmarked through unmarked)
    else none)

def WalPath.segment? : WalPath → Option Nat
  | .active => none
  | .segment firstSeq => some firstSeq

/-- The floor a truncation may use: no pin is passed. -/
def pinnedFloor (a : Appender) (floor : Nat) : Nat :=
  a.pins.keys.min?.elim floor (fun pinned => min floor pinned)

/-- The oldest sealed segments below the floor. -/
def victimsBelow (a : Appender) (floor : Nat) : List SegmentSummary :=
  a.sealedList.takeWhile (fun s => s.whollyBelow (pinnedFloor a floor))

/-- `truncate_below`.  The floor is recorded before anything is removed. -/
def truncateBelow (io : TruncateIo) (floor : Nat) (a : Appender) :
    Outcome (Except TruncateError WalTruncation) :=
  let victims := victimsBelow a floor
  let disarmed := { a with branchFence := none }
  match (victims.map (·.lastSeq)).max? with
  | none => ⟨[], disarmed, .ok ⟨0, 0⟩⟩
  | some through =>
    match fenceRefuses a victims through with
    | some refused => ⟨[], disarmed, .error refused⟩
    | none =>
      match io.marker with
      | .fails => ⟨[], disarmed, .error .marker⟩
      | .directorySyncFails => ⟨[.setFloor (floorText through)], disarmed, .error .marker⟩
      | .done =>
        let names := victims.filterMap (fun s => s.path.segment?)
        ⟨.setFloor (floorText through) :: (names.filter io.deletes).map .remove,
          { disarmed with
            sealedList := a.sealedList.drop victims.length
            retainedFrom := max a.retainedFrom (saturatingSucc through) },
          if names.all io.deletes then .ok ⟨victims.length, through⟩
          else .error (.undeleted through (names.filter (fun n => !io.deletes n)))⟩

/-! ## Reads and counters -/

def advanceSequenceFloor (floor : Nat) (a : Appender) : Appender :=
  { a with nextSequence := max a.nextSequence floor }

def collectionMaxSequenceFor (a : Appender) (collectionId : String) : Option Nat :=
  a.collectionMax.lookup collectionId

/-- The entries above `since` of the segments that may hold the collection. -/
def readSegmentsSince (d : Disk) (since : Nat) :
    List SegmentSummary → Except WalError (List CanonicalWalEntry)
  | [] => .ok []
  | s :: rest =>
    match s.path.segment?.bind (fun name => (d.segments.lookup name).map (fun b => (name, b))) with
    | none => .error (.missingSegment (s.path.segment?.getD 0))
    | some (name, bytes) =>
      match readSealedSegment C name bytes with
      | .error e => .error e
      | .ok entries =>
        match readSegmentsSince d since rest with
        | .error e => .error e
        | .ok more =>
          .ok (entries.filter (fun e => decide (since < e.sequenceNumber)) ++ more)

def readEntriesSince (a : Appender) (d : Disk) (collectionId : String) (since : Nat) :
    Except WalError (List CanonicalWalEntry) :=
  match readSegmentsSince C d since
      (a.sealedList.filter (fun s => s.mayContain collectionId since)) with
  | .error e => .error e
  | .ok sealedEntries =>
    if a.active.mayContain collectionId since then
      match readActiveFile C d.active with
      | .error e => .error e
      | .ok activeEntries =>
        .ok (sealedEntries ++
          activeEntries.filter (fun e => decide (since < e.sequenceNumber)))
    else .ok sealedEntries

/-- How the I/O of an open goes: the rename and the creation of an interrupted seal, the removal of
    each segment, the truncation of the torn tail. -/
structure OpenIo where
  renames : Bool
  creates : Bool
  deletes : Nat → Bool
  truncates : Bool

/-- The first sequence of an interrupted seal: from its summary, else from the frames. -/
def interruptedFirstSeq (frames : Bytes) (data : Option SummaryData) : Option Nat :=
  match data.bind (fun s => s.firstSeq) with
  | some firstSeq => some firstSeq
  | none =>
    if frames = [] then none
    else
      match scanWalBytes C.toFrameCodec frames with
      | .error _ => none
      | .ok scan => scan.entries.head?.map (fun e => e.sequenceNumber)

/-- `recover_interrupted_seal`.  A segment already under the name is never replaced. -/
def recoverInterruptedSeal (io : OpenIo) (d : Disk) : List Action :=
  match d.active.bind (splitSummaryTrailer C) with
  | none => []
  | some (frames, data) =>
    match interruptedFirstSeq C frames data with
    | none => []
    | some firstSeq =>
      if d.segments.any (fun s => s.1 == firstSeq) then []
      else if io.renames then .rename firstSeq :: if io.creates then [.create] else []
      else []

/-- A segment's summary: its section where trusted, else a full decode. -/
def bootSummary (s : Nat × Bytes) : Except WalError SegmentSummary :=
  match readSummarySection C s.1 s.2 with
  | some summary => .ok summary
  | none =>
    match readSealedSegment C s.1 s.2 with
    | .error e => .error e
    | .ok entries => .ok (summaryOf (.segment s.1) entries)

/-- The loop over the segments: removals of those at or below the floor, and the summaries of the
    others. -/
def bootSegments (io : OpenIo) (floor : Nat) :
    List (Nat × Bytes) → List Action × Except WalError (List SegmentSummary)
  | [] => ([], .ok [])
  | s :: rest =>
    match bootSummary C s with
    | .error e => ([], .error e)
    | .ok summary =>
      let booted := bootSegments io floor rest
      if 0 < floor ∧ summary.lastSeq ≤ floor then
        ((if io.deletes s.1 then [.remove s.1] else []) ++ booted.1, booted.2)
      else (booted.1, booted.2.map (fun kept => summary :: kept))

/-- `recover_wal_state`: the active file is scanned as it is. -/
def recoverWalState (active : Option Bytes) : Except WalError WalScan :=
  match active with
  | none => .ok ⟨[], 0⟩
  | some bytes =>
    match scanWalBytes C.toFrameCodec bytes with
    | .error e => .error (.decoding .active e)
    | .ok scan => .ok scan

/-- The appender built from the floor, the kept segments and the active entries. -/
def recoveredAppender (floor : Nat) (kept : List SegmentSummary)
    (entries : List CanonicalWalEntry) : Appender where
  nextSequence := max ((entries.map (fun e => e.sequenceNumber)).max?.getD 0)
    ((kept.map (fun s => s.lastSeq)).foldl max floor)
  atomicGroups := false
  poisoned := false
  collectionMax := mergeMarks (markEntries ∅ entries)
    (kept.foldl (fun m s => mergeMarks m s.collectionMax) ∅)
  segmentBytes := 0
  sealedList := kept
  active := summaryOf .active entries
  retainedFrom := if 0 < floor then saturatingSucc floor else 0
  pins := ∅
  branchFence := none

/-- Truncating the torn tail found at `validLen`. -/
def truncateTail (io : OpenIo) (d : Disk) (validLen : Nat) : List Action :=
  if validLen < d.activeBytes.length ∧ io.truncates then [.setLen validLen] else []

/-- `FramedTableWalAppender::open`. -/
def openWal (io : OpenIo) (d : Disk) : List Action × Except WalError Appender :=
  let sealing := recoverInterruptedSeal C io d
  let d' := d.applyAll sealing
  match readFloorMarker d' with
  | .error e => (sealing, .error e)
  | .ok floor =>
    let booted := bootSegments C io floor d'.segments
    match booted.2 with
    | .error e => (sealing ++ booted.1, .error e)
    | .ok kept =>
      match recoverWalState C d'.active with
      | .error e => (sealing ++ booted.1, .error e)
      | .ok scan =>
        if scan.validLen < d'.activeBytes.length ∧ ¬ io.truncates then
          (sealing ++ booted.1, .error .truncating)
        else
          (sealing ++ booted.1 ++ truncateTail io d' scan.validLen,
            .ok (recoveredAppender floor kept scan.entries))

end ProximaDb.CanonicalWal
