/-
  ProximaDb.Manifest.Committer

  `ManifestCommitter`: the versioned log, whose head object owns the current snapshot and whose
  archives keep its predecessors, and the legacy log of create-only manifests. The functions are
  programs over the object store, one operation for each request the code awaits.
-/
import ProximaDb.Lib.Sorting
import ProximaDb.Manifest.ObjectStore

namespace ProximaDb.Manifest

open ProximaDb.Lib
open Prog (ofExcept)

/-- How the bytes of a legacy log are to be read. -/
inductive LegacyEncoding
  | plain
  | generationPrefixed
  deriving DecidableEq

/-- A committer of one log; `cell` is where it pins the log's authority. -/
structure ManifestCommitter where
  log : Bytes
  cell : Nat
  legacyEncoding : LegacyEncoding := .plain

/-- `CommitOutcome`: a conflict names the latest version. -/
inductive CommitOutcome
  | committed (version : UInt64)
  | conflict (latest : Option UInt64)
  deriving DecidableEq

/-- `LoadedHead`: the decoded head with its bytes and its e-tag. -/
structure LoadedHead where
  record : Record
  bytes : Bytes
  eTag : Nat

/-- `MIN_PRUNE_KEEP_K`: the tip and its predecessor are always kept. -/
def minPruneKeepK : Nat := 2

/-- The longest age `chrono` takes, in nanoseconds. -/
def maxRetentionAgeNs : Nat := 9223372036854775807 * 1000000

/-! ## Errors and single requests -/

/-- `os_err`: the errors of the wrapped store, with the request's name in the text. -/
def osErr (context : String) : ObjectError → StorageError
  | .notFound => .notFound (context ++ ": " ++ ObjectError.text .notFound)
  | .alreadyExists => .alreadyExists (context ++ ": " ++ ObjectError.text .alreadyExists)
  | e => .diskIo ("object_store " ++ context ++ ": " ++ e.text)

/-- The conversion of an object store error into a storage error. -/
def ioError : ObjectError → StorageError
  | .notFound => .notFound (ObjectError.text .notFound)
  | .alreadyExists => .alreadyExists (ObjectError.text .alreadyExists)
  | e => .diskIo e.text

/-- `ProximaObjectStore::get`. -/
def getBytes (path : ObjectPath) : StoreProg StorageError Bytes := do
  match ← Store.get path with
  | .ok found => .ret found.1
  | .error e => .fail (osErr "get" e)

/-- A conditional put: the request is made, and its answer is waited for. -/
def putOpts {ε : Type} (path : ObjectPath) (bytes : Bytes) (mode : PutMode) :
    StoreProg ε (Except ObjectError Unit) := do
  let ticket ← Store.issue path bytes mode
  Store.await ticket

/-- The objects of a log with their times of modification. -/
def listLog (log : Bytes) : StoreProg StorageError (List (LogFile × Int)) := do
  match ← Store.list log with
  | .ok metas => .ret metas
  | .error e => .fail (osErr "list" e)

section Requests

variable {ι : Type} {D : Discipline ι (Shared ι)} {i : ι} {s : Shared ι}

theorem getBytes_gives {path : ObjectPath} {P : Bytes → Shared ι → Prop}
    (hP : ∀ t o, D.rely i s t → D.inv t → t.object path = some o → ∀ u, D.rely i t u → P o.bytes u) :
    Meets (objectStore ι) D i (Gives D i s P) (getBytes path) s := by
  refine meets_get (fun t ht hinv r hr => ?_)
  rcases hr with rfl | ⟨text, rfl⟩
  · unfold Shared.found
    cases hobj : t.object path with
    | none => exact Meets.fail_gives ht
    | some o => exact Meets.ret_gives ht (fun u _ _ htu => hP t o ht hinv hobj u htu)
  · exact Meets.fail_gives ht

theorem listLog_gives {log : Bytes} {P : List (LogFile × Int) → Shared ι → Prop}
    (hP : ∀ t, D.rely i s t → D.inv t → ∀ u, D.rely i t u → P (t.listing log) u) :
    Meets (objectStore ι) D i (Gives D i s P) (listLog log) s := by
  refine meets_list (fun t ht hinv r hr => ?_)
  rcases hr with rfl | ⟨text, rfl⟩
  · exact Meets.ret_gives ht (fun u _ _ htu => hP t ht hinv u htu)
  · exact Meets.fail_gives ht

end Requests

/-- `checked_add` of one to the parent, or the first version. -/
def successor : Option UInt64 → Except StorageError UInt64
  | none => .ok 0
  | some p =>
    if p.toNat + 1 < 2 ^ 64 then .ok (p + 1)
    else .error (.serialization "manifest: version counter overflow")

namespace ManifestCommitter

variable (c : ManifestCommitter)

/-- `head_path`. -/
def headPath : ObjectPath := ⟨c.log, .head⟩
/-- `format_path`. -/
def formatPath : ObjectPath := ⟨c.log, .format⟩
/-- `archive_path`. -/
def archivePath (version : UInt64) : ObjectPath := ⟨c.log, .archive version⟩
/-- `manifest_path`. -/
def manifestPath (version : UInt64) : ObjectPath := ⟨c.log, .manifest version⟩

/-- `pin_authority`: the first authority seen stays the committer's. -/
def pinAuthority (authority : Uuid) : StoreProg StorageError Unit := do
  let pinned ← Store.initCell c.cell authority
  if pinned = some authority then .ret ()
  else .fail (.corruption "manifest: authority incarnation changed")

/-! ## The versioned log -/

section Versioned

variable (H : Digest)

/-- The marker check of `load_head` before the authority is pinned. -/
def checkMarker (record : Record) : StoreProg StorageError Unit := do
  let bytes ← getBytes c.formatPath
  let marker ← ofExcept (decode H bytes)
  if marker.snapshot.isSome || marker.authority != record.authority then
    .fail (.corruption "manifest: marker/head authority mismatch")
  else .ret ()

/-- `load_head` with the head in hand. -/
def acceptHead (bytes : Bytes) (eTag : Nat) : StoreProg StorageError (Option LoadedHead) := do
  let record ← ofExcept (decode H bytes)
  let pinned ← Store.readCell c.cell
  let () ← (if pinned.isNone then c.checkMarker H record else .ret ())
  let () ← c.pinAuthority record.authority
  .ret (some ⟨record, bytes, eTag⟩)

/-- `load_head` without a head: no log if there is no marker either. -/
def acceptMissing : StoreProg StorageError (Option LoadedHead) := do
  let pinned ← Store.readCell c.cell
  if pinned.isSome then .fail (ioError .notFound)
  else
    match ← Store.get c.formatPath with
    | .error .notFound => .ret none
    | .ok _ => .fail (.corruption "manifest: format marker exists but head is missing")
    | .error e => .fail (ioError e)

/-- `load_head`: `none` is a log without the versioned format. -/
def loadHead : StoreProg StorageError (Option LoadedHead) := do
  match ← Store.get c.headPath with
  | .ok found => c.acceptHead H found.1 found.2
  | .error .notFound => c.acceptMissing
  | .error e => .fail (ioError e)

/-- The record `read_versioned` answers from. -/
def recordAt (head : LoadedHead) (version : UInt64) : StoreProg StorageError Record :=
  if head.record.version = some version then .ret head.record
  else if head.record.version.all (fun v => decide (v < version)) then
    .fail (.notFound ("manifest version " ++ toString version))
  else do
    let bytes ← getBytes (c.archivePath version)
    let record ← ofExcept (decode H bytes)
    if record.authority != head.record.authority || record.version != some version then
      .fail (.corruption "manifest: archive identity mismatch")
    else .ret record

/-- `read_versioned`: the generation and the payload of a version. -/
def readVersioned (head : LoadedHead) (version : UInt64) :
    StoreProg StorageError (UInt64 × Bytes) := do
  let record ← c.recordAt H head version
  match record.snapshot with
  | some s => .ret (s.generation, s.payload)
  | none => .fail (.corruption "manifest: empty snapshot")

/-- Keep the predecessor before the head is replaced. -/
def archivePredecessor (head : LoadedHead) : StoreProg StorageError Unit :=
  match head.record.version with
  | none => .ret ()
  | some version => do
      match ← putOpts (c.archivePath version) head.bytes .create with
      | .ok () => .ret ()
      | .error .alreadyExists =>
        let found ← getBytes (c.archivePath version)
        if found != head.bytes then
          .fail (.corruption "manifest: conflicting immutable archive")
        else .ret ()
      | .error e => .fail (osErr "put_if_absent" e)

/-- The error of a publication that may or may not have happened. -/
def indeterminate (target : UInt64) (error : ObjectError) : StorageError :=
  .transactionCommitFailed
    ("manifest: indeterminate publication at version " ++ toString target ++ ": " ++ error.text)

/-- What the record at the target version says about an operation. -/
def receipt (target : UInt64) (operation : Uuid) (latest : Option UInt64) (error : ObjectError)
    (record : Record) : StoreProg StorageError CommitOutcome :=
  match record.snapshot with
  | some s => if s.operation = operation then .ret (.committed target) else .ret (.conflict latest)
  | none => .fail (indeterminate target error)

/-- The archived record at the target version, below the current one. -/
def archivedReceipt (head : LoadedHead) (target : UInt64) (operation : Uuid)
    (error : ObjectError) : StoreProg StorageError CommitOutcome := do
  match ← Store.get (c.archivePath target) with
  | .error _ => .fail (indeterminate target error)
  | .ok found =>
    match decode H found.1 with
    | .error _ => .fail (indeterminate target error)
    | .ok record =>
      if record.authority != head.record.authority || record.version != some target then
        .fail (indeterminate target error)
      else receipt target operation head.record.version error record

/-- `resolve_publication`: after a failed put, ask the log whether the operation is in it. -/
def resolvePublication (target : UInt64) (operation : Uuid) (error : ObjectError) :
    StoreProg StorageError CommitOutcome := do
  match ← (c.loadHead H).attempt with
  | .error _ => .fail (indeterminate target error)
  | .ok none => .fail (indeterminate target error)
  | .ok (some head) =>
    let latest := head.record.version
    if latest = some target then receipt target operation latest error head.record
    else if latest.any (fun v => decide (target < v)) then
      c.archivedReceipt H head target operation error
    else .fail (ioError error)

/-- A commit that does not follow the head it has read. -/
def isStale (head : LoadedHead) (parent : Option UInt64) (generation : UInt64) : Bool :=
  decide (parent ≠ head.record.version) ||
    head.record.snapshot.any (fun s => decide (generation < s.generation))

/-- The put that replaces the head the commit has read. -/
def publish (head : LoadedHead) (target : UInt64) (operation : Uuid) (bytes : Bytes) :
    StoreProg StorageError CommitOutcome := do
  match ← putOpts c.headPath bytes (.update head.eTag) with
  | .ok () => .ret (.committed target)
  | .error e => c.resolvePublication H target operation e

/-- `commit_versioned`: a candidate for the next version, its predecessor archived first. -/
def commitVersioned (head : LoadedHead) (parent : Option UInt64) (generation : UInt64)
    (payload : Bytes) : StoreProg StorageError CommitOutcome :=
  if isStale head parent generation then .ret (.conflict head.record.version)
  else do
    let target ← ofExcept (successor parent)
    let operation ← Store.newUuid
    let candidate : Record :=
      { authority := head.record.authority
        snapshot := some { version := target, generation, operation, payload } }
    let bytes ← ofExcept (encode H candidate)
    let () ← c.archivePredecessor head
    c.publish H head target operation bytes

/-- The archives below the tip, oldest first. -/
def prunable (tip : UInt64) (metas : List (LogFile × Int)) : List (UInt64 × Int) :=
  sortBy (fun e => e.1.toNat) (metas.filterMap (fun m =>
    match m.1 with
    | .archive v => if v < tip then some (v, m.2) else none
    | _ => none))

/-- The deletes of a retention pass; a failed one is passed over. -/
def deleteAged (now minAgeNs : Int) : List (UInt64 × Int) → StoreProg StorageError Nat
  | [] => .ret 0
  | (version, modified) :: rest =>
    if now - modified < minAgeNs then deleteAged now minAgeNs rest
    else do
      match ← Store.delete (c.archivePath version) with
      | .ok () =>
        let deleted ← deleteAged now minAgeNs rest
        .ret (deleted + 1)
      | .error _ => deleteAged now minAgeNs rest

/-- `prune_versioned`: aged archives go; `keep_k` versions stay, the tip among them. -/
def pruneVersioned (head : LoadedHead) (keepK minAgeNs : Nat) : StoreProg StorageError Nat :=
  if maxRetentionAgeNs < minAgeNs then
    .fail (.serialization "manifest: retention age out of range")
  else
    match head.record.version with
    | none => .ret 0
    | some tip => do
        let metas ← listLog c.log
        let entries := prunable tip metas
        let eligible := entries.length - (max keepK minPruneKeepK - 1)
        let now ← Store.now
        c.deleteAged now minAgeNs (entries.take eligible)

/-- `open_versioned`, after `new`. -/
def openVersioned : StoreProg StorageError Unit := do
  let bytes ← getBytes c.formatPath
  let marker ← ofExcept (decode H bytes)
  if marker.snapshot.isSome then .fail (.corruption "manifest: invalid format marker")
  else
    let () ← c.pinAuthority marker.authority
    let _ ← c.loadHead H
    .ret ()

end Versioned

/-! ## The legacy log -/

/-- `encode_fenced`: the generation in eight bytes, most significant first, then the payload. -/
def encodeFenced (generation : UInt64) (payload : Bytes) : Bytes :=
  (leBytes 8 generation.toNat).reverse ++ payload

/-- `decode_fenced`: too few bytes are a payload of generation zero. -/
def decodeFenced (bytes : Bytes) : UInt64 × Bytes :=
  if bytes.length < 8 then (0, bytes)
  else (UInt64.ofNat (leNat (bytes.take 8).reverse), bytes.drop 8)

/-- `decode_legacy`: by the encoding the committer declares. -/
def decodeLegacy (bytes : Bytes) : Except StorageError (UInt64 × Bytes) :=
  match c.legacyEncoding with
  | .plain => .ok (0, bytes)
  | .generationPrefixed =>
    if 8 ≤ bytes.length then .ok (decodeFenced bytes)
    else .error (.corruption "manifest: truncated declared generation header")

/-- The versions among the objects of a log, ascending. -/
def manifestVersions (metas : List (LogFile × Int)) : List UInt64 :=
  (sortBy UInt64.toNat (metas.filterMap (fun m =>
    match m.1 with
    | .manifest v => some v
    | _ => none))).destutter (· ≠ ·)

/-- `legacy_versions`. -/
def legacyVersions : StoreProg StorageError (List UInt64) := do
  let metas ← listLog c.log
  .ret (manifestVersions metas)

/-- `latest_legacy_version`. -/
def latestLegacyVersion : StoreProg StorageError (Option UInt64) := do
  let versions ← c.legacyVersions
  .ret versions.getLast?

/-- `read_legacy_manifest`. -/
def readLegacyManifest (version : UInt64) : StoreProg StorageError Bytes :=
  getBytes (c.manifestPath version)

/-- Some version is not at its own position. -/
def hasGaps (versions : List UInt64) : Bool :=
  versions.zipIdx.any (fun x => decide (x.1.toNat ≠ x.2))

/-- The generation check of `commit_legacy` against the tip it has validated. -/
def fencedByTip (latest : Option UInt64) (generation : Option UInt64) :
    StoreProg StorageError Bool :=
  match latest, generation with
  | some latest, some generation => do
      let bytes ← c.readLegacyManifest latest
      let existing ← ofExcept (c.decodeLegacy bytes)
      .ret (decide (generation < existing.1))
  | _, _ => .ret false

/-- The create-only put of `commit_legacy`. -/
def claimSlot (target : UInt64) (manifest : Bytes) : StoreProg StorageError CommitOutcome := do
  match ← putOpts (c.manifestPath target) manifest .create with
  | .ok () => .ret (.committed target)
  | .error .alreadyExists =>
    let latest ← c.latestLegacyVersion
    .ret (.conflict latest)
  | .error e => .fail (osErr "put_if_absent" e)

/-- `commit_legacy`: refused on a gap and on the wrong encoding, fenced by the tip. -/
def commitLegacy (parent : Option UInt64) (generation : Option UInt64) (payload : Bytes) :
    StoreProg StorageError CommitOutcome := do
  let versions ← c.legacyVersions
  let latest := versions.getLast?
  if parent ≠ latest then .ret (.conflict latest)
  else if hasGaps versions then
    .fail (.transactionCommitFailed
      "manifest: legacy history has gaps; migrate to versioned authority before writing")
  else if generation.isSome != decide (c.legacyEncoding = .generationPrefixed) then
    .fail (.serialization "manifest: write operation disagrees with declared legacy encoding")
  else
    let fenced ← c.fencedByTip latest generation
    if fenced then .ret (.conflict latest)
    else
      let target ← ofExcept (successor parent)
      c.claimSlot target
        (match generation with
          | some g => encodeFenced g payload
          | none => payload)

/-! ## Either log -/

section Public

variable (H : Digest)

/-- `latest_version`. -/
def latestVersion : StoreProg StorageError (Option UInt64) := do
  match ← c.loadHead H with
  | some head => .ret head.record.version
  | none => c.latestLegacyVersion

/-- `read_manifest`. -/
def readManifest (version : UInt64) : StoreProg StorageError Bytes := do
  match ← c.loadHead H with
  | some head =>
    let found ← c.readVersioned H head version
    .ret found.2
  | none => c.readLegacyManifest version

/-- `commit`: generation zero on the versioned log. -/
def commit (parent : Option UInt64) (manifest : Bytes) : StoreProg StorageError CommitOutcome := do
  match ← c.loadHead H with
  | some head => c.commitVersioned H head parent 0 manifest
  | none => c.commitLegacy parent none manifest

/-- `commit_fenced`: a generation below the tip's is a conflict. -/
def commitFenced (parent : Option UInt64) (generation : UInt64) (payload : Bytes) :
    StoreProg StorageError CommitOutcome := do
  match ← c.loadHead H with
  | some head => c.commitVersioned H head parent generation payload
  | none => c.commitLegacy parent (some generation) payload

/-- `read_fenced`. -/
def readFenced (version : UInt64) : StoreProg StorageError (UInt64 × Bytes) := do
  match ← c.loadHead H with
  | some head => c.readVersioned H head version
  | none =>
    let bytes ← c.readLegacyManifest version
    ofExcept (c.decodeLegacy bytes)

/-- `prune_retention`: only the versioned log is pruned. -/
def pruneRetention (keepK minAgeNs : Nat) : StoreProg StorageError Nat := do
  match ← c.loadHead H with
  | some head => c.pruneVersioned head keepK minAgeNs
  | none =>
    .fail (.transactionCommitFailed
      "manifest: legacy retention is disabled; migrate before pruning")

end Public

end ManifestCommitter

end ProximaDb.Manifest
