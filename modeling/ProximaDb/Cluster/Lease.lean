/-
  ProximaDb.Cluster.Lease

  Partition leases, the names they are kept under, and the DML locks taken through them. Reading,
  claiming and releasing are programs over the object store; a task on a pod looks its scope up in
  the pod's registry of active locks, claims the lease of the exact scope, and registers.
-/
import ProximaDb.Lib.PathEscape
import ProximaDb.Manifest.Committer

namespace ProximaDb.Cluster

open ProximaDb.Lib ProximaDb.Manifest

/-! ## Resource keys -/

/-- What a resource key may name. -/
inductive ResourceType
  | collection
  | table
  | schema
  | graph
  | graphNode
  | graphEdge
  | document
  | doc
  | model
  | modelVersion
  | experiment
  | experimentRun
  | featureSet
  deriving DecidableEq

namespace ResourceType

/-- `ResourceType::name`. -/
def name : ResourceType → String
  | collection => "collection"
  | table => "table"
  | schema => "schema"
  | graph => "graph"
  | graphNode => "graph_node"
  | graphEdge => "graph_edge"
  | document => "document"
  | doc => "doc"
  | model => "model"
  | modelVersion => "model_version"
  | experiment => "experiment"
  | experimentRun => "experiment_run"
  | featureSet => "feature_set"

def all : List ResourceType :=
  [collection, table, schema, graph, graphNode, graphEdge, document, doc, model, modelVersion,
    experiment, experimentRun, featureSet]

/-- The type a path segment names. -/
def ofName (segment : Bytes) : Option ResourceType :=
  all.find? (fun t => decide (utf8 t.name = segment))

end ResourceType

/-- One id, several parts of one, or a parent and a child. -/
inductive ResourceIdentifier
  | single (id : String)
  | composite (parts : List String)
  | hierarchical (parent child : String)
  deriving DecidableEq

/-- Percent-encoding of everything but the unreserved bytes. -/
def encodePathComponent (input : String) : Bytes := escape (utf8 input)

/-- The text behind an encoded component, if it is one. -/
def decodePathComponent (input : Bytes) : Option String := (unescape input).bind ofUtf8

def slash : UInt8 := 0x2F

def ResourceIdentifier.toPath : ResourceIdentifier → Bytes
  | single id => encodePathComponent id
  | composite parts => [slash].intercalate (parts.map encodePathComponent)
  | hierarchical parent child =>
    encodePathComponent parent ++ slash :: encodePathComponent child

/-- What a lease is taken on. -/
structure ResourceKey where
  tenantId : String
  namespaceId : Option String
  resourceType : ResourceType
  resourceId : ResourceIdentifier
  deriving DecidableEq

namespace ResourceKey

/-- `ResourceKey::to_path`: tenant, namespace if there is one, type and identifier. -/
def toPath (k : ResourceKey) : Bytes :=
  let tenant := encodePathComponent k.tenantId
  match k.namespaceId with
  | some ns =>
    tenant ++ slash :: (encodePathComponent ns ++ slash :: (utf8 k.resourceType.name ++
      slash :: k.resourceId.toPath))
  | none => tenant ++ slash :: (utf8 k.resourceType.name ++ slash :: k.resourceId.toPath)

/-- One part is a single identifier, any other number a composite. -/
def identifierOf : List String → ResourceIdentifier
  | [part] => .single part
  | parts => .composite parts

/-- The key of the type and the parts behind a tenant and a namespace. -/
def ofTyped (tenant : Bytes) (namespaceId : Option String) : List Bytes → Option ResourceKey
  | [] => none
  | segment :: parts =>
    (ResourceType.ofName segment).bind (fun resourceType =>
      (parts.mapM decodePathComponent).bind (fun parts =>
        (decodePathComponent tenant).map (fun tenantId =>
          { tenantId, namespaceId, resourceType, resourceId := identifierOf parts })))

/-- `ResourceKey::from_path`: a second segment that names a type leaves no namespace. -/
def fromPath (path : Bytes) : Option ResourceKey :=
  match path.splitOn slash with
  | tenant :: second :: third :: rest =>
    match ResourceType.ofName second with
    | some _ => ofTyped tenant none (second :: third :: rest)
    | none =>
      (decodePathComponent second).bind (fun ns => ofTyped tenant (some ns) (third :: rest))
  | _ => none

end ResourceKey

/-! ## Lease logs -/

/-- The path without slashes at its end. -/
def trimSlashes (path : Bytes) : Bytes := path.rdropWhile (fun b => b == slash)

/-- The path of a log: what `ManifestCommitter::new` keeps of a path. -/
def logPath (path : Bytes) : Bytes := trimSlashes path

/-- The collection of a key that has a legacy log: one part. -/
def singlePart : ResourceIdentifier → Option String
  | .single id => some id
  | .composite [part] => some part
  | _ => none

/-- The log of a collection under its old name. -/
def collectionLog (store : Bytes) (tenant collection : String) : Bytes :=
  logPath (store ++ slash :: (utf8 tenant ++ slash :: (utf8 collection ++ slash :: utf8 "_manifests")))

/-- The text of the refusal of a collection key that the old log cannot address. -/
def ambiguousKey : String :=
  "ambiguous collection lease key: a collection lease must address the legacy " ++
    "tenant/collection/_manifests log; a namespaced or composite collection key would fork " ++
    "the generation fence"

/-- `committer_for_key`: the log of a key's leases below the store's path. -/
def committerForKey (store : Bytes) (k : ResourceKey) : Except String Bytes :=
  if k.resourceType = .collection then
    match k.namespaceId, singlePart k.resourceId with
    | none, some collection => .ok (collectionLog store k.tenantId collection)
    | _, _ => .error ambiguousKey
  else .ok (logPath (store ++ slash :: k.toPath))

/-! ## Lock scopes -/

/-- What a statement locks: a schema, a table, a partition or a record. -/
inductive DmlLockScope
  | schema (schemaName : String)
  | table (schemaName tableName : String)
  | partition (schemaName tableName partitionId : String)
  | record (schemaName tableName key : String)
  deriving DecidableEq

/-- `DmlLockScope::to_key`. -/
def DmlLockScope.toKey : DmlLockScope → Bytes
  | schema s => utf8 "schema:" ++ encodePathComponent s
  | table s t => utf8 "table:" ++ (encodePathComponent s ++ 0x2E :: encodePathComponent t)
  | partition s t p =>
    utf8 "partition:" ++ (encodePathComponent s ++
      0x2E :: (encodePathComponent t ++ 0x2E :: encodePathComponent p))
  | record s t k =>
    utf8 "record:" ++ (encodePathComponent s ++
      0x2E :: (encodePathComponent t ++ 0x2E :: encodePathComponent k))

/-- The key of a lock in the registry of a pod. -/
def scopedLockKey (tenantId : String) (namespaceId : Option String) (scope : DmlLockScope) : Bytes :=
  match namespaceId with
  | some ns =>
    utf8 "tenant:" ++ (encodePathComponent tenantId ++
      slash :: (utf8 "namespace:" ++ (encodePathComponent ns ++ slash :: scope.toKey)))
  | none => utf8 "tenant:" ++ (encodePathComponent tenantId ++ slash :: scope.toKey)

/-- The resource whose lease stands for the lock. -/
def scopeToResourceKey (tenantId : String) (namespaceId : Option String) (scope : DmlLockScope) :
    ResourceKey where
  tenantId := tenantId
  namespaceId := namespaceId
  resourceType :=
    match scope with
    | .schema _ => .schema
    | _ => .table
  resourceId :=
    match scope with
    | .schema s => .single s
    | .table s t => .composite [s, t]
    | .partition s t p => .composite [s, t, p]
    | .record s t k => .composite [s, t, k]

/-! ## Leases -/

/-- A lease as it is written into the log of its resource. -/
structure PartitionLease where
  resourceKey : Option ResourceKey
  tenantId : Option String
  collectionId : Option String
  holderPod : String
  generation : UInt64
  acquiredAtMs : Int
  expiresAtMs : Int
  formatVersion : Option Nat
  released : Bool
  deriving DecidableEq

/-- `u64::MAX`. -/
def maxGeneration : UInt64 := 18446744073709551615

/-- `saturating_add(1)` of a generation. -/
def nextGeneration (generation : UInt64) : UInt64 :=
  if generation = maxGeneration then maxGeneration else generation + 1

/-- `i64::saturating_add`. -/
def saturatingAddMs (a b : Int) : Int := max (-2 ^ 63) (min (2 ^ 63 - 1) (a + b))

namespace PartitionLease

/-- `PartitionLease::with_key`, not released. -/
def withKey (key : ResourceKey) (holderPod : String) (generation : UInt64)
    (acquiredAtMs expiresAtMs : Int) : PartitionLease where
  resourceKey := some key
  tenantId := none
  collectionId := none
  holderPod := holderPod
  generation := generation
  acquiredAtMs := acquiredAtMs
  expiresAtMs := expiresAtMs
  formatVersion := some 1
  released := false

/-- A lease is over from its expiry on. -/
def isExpired (lease : PartitionLease) (nowMs : Int) : Bool := decide (lease.expiresAtMs ≤ nowMs)

/-- The tombstone `release_with_key` writes over a lease. -/
def tombstone (lease : PartitionLease) (nowMs : Int) : PartitionLease :=
  { lease with
    released := true
    generation := nextGeneration lease.generation
    acquiredAtMs := nowMs
    expiresAtMs := nowMs }

end PartitionLease

/-- The JSON form of leases: what is written is read back. -/
structure LeaseCodec where
  toVec : PartitionLease → Bytes
  fromSlice : Bytes → Option PartitionLease
  fromSlice_toVec : ∀ lease, fromSlice (toVec lease) = some lease

/-! ## Decisions -/

/-- Renew the own lease, or take a new generation in any case. -/
inductive ClaimMode
  | renewOrTakeover
  | alwaysBump
  deriving DecidableEq

/-- What a claim is told. -/
inductive LeaseOutcome
  | acquired (lease : PartitionLease)
  | held (lease : PartitionLease)
  | fenced (latest : PartitionLease)
  deriving DecidableEq

/-- What a lost compare-and-swap comes to. -/
inductive ConflictResolution
  | adopted (lease : PartitionLease)
  | retry
  | fenced (lease : PartitionLease)
  deriving DecidableEq

/-- `resolve_incarnation_conflict`: a live lease of the own pod is adopted. -/
def resolveIncarnationConflict (latest : Option PartitionLease) (holderPod : String) (nowMs : Int)
    (attempted : PartitionLease) : ConflictResolution :=
  match latest with
  | some lease =>
    if lease.released then .fenced lease
    else if lease.holderPod = holderPod ∧ lease.isExpired nowMs = false then .adopted lease
    else if lease.isExpired nowMs then .retry
    else .fenced lease
  | none => .fenced attempted

/-- The arguments of a claim. -/
structure ClaimRequest where
  key : ResourceKey
  holderPod : String
  nowMs : Int
  leaseMs : Int
  mode : ClaimMode
  deriving DecidableEq

/-- What a claim does about the lease it has read: commit over a parent at a generation, or leave it
    to the holder. -/
inductive ClaimDecision
  | commit (parent : Option UInt64) (generation : UInt64)
  | held (lease : PartitionLease)
  deriving DecidableEq

namespace ClaimRequest

/-- The decision at the start of each round of `claim`. -/
def decision (r : ClaimRequest) : Option (UInt64 × PartitionLease) → ClaimDecision
  | none => .commit none 1
  | some (version, lease) =>
    if lease.released then .commit (some version) (nextGeneration lease.generation)
    else if r.mode = .renewOrTakeover ∧ lease.holderPod = r.holderPod ∧
        lease.isExpired r.nowMs = false then
      .commit (some version) lease.generation
    else if lease.isExpired r.nowMs then
      .commit (some version) (nextGeneration lease.generation)
    else if lease.holderPod ≠ r.holderPod then .held lease
    else .commit (some version) (nextGeneration lease.generation)

/-- The lease a claim writes at a generation. -/
def lease (r : ClaimRequest) (generation : UInt64) : PartitionLease :=
  .withKey r.key r.holderPod generation r.nowMs (saturatingAddMs r.nowMs r.leaseMs)

end ClaimRequest

/-! ## The store -/

/-- Errors of the store: a key without a log, a failed request and what it was for, a lease that
    cannot be read, and the claim loop at its end. -/
inductive LeaseError
  | ambiguousKey (text : String)
  | request (context : String) (cause : StorageError)
  | decoding (context : String)
  | exhausted (text : String)
  deriving DecidableEq

/-- `PartitionLeaseStore`: the path of its logs, with the codec of leases and the digest of
    versioned logs. -/
structure PartitionLeaseStore where
  path : Bytes
  codec : LeaseCodec
  digest : Digest

/-- How an error names a resource. -/
def keyDesc (key : ResourceKey) : String := key.tenantId ++ ":" ++ key.resourceType.name

namespace PartitionLeaseStore

variable (st : PartitionLeaseStore)

/-- The committer of the log of a key. -/
def committerFor (key : ResourceKey) : StoreProg LeaseError ManifestCommitter :=
  match committerForKey st.path key with
  | .error text => .fail (.ambiguousKey text)
  | .ok log => do
      let cell ← Store.newCell
      .ret { log, cell, legacyEncoding := .generationPrefixed }

/-- The lease at the version `latest_version` gave. -/
def readLease (key : ResourceKey) (committer : ManifestCommitter) (version : UInt64) :
    StoreProg LeaseError (Option (UInt64 × PartitionLease)) := do
  let found ← (committer.readFenced st.digest version).mapError
    (.request ("reading lease " ++ keyDesc key ++ "@" ++ toString version))
  match st.codec.fromSlice found.2 with
  | some lease => .ret (some (version, lease))
  | none => .fail (.decoding ("decoding lease " ++ keyDesc key))

/-- `read_key`: the last version of the log and its lease. -/
def readKey (key : ResourceKey) : StoreProg LeaseError (Option (UInt64 × PartitionLease)) := do
  let committer ← st.committerFor key
  match ← (committer.latestVersion st.digest).mapError
      (.request ("reading lease log " ++ keyDesc key)) with
  | some version => st.readLease key committer version
  | none => .ret none

/-- A lease as the next version, fenced by its generation. -/
def commitLease (committer : ManifestCommitter) (parent : Option UInt64) (lease : PartitionLease) :
    StoreProg StorageError CommitOutcome :=
  committer.commitFenced st.digest parent lease.generation (st.codec.toVec lease)

/-- The end of a round whose commit was lost; `again` is the next round, if there is one. -/
def settleConflict (r : ClaimRequest) (generation : UInt64)
    (again : Option (StoreProg LeaseError LeaseOutcome)) : StoreProg LeaseError LeaseOutcome := do
  let found ← st.readKey r.key
  match resolveIncarnationConflict (found.map Prod.snd) r.holderPod r.nowMs (r.lease generation) with
  | .adopted lease => .ret (.acquired lease)
  | .retry =>
    again.getD (.ret (.fenced ((found.map Prod.snd).getD
      (.withKey r.key r.holderPod generation r.nowMs r.nowMs))))
  | .fenced lease => .ret (.fenced lease)

/-- The rounds of `claim` that are left; the last one does not retry. -/
def claimRounds (r : ClaimRequest) (committer : ManifestCommitter) :
    Nat → StoreProg LeaseError LeaseOutcome
  | 0 =>
    .fail (.exhausted ("partition-lease claim loop exhausted its retry budget without a " ++
      "terminal outcome (key=" ++ keyDesc r.key ++ ")"))
  | rounds + 1 => do
      match r.decision (← st.readKey r.key) with
      | .held lease => .ret (.held lease)
      | .commit parent generation =>
        match ← (st.commitLease committer parent (r.lease generation)).mapError
            (.request ("committing lease " ++ keyDesc r.key)) with
        | .committed _ => .ret (.acquired (r.lease generation))
        | .conflict _ =>
          st.settleConflict r generation
            (if rounds = 0 then none else some (claimRounds r committer rounds))

/-- `claim`, with its two rounds. -/
def claim (r : ClaimRequest) : StoreProg LeaseError LeaseOutcome := do
  let committer ← st.committerFor r.key
  st.claimRounds r committer 2

/-- `acquire_with_key`: an own live lease is renewed. -/
def acquireWithKey (key : ResourceKey) (holderPod : String) (nowMs leaseMs : Int) :
    StoreProg LeaseError LeaseOutcome :=
  st.claim { key, holderPod, nowMs, leaseMs, mode := .renewOrTakeover }

/-- `begin_writer_incarnation_with_key`: every success is a new generation. -/
def beginWriterIncarnationWithKey (key : ResourceKey) (holderPod : String) (nowMs leaseMs : Int) :
    StoreProg LeaseError LeaseOutcome :=
  st.claim { key, holderPod, nowMs, leaseMs, mode := .alwaysBump }

/-- A claim, by the entry point of its mode. -/
def claimByMode (r : ClaimRequest) : StoreProg LeaseError LeaseOutcome :=
  match r.mode with
  | .renewOrTakeover => st.acquireWithKey r.key r.holderPod r.nowMs r.leaseMs
  | .alwaysBump => st.beginWriterIncarnationWithKey r.key r.holderPod r.nowMs r.leaseMs

theorem claimByMode_eq (r : ClaimRequest) : st.claimByMode r = st.claim r := by
  obtain ⟨key, holderPod, nowMs, leaseMs, mode⟩ := r
  cases mode <;> rfl

/-- The tombstone of a lease that was read at a version; failures leave the lease to its end. -/
def publishTombstone (key : ResourceKey) (version : UInt64) (lease : PartitionLease) (nowMs : Int) :
    StoreProg LeaseError Unit := do
  let committer ← st.committerFor key
  let _ ← (st.commitLease committer (some version) (lease.tombstone nowMs)).attempt
  .ret ()

/-- `release_with_key`: a tombstone over an own lease, and no error. -/
def releaseWithKey (key : ResourceKey) (holderPod : String) (nowMs : Int) :
    StoreProg LeaseError Unit := do
  match ← (st.readKey key).attempt with
  | .error (_ : LeaseError) => .ret ()
  | .ok none => .ret ()
  | .ok (some (version, lease)) =>
    if lease.holderPod ≠ holderPod ∨ lease.released = true then .ret ()
    else st.publishTombstone key version lease nowMs

end PartitionLeaseStore

/-! ## Calls -/

/-- What a pod asks of the lease store. -/
inductive LeaseCall
  | claim (r : ClaimRequest)
  | release (key : ResourceKey) (holderPod : String) (nowMs : Int)
  deriving DecidableEq

namespace LeaseCall

def key : LeaseCall → ResourceKey
  | claim r => r.key
  | release key _ _ => key

def pod : LeaseCall → String
  | claim r => r.holderPod
  | release _ holderPod _ => holderPod

/-- The program of a call; a release has no outcome to give. -/
def prog (st : PartitionLeaseStore) : LeaseCall → StoreProg LeaseError (Option LeaseOutcome)
  | claim r => do
      let outcome ← st.claimByMode r
      .ret (some outcome)
  | release key holderPod nowMs => do
      let () ← st.releaseWithKey key holderPod nowMs
      .ret none

end LeaseCall

/-! ## Scopes -/

namespace DmlLockScope

def schemaName : DmlLockScope → String
  | schema s => s
  | table s _ => s
  | partition s _ _ => s
  | record s _ _ => s

def tableName : DmlLockScope → Option String
  | schema _ => none
  | table _ t => some t
  | partition _ t _ => some t
  | record _ t _ => some t

/-- Whether the scope contains the other one, which is deeper. -/
def isAncestorOf (scope other : DmlLockScope) : Bool :=
  if scope.schemaName ≠ other.schemaName then false
  else
    match scope, other with
    | schema _, table _ _ => true
    | schema _, partition _ _ _ => true
    | schema _, record _ _ _ => true
    | table s t, partition s' t' _ => decide (s = s' ∧ t = t')
    | table s t, record s' t' _ => decide (s = s' ∧ t = t')
    | _, _ => false

def isDescendantOf (scope other : DmlLockScope) : Bool := other.isAncestorOf scope

/-- Whether two scopes share a row. -/
def overlaps (scope other : DmlLockScope) : Bool :=
  if scope.schemaName ≠ other.schemaName then false
  else
    match scope.tableName, other.tableName with
    | none, _ => true
    | _, none => true
    | some left, some right =>
      if left ≠ right then false
      else
        match scope, other with
        | table _ _, _ => true
        | _, table _ _ => true
        | partition _ _ left, partition _ _ right => decide (left = right)
        | record _ _ left, record _ _ right => decide (left = right)
        | _, _ => true

theorem overlaps_comm (scope other : DmlLockScope) : scope.overlaps other = other.overlaps scope := by
  cases scope <;> cases other <;>
    simp [overlaps, schemaName, tableName, eq_comm] <;> grind

end DmlLockScope

/-- What a lock is for. -/
inductive LockIntent
  | read
  | write
  | schema
  deriving DecidableEq

/-- No two intents go together. -/
def LockIntent.isCompatibleWith (_ _ : LockIntent) : Bool := false

/-! ## Requests and the registry -/

/-- The arguments of `acquire_dml_lock`. -/
structure DmlLockRequest where
  tenantId : String
  namespaceId : Option String
  scope : DmlLockScope
  intent : LockIntent
  nowMs : Int
  deriving DecidableEq

/-- A lock in the registry of a pod. -/
structure ActiveLock where
  tenantId : String
  namespaceId : Option String
  scope : DmlLockScope
  podId : String
  intent : LockIntent
  acquiredAtMs : Int
  expiresAtMs : Int
  deriving DecidableEq

def ActiveLock.isExpired (lock : ActiveLock) (nowMs : Int) : Bool := decide (lock.expiresAtMs ≤ nowMs)

/-- What an attempt to lock comes to. -/
inductive LockOutcome
  | acquired (lease : PartitionLease)
  | held (holder : String) (expiresAt : Int)
  | conflict
  | fenced (latest : PartitionLease)
  deriving DecidableEq

/-- How long a lock is held, in milliseconds. -/
def lockTtlMs : Int := 10000

namespace DmlLockRequest

variable (r : DmlLockRequest)

def resourceKey : ResourceKey := scopeToResourceKey r.tenantId r.namespaceId r.scope

def lockKey : Bytes := scopedLockKey r.tenantId r.namespaceId r.scope

/-- The entry a granted request leaves in the registry. -/
def lock (pod : String) : ActiveLock where
  tenantId := r.tenantId
  namespaceId := r.namespaceId
  scope := r.scope
  podId := pod
  intent := r.intent
  acquiredAtMs := r.nowMs
  expiresAtMs := saturatingAddMs r.nowMs lockTtlMs

/-- The outcome of a request that meets an active lock, if it is blocked by it. -/
def blockedBy (pod : String) (existing : ActiveLock) : Option LockOutcome :=
  if existing.isExpired r.nowMs = true ∨ existing.tenantId ≠ r.tenantId ∨
      existing.namespaceId ≠ r.namespaceId ∨ existing.scope.overlaps r.scope = false then none
  else if existing.podId = pod ∧ existing.scope = r.scope then none
  else
    let outcome : LockOutcome :=
      if existing.podId ≠ pod then .held existing.podId existing.expiresAtMs else .conflict
    if r.scope.isAncestorOf existing.scope = true ∨ r.scope.isDescendantOf existing.scope = true then
      some outcome
    else if r.intent.isCompatibleWith existing.intent = false then some outcome
    else none

/-- The check of the registry: the first lock that blocks. -/
def blocked (pod : String) (locks : KeyMap Bytes ActiveLock) : Option LockOutcome :=
  locks.entries.findSome? (fun e => r.blockedBy pod e.2)

end DmlLockRequest

/-! ## Pods that share a store -/

/-- Where a task is: its guard is outstanding while it is `holding`. -/
inductive LockPhase
  | idle
  | acquiring
  | holding
  | releasing
  | done
  deriving DecidableEq

/-- The object store, the registry of each pod, and where each task is. A task writes to the store
    by its claim (`false`) and by its release (`true`). -/
structure LockState (ι : Type) where
  store : Shared (ι × Bool) := {}
  locks : String → KeyMap Bytes ActiveLock := fun _ => ∅
  phase : ι → LockPhase := fun _ => .idle

/-- What a task asks of its pod and of the store. -/
inductive LockOp
  | scan (pod : String) (r : DmlLockRequest)
  | register (pod : String) (key : Bytes) (lock : ActiveLock)
  | deregister (pod : String) (key : Bytes)
  /-- the call returns -/
  | finish
  | store (release : Bool) (o : StoreOp)

abbrev LockOp.Answer : LockOp → Type
  | .scan _ _ => Option LockOutcome
  | .register _ _ _ => Unit
  | .deregister _ _ => Unit
  | .finish => Unit
  | .store _ o => o.Answer

namespace LockState

variable {ι : Type} [DecidableEq ι]

/-- The task is in a phase of its own. -/
def enter (s : LockState ι) (i : ι) (phase : LockPhase) : LockState ι :=
  { s with phase := Function.update s.phase i phase }

def setLocks (s : LockState ι) (pod : String) (locks : KeyMap Bytes ActiveLock) : LockState ι :=
  { s with locks := Function.update s.locks pod locks }

/-- Answers to the operations, one at a time. -/
def respond (i : ι) (s : LockState ι) : (o : LockOp) → Choice → Option (o.Answer × LockState ι)
  | .scan pod r, .plain =>
    match r.blocked pod (s.locks pod) with
    | some outcome => some (some outcome, s)
    | none => some (none, s.enter i .acquiring)
  | .register pod key lock, .plain =>
    some ((), (s.setLocks pod ((s.locks pod).insert key lock)).enter i .holding)
  | .deregister pod key, .plain =>
    some ((), (s.setLocks pod ((s.locks pod).erase key)).enter i .releasing)
  | .finish, .plain => some ((), s.enter i .done)
  | .store release o, c =>
    (Manifest.respond (i, release) s.store o c).map (fun a => (a.1, { s with store := a.2 }))
  | _, _ => none

end LockState

/-- The pods with their registries over one object store. -/
def lockSystem (ι : Type) [DecidableEq ι] :
    System ι (LockState ι) LockOp LockOp.Answer Choice where
  respond := LockState.respond
  drift s c := ((objectStore (ι × Bool)).drift s.store c).map (fun store => { s with store })

abbrev LockProg (ε α : Type) := Prog LockOp LockOp.Answer ε α

/-- A program of the store, run by a task's claim or by its release. -/
def onStore {ε α : Type} (release : Bool) (p : StoreProg ε α) : LockProg ε α :=
  p.lift (LockOp.store release) (fun _ r => r)

/-! ## The service -/

/-- Why a statement gets no lock. -/
inductive DmlLockError
  | conflict (resource : Bytes)
  | held (resource : Bytes) (holder : String)
  | fenced (resource : Bytes) (holder : String)
  | lease (error : LeaseError)
  deriving DecidableEq

/-- What a statement holds while it runs. -/
structure DmlLockGuard where
  tenantId : String
  namespaceId : Option String
  scope : DmlLockScope
  intent : LockIntent
  leaseGeneration : UInt64
  deriving DecidableEq

/-- A task: what it locks, on which pod, and the clock of its release. -/
structure DmlTask where
  pod : String
  request : DmlLockRequest
  releaseNowMs : Int
  deriving DecidableEq

namespace DmlTask

variable (st : PartitionLeaseStore) (task : DmlTask)

/-- The claim behind a lock. -/
def claimRequest : ClaimRequest where
  key := task.request.resourceKey
  holderPod := task.pod
  nowMs := task.request.nowMs
  leaseMs := lockTtlMs
  mode := .renewOrTakeover

/-- The part of `acquire_dml_lock` behind the check. -/
def acquireLease : LockProg LeaseError LockOutcome := do
  match ← onStore false (st.claim task.claimRequest) with
  | .acquired lease =>
    let () ← (Prog.perform (LockOp.register task.pod task.request.lockKey
      (task.request.lock task.pod)) : LockProg LeaseError Unit)
    .ret (.acquired lease)
  | .held lease => .ret (.held lease.holderPod lease.expiresAtMs)
  | .fenced latest => .ret (.fenced latest)

/-- `acquire_dml_lock`: the registry of the pod first, then the lease. -/
def acquireDmlLock : LockProg LeaseError LockOutcome := do
  match ← (Prog.perform (LockOp.scan task.pod task.request) :
      LockProg LeaseError (Option LockOutcome)) with
  | some outcome => .ret outcome
  | none => task.acquireLease st

/-- `acquire_dml_lock_guard`, as the result of an outcome. -/
def guardOf (r : DmlLockRequest) : LockOutcome → Except DmlLockError DmlLockGuard
  | .acquired lease =>
    .ok { tenantId := r.tenantId, namespaceId := r.namespaceId, scope := r.scope,
          intent := r.intent, leaseGeneration := lease.generation }
  | .conflict => .error (.conflict r.scope.toKey)
  | .held holder _ => .error (.held r.scope.toKey holder)
  | .fenced latest => .error (.fenced r.scope.toKey latest.holderPod)

/-- `release_full`: out of the registry, then the tombstone; its failure is passed over. -/
def releaseFull : LockProg DmlLockError Unit := do
  let () ← (Prog.perform (LockOp.deregister task.pod task.request.lockKey) :
    LockProg DmlLockError Unit)
  let _ ← (onStore true (st.releaseWithKey task.request.resourceKey task.pod
    task.releaseNowMs)).attempt
  .ret ()

def finish : LockProg DmlLockError Unit :=
  Prog.perform LockOp.finish

/-- What a task does once `acquire_dml_lock` is over. -/
def afterAcquire : Except LeaseError LockOutcome → LockProg DmlLockError Unit
  | .error e => do
      let () ← finish
      .fail (.lease e)
  | .ok outcome =>
    match guardOf task.request outcome with
    | .error e => do
        let () ← finish
        .fail e
    | .ok _ => do
        let () ← task.releaseFull st
        finish

/-- A statement from its lock to its release. -/
def prog : LockProg DmlLockError Unit := do
  let outcome ← (task.acquireDmlLock st).attempt
  task.afterAcquire st outcome

end DmlTask

/-- The calls of the store that the tasks make: a claim and a release each. -/
def lockCalls {ι : Type} (tasks : ι → DmlTask) : ι × Bool → LeaseCall
  | (i, false) => .claim (tasks i).claimRequest
  | (i, true) => .release (tasks i).request.resourceKey (tasks i).pod (tasks i).releaseNowMs

end ProximaDb.Cluster
