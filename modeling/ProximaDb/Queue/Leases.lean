/-
  ProximaDb.Queue.Leases

  The lease and the progress of one group on one partition.
-/
import ProximaDb.Lib.Concurrent
import ProximaDb.Queue.MemoryTier

namespace ProximaDb.Queue

open ProximaDb.Lib

/-! ## The files -/

/-- The lease file: who holds it, and until when. -/
structure LeaseMeta where
  holderId : String
  expiresAtUnixNanos : Nat
  deriving DecidableEq

/-- The offset file of a group. -/
structure OffsetMeta where
  group : String
  committedOffset : Nat
  deriving DecidableEq

/-- The JSON form of a type: what is written is read back. -/
structure JsonCodec (α : Type) where
  toVec : α → Bytes
  fromSlice : Bytes → Option α
  fromSlice_toVec : ∀ a, fromSlice (toVec a) = some a

/-- How the two files are written as JSON. -/
structure MetaCodecs where
  lease : JsonCodec LeaseMeta
  offset : JsonCodec OffsetMeta

inductive MetaFile
  | lease
  | offset
  deriving DecidableEq

/-! ## Names -/

/-- Letters, digits and three signs. -/
def wellFormed (name : String) : Bool :=
  name.toList.all (fun c => c.isAlphanum || c == '-' || c == '_' || c == '.')

/-- `validate_group`. -/
def validateGroup (group : String) : Bool :=
  !(group.toList.isEmpty || decide (255 < group.utf8ByteSize) ||
    decide (group.toList.head? = some '.') || decide (group.toList.head? = some '_') ||
    decide (group.toList.getLast? = some '.') || decide (group.toList.getLast? = some '_') ||
    !wellFormed group)

/-- `validate_topic`. -/
def validateTopic (topic : String) : Bool :=
  !(topic.toList.isEmpty || decide (255 < topic.utf8ByteSize) || decide (topic = ".") ||
    decide (topic = "..") || decide (topic.toList.getLast? = some '.') || !wellFormed topic)

/-- Where a group reads. -/
structure Place where
  topic : String
  partition : Nat
  group : String
  deriving DecidableEq

/-- What a call may return. -/
inductive QueueError
  | persistence (what : String)
  | notFound
  | leaseConflict (topic : String) (partition : Nat) (holder : String)
  | publicationIndeterminate (what : String)
  deriving DecidableEq

namespace Place

/-- The group first, then the topic. -/
def validate (place : Place) : Except QueueError Unit :=
  if validateGroup place.group = false then .error (.persistence "noncanonical consumer group")
  else if validateTopic place.topic = false then
    .error (.persistence "invalid queue topic component")
  else .ok ()

def conflict (place : Place) (holder : String) : QueueError :=
  .leaseConflict place.topic place.partition holder

end Place

/-! ## Operations -/

/-- The calls of a holder. -/
inductive LeaseCall
  | tryAcquire (leaseDuration : Nat)
  | renew (leaseDuration : Nat)
  | release
  | commit (committedOffset : Nat)
  deriving DecidableEq

/-- What a call asks of the clock and of the files. -/
inductive MetaOp
  /-- a call begins -/
  | begin (call : LeaseCall)
  | clock
  | read (file : MetaFile)
  | compareExchange (file : MetaFile) (expected : Option Bytes) (replacement : Bytes)
      (guards : List (MetaFile × Option Bytes))

abbrev MetaOp.Answer : MetaOp → Type
  | .begin _ => Unit
  | .clock => Option Nat
  | .read _ => Except String (Option Bytes)
  | .compareExchange _ _ _ _ => Except String Bool

/-- Programs of holders. -/
abbrev MetaProg (α : Type) := Prog MetaOp MetaOp.Answer QueueError α

section Programs

/-- The clock, which may be before the epoch. -/
def nowUnixNanos : MetaProg Nat := do
  match ← (Prog.perform MetaOp.clock : MetaProg (Option Nat)) with
  | some now => .ret now
  | none => .fail (.persistence "lease clock before epoch")

/-- `read_bytes`: a file that is not found is absent. -/
def readBytes (file : MetaFile) : MetaProg (Option Bytes) := do
  match ← (Prog.perform (MetaOp.read file) : MetaProg (Except String (Option Bytes))) with
  | .ok bytes => .ret bytes
  | .error error => .fail (.persistence error)

/-- A file is replaced if it and the guards are as expected. -/
def compareExchange (file : MetaFile) (expected : Option Bytes) (replacement : Bytes)
    (guards : List (MetaFile × Option Bytes)) (onError : String → QueueError) : MetaProg Bool := do
  match ← (Prog.perform (MetaOp.compareExchange file expected replacement guards) :
      MetaProg (Except String Bool)) with
  | .ok exchanged => .ret exchanged
  | .error error => .fail (onError error)

variable (codecs : MetaCodecs) (place : Place) (holder : String)

/-- The lease in a file that is there. -/
def parseLease (corrupt : String) (bytes : Bytes) : Except QueueError LeaseMeta :=
  match codecs.lease.fromSlice bytes with
  | some lease => .ok lease
  | none => .error (.persistence corrupt)

/-- The lease in a file that may be absent. -/
def parseExisting : Option Bytes → Except QueueError (Option LeaseMeta)
  | none => .ok none
  | some bytes => (parseLease codecs "corrupt lease metadata" bytes).map some

/-- The decision of `update` about the lease it has read. -/
def checkExisting (renewal : Bool) (now : Nat) : Option LeaseMeta → Except QueueError Unit
  | some existing =>
    if existing.holderId = "" then .error (.persistence "corrupt lease: empty holder")
    else
      let rejected : Bool :=
        if renewal then
          decide (existing.holderId ≠ holder ∨ existing.expiresAtUnixNanos ≤ now)
        else decide (existing.holderId ≠ holder ∧ now < existing.expiresAtUnixNanos)
      if rejected then .error (place.conflict existing.holderId) else .ok ()
  | none => if renewal then .error (place.conflict "unowned") else .ok ()

/-- The rounds of `update`. -/
def updateRounds (renewal : Bool) (leaseDuration : Nat) : Nat → MetaProg Unit
  | 0 => .fail (.persistence "lease update contention retry budget exhausted")
  | rounds + 1 => do
      let observed ← readBytes .lease
      let now ← nowUnixNanos
      let existing ← Prog.ofExcept (parseExisting codecs observed)
      let () ← Prog.ofExcept (checkExisting place holder renewal now existing)
      -- `checked_add` of a `u128`
      if 2 ^ 128 ≤ now + leaseDuration then .fail (.persistence "lease deadline overflow")
      else
        let bytes := codecs.lease.toVec ⟨holder, now + leaseDuration⟩
        match ← compareExchange .lease observed bytes [] .persistence with
        | true => .ret ()
        | false => updateRounds renewal leaseDuration rounds

/-- `try_acquire` and `renew`: read, decide, replace, at most eight times. -/
def update (renewal : Bool) (leaseDuration : Nat) : MetaProg Unit := do
  let () ← Prog.ofExcept place.validate
  if leaseDuration = 0 ∨ holder = "" then
    .fail (.persistence "lease requires nonempty holder and positive duration")
  else updateRounds codecs place holder renewal leaseDuration 8

/-- The bytes of a lease that is the holder's and not over. -/
def ownedBytes : MetaProg Bytes := do
  let () ← Prog.ofExcept place.validate
  match ← readBytes .lease with
  | none => .fail .notFound
  | some bytes =>
    let lease ← Prog.ofExcept (parseLease codecs "corrupt lease metadata" bytes)
    if lease.holderId ≠ holder then .fail (place.conflict lease.holderId)
    else
      let now ← nowUnixNanos
      if lease.expiresAtUnixNanos ≤ now then .fail (place.conflict lease.holderId)
      else .ret bytes

/-- The rounds of a release. -/
def releaseRounds : Nat → MetaProg Unit
  | 0 => .fail (.persistence "lease release contention retry budget exhausted")
  | rounds + 1 => do
      match ← readBytes .lease with
      | none => .ret ()
      | some bytes =>
        let lease ← Prog.ofExcept (parseLease codecs "corrupt release metadata" bytes)
        if lease.holderId ≠ holder ∨ lease.expiresAtUnixNanos = 0 then .ret ()
        else
          let replacement := codecs.lease.toVec { lease with expiresAtUnixNanos := 0 }
          match ← compareExchange .lease (some bytes) replacement [] .persistence with
          | true => .ret ()
          | false => releaseRounds rounds

/-- An own lease is ended. -/
def releaseLease : MetaProg Unit := do
  let () ← Prog.ofExcept place.validate
  releaseRounds codecs holder 8

/-- `decode`: the committed offset of the group's own metadata. -/
def decodeOffset (bytes : Bytes) : Except QueueError Nat :=
  match codecs.offset.fromSlice bytes with
  | none => .error (.persistence "offset_store parse")
  | some parsed =>
    if parsed.group ≠ place.group then
      .error (.persistence "offset metadata group identity mismatch")
    else .ok parsed.committedOffset

def decodePrevious : Option Bytes → Except QueueError (Option Nat)
  | none => .ok none
  | some bytes => (decodeOffset codecs place bytes).map some

/-- The rounds of a commit: the lease file guards the offset file. -/
def commitRounds (committedOffset : Nat) : Nat → MetaProg Unit
  | 0 => .fail (.persistence "offset publication contention retry budget exhausted")
  | rounds + 1 => do
      let leaseBytes ← ownedBytes codecs place holder
      let observed ← readBytes .offset
      let previous ← Prog.ofExcept (decodePrevious codecs place observed)
      let body : OffsetMeta :=
        ⟨place.group, previous.elim committedOffset (max · committedOffset)⟩
      match ← compareExchange .offset observed (codecs.offset.toVec body)
          [(.lease, some leaseBytes)] .publicationIndeterminate with
      | true => .ret ()
      -- a renewal changes the lease bytes too
      | false => commitRounds committedOffset rounds

/-- The progress moves only forward, and only by the holder. -/
def commitOffset (committedOffset : Nat) : MetaProg Unit := do
  let () ← Prog.ofExcept place.validate
  commitRounds codecs place holder committedOffset 8

def LeaseCall.prog : LeaseCall → MetaProg Unit
  | .tryAcquire leaseDuration => update codecs place holder false leaseDuration
  | .renew leaseDuration => update codecs place holder true leaseDuration
  | .release => releaseLease codecs place holder
  | .commit committedOffset => commitOffset codecs place holder committedOffset

/-- A consumer makes its calls one after another, however each of them ends. -/
def consumerCalls : List LeaseCall → MetaProg Unit
  | [] => .ret ()
  | call :: rest => do
      let () ← (Prog.perform (MetaOp.begin call) : MetaProg Unit)
      let _ ← (call.prog codecs place holder).attempt
      consumerCalls rest

end Programs

/-! ## Consumers that share the files -/

/-- How an exchange ends besides what the comparison says. -/
inductive ExchangeOutcome
  | compared
  | contended
  | failed
  /-- the replacement is made, and an error returned -/
  | failedAfter
  deriving DecidableEq

/-- What is open at an operation: the clock the consumer reads, and faults. -/
structure MetaChoice where
  clock : Option Nat := none
  outcome : ExchangeOutcome := .compared
  deriving DecidableEq

/-- A lease that was put in place of another, with the holders the two name. -/
structure LeaseChange (ι : Type) where
  consumer : ι
  call : Option LeaseCall
  before : Option String
  after : Option String
  deriving DecidableEq

/-- A commit that took effect: the holder the lease named, and how often the lease had passed from
    one holder to another when the call began and when it took effect. -/
structure CommitRecord (ι : Type) where
  consumer : ι
  named : Option String
  begun : Nat
  term : Nat
  deriving DecidableEq

/-- The files, the call each consumer is in, and what has happened to the files. -/
structure MetaState (ι : Type) where
  files : MetaFile → Option Bytes
  calls : ι → Option LeaseCall := fun _ => none
  begun : ι → Nat := fun _ => 0
  changes : List (LeaseChange ι) := []
  commits : List (CommitRecord ι) := []

namespace MetaState

variable {ι : Type} (codecs : MetaCodecs)

def named (s : MetaState ι) : Option String :=
  ((s.files .lease).bind codecs.lease.fromSlice).map LeaseMeta.holderId

/-- How often the lease has passed from one holder to another. -/
def term (s : MetaState ι) : Nat := (s.changes.filter (fun c => c.before ≠ c.after)).length

/-- The committed offset of the group, if its file can be read. -/
def progress (place : Place) (s : MetaState ι) : Option Nat :=
  match s.files .offset with
  | none => none
  | some bytes => (decodeOffset codecs place bytes).toOption

def setFile (s : MetaState ι) (file : MetaFile) (bytes : Bytes) : MetaState ι :=
  { s with files := Function.update s.files file (some bytes) }

/-- A file is replaced, and the holder or the progress it brings is noted. -/
def publish (s : MetaState ι) (i : ι) (file : MetaFile) (bytes : Bytes) : MetaState ι :=
  let t := s.setFile file bytes
  match file with
  | .lease =>
    { t with changes := s.changes ++ [⟨i, s.calls i, s.named codecs, t.named codecs⟩] }
  | .offset =>
    { t with commits := s.commits ++ [⟨i, s.named codecs, s.begun i, s.term⟩] }

theorem files_publish_self (s : MetaState ι) (i : ι) (file : MetaFile) (bytes : Bytes) :
    (s.publish codecs i file bytes).files file = some bytes := by
  cases file <;> simp [publish, setFile]

/-- A call begins, at what the files are then. -/
def beginCall [DecidableEq ι] (s : MetaState ι) (i : ι) (call : LeaseCall) : MetaState ι :=
  { s with
    calls := Function.update s.calls i (some call)
    begun := Function.update s.begun i s.term }

def Matches (s : MetaState ι) (file : MetaFile) (expected : Option Bytes)
    (guards : List (MetaFile × Option Bytes)) : Prop :=
  s.files file = expected ∧ ∀ g ∈ guards, s.files g.1 = g.2

instance (s : MetaState ι) (file : MetaFile) (expected : Option Bytes)
    (guards : List (MetaFile × Option Bytes)) : Decidable (s.Matches file expected guards) :=
  inferInstanceAs (Decidable (_ ∧ ∀ g ∈ guards, _))

/-- Answers to the operations, one at a time. -/
def respond [DecidableEq ι] (i : ι) (s : MetaState ι) :
    (o : MetaOp) → MetaChoice → Option (o.Answer × MetaState ι)
  | .begin call, _ => some ((), s.beginCall i call)
  | .clock, c => some (c.clock, s)
  | .read file, c =>
    if c.outcome = .compared then some (.ok (s.files file), s) else some (.error "io", s)
  | .compareExchange file expected replacement guards, c =>
    match c.outcome with
    | .compared =>
      if s.Matches file expected guards then
        some (.ok true, s.publish codecs i file replacement)
      else some (.ok false, s)
    | .contended => some (.ok false, s)
    | .failed => some (.error "io", s)
    | .failedAfter =>
      if s.Matches file expected guards then
        some (.error "io", s.publish codecs i file replacement)
      else none

end MetaState

/-- Holders on the files of one place. -/
def metaSystem (ι : Type) [DecidableEq ι] (codecs : MetaCodecs) :
    System ι (MetaState ι) MetaOp MetaOp.Answer MetaChoice where
  respond := MetaState.respond codecs
  drift _ _ := none

/-- Consumers that are about to make their calls, over any contents of the files. -/
def consumersOn {ι : Type} (codecs : MetaCodecs) (place : Place) (holder : ι → String)
    (scripts : ι → List LeaseCall) (files : MetaFile → Option Bytes) :
    Pool ι (MetaState ι) MetaOp MetaOp.Answer QueueError Unit where
  shared := { files }
  procs i := consumerCalls codecs place (holder i) (scripts i)

end ProximaDb.Queue
