/-
  ProximaDb.Transaction.MultiModel

  The two-phase commit coordinator of the storage engines, for one transaction.
-/
import ProximaDb.Lib.Concurrent
import ProximaDb.Lib.KeyedFold

namespace ProximaDb.MultiModel

open ProximaDb.Lib

/-- `TransactionState`. -/
inductive TransactionState
  | active
  | preparing
  | prepared
  | committing
  | committed
  | aborting
  | aborted
  | unknown
  deriving DecidableEq

namespace TransactionState

/-- `is_terminal`. -/
def isTerminal : TransactionState → Bool
  | committed | aborted => true
  | _ => false

/-- `can_abort`. -/
def canAbort : TransactionState → Bool
  | active | preparing | prepared | aborting => true
  | _ => false

end TransactionState

/-- `PrepareResult`: a participant's vote. -/
inductive PrepareResult
  | yes
  | no (reason : String)
  | timeout
  | error (text : String)
  deriving DecidableEq

/-- `is_yes`. -/
def PrepareResult.isYes : PrepareResult → Bool
  | yes => true
  | _ => false

/-- `CommitResult`. -/
inductive CommitResult
  | success
  | failed (reason : String)
  | timeout
  deriving DecidableEq

/-- `is_success`. -/
def CommitResult.isSuccess : CommitResult → Bool
  | success => true
  | _ => false

/-- `ParticipantType`. -/
inductive ParticipantType
  | vector
  | document
  | graph
  | rdbms
  | observability
  deriving DecidableEq

/-- `ParticipantState`: the vote and the answer to the commit, once there. -/
structure ParticipantState where
  prepareResult : Option PrepareResult
  commitResult : Option CommitResult
  deriving DecidableEq

/-- `TwoPhaseTransaction`. -/
structure TwoPhaseTransaction where
  state : TransactionState
  participants : KeyMap ParticipantType ParticipantState

def TwoPhaseTransaction.new : TwoPhaseTransaction := ⟨.active, ∅⟩

/-- `get_mut` on the map of participants. -/
def TwoPhaseTransaction.modify (t : TwoPhaseTransaction) (p : ParticipantType)
    (f : ParticipantState → ParticipantState) : TwoPhaseTransaction :=
  match t.participants.lookup p with
  | some pstate => { t with participants := t.participants.replace p (f pstate) }
  | none => t

/-- The errors of the coordinator. -/
inductive TwoPhaseError
  | alreadyExists
  | notFound
  | cannotCommit (state : TransactionState)
  | cannotAbort (state : TransactionState)
  | someFailed
  deriving DecidableEq

inductive Decision
  | commit
  | abort
  deriving DecidableEq

/-! ## The calls -/

/-- The steps of the coordinator's calls. -/
inductive TpcOp
  | begin
  | enlist (p : ParticipantType)
  | startPrepare
  | startCommit
  | startAbort
  | participantTypes
  /-- a participant's `prepare`, and its `commit` or `abort` -/
  | ask (p : ParticipantType)
  | send (decision : Decision) (p : ParticipantType)
  | notePrepare (p : ParticipantType) (result : PrepareResult)
  | noteResult (p : ParticipantType) (result : CommitResult)
  | endPrepare (allYes : Bool)
  | endCommit
  | endAbort

/-- The answer to each request. -/
abbrev TpcOp.Answer : TpcOp → Type
  | .begin => Except TwoPhaseError Unit
  | .enlist _ => Except TwoPhaseError Unit
  | .startCommit => Except TwoPhaseError Unit
  | .startAbort => Except TwoPhaseError Unit
  | .participantTypes => List ParticipantType
  | .ask _ => PrepareResult
  | .send _ _ => CommitResult
  | _ => Unit

abbrev TpcProg (α : Type) := Prog TpcOp TpcOp.Answer TwoPhaseError α

section Calls

variable (registered : ParticipantType → Bool) (maxRetries : Nat)

/-- Every participant is asked, also after one that did not vote yes. -/
def askEach : List ParticipantType → Bool → TpcProg Bool
  | [], allYes => .ret allYes
  | p :: rest, allYes =>
    if registered p then do
      let result ← (Prog.perform (TpcOp.ask p) : TpcProg PrepareResult)
      Prog.perform (TpcOp.notePrepare p result)
      askEach rest (allYes && result.isYes)
    else askEach rest false

/-- `prepare`: ask the participants for their votes. -/
def prepare : TpcProg Bool := do
  Prog.perform TpcOp.startPrepare
  let types ← (Prog.perform TpcOp.participantTypes : TpcProg (List ParticipantType))
  let allYes ← askEach registered types true
  Prog.perform (TpcOp.endPrepare allYes)
  .ret allYes

/-- A decision is sent again until it succeeds, `attempts` times more at most. -/
def sendRetrying (decision : Decision) (p : ParticipantType) : Nat → TpcProg CommitResult
  | 0 => Prog.perform (TpcOp.send decision p)
  | attempts + 1 => do
      let result ← (Prog.perform (TpcOp.send decision p) : TpcProg CommitResult)
      if result.isSuccess then .ret result else sendRetrying decision p attempts

/-- A decision is sent to every registered participant of the list. -/
def tellEach (decision : Decision) : List ParticipantType → Bool → TpcProg Bool
  | [], allSuccess => .ret allSuccess
  | p :: rest, allSuccess =>
    if registered p then do
      let result ← sendRetrying decision p maxRetries
      Prog.perform (TpcOp.noteResult p result)
      tellEach decision rest (allSuccess && result.isSuccess)
    else tellEach decision rest allSuccess

/-- `commit`: refused unless prepared. -/
def commit : TpcProg Unit := do
  let start ← (Prog.perform TpcOp.startCommit : TpcProg (Except TwoPhaseError Unit))
  (Prog.ofExcept start : TpcProg Unit)
  let types ← (Prog.perform TpcOp.participantTypes : TpcProg (List ParticipantType))
  let allSuccess ← tellEach registered maxRetries .commit types true
  Prog.perform TpcOp.endCommit
  if allSuccess then .ret () else .fail .someFailed

/-- `abort`. -/
def abort : TpcProg Unit := do
  let start ← (Prog.perform TpcOp.startAbort : TpcProg (Except TwoPhaseError Unit))
  (Prog.ofExcept start : TpcProg Unit)
  let types ← (Prog.perform TpcOp.participantTypes : TpcProg (List ParticipantType))
  let _ ← tellEach registered maxRetries .abort types true
  Prog.perform TpcOp.endAbort

/-- `begin`. -/
def begin : TpcProg Unit := do
  let result ← (Prog.perform TpcOp.begin : TpcProg (Except TwoPhaseError Unit))
  Prog.ofExcept result

/-- `enlist`. -/
def enlist (p : ParticipantType) : TpcProg Unit := do
  let result ← (Prog.perform (TpcOp.enlist p) : TpcProg (Except TwoPhaseError Unit))
  Prog.ofExcept result

/-- The calls of the coordinator. -/
inductive Call
  | begin
  | enlist (p : ParticipantType)
  | prepare
  | commit
  | abort

def Call.program : Call → TpcProg Unit
  | .begin => MultiModel.begin
  | .enlist p => MultiModel.enlist p
  | .prepare => MultiModel.prepare registered >>= fun _ => .ret ()
  | .commit => MultiModel.commit registered maxRetries
  | .abort => MultiModel.abort registered maxRetries

end Calls

/-! ## The world -/

/-- A decision as it went to a participant, with the enlisted participants of that moment and those
    that had voted yes. -/
structure Sent where
  decision : Decision
  recipient : ParticipantType
  enlisted : List ParticipantType
  yes : List ParticipantType
  deriving DecidableEq

/-- How far the first `prepare` call is. -/
inductive Phase (ι : Type)
  | idle
  | running (i : ι)
  | done
  deriving DecidableEq

/-- The transaction, with a record of the votes and messages so far. -/
structure World (ι : Type) where
  transaction : Option TwoPhaseTransaction
  yes : List ParticipantType
  sent : List Sent
  phase : Phase ι
  /-- an `abort` call has begun -/
  aborting : Bool
  /-- the calls have come in order: the transaction is begun before it is prepared, committed or
      aborted; it is prepared once, and not after an `abort` has begun; no `abort` begins while
      it is being prepared, and nobody joins after that began -/
  orderly : Bool

/-- The replies of participants, and the order in which the participants are listed. -/
inductive Reply
  | vote (result : PrepareResult)
  | result (result : CommitResult)
  | order (types : List ParticipantType)

namespace World

variable {ι : Type}

/-- Before the transaction is begun. -/
def fresh : World ι := ⟨none, [], [], .idle, false, true⟩

def state (w : World ι) : Option TransactionState := w.transaction.map (·.state)

/-- The participants that were enlisted. -/
def enlisted (w : World ι) : List ParticipantType :=
  match w.transaction with
  | some t => t.participants.keys
  | none => []

/-- `if let Some(txn) = transactions.get_mut(..)`. -/
def modify (w : World ι) (f : TwoPhaseTransaction → TwoPhaseTransaction) : World ι :=
  { w with transaction := w.transaction.map f }

def setState (w : World ι) (state : TransactionState) : World ι :=
  w.modify (fun t => { t with state := state })

variable [DecidableEq ι]

/-- What a request does to the transaction, and what it answers. -/
def respond (i : ι) (w : World ι) : (o : TpcOp) → Reply → Option (o.Answer × World ι)
  | .begin, _ =>
    match w.transaction with
    | some _ => some (.error .alreadyExists, w)
    | none => some (.ok (), { w with transaction := some .new })
  | .enlist p, _ =>
    match w.transaction with
    | none => some (.error .notFound, w)
    | some t =>
      if p ∈ t.participants then some (.ok (), w)
      else
        some (.ok (), { w with
          transaction := some { t with participants := t.participants.insert p ⟨none, none⟩ }
          orderly := w.orderly && decide (w.phase = .idle) })
  | .startPrepare, _ =>
    let inOrder := w.transaction.isSome && decide (w.phase = .idle) && !w.aborting
    some ((), { w.setState .preparing with
      phase := .running i
      orderly := w.orderly && inOrder })
  | .startCommit, _ =>
    match w.transaction with
    | none => some (.ok (), { w with orderly := false })
    | some t =>
      if t.state ≠ .prepared then some (.error (.cannotCommit t.state), w)
      else some (.ok (), w.setState .committing)
  | .startAbort, _ =>
    match w.transaction with
    | none => some (.ok (), { w with orderly := false })
    | some t =>
      if t.state.canAbort = false then some (.error (.cannotAbort t.state), w)
      else
        let inOrder := decide (w.phase = .idle) || decide (w.phase = .done)
        some (.ok (), { w.setState .aborting with
          aborting := true
          orderly := w.orderly && inOrder })
  | .participantTypes, .order types =>
    if types.Perm w.enlisted then some (types, w) else none
  | .participantTypes, _ => none
  | .ask p, .vote result =>
    some (result, { w with yes := if result.isYes then p :: w.yes else w.yes })
  | .ask _, _ => none
  | .send decision p, .result result =>
    some (result, { w with sent := ⟨decision, p, w.enlisted, w.yes⟩ :: w.sent })
  | .send _ _, _ => none
  | .notePrepare p result, _ =>
    some ((), w.modify (fun t => t.modify p (fun s => { s with prepareResult := some result })))
  | .noteResult p result, _ =>
    some ((), w.modify (fun t => t.modify p (fun s => { s with commitResult := some result })))
  | .endPrepare allYes, _ =>
    some ((), { w.setState (if allYes then .prepared else .aborting) with phase := .done })
  | .endCommit, _ => some ((), w.setState .committed)
  | .endAbort, _ => some ((), w.setState .aborted)

end World

/-- Calls over one transaction, with nothing that happens by itself. -/
def tpcSystem (ι : Type) [DecidableEq ι] : System ι (World ι) TpcOp TpcOp.Answer Reply where
  respond := World.respond
  drift _ _ := none

abbrev TpcPool (ι : Type) := Pool ι (World ι) TpcOp TpcOp.Answer TwoPhaseError Unit

/-- One call per process. -/
def tasks {ι : Type} (registered : ParticipantType → Bool) (maxRetries : Nat) (calls : ι → Call) :
    TpcPool ι where
  shared := .fresh
  procs i := (calls i).program registered maxRetries

end ProximaDb.MultiModel
