/-
  ProximaDb.Transaction.TwoPhaseCommit

  Cross-model transactions and the log they are recorded in. The coordinator asks every
  participant to prepare, logs the prepared ones, tells every participant to commit and logs the
  decision; whatever fails on the way leads to an abort. A restart reads the log and finishes what
  it finds undecided.
-/
import ProximaDb.Lib.KeyedFold
import ProximaDb.Lib.Concurrent

namespace ProximaDb.Transaction

open ProximaDb.Lib

abbrev TransactionId := Nat

abbrev ParticipantId := String

/-- What the coordinator logs. -/
inductive WalRecord
  | txBegin (txId : TransactionId)
  | txPrepare (txId : TransactionId) (participantId : ParticipantId) (totalCount : Nat)
  | txCommit (txId : TransactionId)
  | txAbort (txId : TransactionId)
  deriving DecidableEq

/-- The transaction a record is about. -/
def WalRecord.txId : WalRecord → TransactionId
  | txBegin txId => txId
  | txPrepare txId _ _ => txId
  | txCommit txId => txId
  | txAbort txId => txId

/-- What the log says of a transaction. -/
inductive WalTransactionState
  | begun
  | preparing (preparedCount totalCount : Nat) (participantIds : List ParticipantId)
  | prepared (totalCount : Nat) (participantIds : List ParticipantId)
  | committed
  | aborted
  deriving DecidableEq

abbrev WalStates := KeyMap TransactionId WalTransactionState

/-- The participants a state has logged as prepared. -/
def preparedIds : Option WalTransactionState → List ParticipantId
  | some (.preparing _ _ participantIds) => participantIds
  | some (.prepared _ participantIds) => participantIds
  | _ => []

/-- A participant has prepared: the state counts it, once. -/
def applyPrepareState (txStates : WalStates) (txId : TransactionId) (participantId : ParticipantId)
    (preparedCount totalCount : Nat) : WalStates :=
  let participantIds := preparedIds (txStates.lookup txId)
  let participantIds :=
    if participantId ∈ participantIds then participantIds else participantIds ++ [participantId]
  if totalCount ≤ preparedCount then txStates.insert txId (.prepared totalCount participantIds)
  else txStates.insert txId (.preparing preparedCount totalCount participantIds)

/-- The states after one more record. -/
def applyRecord (txStates : WalStates) : WalRecord → WalStates
  | .txBegin txId => txStates.insert txId .begun
  | .txPrepare txId participantId totalCount =>
    let participantIds := preparedIds (txStates.lookup txId)
    let preparedCount :=
      if participantId ∈ participantIds then participantIds.length
      else participantIds.length + 1
    applyPrepareState txStates txId participantId preparedCount totalCount
  | .txCommit txId => txStates.insert txId .committed
  | .txAbort txId => txStates.insert txId .aborted

/-- What `recover_transactions` makes of the records of a log. -/
def replay (records : List WalRecord) : WalStates := records.foldl applyRecord ∅

/-- The transactions that are neither committed nor aborted. -/
def isIncomplete : WalTransactionState → Bool
  | .begun => true
  | .preparing _ _ _ => true
  | .prepared _ _ => true
  | .committed => false
  | .aborted => false

/-- The transactions that a restart has to finish. -/
def incompleteTransactions (txStates : WalStates) : List TransactionId :=
  (txStates.entries.filter (fun e => isIncomplete e.2)).map Sigma.fst

/-! ## One transaction at a time -/

/-- What a record makes of the state of its transaction. -/
def WalRecord.next (record : WalRecord) (state : Option WalTransactionState) :
    WalTransactionState :=
  match record with
  | .txBegin _ => .begun
  | .txPrepare _ participantId totalCount =>
    let ids := if participantId ∈ preparedIds state then preparedIds state
      else preparedIds state ++ [participantId]
    if totalCount ≤ ids.length then .prepared totalCount ids
    else .preparing ids.length totalCount ids
  | .txCommit _ => .committed
  | .txAbort _ => .aborted

theorem lookup_applyRecord (txStates : WalStates) (record : WalRecord) (txId : TransactionId) :
    (applyRecord txStates record).lookup txId =
      if txId = record.txId then some (record.next (txStates.lookup txId))
      else txStates.lookup txId := by
  have hinsert : ∀ value : WalTransactionState, (txStates.insert record.txId value).lookup txId =
        if txId = record.txId then some value else txStates.lookup txId :=
    fun value => lookup_insert_eq txStates record.txId txId value
  cases record with
  | txBegin tx => exact hinsert .begun
  | txCommit tx => exact hinsert .committed
  | txAbort tx => exact hinsert .aborted
  | txPrepare tx participantId totalCount =>
    have hlength : ∀ ids : List ParticipantId,
        (if participantId ∈ ids then ids.length else ids.length + 1) =
          (if participantId ∈ ids then ids else ids ++ [participantId]).length := by
      intro ids
      split_ifs
      · rfl
      · rw [List.length_append, List.length_singleton]
    have happly : applyRecord txStates (.txPrepare tx participantId totalCount) = txStates.insert tx
          ((WalRecord.txPrepare tx participantId totalCount).next (txStates.lookup tx)) := by
      simp only [applyRecord, applyPrepareState, hlength, WalRecord.next]
      split_ifs <;> rfl
    rw [happly]
    refine (hinsert _).trans ?_
    split_ifs with heq
    · rw [heq]
      rfl
    · rfl

theorem replay_concat (records : List WalRecord) (record : WalRecord) :
    replay (records ++ [record]) = applyRecord (replay records) record := by
  unfold replay
  rw [List.foldl_append]
  rfl

/-- The state of a transaction after `done` of `totalCount` participants were logged. -/
def loggedAfter (totalCount : Nat) (done : List ParticipantId) : WalTransactionState :=
  if done = [] then .begun
  else if totalCount ≤ done.length then .prepared totalCount done
  else .preparing done.length totalCount done

theorem next_loggedAfter {totalCount : Nat} {done : List ParticipantId}
    {participantId : ParticipantId} (hnew : participantId ∉ done) (txId : TransactionId) :
    (WalRecord.txPrepare txId participantId totalCount).next (some (loggedAfter totalCount done)) =
      loggedAfter totalCount (done ++ [participantId]) := by
  have hids : preparedIds (some (loggedAfter totalCount done)) = done := by
    unfold loggedAfter
    split_ifs with hnil
    · exact hnil.symm
    · rfl
    · rfl
  have hne : done ++ [participantId] ≠ [] := by simp
  simp only [WalRecord.next, hids, if_neg hnew]
  rw [loggedAfter, if_neg hne]

theorem mem_incompleteTransactions {txStates : WalStates} {txId : TransactionId} :
    txId ∈ incompleteTransactions txStates ↔
      ∃ state, txStates.lookup txId = some state ∧ isIncomplete state = true := by
  unfold incompleteTransactions
  rw [List.mem_map]
  constructor
  · rintro ⟨⟨tx, state⟩, hmem, rfl⟩
    obtain ⟨hmem, hstate⟩ := List.mem_filter.1 hmem
    exact ⟨state, AList.mem_lookup_iff.2 hmem, hstate⟩
  · rintro ⟨state, hlookup, hstate⟩
    exact ⟨⟨txId, state⟩, List.mem_filter.2 ⟨AList.mem_lookup_iff.1 hlookup, hstate⟩, rfl⟩

theorem nodup_incompleteTransactions (txStates : WalStates) :
    (incompleteTransactions txStates).Nodup := by
  have hkeys : (txStates.entries.map Sigma.fst).Nodup := txStates.nodupKeys
  exact hkeys.sublist (List.Sublist.map _ List.filter_sublist)

/-- The state of a transaction in the memory of the coordinator. -/
inductive TransactionState
  | initialized
  | preparing
  | prepared
  | committing
  | committed
  | aborted
  deriving DecidableEq

/-- The answer of a participant to prepare. -/
inductive Vote
  | yes
  | no
  deriving DecidableEq

/-- What a call of the coordinator may return. -/
inductive TransactionError
  /-- `Internal`, "Participant not found" -/
  | participantNotFound (participantId : ParticipantId)
  /-- `NotImplemented`, the participant is buffer-only -/
  | bufferOnly (participantId : ParticipantId)
  /-- `TransactionAborted`, "Participant … voted NO" -/
  | votedNo (participantId : ParticipantId)
  /-- `TransactionAborted`, "Prepare phase failed" -/
  | prepareFailed (error : TransactionError)
  /-- `InvalidInput`, "Transaction … is not prepared for commit" -/
  | notPrepared (txId : TransactionId)
  /-- what a participant returned -/
  | participant (text : String)
  deriving DecidableEq

/-- The registered participants, each with its `supports_durable_commit`. -/
abbrev Registry := ParticipantId → Option Bool

/-! ## The steps -/

/-- What the coordinator asks of its memory, its log and the participants. -/
inductive TxOp
  /-- `generate_tx_id` -/
  | generateTxId
  | setState (txId : TransactionId) (state : TransactionState)
  | getState (txId : TransactionId)
  /-- the participant's `prepare`, `commit` and `rollback` -/
  | prepare (txId : TransactionId) (participantId : ParticipantId)
  | commit (txId : TransactionId) (participantId : ParticipantId)
  | rollback (txId : TransactionId) (participantId : ParticipantId)
  /-- a record at the end of `transactions.wal` -/
  | append (record : WalRecord)
  /-- the log's own map of states -/
  | insertTxState (txId : TransactionId) (state : WalTransactionState)
  | applyPrepareState (txId : TransactionId) (participantId : ParticipantId)
      (preparedCount totalCount : Nat)
  | getTxState (txId : TransactionId)
  | getIncompleteTransactions
  /-- the log read back from the file -/
  | readWal
  /-- a client calls `commit_transaction`, and has its answer -/
  | called (txId : TransactionId) (participantIds : List ParticipantId)
  | returned (txId : TransactionId) (ok : Bool)

abbrev TxOp.Answer : TxOp → Type
  | .generateTxId => TransactionId
  | .getState _ => Option TransactionState
  | .prepare _ _ => Except TransactionError Vote
  | .commit _ _ => Except TransactionError Unit
  | .rollback _ _ => Except TransactionError Unit
  | .getTxState _ => Option WalTransactionState
  | .getIncompleteTransactions => List TransactionId
  | _ => Unit

/-- Programs of the coordinator. -/
abbrev TxProg (α : Type) := Prog TxOp TxOp.Answer TransactionError α

/-! ## `WALCoordinator` -/

/-- `write_tx_begin`: the record, then the state. -/
def writeTxBegin (txId : TransactionId) : TxProg Unit := do
  Prog.perform (TxOp.append (.txBegin txId))
  Prog.perform (TxOp.insertTxState txId .begun)

/-- `write_tx_prepare`. -/
def writeTxPrepare (txId : TransactionId) (participantId : ParticipantId)
    (preparedCount totalCount : Nat) : TxProg Unit := do
  Prog.perform (TxOp.append (.txPrepare txId participantId totalCount))
  Prog.perform (TxOp.applyPrepareState txId participantId preparedCount totalCount)

/-- `write_tx_commit`. -/
def writeTxCommit (txId : TransactionId) : TxProg Unit := do
  Prog.perform (TxOp.append (.txCommit txId))
  Prog.perform (TxOp.insertTxState txId .committed)

/-- `write_tx_abort`. -/
def writeTxAbort (txId : TransactionId) : TxProg Unit := do
  Prog.perform (TxOp.append (.txAbort txId))
  Prog.perform (TxOp.insertTxState txId .aborted)

/-! ## `TwoPhaseCommit` -/

section TwoPhase

variable (registry : Registry) (txId : TransactionId)

/-- Each participant in turn, up to the first that is not found, fails or votes no. -/
def askToPrepare : List ParticipantId → TxProg Unit
  | [] => .ret ()
  | participantId :: rest =>
    match registry participantId with
    | none => .fail (.participantNotFound participantId)
    | some _ => do
        let reply ← (Prog.perform (TxOp.prepare txId participantId) : TxProg _)
        let vote ← (Prog.ofExcept reply : TxProg Vote)
        if vote = .no then .fail (.votedNo participantId) else askToPrepare rest

/-- `prepare_phase`: all participants vote yes, or it fails. -/
def preparePhase (participantIds : List ParticipantId) : TxProg Unit := do
  Prog.perform (TxOp.setState txId .preparing)
  askToPrepare registry txId participantIds
  Prog.perform (TxOp.setState txId .prepared)

def prepare (participantIds : List ParticipantId) : TxProg Unit :=
  preparePhase registry txId participantIds

/-- Each participant in turn, up to the first that is not found or fails. -/
def tellToCommit : List ParticipantId → TxProg Unit
  | [] => .ret ()
  | participantId :: rest =>
    match registry participantId with
    | none => .fail (.participantNotFound participantId)
    | some _ => do
        let reply ← (Prog.perform (TxOp.commit txId participantId) : TxProg _)
        (Prog.ofExcept reply : TxProg Unit)
        tellToCommit rest

/-- `commit_phase`: the participants are told one after the other. -/
def commitPhase (participantIds : List ParticipantId) : TxProg Unit := do
  Prog.perform (TxOp.setState txId .committing)
  tellToCommit registry txId participantIds

/-- `commit_prepared`: only what is prepared is committed. -/
def commitPrepared (participantIds : List ParticipantId) : TxProg Unit := do
  let state ← (Prog.perform (TxOp.getState txId) : TxProg (Option TransactionState))
  if state = some .prepared ∨ state = some .committing then do
    commitPhase registry txId participantIds
    Prog.perform (TxOp.setState txId .committed)
  else .fail (.notPrepared txId)

/-- Every participant that is found; what they return is ignored. -/
def tellToRollback : List ParticipantId → TxProg Unit
  | [] => .ret ()
  | participantId :: rest =>
    match registry participantId with
    | none => tellToRollback rest
    | some _ => do
        let _ ← (Prog.perform (TxOp.rollback txId participantId) : TxProg _)
        tellToRollback rest

/-- `abort`: the participants are told to roll back. -/
def abort (participantIds : List ParticipantId) : TxProg Unit := do
  Prog.perform (TxOp.setState txId .aborted)
  tellToRollback registry txId participantIds

/-- The state a recovered transaction starts from. -/
def markPreparedForRecovery : TxProg Unit := Prog.perform (TxOp.setState txId .prepared)

end TwoPhase

/-- A new id, and a transaction that has done nothing. -/
def begin : TxProg TransactionId := do
  let txId ← (Prog.perform TxOp.generateTxId : TxProg TransactionId)
  Prog.perform (TxOp.setState txId .initialized)
  .ret txId

/-! ## `CrossModelTransactionCoordinator` -/

/-- `begin_transaction`: begun and logged. -/
def beginTransaction : TxProg TransactionId := do
  let txId ← begin
  writeTxBegin txId
  .ret txId

/-- Every participant is known and durable. -/
def ensureDurableParticipants (registry : Registry) :
    List ParticipantId → Except TransactionError Unit
  | [] => .ok ()
  | participantId :: rest =>
    match registry participantId with
    | none => .error (.participantNotFound participantId)
    | some false => .error (.bufferOnly participantId)
    | some true => ensureDurableParticipants registry rest

/-- One prepare record for each participant, from the `index`-th on. -/
def writePrepares (txId : TransactionId) (totalCount : Nat) :
    Nat → List ParticipantId → TxProg Unit
  | _, [] => .ret ()
  | index, participantId :: rest => do
      writeTxPrepare txId participantId (index + 1) totalCount
      writePrepares txId totalCount (index + 1) rest

section Coordinator

variable (registry : Registry) (txId : TransactionId) (participantIds : List ParticipantId)

/-- Both phases with the log between them: the `result` of `commit_transaction`. -/
def runPhases : TxProg Unit := do
  match ← (prepare registry txId participantIds).attempt with
  | .ok _ => do
      writePrepares txId participantIds.length 0 participantIds
      commitPrepared registry txId participantIds
  | .error error => do
      abort registry txId participantIds
      .fail (.prepareFailed error)

/-- `commit_transaction`: both phases, with the decision logged between them. -/
def commitTransaction : TxProg Unit := do
  (Prog.ofExcept (ensureDurableParticipants registry participantIds) : TxProg Unit)
  match ← (runPhases registry txId participantIds).attempt with
  | .ok _ => writeTxCommit txId
  | .error error => do
      abort registry txId participantIds
      writeTxAbort txId
      .fail error

/-- `rollback_transaction`: aborted, then logged. -/
def rollbackTransaction : TxProg Unit := do
  abort registry txId participantIds
  writeTxAbort txId

end Coordinator

/-- A transaction that the log has as prepared. -/
def recoverPrepared (registry : Registry) (txId : TransactionId)
    (participantIds : List ParticipantId) : TxProg Unit :=
  match ensureDurableParticipants registry participantIds with
  | .error _ => do
      abort registry txId participantIds
      writeTxAbort txId
  | .ok _ => do
      markPreparedForRecovery txId
      match ← (commitPrepared registry txId participantIds).attempt with
      -- no abort record on this path: the log keeps the transaction prepared
      | .error _ => abort registry txId participantIds
      | .ok _ => writeTxCommit txId

/-- One transaction that the log leaves undecided. -/
def recoverTransaction (registry : Registry) (txId : TransactionId) : TxProg Unit := do
  match ← (Prog.perform (TxOp.getTxState txId) : TxProg (Option WalTransactionState)) with
  | none => .ret ()
  | some (.prepared _ participantIds) => recoverPrepared registry txId participantIds
  | some (.preparing _ _ participantIds) => do
      abort registry txId participantIds
      writeTxAbort txId
  | some _ => do
      Prog.perform (TxOp.setState txId .aborted)
      writeTxAbort txId

/-- One transaction after the other. -/
def recoverEach (registry : Registry) : List TransactionId → TxProg Unit
  | [] => .ret ()
  | txId :: rest => do
      recoverTransaction registry txId
      recoverEach registry rest

/-- `recover_transactions`: what the log has open is finished. -/
def recoverTransactions (registry : Registry) : TxProg Unit := do
  let incomplete ← (Prog.perform TxOp.getIncompleteTransactions : TxProg (List TransactionId))
  recoverEach registry incomplete

/-- `CrossModelTransactionCoordinator::initialize`. -/
def initializeCoordinator (registry : Registry) : TxProg Unit := do
  Prog.perform TxOp.readWal
  recoverTransactions registry

/-- What a client does with the transaction it has begun. -/
inductive Request
  | leave
  | commit (participantIds : List ParticipantId)
  | rollback (participantIds : List ParticipantId)

/-- What a client does with the transaction it began. -/
def endTransaction (registry : Registry) (txId : TransactionId) : Request → TxProg Unit
  | .leave => .ret ()
  | .commit participantIds => do
      Prog.perform (TxOp.called txId participantIds)
      match ← (commitTransaction registry txId participantIds).attempt with
      | .ok _ => Prog.perform (TxOp.returned txId true)
      | .error _ => Prog.perform (TxOp.returned txId false)
  | .rollback participantIds => rollbackTransaction registry txId participantIds

/-- A client: one transaction, and one call that ends it. -/
def client (registry : Registry) (request : Request) : TxProg Unit := do
  let txId ← beginTransaction
  endTransaction registry txId request

/-! ## The world -/

/-- What was asked and told about one transaction. -/
structure Ledger where
  /-- the participants `commit_transaction` was called with -/
  listed : Option (List ParticipantId)
  votedYes : List ParticipantId
  /-- told to commit, and what came of it -/
  commitSent : List ParticipantId
  commitApplied : List ParticipantId
  commitRefused : List ParticipantId
  rollbackSent : List ParticipantId
  /-- `commit_transaction` has returned `Ok` -/
  returnedOk : Bool
  deriving DecidableEq

def Ledger.blank : Ledger :=
  ⟨none, [], [], [], [], [], false⟩

/-- What a crash leaves: the log, the participants, and a clock beyond every id given out. -/
structure Store where
  wal : List WalRecord
  ledgers : KeyMap TransactionId Ledger
  nextTxId : TransactionId

def Store.ledger (d : Store) (txId : TransactionId) : Ledger :=
  (d.ledgers.lookup txId).getD .blank

def Store.fresh : Store := ⟨[], ∅, 0⟩

/-- A store and the coordinator that runs on it; `owner` is the client that began each
    transaction. -/
structure World (ι : Type) extends Store where
  transactions : KeyMap TransactionId TransactionState
  txStates : WalStates
  owner : TransactionId → Option ι

/-- The replies of participants, and the order in which a hash map is listed. -/
inductive Reply
  | yes
  | no
  | done
  | failed (text : String)
  | order (txIds : List TransactionId)

namespace World

variable {ι : Type}

def setLedger (w : World ι) (txId : TransactionId) (f : Ledger → Ledger) : World ι :=
  { w with ledgers := w.ledgers.insert txId (f (w.ledger txId)) }

/-- Answers to the operations, one at a time. -/
def respond [DecidableEq ι] (i : ι) (w : World ι) : (o : TxOp) → Reply → Option (o.Answer × World ι)
  | .generateTxId, _ =>
    some (w.nextTxId, { w with
      nextTxId := w.nextTxId + 1, owner := Function.update w.owner w.nextTxId (some i) })
  | .setState txId state, _ =>
    some ((), { w with transactions := w.transactions.insert txId state })
  | .getState txId, _ => some (w.transactions.lookup txId, w)
  | .prepare txId participantId, .yes =>
    some (.ok .yes,
      w.setLedger txId (fun l => { l with votedYes := participantId :: l.votedYes }))
  | .prepare _ _, .no => some (.ok .no, w)
  | .prepare _ _, .failed text => some (.error (.participant text), w)
  | .prepare _ _, _ => none
  | .commit txId participantId, .done =>
    some (.ok (), w.setLedger txId (fun l => { l with
      commitSent := participantId :: l.commitSent,
      commitApplied := participantId :: l.commitApplied }))
  | .commit txId participantId, .failed text =>
    some (.error (.participant text), w.setLedger txId (fun l => { l with
      commitSent := participantId :: l.commitSent,
      commitRefused := participantId :: l.commitRefused }))
  | .commit _ _, _ => none
  | .rollback txId participantId, .done =>
    some (.ok (),
      w.setLedger txId (fun l => { l with rollbackSent := participantId :: l.rollbackSent }))
  | .rollback txId participantId, .failed text =>
    some (.error (.participant text),
      w.setLedger txId (fun l => { l with rollbackSent := participantId :: l.rollbackSent }))
  | .rollback _ _, _ => none
  | .append record, _ => some ((), { w with wal := w.wal ++ [record] })
  | .insertTxState txId state, _ =>
    some ((), { w with txStates := w.txStates.insert txId state })
  | .applyPrepareState txId participantId preparedCount totalCount, _ =>
    let txStates :=
      Transaction.applyPrepareState w.txStates txId participantId preparedCount totalCount
    some ((), { w with txStates := txStates })
  | .getTxState txId, _ => some (w.txStates.lookup txId, w)
  | .getIncompleteTransactions, .order txIds =>
    if txIds.Perm (incompleteTransactions w.txStates) then some (txIds, w) else none
  | .getIncompleteTransactions, _ => none
  | .readWal, _ => some ((), { w with txStates := replay w.wal })
  | .called txId participantIds, _ =>
    some ((), w.setLedger txId (fun l => { l with listed := some participantIds }))
  | .returned txId ok, _ => some ((), w.setLedger txId (fun l => { l with returnedOk := ok }))

end World

/-- Clients of one coordinator. -/
def txSystem (ι : Type) [DecidableEq ι] : System ι (World ι) TxOp TxOp.Answer Reply where
  respond := World.respond
  drift _ _ := none

/-! ## Runs -/

abbrev TxPool (ι : Type) := Pool ι (World ι) TxOp TxOp.Answer TransactionError Unit

/-- A start of the coordinator on what the last one left; its clock is at `seed`. -/
def recovering (registry : Registry) (d : Store) (seed : TransactionId) : TxPool Unit where
  shared := { d with
    nextTxId := seed
    transactions := ∅
    txStates := ∅
    owner := fun txId => if txId < seed then some () else none }
  procs _ := initializeCoordinator registry

/-- The clients of a coordinator that has recovered. -/
def serving {ι : Type} (registry : Registry) (w : World Unit) (requests : ι → Request) :
    TxPool ι where
  shared := { w with owner := fun _ => none }
  procs i := client registry (requests i)

section Runs

variable (registry : Registry) (Good : Store → Prop)

/-- Steps that all leave a store with a property. -/
def Steps {ι : Type} [DecidableEq ι] : TxPool ι → TxPool ι → Prop :=
  ReachesWithin (txSystem ι) (fun w => Good w.toStore)

/-- A point in a recovery from `d`. -/
def Recovers (d : Store) (q : TxPool Unit) : Prop :=
  ∃ seed, d.nextTxId ≤ seed ∧ Steps Good (recovering registry d seed) q

/-- A point in a session of clients, after a recovery from `d`. -/
def Serves {ι : Type} [DecidableEq ι] (d : Store) (p : TxPool ι) : Prop :=
  ∃ q requests, Recovers registry Good d q ∧ (q.procs ()).outcome = some (.ok ()) ∧
    Steps Good (serving registry q.shared requests) p

/-- The stores that sessions lead to, each begun where a crash ended the one before. -/
inductive Reached : Store → Prop
  | fresh : Reached .fresh
  | recovering {d : Store} {q : TxPool Unit} (hd : Reached d) (hq : Recovers registry Good d q) :
      Reached q.shared.toStore
  | serving {ι : Type} [DecidableEq ι] {d : Store} {p : TxPool ι} (hd : Reached d)
      (hp : Serves registry Good d p) : Reached p.shared.toStore

/-- The run is over: the recovery is done, or every client is. -/
inductive Over : Store → Prop
  | recovered {d : Store} {q : TxPool Unit} (hd : Reached registry Good d)
      (hq : Recovers registry Good d q) (hdone : (q.procs ()).outcome.isSome) :
      Over q.shared.toStore
  | served {ι : Type} [DecidableEq ι] {d : Store} {p : TxPool ι} (hd : Reached registry Good d)
      (hp : Serves registry Good d p) (hdone : ∀ i, (p.procs i).outcome.isSome) :
      Over p.shared.toStore

end Runs

end ProximaDb.Transaction
