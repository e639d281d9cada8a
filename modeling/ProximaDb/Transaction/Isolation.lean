/-
  ProximaDb.Transaction.Isolation

  The isolation manager: snapshots taken from the wall clock, write sets, and the bounded history
  of commits that a serializable transaction is checked against.
-/
import ProximaDb.Lib.Concurrent
import ProximaDb.Lib.KeyedFold

namespace ProximaDb.Isolation

open ProximaDb.Lib

/-- `IsolationLevel`. -/
inductive IsolationLevel
  | readUncommitted
  | readCommitted
  | repeatableRead
  | snapshot
  | serializable
  deriving DecidableEq

namespace IsolationLevel

/-- `strictness`. -/
def strictness : IsolationLevel → Nat
  | readUncommitted => 0
  | readCommitted => 1
  | repeatableRead => 2
  | snapshot => 3
  | serializable => 4

/-- `prevents_non_repeatable_reads`. -/
def preventsNonRepeatableReads (level : IsolationLevel) : Bool := decide (2 ≤ level.strictness)

end IsolationLevel

/-! ## Write sets -/

/-- A store type and the id of a record. -/
abbrev Key := String × String

/-- `WriteSet`. -/
structure WriteSet where
  writes : List Key
  deletes : List Key
  totalWrites : Nat
  totalDeletes : Nat
  deriving DecidableEq

namespace WriteSet

def new : WriteSet := ⟨[], [], 0, 0⟩

/-- `record_write`. -/
def recordWrite (ws : WriteSet) (k : Key) : WriteSet :=
  { ws with writes := ws.writes.insert k, totalWrites := ws.totalWrites + 1 }

/-- `record_delete`. -/
def recordDelete (ws : WriteSet) (k : Key) : WriteSet :=
  { ws with deletes := ws.deletes.insert k, totalDeletes := ws.totalDeletes + 1 }

/-- Writes against writes and deletes of the other, deletes against its writes only. -/
def conflictsWith (ws other : WriteSet) : Bool :=
  ws.writes.any (fun k => decide (k ∈ other.writes) || decide (k ∈ other.deletes)) ||
    ws.deletes.any (fun k => decide (k ∈ other.writes))

/-- `is_empty`. -/
def isEmpty (ws : WriteSet) : Bool := ws.totalWrites == 0 && ws.totalDeletes == 0

/-- The keys written or deleted. -/
def keys (ws : WriteSet) : List Key := ws.writes ++ ws.deletes

end WriteSet

/-! ## The calls -/

/-- `ReadSnapshot`: the time of the begin, and who was active then. -/
structure ReadSnapshot (ι : Type) where
  snapshotTimeNs : Nat
  activeTransactions : List ι

/-- An entry of the history: transaction, time, write set. -/
structure Entry (ι : Type) where
  transactionId : ι
  commitTs : Nat
  writeSet : WriteSet

/-- The errors of the manager. -/
inductive IsolationError (ι : Type)
  | notFound (transactionId : ι)
  | writeSetNotFound (transactionId : ι)
  | conflict (transactionId committed : ι)

/-- The steps of a transaction, all about itself. -/
inductive IsoOp (ι : Type)
  /-- `ReadSnapshot::new` reads the clock -/
  | snapshotTime
  | activeKeys
  | storeSnapshot (level : IsolationLevel) (snapshot : ReadSnapshot ι)
  | initWriteSet
  | recordWrite (k : Key)
  | recordDelete (k : Key)
  | getSnapshot
  | getWriteSet
  | readHistory
  /-- `commit_transaction` is called -/
  | enter
  | commitTime
  | removeWriteSet
  | push (commitTs : Nat) (writeSet : WriteSet)
  | removeSnapshot
  /-- the first section of `abort_transaction` -/
  | discardWriteSet

/-- The answer to each request. -/
abbrev IsoOp.Answer {ι : Type} : IsoOp ι → Type
  | .snapshotTime => Nat
  | .activeKeys => List ι
  | .getSnapshot => Option (IsolationLevel × ReadSnapshot ι)
  | .getWriteSet => Option WriteSet
  | .readHistory => List (Entry ι)
  | .commitTime => Nat
  | .removeWriteSet => Option WriteSet
  | _ => Unit

abbrev IsoProg (ι α : Type) := Prog (IsoOp ι) IsoOp.Answer (IsolationError ι) α

/-- What a transaction does between its begin and its commit. -/
inductive Act
  | write (k : Key)
  | delete (k : Key)
  | checkConflicts
  deriving DecidableEq

section Calls

variable {ι : Type} [DecidableEq ι] (i : ι)

/-- `begin_transaction`. -/
def beginTransaction (level : IsolationLevel) : IsoProg ι Unit := do
  let now ← (Prog.perform IsoOp.snapshotTime : IsoProg ι Nat)
  let active ← (if level.preventsNonRepeatableReads then Prog.perform IsoOp.activeKeys
    else .ret [] : IsoProg ι (List ι))
  Prog.perform (IsoOp.storeSnapshot level ⟨now, active.filter (fun j => decide (j ≠ i))⟩)
  Prog.perform IsoOp.initWriteSet

/-- The first entry of the history, since the snapshot, that the write set conflicts with. -/
def findConflict (snapshotTimeNs : Nat) (writeSet : WriteSet) (history : List (Entry ι)) :
    Option (Entry ι) :=
  history.find? (fun e =>
    !decide (e.commitTs ≤ snapshotTimeNs) && writeSet.conflictsWith e.writeSet)

/-- `check_conflicts`: against every entry of the history since the snapshot. -/
def checkConflicts : IsoProg ι Unit := do
  match ← (Prog.perform IsoOp.getSnapshot : IsoProg ι (Option (IsolationLevel × ReadSnapshot ι)))
    with
  | none => .fail (.notFound i)
  | some (level, snapshot) =>
    if level ≠ .serializable then .ret ()
    else do
      match ← (Prog.perform IsoOp.getWriteSet : IsoProg ι (Option WriteSet)) with
      | none => .fail (.writeSetNotFound i)
      | some writeSet => do
          let history ← (Prog.perform IsoOp.readHistory : IsoProg ι (List (Entry ι)))
          match findConflict snapshot.snapshotTimeNs writeSet history with
          | some e => .fail (.conflict i e.transactionId)
          | none => .ret ()

/-- `commit_transaction`. -/
def commitTransaction : IsoProg ι Unit := do
  Prog.perform IsoOp.enter
  checkConflicts i
  let now ← (Prog.perform IsoOp.commitTime : IsoProg ι Nat)
  match ← (Prog.perform IsoOp.removeWriteSet : IsoProg ι (Option WriteSet)) with
  | none => Prog.perform IsoOp.removeSnapshot
  | some writeSet =>
    if writeSet.isEmpty then Prog.perform IsoOp.removeSnapshot
    else do
      Prog.perform (IsoOp.push now writeSet)
      Prog.perform IsoOp.removeSnapshot

/-- `abort_transaction`. -/
def abortTransaction : IsoProg ι Unit := do
  Prog.perform IsoOp.discardWriteSet
  Prog.perform IsoOp.removeSnapshot

/-- What a transaction does, in its order. -/
def runActs : List Act → IsoProg ι Unit
  | [] => .ret ()
  | .write k :: rest => do
      Prog.perform (IsoOp.recordWrite k)
      runActs rest
  | .delete k :: rest => do
      Prog.perform (IsoOp.recordDelete k)
      runActs rest
  | .checkConflicts :: rest => do
      let _ ← ((checkConflicts i).attempt : IsoProg ι _)
      runActs rest

/-- A transaction: begin, what it does, and a commit, or an abort if that fails. -/
def transaction (acts : List Act) : IsoProg ι Unit := do
  beginTransaction i .serializable
  runActs i acts
  match ← ((commitTransaction i).attempt : IsoProg ι _) with
  | .ok _ => .ret ()
  | .error _ => abortTransaction

end Calls

/-! ## The manager -/

/-- Begins and commits in the order in which they happen. -/
inductive LogEvent (ι : Type)
  | began (i : ι)
  | committed (i : ι)
  deriving DecidableEq

/-- The manager's maps and history, with the log of begins and commits. -/
structure Manager (ι : Type) where
  clock : Nat
  activeSnapshots : KeyMap ι (IsolationLevel × ReadSnapshot ι)
  activeWriteSets : KeyMap ι WriteSet
  commitHistory : List (Entry ι)
  maxHistorySize : Nat
  log : List (LogEvent ι)
  /-- the transactions that have taken a snapshot and neither committed nor aborted -/
  live : KeyMap ι Nat
  /-- the transaction in a `commit_transaction` call -/
  committing : Option ι
  /-- nobody begins or commits during a commit call, the clock has moved on since the last
      snapshot when a commit takes its time, and the history drops no entry that is newer than
      the snapshot of a live transaction -/
  calm : Bool

/-- The manager of `IsolationManager::new`; `max_history_size` is 10000 there. -/
def Manager.new (ι : Type) (maxHistorySize : Nat) : Manager ι :=
  ⟨0, ∅, ∅, [], maxHistorySize, [], ∅, none, true⟩

abbrev Tick := Nat

namespace Manager

variable {ι : Type} [DecidableEq ι]

/-- The history with an entry added and trimmed to its size. -/
def pushed (m : Manager ι) (e : Entry ι) : List (Entry ι) :=
  (m.commitHistory ++ [e]).drop ((m.commitHistory ++ [e]).length - m.maxHistorySize)

/-- The entries a full history loses when one is added. -/
def dropped (m : Manager ι) (e : Entry ι) : List (Entry ι) :=
  (m.commitHistory ++ [e]).take ((m.commitHistory ++ [e]).length - m.maxHistorySize)

/-- What a request does to the manager, and what it answers. -/
def respond (i : ι) (m : Manager ι) : (o : IsoOp ι) → Tick → Option (o.Answer × Manager ι)
  | .snapshotTime, _ =>
    some (m.clock, { m with
      log := m.log ++ [.began i]
      live := m.live.insert i m.clock
      calm := m.calm && m.committing.isNone })
  | .activeKeys, _ => some (m.activeSnapshots.keys, m)
  | .storeSnapshot level snapshot, _ =>
    some ((), { m with activeSnapshots := m.activeSnapshots.insert i (level, snapshot) })
  | .initWriteSet, _ =>
    some ((), { m with activeWriteSets := m.activeWriteSets.insert i .new })
  | .recordWrite k, _ =>
    match m.activeWriteSets.lookup i with
    | some ws =>
      some ((), { m with activeWriteSets := m.activeWriteSets.insert i (ws.recordWrite k) })
    | none => some ((), m)
  | .recordDelete k, _ =>
    match m.activeWriteSets.lookup i with
    | some ws =>
      some ((), { m with activeWriteSets := m.activeWriteSets.insert i (ws.recordDelete k) })
    | none => some ((), m)
  | .getSnapshot, _ => some (m.activeSnapshots.lookup i, m)
  | .getWriteSet, _ => some (m.activeWriteSets.lookup i, m)
  | .readHistory, _ => some (m.commitHistory, m)
  | .enter, _ =>
    some ((), { m with
      committing := some i
      calm := m.calm && m.committing.isNone })
  | .commitTime, _ =>
    let later := m.live.entries.all (fun e => decide (e.2 < m.clock))
    some (m.clock, { m with calm := m.calm && later })
  | .removeWriteSet, _ =>
    let m' := { m with activeWriteSets := m.activeWriteSets.erase i }
    match m.activeWriteSets.lookup i with
    | some ws =>
      if ws.isEmpty then
        some (some ws, { m' with
          log := m.log ++ [.committed i]
          live := m.live.erase i
          committing := none })
      else some (some ws, m')
    | none =>
      some (none, { m' with
        log := m.log ++ [.committed i]
        live := m.live.erase i
        committing := none })
  | .push commitTs writeSet, _ =>
    let e : Entry ι := ⟨i, commitTs, writeSet⟩
    let kept := (m.dropped e).all (fun d =>
      (m.live.erase i).entries.all (fun l => decide (d.commitTs ≤ l.2)))
    some ((), { m with
      commitHistory := m.pushed e
      log := m.log ++ [.committed i]
      live := m.live.erase i
      committing := none
      calm := m.calm && kept })
  | .removeSnapshot, _ =>
    some ((), { m with activeSnapshots := m.activeSnapshots.erase i })
  | .discardWriteSet, _ =>
    some ((), { m with
      activeWriteSets := m.activeWriteSets.erase i
      live := m.live.erase i
      committing := if m.committing = some i then none else m.committing })

end Manager

/-- Transactions over one manager, whose clock may move between requests. -/
def isoSystem (ι : Type) [DecidableEq ι] :
    System ι (Manager ι) (IsoOp ι) IsoOp.Answer Tick where
  respond := Manager.respond
  drift m tick := some { m with clock := m.clock + tick }

abbrev IsoPool (ι : Type) := Pool ι (Manager ι) (IsoOp ι) IsoOp.Answer (IsolationError ι) Unit

/-- Serializable transactions on a new manager. -/
def transactions {ι : Type} [DecidableEq ι] (maxHistorySize : Nat) (acts : ι → List Act) :
    IsoPool ι where
  shared := .new ι maxHistorySize
  procs i := transaction i (acts i)

end ProximaDb.Isolation
