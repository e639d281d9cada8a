/-
  ProximaDb.Relational.Engine

  The in-memory relational engine and the commit of a transaction over it. Every call of the
  engine is one operation; a commit is a program of such calls, so that transactions, readers and
  dropped tables interleave between any two of them.
-/
import ProximaDb.Pax.Value
import ProximaDb.Lib.Concurrent
import ProximaDb.Lib.KeyedFold

namespace ProximaDb.Relational

open ProximaDb.Lib ProximaDb.Pax

abbrev RelationalRow := List ProximaValue

/-! ## Keys -/

/-- `KeyComponent`: a key value that can be hashed. -/
inductive KeyComponent
  | null
  | bool (b : Bool)
  | int (x : Int)
  | float (bits : BitVec 64)
  | string (s : String)
  | binary (bytes : Bytes)
  | uuid (bytes : Bytes)
  /-- any other value, by its debug text -/
  | other (text : String)
  deriving DecidableEq

abbrev PkKey := List KeyComponent

/-- What the engine asks of values: their equality (`PartialEq`) and the narrowing of floats. -/
structure Values where
  eq : ProximaValue → ProximaValue → Bool
  narrow : BitVec 64 → BitVec 32

/-- `EngineError`. -/
inductive EngineError
  | tableNotFound (table : String)
  | rowArity (expected actual : Nat)
  | pkArity (expected actual : Nat)
  | noPrimaryKey (table : String)
  /-- `Internal`: the key component cannot be rebuilt in the column's type -/
  | cannotMaterialise (component : KeyComponent) (target : ProximaType)

/-- The value of a component in a column of the given type. -/
def componentToValue (V : Values) (kc : KeyComponent) (target : ProximaType) :
    Except EngineError ProximaValue :=
  match kc, target with
  | .null, _ => .ok .null
  | .bool b, .boolean => .ok (.boolean b)
  | .int x, .int8 => .ok (.int8 (.ofInt x))
  | .int x, .int16 => .ok (.int16 (.ofInt x))
  | .int x, .int32 => .ok (.int32 (.ofInt x))
  | .int x, .int64 => .ok (.int64 (.ofInt x))
  | .int x, .uint8 => .ok (.uint8 (.ofInt x))
  | .int x, .uint16 => .ok (.uint16 (.ofInt x))
  | .int x, .uint32 => .ok (.uint32 (.ofInt x))
  | .int x, .uint64 => .ok (.uint64 (.ofInt x))
  | .float bits, .float64 => .ok (.float64 bits)
  | .float bits, .float32 => .ok (.float32 (V.narrow bits))
  | .string s, .string => .ok (.string s)
  | .string s, .symbol => .ok (.symbol s)
  | .binary bytes, .binary => .ok (.binary bytes)
  | .uuid bytes, .uuid => .ok (.uuid bytes)
  | .uuid bytes, .ulid => .ok (.ulid bytes)
  | _, _ => .error (.cannotMaterialise kc target)

/-! ## The engine -/

/-- A table: the types of its columns, the ordinals of its key and its rows. -/
structure TableState where
  schema : List ProximaType
  pkColumns : List Nat
  rows : List RelationalRow

/-- The tables of the engine by name. -/
abbrev Tables := KeyMap String TableState

section Engine

variable (V : Values) (tables : Tables) (table : String)

/-- `pk_checked_state`: the table, if the key has one value per key column. -/
def pkCheckedState (key : List ProximaValue) : Except EngineError TableState :=
  match tables.lookup table with
  | none => .error (.tableNotFound table)
  | some state =>
    if state.pkColumns = [] then .error (.noPrimaryKey table)
    else if key.length ≠ state.pkColumns.length then
      .error (.pkArity state.pkColumns.length key.length)
    else .ok state

/-- `find_pk_index`: the first row with the key. -/
def TableState.findPkIndex (state : TableState) (key : List ProximaValue) : Option Nat :=
  state.rows.findIdx? (fun row =>
    (state.pkColumns.zip key).all (fun p => row[p.1]?.any (fun v => V.eq v p.2)))

def setRows (state : TableState) (rows : List RelationalRow) : Tables :=
  tables.insert table { state with rows }

/-- `insert_rows`: every row is checked before the first is stored. -/
def insertRows (rows : List RelationalRow) : Except EngineError (Nat × Tables) :=
  match tables.lookup table with
  | none => .error (.tableNotFound table)
  | some state =>
    match rows.find? (fun r => decide (r.length ≠ state.schema.length)) with
    | some r => .error (.rowArity state.schema.length r.length)
    | none => .ok (rows.length, setRows tables table state (state.rows ++ rows))

/-- The rows edited where the key is, and whether it is there. -/
def editByPk (state : TableState) (key : List ProximaValue) (edit : Nat → List RelationalRow) :
    Bool × Tables :=
  match state.findPkIndex V key with
  | some idx => (true, setRows tables table state (edit idx))
  | none => (false, tables)

/-- `update_by_pk`: whether there was a row. -/
def updateByPk (key : List ProximaValue) (newRow : RelationalRow) :
    Except EngineError (Bool × Tables) := do
  let state ← pkCheckedState tables table key
  if newRow.length ≠ state.schema.length then
    .error (.rowArity state.schema.length newRow.length)
  else .ok (editByPk V tables table state key (state.rows.set · newRow))

/-- `delete_by_pk`: whether there was a row. -/
def deleteByPk (key : List ProximaValue) : Except EngineError (Bool × Tables) := do
  let state ← pkCheckedState tables table key
  .ok (editByPk V tables table state key state.rows.eraseIdx)

end Engine

/-! ## Calls as operations -/

/-- The calls a transaction makes on the engine. -/
inductive EngineOp
  | schemaOf (table : String)
  | pkColumns (table : String)
  | insertRows (table : String) (rows : List RelationalRow)
  | updateByPk (table : String) (key : List ProximaValue) (newRow : RelationalRow)
  | deleteByPk (table : String) (key : List ProximaValue)
  | dropTable (table : String)
  /-- a reader is opened on the table -/
  | snapshot (table : String)

namespace EngineOp

/-- The answer to each call. -/
abbrev Answer : EngineOp → Type
  | schemaOf _ => Option (List ProximaType)
  | pkColumns _ => Option (List Nat)
  | insertRows _ _ => Except EngineError Nat
  | updateByPk _ _ _ => Except EngineError Bool
  | deleteByPk _ _ => Except EngineError Bool
  | dropTable _ => Unit
  | snapshot _ => Option TableState

/-- The answer of a call, with the tables it leaves. -/
def ofResult {α : Type} (tables : Tables) : Except EngineError (α × Tables) →
    Except EngineError α × Tables
  | .ok (a, tables') => (.ok a, tables')
  | .error e => (.error e, tables)

/-- Each call is one step on the tables. -/
def answer (V : Values) (tables : Tables) : (o : EngineOp) → o.Answer × Tables
  | schemaOf table => ((tables.lookup table).map TableState.schema, tables)
  | pkColumns table => ((tables.lookup table).map TableState.pkColumns, tables)
  | insertRows table rows => ofResult tables (Relational.insertRows tables table rows)
  | updateByPk table key row => ofResult tables (Relational.updateByPk V tables table key row)
  | deleteByPk table key => ofResult tables (Relational.deleteByPk V tables table key)
  | dropTable table => ((), tables.erase table)
  | snapshot table => (tables.lookup table, tables)

end EngineOp

def engineSystem (V : Values) (ι : Type) : System ι Tables EngineOp EngineOp.Answer Unit where
  respond _ tables o _ := some (o.answer V tables)
  drift _ _ := none

/-! ## Commits -/

/-- Pending writes against one table, the updates in the order the map is read in. -/
structure TableWrites where
  inserts : List RelationalRow := []
  updates : List (PkKey × RelationalRow) := []
  deletes : List PkKey := []

/-- The writes a commit applies. -/
inductive Write
  | delete (table : String) (key : PkKey)
  | update (table : String) (key : PkKey) (newRow : RelationalRow)
  | insert (table : String) (rows : List RelationalRow)

/-- The writes of a table as a commit applies them: deletes, then updates, then inserts. -/
def TableWrites.applied (table : String) (writes : TableWrites) : List Write :=
  writes.deletes.map (.delete table) ++ writes.updates.map (fun u => .update table u.1 u.2) ++
    if writes.inserts = [] then [] else [.insert table writes.inserts]

abbrev Buffer := List (String × TableWrites)

/-- The writes in the order in which they are applied. -/
def Buffer.writes (buffer : Buffer) : List Write := buffer.flatMap (fun e => e.2.applied e.1)

abbrev TxProg (α : Type) := Prog EngineOp EngineOp.Answer EngineError α

section Commit

variable (V : Values) (table : String)

def orNotFound {α : Type} : Option α → TxProg α
  | some a => .ret a
  | none => .fail (.tableNotFound table)

/-- The values of a key; the schema has a column for every ordinal of the key. -/
def materialisePk (key : PkKey) : TxProg (List ProximaValue) := do
  let schema ← orNotFound table (← Prog.perform (.schemaOf table))
  let pkCols ← orNotFound table (← Prog.perform (.pkColumns table))
  Prog.ofExcept ((key.zip pkCols).mapM (fun p =>
    componentToValue V p.1 (schema.getD p.2 .null)))

/-- A buffered delete; a row that is gone already is passed over. -/
def applyDelete (key : PkKey) : TxProg Unit := do
  let rawKey ← materialisePk V table key
  let _ ← Prog.ofExcept (← Prog.perform (.deleteByPk table rawKey))

/-- A buffered update: an insert if no row has the key. -/
def applyUpdate (key : PkKey) (newRow : RelationalRow) : TxProg Unit := do
  let rawKey ← materialisePk V table key
  let updated ← Prog.ofExcept (← Prog.perform (.updateByPk table rawKey newRow))
  if updated then .ret ()
  else
    -- no row has the key: the update is an insert
    let _ ← Prog.ofExcept (← Prog.perform (.insertRows table [newRow]))

def Write.apply : Write → TxProg Unit
  | delete table key => applyDelete V table key
  | update table key newRow => applyUpdate V table key newRow
  | insert table rows => do
    let _ ← Prog.ofExcept (← Prog.perform (.insertRows table rows))

/-- Writes one after the other, up to the first that fails. -/
def applyAll : List Write → TxProg Unit
  | [] => .ret ()
  | w :: rest => w.apply V >>= fun _ => applyAll rest

/-- The commit of a buffer, given in the order its map is read in. -/
def commit (buffer : Buffer) : TxProg Unit := applyAll V buffer.writes

end Commit

/-- A transaction that commits, a reader over some tables, or a table that is dropped. -/
inductive Task
  | commit (buffer : Buffer)
  | read (tables : List String)
  | dropTable (table : String)

def Task.prog (V : Values) : Task → TxProg Unit
  | commit buffer => Relational.commit V buffer
  | read tables => tables.forM (fun table => discard (Prog.perform (.snapshot table)))
  | dropTable table => Prog.perform (EngineOp.dropTable table)

/-! ## One write -/

section OneWrite

variable {V : Values} {tables : Tables} {table : String}

theorem editByPk_cases (state : TableState) (key : List ProximaValue)
    (edit : Nat → List RelationalRow) : editByPk V tables table state key edit = (false, tables) ∨
      ∃ tables', editByPk V tables table state key edit = (true, tables') := by
  unfold editByPk
  cases state.findPkIndex V key with
  | none => exact .inl rfl
  | some idx => exact .inr ⟨_, rfl⟩

theorem updateByPk_cases (key : List ProximaValue) (newRow : RelationalRow) :
    (∃ e, updateByPk V tables table key newRow = .error e) ∨
      updateByPk V tables table key newRow = .ok (false, tables) ∨
      ∃ tables', updateByPk V tables table key newRow = .ok (true, tables') := by
  unfold updateByPk
  cases pkCheckedState tables table key with
  | error e => exact .inl ⟨e, rfl⟩
  | ok state =>
    by_cases harity : newRow.length ≠ state.schema.length
    · exact .inl ⟨_, if_pos harity⟩
    · simp only [Bind.bind, Except.bind, harity, if_false]
      rcases editByPk_cases state key (state.rows.set · newRow) with h | ⟨tables', h⟩
      · exact .inr (.inl (congrArg Except.ok h))
      · exact .inr (.inr ⟨tables', congrArg Except.ok h⟩)

theorem deleteByPk_cases (key : List ProximaValue) :
    (∃ e, deleteByPk V tables table key = .error e) ∨
      deleteByPk V tables table key = .ok (false, tables) ∨
      ∃ tables', deleteByPk V tables table key = .ok (true, tables') := by
  unfold deleteByPk
  cases pkCheckedState tables table key with
  | error e => exact .inl ⟨e, rfl⟩
  | ok state =>
    rcases editByPk_cases state key state.rows.eraseIdx with h | ⟨tables', h⟩
    · exact .inr (.inl (congrArg Except.ok h))
    · exact .inr (.inr ⟨tables', congrArg Except.ok h⟩)

/-- A program that returns with the first call that changes the tables, one of those allowed. -/
def EndsWithWrite (V : Values) (allowed : EngineOp → Prop) : TxProg Unit → Prop
  | .ret _ => True
  | .fail _ => True
  | .act o k => ∀ tables, ((o.answer V tables).2 = tables ∨
      allowed o ∧ k (o.answer V tables).1 = .ret ()) ∧
      EndsWithWrite V allowed (k (o.answer V tables).1)

/-- The calls a write may make; an update of a missing key inserts its row. -/
def Write.Makes : Write → EngineOp → Prop
  | delete table _, o => ∃ rawKey, o = .deleteByPk table rawKey
  | update table _ newRow, o =>
    (∃ rawKey, o = .updateByPk table rawKey newRow) ∨ o = .insertRows table [newRow]
  | insert table rows, o => o = .insertRows table rows

variable {allowed : EngineOp → Prop}

/-- Reading the key changes nothing. -/
theorem endsWithWrite_materialisePk {f : List ProximaValue → TxProg Unit} (key : PkKey)
    (hf : ∀ rawKey, EndsWithWrite V allowed (f rawKey)) :
    EndsWithWrite V allowed (materialisePk V table key >>= f) := by
  intro tables
  refine ⟨.inl rfl, ?_⟩
  simp only [EngineOp.answer]
  cases tables.lookup table with
  | none => trivial
  | some state =>
    intro tables
    refine ⟨.inl rfl, ?_⟩
    simp only [EngineOp.answer]
    cases tables.lookup table with
    | none => trivial
    | some state' =>
      show EndsWithWrite V allowed (Prog.bind (Prog.ofExcept ((key.zip state'.pkColumns).mapM
        (fun p => componentToValue V p.1 (state.schema.getD p.2 .null)))) f)
      cases (key.zip state'.pkColumns).mapM
          (fun p => componentToValue V p.1 (state.schema.getD p.2 .null)) with
      | error e => trivial
      | ok rawKey => exact hf rawKey

theorem endsWithWrite_insert {rows : List RelationalRow} (h : allowed (.insertRows table rows)) :
    EndsWithWrite V allowed (Write.apply V (.insert table rows)) := by
  intro tables
  simp only [EngineOp.answer]
  cases insertRows tables table rows with
  | error e => exact ⟨.inl rfl, trivial⟩
  | ok p => exact ⟨.inr ⟨h, rfl⟩, trivial⟩

theorem endsWithWrite_apply (w : Write) : EndsWithWrite V w.Makes (w.apply V) := by
  cases w with
  | insert table rows => exact endsWithWrite_insert rfl
  | delete table key =>
    refine endsWithWrite_materialisePk key (fun rawKey tables => ?_)
    simp only [EngineOp.answer]
    rcases @deleteByPk_cases V tables table rawKey with ⟨e, h⟩ | h | ⟨tables', h⟩
    · rw [h]
      exact ⟨.inl rfl, trivial⟩
    · rw [h]
      exact ⟨.inl rfl, trivial⟩
    · rw [h]
      exact ⟨.inr ⟨⟨rawKey, rfl⟩, rfl⟩, trivial⟩
  | update table key newRow =>
    refine endsWithWrite_materialisePk key (fun rawKey tables => ?_)
    simp only [EngineOp.answer]
    rcases @updateByPk_cases V tables table rawKey newRow with ⟨e, h⟩ | h | ⟨tables', h⟩
    · rw [h]
      exact ⟨.inl rfl, trivial⟩
    · rw [h]
      exact ⟨.inl rfl, endsWithWrite_insert (V := V) (.inr rfl)⟩
    · rw [h]
      exact ⟨.inr ⟨.inl ⟨rawKey, rfl⟩, rfl⟩, trivial⟩

end OneWrite

/-! ## All or nothing -/

section Runs

variable {ι : Type} [DecidableEq ι]

abbrev EnginePool (ι : Type) := Pool ι Tables EngineOp EngineOp.Answer EngineError Unit

theorem EndsWithWrite.reaches {V : Values} {allowed : EngineOp → Prop} {i : ι} {P Q : EnginePool ι}
    (h : EndsWithWrite V allowed (P.procs i)) (hrun : Reaches (engineSystem V ι) P Q) :
    EndsWithWrite V allowed (Q.procs i) := by
  induction hrun with
  | refl => exact h
  | @tail P' _ _ hstep ih =>
    cases hstep with
    | drift hd => cases hd
    | @act j o k c r s' hj hr =>
      by_cases hij : i = j
      · subst hij
        rw [hj] at ih
        have hnext := (ih P'.shared).2
        rw [Option.some.inj hr] at hnext
        simpa using hnext
      · simpa [Function.update_of_ne hij] using ih

theorem endsWithWrite_commit (V : Values) {buffer : Buffer} (hone : buffer.writes.length ≤ 1) :
    EndsWithWrite V (fun o => ∃ w ∈ buffer.writes, w.Makes o) (commit V buffer) := by
  unfold commit
  generalize buffer.writes = writes at hone ⊢
  match writes, hone with
  | [], _ => trivial
  | [w], _ =>
    have hlast : applyAll V [w] = w.apply V := Prog.bind_ret (w.apply V)
    rw [hlast]
    simpa using endsWithWrite_apply w

theorem commit_call (V : Values) (tables : Tables) (tasks : ι → Task) {i : ι}
    {buffer : Buffer} (htask : tasks i = .commit buffer) (hone : buffer.writes.length ≤ 1)
    {P : EnginePool ι} (hrun : Reaches (engineSystem V ι) ⟨tables, fun j => (tasks j).prog V⟩ P)
    {o : EngineOp} {k : o.Answer → TxProg Unit} (hnext : P.procs i = .act o k) :
    (o.answer V P.shared).2 = P.shared ∨
      (∃ w ∈ buffer.writes, w.Makes o) ∧ k (o.answer V P.shared).1 = .ret () := by
  have hstart : EndsWithWrite V (fun o => ∃ w ∈ buffer.writes, w.Makes o) ((tasks i).prog V) := by
    rw [htask]
    exact endsWithWrite_commit V hone
  have hends := EndsWithWrite.reaches (P := ⟨tables, fun j => (tasks j).prog V⟩) hstart hrun
  rw [hnext] at hends
  exact (hends P.shared).1

/-- A commit of at most one write is all or nothing, in every run with any other commits, readers
    and dropped tables: a call of it that changes the tables makes its one write, and then the
    commit returns without an error. -/
theorem commit_all_or_nothing (V : Values) (tables : Tables) (tasks : ι → Task) {i : ι}
    {buffer : Buffer} (htask : tasks i = .commit buffer) (hone : buffer.writes.length ≤ 1)
    {P : EnginePool ι} (hrun : Reaches (engineSystem V ι) ⟨tables, fun j => (tasks j).prog V⟩ P)
    {o : EngineOp} {k : o.Answer → TxProg Unit} (hnext : P.procs i = .act o k) :
    (o.answer V P.shared).2 = P.shared ∨
      (∃ w ∈ buffer.writes, w.Makes o) ∧ k (o.answer V P.shared).1 = .ret () :=
  commit_call V tables tasks htask hone hrun hnext

/-- Of a commit of at most one write that has returned an error, or that has not returned when a
    snapshot is taken, no call has changed the tables. -/
theorem commit_unreturned (V : Values) (tables : Tables) (tasks : ι → Task) {i : ι}
    {buffer : Buffer} (htask : tasks i = .commit buffer) (hone : buffer.writes.length ≤ 1)
    {P Q : EnginePool ι}
    (hrun : Reaches (engineSystem V ι) ⟨tables, fun j => (tasks j).prog V⟩ P)
    {o : EngineOp} {k : o.Answer → TxProg Unit} (hnext : P.procs i = .act o k)
    (hlater : Reaches (engineSystem V ι) ⟨(o.answer V P.shared).2,
      Function.update P.procs i (k (o.answer V P.shared).1)⟩ Q)
    (hout : (Q.procs i).outcome ≠ some (.ok ())) : (o.answer V P.shared).2 = P.shared := by
  rcases commit_call V tables tasks htask hone hrun hnext with hsame | ⟨-, hret⟩
  · exact hsame
  · refine absurd (hlater.outcome_eq ?_) hout
    simp only [Function.update_self, hret]
    rfl

/-- No equality of values is asked for, and no float is narrowed. -/
def noValues : Values := ⟨fun _ _ => false, fun _ => 0⟩

def noColumns : TableState := ⟨[], [], []⟩

/-- A transaction that inserts into two tables, the second of which is dropped meanwhile. -/
def insertBoth (i : Bool) : Task :=
  if i then .dropTable "b" else .commit [("a", { inserts := [[]] }), ("b", { inserts := [[]] })]

/-- A transaction that inserts into one table, while another one is dropped. -/
def insertOne (i : Bool) : Task :=
  if i then .dropTable "b" else .commit [("a", { inserts := [[.int64 1]] })]

def oneColumn : TableState := ⟨[.int64], [0], []⟩

/-- After the drop the insert is made, and the commit returns. -/
theorem commit_all_or_nothing_insert : ∃ P : EnginePool Bool,
    Reaches (engineSystem noValues Bool) ⟨((∅ : Tables).insert "a" oneColumn).insert "b" noColumns,
      fun i => (insertOne i).prog noValues⟩ P ∧ P.shared.lookup "b" = none ∧
    ∃ o, ∃ k : o.Answer → TxProg Unit, P.procs false = .act o k ∧
      ((o.answer noValues P.shared).2.lookup "a").map (fun t => t.rows.length) = some 1 ∧
      k (o.answer noValues P.shared).1 = .ret () := by
  refine ⟨_, @Pool.reaches_of_play _ _ _ _ _ _ _ _ _ _ _ [.act true ()] rfl, rfl, _, _, rfl, rfl,
    ((@commit_all_or_nothing Bool _ noValues _ insertOne false _ rfl (Nat.le_refl 1) _
      (@Pool.reaches_of_play _ _ _ _ _ _ _ _ _ _ _ [.act true ()] rfl) _ _ rfl).resolve_left ?_).2⟩
  intro hsame
  have hrows := congrArg (fun t => (t.lookup "a").map (fun t => t.rows.length)) hsame
  exact absurd hrows (by decide)

/-- Between its two inserts a commit is half done, and where the second table is dropped there it
    returns an error and its first insert stays. -/
theorem commit_half_done : ∃ P : EnginePool Bool, Reaches (engineSystem noValues Bool)
        ⟨((∅ : Tables).insert "a" noColumns).insert "b" noColumns,
          fun i => (insertBoth i).prog noValues⟩ P ∧
      (P.procs false).outcome = some (.error (.tableNotFound "b")) ∧
      (P.shared.lookup "a").map TableState.rows = some [[]] :=
  ⟨_, @Pool.reaches_of_play _ _ _ _ _ _ _ _ _ _ _ [.act false (), .act true (), .act false ()] rfl,
    rfl, rfl⟩

end Runs

end ProximaDb.Relational
