/-
  ProximaDb.Manifest.ObjectStore

  The record a versioned manifest log keeps (a magic, the digest of the body, and the body in
  bincode; the digest function is a parameter), and the object store the logs live in, as programs
  see it. Every operation on one object is atomic.
-/
import ProximaDb.Lib.Bytes
import ProximaDb.Lib.Concurrent
import ProximaDb.Lib.KeyedFold

namespace ProximaDb.Manifest

open ProximaDb.Lib List Option

/-- The variants of `StorageError` the manifest code uses. -/
inductive StorageError
  | diskIo (text : String)
  | serialization (text : String)
  | corruption (text : String)
  | alreadyExists (text : String)
  | notFound (text : String)
  | transactionCommitFailed (text : String)
  deriving DecidableEq

/-- Sixteen bytes: an authority incarnation or an operation id. -/
structure Uuid where
  bytes : Bytes
  length_eq : bytes.length = 16
  deriving DecidableEq

/-- A published version: its fence, the operation that published it and the payload. -/
structure Snapshot where
  version : UInt64
  generation : UInt64
  operation : Uuid
  payload : Bytes
  deriving DecidableEq

/-- What the head object holds: the authority, and the last version if there is one. -/
structure Record where
  authority : Uuid
  snapshot : Option Snapshot
  deriving DecidableEq

def Record.version (r : Record) : Option UInt64 := r.snapshot.map Snapshot.version

/-- A hash of 32 bytes. -/
structure Digest where
  hash : Bytes → Bytes
  length_hash : ∀ bs, (hash bs).length = 32

/-- A digest that checks nothing. -/
def blankDigest : Digest := ⟨fun _ => List.replicate 32 0, fun _ => length_replicate⟩

/-- `PMHEAD`, a zero byte and the format number. -/
def magic : Bytes := [0x50, 0x4d, 0x48, 0x45, 0x41, 0x44, 0x00, 0x01]

/-- 64 MiB. -/
def maxRecordBytes : Nat := 64 * 1024 * 1024

/-! ## The body -/

def putU64 (n : UInt64) : Bytes := leBytes 8 n.toNat

def getU64 (bs : Bytes) : Option (UInt64 × Bytes) :=
  (takeExact 8 bs).map (fun x => (UInt64.ofNat (leNat x.1), x.2))

def getUuid (bs : Bytes) : Option (Uuid × Bytes) :=
  (takeExact 16 bs).bind (fun x => if h : x.1.length = 16 then some (⟨x.1, h⟩, x.2) else none)

/-- The version, the generation, the operation, the length and the payload. -/
def putSnapshot (s : Snapshot) : Bytes :=
  putU64 s.version ++ (putU64 s.generation ++ (s.operation.bytes ++
    (putU64 (UInt64.ofNat s.payload.length) ++ s.payload)))

def getSnapshot (bs : Bytes) : Option (Snapshot × Bytes) := do
  let (version, bs) ← getU64 bs
  let (generation, bs) ← getU64 bs
  let (operation, bs) ← getUuid bs
  let (length, bs) ← getU64 bs
  let (payload, bs) ← takeExact length.toNat bs
  pure ({ version, generation, operation, payload }, bs)

/-- `codec().serialize` without its limit. -/
def serialize (r : Record) : Bytes :=
  r.authority.bytes ++
    match r.snapshot with
    | none => [0]
    | some s => 1 :: putSnapshot s

/-- `codec().deserialize`: trailing bytes are rejected. -/
def deserialize (body : Bytes) : Option Record :=
  (getUuid body).bind (fun x =>
    match x.2 with
    | [0] => some { authority := x.1, snapshot := none }
    | 1 :: rest =>
      (getSnapshot rest).bind (fun y =>
        if y.2 = [] then some { authority := x.1, snapshot := some y.1 } else none)
    | _ => none)

theorem getU64_putU64 (n : UInt64) (rest : Bytes) : getU64 (putU64 n ++ rest) = some (n, rest) := by
  have hfit : n.toNat < 256 ^ 8 := n.toNat_lt
  unfold getU64 putU64
  rw [takeExact_append (length_leBytes 8 n.toNat), map_some, leNat_leBytes hfit]
  simp

theorem getUuid_append (u : Uuid) (rest : Bytes) : getUuid (u.bytes ++ rest) = some (u, rest) := by
  unfold getUuid
  rw [takeExact_append u.length_eq, bind_some, dif_pos u.length_eq]

theorem getSnapshot_putSnapshot (s : Snapshot) (hfit : s.payload.length < 2 ^ 64) (rest : Bytes) :
    getSnapshot (putSnapshot s ++ rest) = some (s, rest) := by
  have hlen : (UInt64.ofNat s.payload.length).toNat = s.payload.length :=
    UInt64.toNat_ofNat_of_lt hfit
  unfold getSnapshot putSnapshot
  simp only [append_assoc, getU64_putU64, getUuid_append, bind_eq_bind,
    bind_some, hlen, takeExact_append rfl]
  rfl

variable {r : Record}

theorem deserialize_serialize (hfit : (serialize r).length < 2 ^ 64) :
    deserialize (serialize r) = some r := by
  obtain ⟨authority, snapshot⟩ := r
  unfold deserialize serialize
  rw [getUuid_append, bind_some]
  cases snapshot with
  | none => rfl
  | some s =>
    have hpayload : s.payload.length < 2 ^ 64 := by
      have hle : s.payload.length ≤ (serialize ⟨authority, some s⟩).length := by
        simp only [serialize, putSnapshot, length_append, length_cons]
        omega
      omega
    have hget := getSnapshot_putSnapshot s hpayload []
    rw [append_nil] at hget
    simp only [hget, bind_some, if_pos]

/-! ## The envelope -/

variable {bytes : Bytes} {o : StoreOp}

section Envelope

variable (H : Digest)

/-- `encode`: magic, digest and body of a record that is not too large. -/
def encode (r : Record) : Except StorageError Bytes :=
  let body := serialize r
  if body.length ≤ maxRecordBytes then .ok (magic ++ (H.hash body ++ body))
  else .error (.serialization "the size limit has been reached")

/-- `decode`: a record whose digest is that of its body. -/
def decode (bytes : Bytes) : Except StorageError Record :=
  if bytes.length < 40 || maxRecordBytes + 40 < bytes.length || bytes.take 8 != magic then
    .error (.corruption "manifest: invalid/unsupported head envelope")
  else
    let body := bytes.drop 40
    if H.hash body != (bytes.drop 8).take 32 then
      .error (.corruption "manifest: head checksum mismatch")
    else
      match deserialize body with
      | some r => .ok r
      | none => .error (.corruption "manifest head: invalid bincode body")

variable {H}

theorem length_of_encode (h : encode H r = .ok bytes) : (serialize r).length ≤ maxRecordBytes := by
  unfold encode at h
  dsimp only at h
  split_ifs at h with hfit
  exact hfit

theorem decode_encode (h : encode H r = .ok bytes) : decode H bytes = .ok r := by
  have hfit := length_of_encode h
  have hbytes : bytes = magic ++ (H.hash (serialize r) ++ serialize r) := by
    unfold encode at h
    rw [if_pos hfit] at h
    exact (Except.ok.inj h).symm
  have hmagic : magic.length = 8 := rfl
  have hhash := H.length_hash (serialize r)
  have hlen : bytes.length = 40 + (serialize r).length := by
    rw [hbytes, length_append, length_append, hmagic, hhash]
    omega
  have htake : bytes.take 8 = magic := by
    rw [hbytes, take_left' hmagic]
  have htail : bytes.drop 8 = H.hash (serialize r) ++ serialize r := by
    rw [hbytes, drop_left' hmagic]
  have hdigest : (bytes.drop 8).take 32 = H.hash (serialize r) := by
    rw [htail, take_left' hhash]
  have hbody : bytes.drop 40 = serialize r := by
    have : bytes.drop 40 = (bytes.drop 8).drop 32 := by rw [drop_drop]
    rw [this, htail, drop_left' hhash]
  have hround : deserialize (serialize r) = some r := by
    refine deserialize_serialize ?_
    have : maxRecordBytes < 2 ^ 64 := by decide
    omega
  unfold decode
  have hguard : (decide (bytes.length < 40) || decide (maxRecordBytes + 40 < bytes.length) ||
      bytes.take 8 != magic) = false := by
    rw [htake]
    simp only [Bool.or_eq_false_iff, decide_eq_false_iff_not, bne_self_eq_false, and_true]
    omega
  rw [hguard]
  simp only [Bool.false_eq_true, if_false, hbody, hdigest, bne_self_eq_false, hround]

theorem encode_inj {r r' : Record} (h : encode H r = .ok bytes)
    (h' : encode H r' = .ok bytes) : r = r' := by
  have := (decode_encode h).symm.trans (decode_encode h')
  exact Except.ok.inj this

end Envelope

/-! ## Objects -/

/-- The objects of a log. -/
inductive LogFile
  | head
  | format
  | archive (version : UInt64)
  | manifest (version : UInt64)
  deriving DecidableEq

/-- An object's path: the log's path and the object in it. -/
structure ObjectPath where
  log : Bytes
  file : LogFile
  deriving DecidableEq

/-- An object as the store has it. -/
structure Object where
  bytes : Bytes
  eTag : Nat
  lastModified : Int
  deriving DecidableEq

/-- `PutMode`: create the object, or replace the revision with this tag. -/
inductive PutMode
  | create
  | update (eTag : Nat)
  deriving DecidableEq

/-- The errors of `object_store` the callers tell apart. -/
inductive ObjectError
  | notFound
  | alreadyExists
  | precondition
  | other (text : String)
  deriving DecidableEq

/-- The texts of the object store. -/
def ObjectError.text : ObjectError → String
  | .notFound => "Object not found"
  | .alreadyExists => "Object already exists"
  | .precondition => "Request precondition failure"
  | .other text => text

/-- A put that was issued: who, where, what and under which condition. -/
structure Put (ι : Type) where
  writer : ι
  path : ObjectPath
  bytes : Bytes
  mode : PutMode

/-- The object store as all clients see it. -/
structure Shared (ι : Type) where
  objects : KeyMap ObjectPath Object := ∅
  nextTag : Nat := 0
  /-- every put issued, in order; a put's ticket is its position -/
  puts : List (Put ι) := []
  /-- the tickets of the puts that took effect, in the order they did -/
  effects : List Nat := []
  /-- the tickets of the puts that found their condition false -/
  refused : List Nat := []
  /-- every operation id drawn, with the program that drew it -/
  uuids : List (ι × Uuid) := []
  /-- the authority cell of every committer -/
  cells : List (Option Uuid) := []

/-! ## Operations -/

/-- What a client asks of the store and of its own process. -/
inductive StoreOp
  | get (path : ObjectPath)
  | list (log : Bytes)
  | delete (path : ObjectPath)
  | issue (path : ObjectPath) (bytes : Bytes) (mode : PutMode)
  | await (ticket : Nat)
  | newUuid
  | newCell
  | readCell (cell : Nat)
  | initCell (cell : Nat) (authority : Uuid)
  | now

abbrev StoreOp.Answer : StoreOp → Type
  | .get _ => Except ObjectError (Bytes × Nat)
  | .list _ => Except ObjectError (List (LogFile × Int))
  | .delete _ => Except ObjectError Unit
  | .issue _ _ _ => Nat
  | .await _ => Except ObjectError Unit
  | .newUuid => Uuid
  | .newCell => Nat
  | .readCell _ => Option Uuid
  | .initCell _ _ => Option Uuid
  | .now => Int

/-- How the store answers. -/
inductive Choice
  /-- the operation is carried out and answered -/
  | plain
  /-- an error is answered, and nothing else happens -/
  | fault (text : String)
  /-- the operation is carried out, and an error is answered -/
  | lost (text : String)
  /-- a put's condition was found false -/
  | refusal
  | uuid (u : Uuid)
  | time (t : Int)
  /-- the put with this ticket reaches the store -/
  | arrive (ticket : Nat) (t : Int)

namespace Shared

variable {ι : Type}

/-- The object at a path. -/
def object (s : Shared ι) (path : ObjectPath) : Option Object := s.objects.lookup path

/-- The objects of a log with their modification times. -/
def listing (s : Shared ι) (log : Bytes) : List (LogFile × Int) :=
  (s.objects.entries.filter (fun e => decide (e.1.log = log))).map
    (fun e => (e.1.file, e.2.lastModified))

def remove (s : Shared ι) (path : ObjectPath) : Shared ι :=
  { s with objects := s.objects.erase path }

/-- Whether a put's condition holds of the object at its path. -/
def Admits : PutMode → Option Object → Prop
  | .create, found => found = none
  | .update eTag, found => found.map Object.eTag = some eTag

instance (mode : PutMode) (found : Option Object) : Decidable (Admits mode found) := by
  cases mode <;> unfold Admits <;> infer_instance

/-- A put takes effect: its object is there under a new tag. -/
def write (s : Shared ι) (ticket : Nat) (put : Put ι) (t : Int) : Shared ι :=
  { s with
    objects := s.objects.insert put.path ⟨put.bytes, s.nextTag, t⟩
    nextTag := s.nextTag + 1
    effects := s.effects ++ [ticket] }

/-- A put on its way takes effect, or is refused by its condition. -/
def arrive (s : Shared ι) (ticket : Nat) (t : Int) : Option (Shared ι) :=
  s.puts[ticket]?.map (fun put =>
    if Admits put.mode (s.object put.path) then s.write ticket put t
    else { s with refused := s.refused ++ [ticket] })

end Shared

/-- The error of a put whose condition is false. -/
def refusalOf : PutMode → ObjectError
  | .create => .alreadyExists
  | .update _ => .precondition

section Respond

variable {ι : Type} (i : ι) (s : Shared ι)

/-- A read answers the object, or that there is none. -/
def respondGet (path : ObjectPath) : Choice → Option (Except ObjectError (Bytes × Nat))
  | .plain =>
    some (match s.object path with
      | some o => .ok (o.bytes, o.eTag)
      | none => .error .notFound)
  | .fault text => some (.error (.other text))
  | _ => none

def respondList (log : Bytes) : Choice → Option (Except ObjectError (List (LogFile × Int)))
  | .plain => some (.ok (s.listing log))
  | .fault text => some (.error (.other text))
  | _ => none

/-- A deletion of what is not there is answered by an error. -/
def respondDelete (path : ObjectPath) : Choice → Option (Except ObjectError Unit × Shared ι)
  | .plain =>
    some (match s.object path with
      | some _ => (.ok (), s.remove path)
      | none => (.error .notFound, s))
  | .fault text => some (.error (.other text), s)
  | .lost text => some (.error (.other text), s.remove path)
  | _ => none

/-- A put is answered `Ok` only after it took effect, and with its refusal only after it was
    refused; any other error may come at any time. -/
def respondAwait (ticket : Nat) : Choice → Option (Except ObjectError Unit)
  | .plain => if ticket ∈ s.effects then some (.ok ()) else none
  | .refusal =>
    if ticket ∈ s.refused then s.puts[ticket]?.map (fun put => .error (refusalOf put.mode))
    else none
  | .fault text => some (.error (.other text))
  | _ => none

/-- Ids are not given out twice. -/
def respondUuid : Choice → Option (Uuid × Shared ι)
  | .uuid u =>
    if u ∈ s.uuids.map Prod.snd then none else some (u, { s with uuids := s.uuids ++ [(i, u)] })
  | _ => none

/-- `OnceLock::get_or_init`. -/
def initCell (cell : Nat) (authority : Uuid) : Option Uuid × Shared ι :=
  match s.cells[cell]? with
  | some none => (some authority, { s with cells := s.cells.set cell (some authority) })
  | some (some a) => (some a, s)
  | none => (none, s)

/-- Answers to the operations, one at a time. -/
def respond : (o : StoreOp) → Choice → Option (o.Answer × Shared ι)
  | .get path, c => (respondGet s path c).map (fun r => (r, s))
  | .list log, c => (respondList s log c).map (fun r => (r, s))
  | .delete path, c => respondDelete s path c
  | .issue path bytes mode, .plain =>
    some (s.puts.length, { s with puts := s.puts ++ [⟨i, path, bytes, mode⟩] })
  | .await ticket, c => (respondAwait s ticket c).map (fun r => (r, s))
  | .newUuid, c => respondUuid i s c
  | .newCell, .plain => some (s.cells.length, { s with cells := s.cells ++ [none] })
  | .readCell cell, .plain => some (s.cells[cell]?.join, s)
  | .initCell cell authority, .plain => some (initCell s cell authority)
  | .now, .time t => some (t, s)
  | _, _ => none

end Respond

/-- The object store and the cells of the committers as one shared system. -/
def objectStore (ι : Type) : System ι (Shared ι) StoreOp StoreOp.Answer Choice where
  respond := respond
  drift s
    | .arrive ticket t => s.arrive ticket t
    | _ => none

/-- Programs of clients of the store. -/
abbrev StoreProg (ε α : Type) := Prog StoreOp StoreOp.Answer ε α

/-! ## One operation as a program -/

namespace Store

variable {ε : Type}

def get (path : ObjectPath) : StoreProg ε (Except ObjectError (Bytes × Nat)) :=
  Prog.perform (StoreOp.get path)

def list (log : Bytes) : StoreProg ε (Except ObjectError (List (LogFile × Int))) :=
  Prog.perform (StoreOp.list log)

def delete (path : ObjectPath) : StoreProg ε (Except ObjectError Unit) :=
  Prog.perform (StoreOp.delete path)

def issue (path : ObjectPath) (bytes : Bytes) (mode : PutMode) : StoreProg ε Nat :=
  Prog.perform (StoreOp.issue path bytes mode)

def await (ticket : Nat) : StoreProg ε (Except ObjectError Unit) :=
  Prog.perform (StoreOp.await ticket)

def newUuid : StoreProg ε Uuid := Prog.perform StoreOp.newUuid

def newCell : StoreProg ε Nat := Prog.perform StoreOp.newCell

def readCell (cell : Nat) : StoreProg ε (Option Uuid) := Prog.perform (StoreOp.readCell cell)

def initCell (cell : Nat) (authority : Uuid) : StoreProg ε (Option Uuid) :=
  Prog.perform (StoreOp.initCell cell authority)

def now : StoreProg ε Int := Prog.perform StoreOp.now

end Store

/-! ## What each operation may answer -/

theorem respond_puts {ι : Type} {i : ι} {s u : Shared ι} {c : Choice} {r : o.Answer}
    (h : respond i s o c = some (r, u)) :
    u.puts = s.puts ∨ ∃ put, put.writer = i ∧ u.puts = s.puts ++ [put] := by
  cases o with
  | issue path bytes mode =>
    cases c <;> cases h
    exact .inr ⟨_, rfl, rfl⟩
  | get | list | await =>
    obtain ⟨r', -, heq⟩ := map_eq_some_iff.1 h
    cases heq
    exact .inl rfl
  | delete path =>
    cases c with
    | plain =>
      simp only [respond, respondDelete] at h
      cases hobj : s.object path with
      | none | some =>
        rw [hobj] at h
        cases h
        exact .inl rfl
    | fault | lost =>
      cases h
      exact .inl rfl
    | _ => cases h
  | newUuid =>
    cases c with
    | uuid v =>
      simp only [respond, respondUuid] at h
      split_ifs at h
      cases h
      exact .inl rfl
    | _ => cases h
  | newCell | readCell | now =>
    cases c <;> cases h
    exact .inl rfl
  | initCell cell authority =>
    cases c with
    | plain =>
      simp only [respond, some.injEq] at h
      unfold initCell at h
      split at h <;> cases h <;> exact .inl rfl
    | _ => cases h

section Rules

variable {ι ε α : Type} {D : Discipline ι (Shared ι)} {i : ι} {Q : Except ε α → Shared ι → Prop}
  {s : Shared ι}

/-- The object at a path as a read answers it. -/
def Shared.found (s : Shared ι) (path : ObjectPath) : Except ObjectError (Bytes × Nat) :=
  match s.object path with
  | some o => .ok (o.bytes, o.eTag)
  | none => .error .notFound

theorem meets_of_same {f : o.Answer → StoreProg ε α}
    (h : ∀ t, D.rely i s t → D.inv t → ∀ c r u, respond i t o c = some (r, u) →
      u = t ∧ Meets (objectStore ι) D i Q (f r) t) :
    Meets (objectStore ι) D i Q (Prog.perform o >>= f) s := by
  refine Meets.perform (fun t ht hinv c r u hr => ?_)
  obtain ⟨rfl, hnext⟩ := h t ht hinv c r u hr
  exact ⟨.refl hinv, hnext⟩

variable {path : ObjectPath} {f : Except ObjectError Unit → StoreProg ε α} {cell : Nat}

theorem meets_get {f : Except ObjectError (Bytes × Nat) → StoreProg ε α}
    (h : ∀ t, D.rely i s t → D.inv t → ∀ r, (r = t.found path ∨ ∃ text, r = .error (.other text)) →
      Meets (objectStore ι) D i Q (f r) t) :
    Meets (objectStore ι) D i Q (Store.get path >>= f) s := by
  refine meets_of_same (fun t ht hinv c r u hr => ?_)
  obtain ⟨r', hr', heq⟩ := map_eq_some_iff.1 hr
  cases heq
  refine ⟨rfl, h t ht hinv r ?_⟩
  cases c with
  | plain => exact .inl (some.inj hr').symm
  | fault text => exact .inr ⟨text, (some.inj hr').symm⟩
  | _ => cases hr'

theorem meets_list {log : Bytes} {f : Except ObjectError (List (LogFile × Int)) → StoreProg ε α}
    (h : ∀ t, D.rely i s t → D.inv t → ∀ r,
      (r = .ok (t.listing log) ∨ ∃ text, r = .error (.other text)) →
      Meets (objectStore ι) D i Q (f r) t) :
    Meets (objectStore ι) D i Q (Store.list log >>= f) s := by
  refine meets_of_same (fun t ht hinv c r u hr => ?_)
  obtain ⟨r', hr', heq⟩ := map_eq_some_iff.1 hr
  cases heq
  refine ⟨rfl, h t ht hinv r ?_⟩
  cases c with
  | plain => exact .inl (some.inj hr').symm
  | fault text => exact .inr ⟨text, (some.inj hr').symm⟩
  | _ => cases hr'

/-- A put is answered `Ok` only if it has taken effect, and that its object exists only if it was
    refused. -/
theorem meets_await {ticket : Nat}
    (h : ∀ t, D.rely i s t → D.inv t → ∀ r, (r = .ok () → ticket ∈ t.effects) →
      (r = .error .alreadyExists → ticket ∈ t.refused) → Meets (objectStore ι) D i Q (f r) t) :
    Meets (objectStore ι) D i Q (Store.await ticket >>= f) s := by
  refine meets_of_same (fun t ht hinv c r u hr => ?_)
  obtain ⟨r', hr', heq⟩ := map_eq_some_iff.1 hr
  cases heq
  cases c with
  | plain =>
    simp only [respondAwait] at hr'
    split_ifs at hr' with hmem
    cases hr'
    exact ⟨rfl, h t ht hinv _ (fun _ => hmem) nofun⟩
  | refusal =>
    simp only [respondAwait] at hr'
    split_ifs at hr' with hmem
    obtain ⟨put, -, rfl⟩ := map_eq_some_iff.1 hr'
    exact ⟨rfl, h t ht hinv _ nofun (fun _ => hmem)⟩
  | fault text =>
    cases hr'
    exact ⟨rfl, h t ht hinv _ nofun nofun⟩
  | _ => cases hr'

theorem meets_readCell {f : Option Uuid → StoreProg ε α}
    (h : ∀ t, D.rely i s t → D.inv t → Meets (objectStore ι) D i Q (f t.cells[cell]?.join) t) :
    Meets (objectStore ι) D i Q (Store.readCell cell >>= f) s := by
  refine meets_of_same (fun t ht hinv c r u hr => ?_)
  cases c with
  | plain =>
    cases hr
    exact ⟨rfl, h t ht hinv⟩
  | _ => cases hr

theorem meets_now {f : Int → StoreProg ε α}
    (h : ∀ t, D.rely i s t → D.inv t → ∀ now, Meets (objectStore ι) D i Q (f now) t) :
    Meets (objectStore ι) D i Q (Store.now >>= f) s := by
  refine meets_of_same (fun t ht hinv c r u hr => ?_)
  cases c with
  | time now =>
    cases hr
    exact ⟨rfl, h t ht hinv _⟩
  | _ => cases hr

theorem meets_issue {mode : PutMode} {f : Nat → StoreProg ε α} (h : ∀ t, D.rely i s t → D.inv t →
      D.Keeps i t { t with puts := t.puts ++ [⟨i, path, bytes, mode⟩] } ∧
      Meets (objectStore ι) D i Q (f t.puts.length)
        { t with puts := t.puts ++ [⟨i, path, bytes, mode⟩] }) :
    Meets (objectStore ι) D i Q (Store.issue path bytes mode >>= f) s := by
  refine Meets.perform (o := StoreOp.issue path bytes mode) (fun t ht hinv c r u hr => ?_)
  cases c with
  | plain =>
    cases hr
    exact h t ht hinv
  | _ => cases hr

theorem meets_delete (h : ∀ t, D.rely i s t → D.inv t →
      D.Keeps i t (t.remove path) ∧
      ∀ r u, u = t ∨ u = t.remove path → Meets (objectStore ι) D i Q (f r) u) :
    Meets (objectStore ι) D i Q (Store.delete path >>= f) s := by
  refine Meets.perform (o := StoreOp.delete path) (fun t ht hinv c r u hr => ?_)
  obtain ⟨hkeep, hnext⟩ := h t ht hinv
  have hu : u = t ∨ u = t.remove path := by
    cases c with
    | plain =>
      simp only [objectStore, respond, respondDelete] at hr
      split at hr
      · cases hr
        exact .inr rfl
      · cases hr
        exact .inl rfl
    | fault text =>
      cases hr
      exact .inl rfl
    | lost text =>
      cases hr
      exact .inr rfl
    | _ => cases hr
  refine ⟨?_, hnext r u hu⟩
  rcases hu with rfl | rfl
  · exact .refl hinv
  · exact hkeep

theorem meets_newUuid {f : Uuid → StoreProg ε α}
    (h : ∀ t, D.rely i s t → D.inv t → ∀ u, u ∉ t.uuids.map Prod.snd →
      D.Keeps i t { t with uuids := t.uuids ++ [(i, u)] } ∧
      Meets (objectStore ι) D i Q (f u) { t with uuids := t.uuids ++ [(i, u)] }) :
    Meets (objectStore ι) D i Q (Store.newUuid >>= f) s := by
  refine Meets.perform (o := StoreOp.newUuid) (fun t ht hinv c r u hr => ?_)
  cases c with
  | uuid v =>
    simp only [objectStore, respond, respondUuid] at hr
    split_ifs at hr with hmem
    cases hr
    exact h t ht hinv _ hmem
  | _ => cases hr

theorem meets_newCell {f : Nat → StoreProg ε α} (h : ∀ t, D.rely i s t → D.inv t →
      D.Keeps i t { t with cells := t.cells ++ [none] } ∧
      Meets (objectStore ι) D i Q (f t.cells.length) { t with cells := t.cells ++ [none] }) :
    Meets (objectStore ι) D i Q (Store.newCell >>= f) s := by
  refine Meets.perform (o := StoreOp.newCell) (fun t ht hinv c r u hr => ?_)
  cases c with
  | plain =>
    cases hr
    exact h t ht hinv
  | _ => cases hr

theorem meets_initCell {authority : Uuid} {f : Option Uuid → StoreProg ε α}
    (h : ∀ t, D.rely i s t → D.inv t →
      D.Keeps i t (initCell t cell authority).2 ∧
      Meets (objectStore ι) D i Q (f (initCell t cell authority).1) (initCell t cell authority).2) :
    Meets (objectStore ι) D i Q (Store.initCell cell authority >>= f) s := by
  refine Meets.perform (o := StoreOp.initCell cell authority) (fun t ht hinv c r u hr => ?_)
  cases c with
  | plain =>
    have hstep := h t ht hinv
    simp only [objectStore, respond, some.injEq] at hr
    rw [hr] at hstep
    exact hstep
  | _ => cases hr

end Rules

end ProximaDb.Manifest
