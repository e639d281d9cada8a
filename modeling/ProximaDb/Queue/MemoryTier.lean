/-
  ProximaDb.Queue.MemoryTier

  Messages of the queue with the encoding the disk tier writes them in, and the memory tier of one
  partition: the retained messages by offset, which groups read by a cursor and do not remove.
-/
import ProximaDb.Lib.Format
import ProximaDb.Lib.Framing
import ProximaDb.Lib.OrdMap

namespace ProximaDb.Queue

open ProximaDb.Lib

variable {offset : Nat}

structure Message where
  topic : String
  tenantId : String
  payload : Bytes
  headers : List (String × String)
  producedAt : Int
  attemptCount : Nat
  deriving DecidableEq

/-- `{partition}:{segment}:{offset}`. -/
structure MessageId where
  text : String
  deriving DecidableEq

def MessageId.new (partition segmentId offset : Nat) : MessageId :=
  ⟨decimal partition ++ ":" ++ decimal segmentId ++ ":" ++ decimal offset⟩

theorem decimal_inj {n m : Nat} (h : decimal n = decimal m) : n = m := by
  have hdigits : Nat.toDigits 10 n = Nat.toDigits 10 m := by
    have := congrArg String.toList h
    simpa [decimal] using this
  have hof := congrArg (Nat.ofDigitChars 10 · 0) hdigits
  simpa [Nat.ofDigitChars_toDigits] using hof

theorem MessageId.new_inj {partition segmentId offset' : Nat}
    (h : MessageId.new partition segmentId offset = MessageId.new partition segmentId offset') :
    offset = offset' := by
  have htext := congrArg MessageId.text h
  have hlist := congrArg String.toList htext
  simp only [MessageId.new, String.toList_append] at hlist
  exact decimal_inj (String.toList_inj.1 (List.append_cancel_left hlist))

/-- A message handed to a consumer, with what it is acknowledged by. -/
structure Delivery where
  messageId : MessageId
  message : Message
  deriving DecidableEq

/-- The encoding of messages (`bincode`, fixed-width integers): reading inverts writing, and bytes
    behind a message are refused. -/
structure MessageCodec where
  serialize : Message → Bytes
  deserialize : Bytes → Option Message
  deserialize_serialize : ∀ m, deserialize (serialize m) = some m
  rejects_trailing : ∀ m tail, tail ≠ [] → deserialize (serialize m ++ tail) = none

theorem MessageCodec.serialize_inj (C : MessageCodec) {m m' : Message}
    (h : C.serialize m = C.serialize m') : m = m' := by
  have := congrArg C.deserialize h
  rw [C.deserialize_serialize, C.deserialize_serialize] at this
  exact Option.some.inj this

def messageFormat : Format Message :=
  (Format.pair Format.string (Format.pair Format.string (Format.pair Format.bytes (Format.pair
    (Format.list (Format.pair Format.string Format.string)) (Format.pair Format.int Format.nat))))).iso
    (fun m => (m.topic, m.tenantId, m.payload, m.headers, m.producedAt, m.attemptCount))
    (fun p => ⟨p.1, p.2.1, p.2.2.1, p.2.2.2.1, p.2.2.2.2.1, p.2.2.2.2.2⟩) (fun _ => rfl)

def plainCodec : MessageCodec where
  serialize := messageFormat.put
  deserialize bytes := (messageFormat.get bytes).bind (fun p => if p.2 = [] then some p.1 else none)
  deserialize_serialize m := by
    have h := messageFormat.get_put m []
    rw [List.append_nil] at h
    simp [h]
  rejects_trailing m tail htail := by
    rw [messageFormat.get_put m tail]
    exact if_neg htail

/-- `checked_add(1)` of a `u64`. -/
def checkedSucc (n : Nat) : Option Nat := if n + 1 < 2 ^ 64 then some (n + 1) else none

theorem checkedSucc_eq_some {n k : Nat} : checkedSucc n = some k ↔ n + 1 < 2 ^ 64 ∧ k = n + 1 := by
  unfold checkedSucc
  split_ifs with h
  · exact ⟨fun heq => ⟨h, (Option.some.inj heq).symm⟩, fun hk => by rw [hk.2]⟩
  · exact ⟨nofun, fun hk => absurd hk.1 h⟩

/-! ## Progress of a group -/

def NotBehind (v progress : Option Nat) : Prop :=
  ∀ c, v = some c → ∃ c', progress = some c' ∧ c ≤ c'

theorem NotBehind.refl (v : Option Nat) : NotBehind v v := fun c hc => ⟨c, hc, Nat.le_refl c⟩

theorem NotBehind.trans {a b c : Option Nat} (hab : NotBehind a b) (hbc : NotBehind b c) :
    NotBehind a c := by
  intro x hx
  obtain ⟨y, hy, hxy⟩ := hab x hx
  obtain ⟨z, hz, hyz⟩ := hbc y hy
  exact ⟨z, hz, hxy.trans hyz⟩

structure MemoryEntry where
  message : Message
  messageId : MessageId
  offset : Nat
  deriving DecidableEq

structure PartitionMemory where
  partition : Nat
  capacity : Nat
  entries : OrdMap Nat MemoryEntry := ∅
  nextOffset : Nat := 0

structure AppendedEntry where
  messageId : MessageId
  offset : Nat
  deriving DecidableEq

namespace PartitionMemory

def new (partition capacity : Nat) : PartitionMemory :=
  { partition, capacity := max capacity 1 }

def entryOf (mem : PartitionMemory) (message : Message) (offset : Nat) : MemoryEntry :=
  ⟨message, .new mem.partition 0 offset, offset⟩

def enqueueAt (mem : PartitionMemory) (message : Message) (offset : Nat) :
    Except Message AppendedEntry × PartitionMemory :=
  if mem.capacity ≤ mem.entries.entries.length then (.error message, mem)
  else
    (.ok ⟨.new mem.partition 0 offset, offset⟩,
      { mem with entries := mem.entries.insert offset (mem.entryOf message offset) })

def enqueueWithOffset (mem : PartitionMemory) (message : Message) (offset : Nat) :
    Except Message AppendedEntry × PartitionMemory :=
  match checkedSucc offset with
  | none => (.error message, mem)
  | some next =>
    ({ mem with nextOffset := max mem.nextOffset next } : PartitionMemory).enqueueAt message offset

/-- The walk of `read_from` over the entries from the cursor on; `expected` is the offset that may
    follow, with nothing expected yet at the first entry. -/
def walk : List (Nat × MemoryEntry) → Option Nat → Nat → List MemoryEntry
  | [], _, _ => []
  | e :: rest, expected, room =>
    -- a gap ends the walk; the first entry is taken wherever it is
    if expected.any (fun exp => decide (exp ≠ e.1)) = true ∨ room = 0 then []
    else
      e.2 ::
        match checkedSucc e.1 with
        | none => []
        | some next => walk rest (some next) (room - 1)

def readFrom (mem : PartitionMemory) (cursor maxCount : Nat) : List MemoryEntry :=
  walk (mem.entries.entries.filter (fun e => decide (cursor ≤ e.1))) none maxCount

/-! ## What the operations do -/

variable {mem mem' : PartitionMemory} {message : Message} {entry : AppendedEntry}
  {message' : Message}

theorem entryOf_congr (h : mem'.partition = mem.partition) (message : Message) (offset : Nat) :
    mem'.entryOf message offset = mem.entryOf message offset := by
  rw [entryOf, entryOf, h]

theorem enqueueAt_error
    (h : mem.enqueueAt message offset = (.error message', mem')) : mem' = mem := by
  unfold enqueueAt at h
  split_ifs at h with hfull
  · exact (Prod.mk.inj h).2.symm
  · cases h

theorem enqueueWithOffset_ok (h : mem.enqueueWithOffset message offset = (.ok entry, mem')) :
    offset + 1 < 2 ^ 64 ∧ mem'.partition = mem.partition ∧ mem'.capacity = mem.capacity ∧
      mem'.entries = mem.entries.insert offset (mem.entryOf message offset) := by
  unfold enqueueWithOffset at h
  split at h
  · cases h
  · rename_i next hnext
    unfold enqueueAt at h
    split_ifs at h
    · cases h
    · obtain rfl := (Prod.mk.inj h).2
      exact ⟨(checkedSucc_eq_some.1 hnext).1, rfl, rfl, rfl⟩

theorem enqueueWithOffset_error
    (h : mem.enqueueWithOffset message offset = (.error message', mem')) :
    mem'.partition = mem.partition ∧ mem'.capacity = mem.capacity ∧ mem'.entries = mem.entries := by
  unfold enqueueWithOffset at h
  split at h
  · cases h
    exact ⟨rfl, rfl, rfl⟩
  · have hmem := enqueueAt_error h
    subst hmem
    exact ⟨rfl, rfl, rfl⟩

theorem enqueueWithOffset_accepts (message : Message)
    (hroom : mem.entries.entries.length < mem.capacity) (hoffset : offset + 1 < 2 ^ 64) :
    ∃ entry mem', mem.enqueueWithOffset message offset = (.ok entry, mem') := by
  unfold enqueueWithOffset
  rw [checkedSucc_eq_some.2 ⟨hoffset, rfl⟩]
  exact ⟨_, _, if_neg (Nat.not_le.2 hroom)⟩

theorem enqueueWithOffset_full (message : Message) (offset : Nat)
    (hfull : mem.capacity ≤ mem.entries.entries.length) :
    (mem.enqueueWithOffset message offset).1 = .error message := by
  unfold enqueueWithOffset
  cases checkedSucc offset with
  | none => rfl
  | some next => exact congrArg Prod.fst (if_pos hfull)

theorem walk_prefix (l : List (Nat × MemoryEntry)) (expected : Option Nat) (room : Nat) :
    walk l expected room <+: l.map Prod.snd := by
  fun_induction walk l expected room with
  | case1 | case2 => exact List.nil_prefix
  | case3 e rest expected room hstop ih =>
    refine List.cons_prefix_cons.2 ⟨rfl, ?_⟩
    cases checkedSucc e.1 with
    | none => exact List.nil_prefix
    | some next => exact ih next

theorem readFrom_prefix (mem : PartitionMemory) (cursor maxCount : Nat) :
    mem.readFrom cursor maxCount <+:
      (mem.entries.entries.filter (fun e => decide (cursor ≤ e.1))).map Prod.snd :=
  walk_prefix _ none maxCount

end PartitionMemory

end ProximaDb.Queue
