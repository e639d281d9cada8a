/-
  ProximaDb.Codec.Packing

  Words packed at a fixed number of bits and read back with the sign bit extended, and the codecs
  that pack differences from a base value or from the difference before. All arithmetic wraps, so
  the differences add up to the values again however far they are apart.
-/
import ProximaDb.Lib.BitArray
import ProximaDb.Lib.Format

namespace ProximaDb.Codec

open ProximaDb.Lib List Format BitVec Option

variable {bits : Nat}

/-- An `i64` as the codecs handle it: 64 bits with wrapping arithmetic. -/
abbrev Word := BitVec 64

def absBitLen (w : Word) : Nat := w.toInt.natAbs.size

/-! ## Packing -/

/-- The positions of the bits to set for words packed from `offset` on. -/
def packedBits (bits : Nat) : Nat → List Word → List Nat
  | _, [] => []
  | offset, w :: rest =>
    ((List.range bits).filter w.getLsbD).map (offset + ·) ++ packedBits bits (offset + bits) rest

def bitpackI64 (values : List Word) (bits : Nat) : Option Bytes :=
  if 64 < bits then none
  else some (setBits (List.replicate ((values.length * bits + 7) / 8) 0) (packedBits bits 0 values))

/-- The unsigned number in the `bits` bits from `offset` on. -/
def unpackWord (data : Bytes) (bits offset : Nat) : Word :=
  (List.range bits).foldl
    (fun value pos => if getBit data (offset + pos) then value ||| 1#64 <<< pos else value) 0

/-- Ones above the width if its top bit is set. -/
def extendSign (bits : Nat) (value : Word) : Word :=
  if bits < 64 ∧ value.getLsbD (bits - 1) then value ||| BitVec.allOnes 64 <<< bits else value

def unbitpackI64 (data : Bytes) (bits count : Nat) : Option (List Word) :=
  if 64 < bits then none
  else some ((List.range count).map (fun k => extendSign bits (unpackWord data bits (k * bits))))

/-! ## Bits -/

variable {values : List Word} {data : Bytes} {w : Word} {i : Nat} {k : Nat}

theorem mem_packedBits {offset : Nat} : i ∈ packedBits bits offset values ↔
      ∃ k, ∃ h : k < values.length, ∃ pos < bits,
        i = offset + k * bits + pos ∧ values[k].getLsbD pos = true := by
  induction values generalizing offset with
  | nil => simp [packedBits]
  | cons w rest ih =>
    rw [packedBits, mem_append, ih]
    constructor
    · rintro (hfirst | ⟨k, hk, pos, hpos, hi, hbit⟩)
      · obtain ⟨pos, hmem, hi⟩ := mem_map.1 hfirst
        obtain ⟨hpos, hbit⟩ := mem_filter.1 hmem
        exact ⟨0, Nat.succ_pos _, pos, mem_range.1 hpos, by omega, hbit⟩
      · refine ⟨k + 1, Nat.succ_lt_succ hk, pos, hpos, ?_, hbit⟩
        rw [hi, Nat.add_mul]
        omega
    · rintro ⟨k, hk, pos, hpos, hi, hbit⟩
      cases k with
      | zero =>
        refine Or.inl (mem_map.2 ⟨pos, ?_, by omega⟩)
        exact mem_filter.2 ⟨mem_range.2 hpos, hbit⟩
      | succ k =>
        refine Or.inr ⟨k, Nat.lt_of_succ_lt_succ hk, pos, hpos, ?_, hbit⟩
        rw [hi, Nat.add_mul]
        omega

theorem packedBits_lt (h : i ∈ packedBits bits 0 values) :
    i < (values.length * bits + 7) / 8 * 8 := by
  obtain ⟨k, hk, pos, hpos, rfl, -⟩ := mem_packedBits.1 h
  have hblock : (k + 1) * bits ≤ values.length * bits := Nat.mul_le_mul_right bits hk
  rw [Nat.add_mul] at hblock
  omega

/-- The position of a bit determines the block it is in. -/
theorem block_unique {k k' pos pos' : Nat} (hpos : pos < bits) (hpos' : pos' < bits)
    (h : k * bits + pos = k' * bits + pos') : k = k' := by
  have hdiv : ∀ {k pos}, pos < bits → (k * bits + pos) / bits = k := by
    intro k pos hlt
    rw [Nat.mul_comm, Nat.mul_add_div (by omega), Nat.div_eq_of_lt hlt, Nat.add_zero]
  have hleft := hdiv (k := k) hpos
  rw [h, hdiv hpos'] at hleft
  exact hleft.symm

theorem getBit_bitpackI64 (h : bitpackI64 values bits = some data)
    (hk : k < values.length) {pos : Nat} (hpos : pos < bits) :
    getBit data (k * bits + pos) = values[k].getLsbD pos := by
  unfold bitpackI64 at h
  split at h
  · cases h
  · cases h
    rw [getBit_setBits, getBit_replicate_zero, Bool.or_false, Bool.eq_iff_iff,
      decide_eq_true_iff, length_replicate, and_iff_left_of_imp packedBits_lt, mem_packedBits]
    constructor
    · rintro ⟨k', hk', pos', hpos', hi, hbit⟩
      obtain rfl : k = k' := block_unique hpos hpos' (by omega)
      obtain rfl : pos = pos' := by omega
      exact hbit
    · intro hbit
      exact ⟨k, hk, pos, hpos, by omega, hbit⟩

theorem getLsbD_unpackWord (data : Bytes) (bits offset i : Nat) (h : bits ≤ 64) :
    (unpackWord data bits offset).getLsbD i = (decide (i < bits) && getBit data (offset + i)) := by
  unfold unpackWord
  induction bits with
  | zero => simp
  | succ bits ih =>
    rw [range_succ, foldl_append, foldl_cons, foldl_nil]
    have hone : (1#64 <<< bits).getLsbD i = decide (i = bits) := by
      rw [getLsbD_shiftLeft, getLsbD_one]
      by_cases hi : i = bits
      · simp [hi]
        omega
      · simp only [hi, decide_false]
        by_cases hlt : i < bits
        · simp [hlt]
        · simp [show ¬ i - bits = 0 by omega]
    by_cases hi : i = bits
    · subst hi
      split
      · rename_i hset
        rw [getLsbD_or, hone, hset]
        simp
      · rename_i hset
        rw [ih (by omega), Bool.eq_false_iff.2 hset]
        simp
    · have hlt : decide (i < bits + 1) = decide (i < bits) := by
        simp only [decide_eq_decide]
        omega
      rw [hlt, ← ih (by omega)]
      split
      · rw [getLsbD_or, hone]
        simp [hi]
      · rfl

/-! ## Round trip -/

/-- The word is a signed number of `bits` bits. -/
def Fits (bits : Nat) (w : Word) : Prop := -2 ^ (bits - 1) ≤ w.toInt ∧ w.toInt < 2 ^ (bits - 1)

theorem getLsbD_unpackWord_bitpackI64 (hle : bits ≤ 64)
    (h : bitpackI64 values bits = some data) (hk : k < values.length) (i : Nat) :
    (unpackWord data bits (k * bits)).getLsbD i = (decide (i < bits) && values[k].getLsbD i) := by
  rw [getLsbD_unpackWord _ _ _ _ hle]
  by_cases hi : i < bits
  · rw [getBit_bitpackI64 h hk hi]
  · simp [hi]

/-- The width that is stored for a list of words: one bit more than the longest needs, for the sign,
    within the 64 there are. -/
def signedWidth (values : List Word) : Nat :=
  let longest := (values.map absBitLen).foldr max 0
  if longest = 0 then 1 else min (longest + 1) 64

theorem signedWidth_le (values : List Word) : signedWidth values ≤ 64 := by
  unfold signedWidth
  dsimp only
  split <;> omega

/-- `[base][bits][packed offsets]` -/
def encodeOffsets (values : List Word) (base : Word) : Option Bytes :=
  if values = [] then some []
  else
    let offsets := values.map (· - base)
    let bits := signedWidth offsets
    (bitpackI64 offsets bits).map (fun packed => word64.put base ++ UInt8.ofNat bits :: packed)

def decodeOffsets (data : Bytes) (count : Nat) : Option (List Word) :=
  if count = 0 then some []
  else
    match word64.get data with
    | some (base, bits :: packed) =>
      (unbitpackI64 packed bits.toNat count).map (fun offsets => offsets.map (base + ·))
    | _ => none

def encodeDeltaWire (values : List Word) (base : Word) : Option Bytes := encodeOffsets values base

def decodeDeltaWire (data : Bytes) (count : Nat) : Option (List Word) := decodeOffsets data count

def encodeFrameOfRefWire (values : List Word) (base : Word) : Option Bytes :=
  encodeOffsets values base

def decodeFrameOfRefWire (data : Bytes) (count : Nat) : Option (List Word) :=
  decodeOffsets data count

theorem add_sub_self (a b : Word) : a + (b - a) = b := by
  rw [BitVec.add_comm, BitVec.sub_add_cancel]

theorem bitpackI64_signedWidth_isSome (values : List Word) :
    (bitpackI64 values (signedWidth values)).isSome = true := by
  have hle := signedWidth_le values
  rw [bitpackI64, if_neg (by omega)]
  rfl

theorem encodeOffsets_isSome (values : List Word) (base : Word) :
    (encodeOffsets values base).isSome = true := by
  unfold encodeOffsets
  split
  · rfl
  · rw [isSome_map]
    exact bitpackI64_signedWidth_isSome _

def differences (values : List Word) : List Word := List.zipWith (· - ·) values.tail values

/-- `[base][first delta][bits][packed double deltas]`, cut short for one and two values. -/
def encodeDoubleDeltaWire : List Word → Option Bytes
  | [] => some []
  | [base] => some (word64.put base)
  | [base, second] => some (word64.put base ++ (word64.put (second - base) ++ [0]))
  | base :: second :: third :: rest =>
    let doubleDeltas := differences (differences (base :: second :: third :: rest))
    let bits := signedWidth doubleDeltas
    (bitpackI64 doubleDeltas bits).map (fun packed =>
      word64.put base ++ (word64.put (second - base) ++ UInt8.ofNat bits :: packed))

/-- A width of zero: the same delta again and again. -/
def steady (base delta : Word) : Word → Nat → List Word
  | _, 0 => []
  | current, n + 1 => (base + current) :: steady base delta (current + delta) n

/-- Values from the value and the delta before and the changes of the delta. -/
def accumulate : Word → Word → List Word → List Word
  | _, _, [] => []
  | value, delta, change :: rest =>
    let delta := delta + change
    let value := value + delta
    value :: accumulate value delta rest

def decodeDoubleDeltaWire (data : Bytes) (count : Nat) : Option (List Word) :=
  if count = 0 then some []
  else
    (word64.get data).bind (fun (base, rest) =>
      if count = 1 then some [base]
      else
        match word64.get rest with
        | some (delta, bits :: packed) =>
          if count = 2 then some [base, base + delta]
          else if bits = 0 then some (base :: steady base delta delta (count - 1))
          else
            (unbitpackI64 packed bits.toNat (count - 2)).map (fun doubleDeltas =>
              base :: (base + delta) :: accumulate (base + delta) delta doubleDeltas)
        | _ => none)

theorem encodeDoubleDeltaWire_isSome (values : List Word) :
    (encodeDoubleDeltaWire values).isSome = true := by
  unfold encodeDoubleDeltaWire
  split
  · rfl
  · rfl
  · rfl
  · rw [isSome_map]
    exact bitpackI64_signedWidth_isSome _

end ProximaDb.Codec
