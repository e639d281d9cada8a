/-
  ProximaDb.Lib.BitArray

  Bits in an array of bytes, eight to a byte from the lowest up: what has been set stays set, and
  nothing else is.
-/
import ProximaDb.Lib.Bytes

namespace ProximaDb.Lib

open List

def bitMask (i : Nat) : UInt8 := 1 <<< UInt8.ofNat (i % 8)

def getBit (bs : Bytes) (i : Nat) : Bool := bs.getD (i / 8) 0 &&& bitMask i != 0

def setBit (bs : Bytes) (i : Nat) : Bytes := bs.modify (i / 8) (fun b => b ||| bitMask i)

variable (bs : Bytes) (i : Nat)

theorem length_setBit : (setBit bs i).length = bs.length :=
  length_modify ..

theorem toNat_bitMask : (bitMask i).toNat = 2 ^ (i % 8) := by
  have hall : ∀ k : Fin 8, ((1 : UInt8) <<< UInt8.ofNat k).toNat = 2 ^ k.val := by decide
  exact hall ⟨i % 8, Nat.mod_lt _ (by decide)⟩

theorem getBit_eq_testBit : getBit bs i = (bs.getD (i / 8) 0).toNat.testBit (i % 8) := by
  have hzero : ∀ b : UInt8, (b != 0) = (b.toNat != 0) := by
    intro b
    rw [Bool.eq_iff_iff, bne_iff_ne, bne_iff_ne, ne_eq, ne_eq, ← UInt8.toNat_inj]
    rfl
  rw [getBit, hzero, UInt8.toNat_and, toNat_bitMask, Nat.and_two_pow]
  cases (bs.getD (i / 8) 0).toNat.testBit (i % 8) <;> simp

theorem getBit_setBit (j i : Nat) :
    getBit (setBit bs j) i = (decide (i = j ∧ i < bs.length * 8) || getBit bs i) := by
  rw [getBit_eq_testBit, getBit_eq_testBit]
  by_cases hset : j / 8 = i / 8 ∧ i / 8 < bs.length
  · have hget : (setBit bs j).getD (i / 8) 0 = bs.getD (i / 8) 0 ||| bitMask j := by
      simp [setBit, getD_eq_getElem?_getD, hset]
    have hsame : j % 8 = i % 8 ↔ i = j ∧ i < bs.length * 8 := by omega
    rw [hget, UInt8.toNat_or, Nat.testBit_or, toNat_bitMask, Nat.testBit_two_pow, Bool.or_comm]
    simp only [hsame]
  · have hget : (setBit bs j).getD (i / 8) 0 = bs.getD (i / 8) 0 := by
      rw [setBit, getD_eq_getElem?_getD, getD_eq_getElem?_getD, List.getElem?_modify]
      rcases Nat.lt_or_ge (i / 8) bs.length with hlt | hge
      · have hidx : j / 8 ≠ i / 8 := fun hidx => hset ⟨hidx, hlt⟩
        simp [hidx]
      · simp [hge]
    rw [hget, decide_eq_false (by omega), Bool.false_or]

/-! ## Many bits -/

def setBits (bs : Bytes) (is : List Nat) : Bytes := is.foldl setBit bs

theorem length_setBits (is : List Nat) : (setBits bs is).length = bs.length :=
  is.foldlRecOn setBit (motive := (·.length = bs.length)) rfl
    (fun bs' h i _ => (length_setBit bs' i).trans h)

theorem getBit_setBits (is : List Nat) (i : Nat) :
    getBit (setBits bs is) i = (decide (i ∈ is ∧ i < bs.length * 8) || getBit bs i) := by
  induction is generalizing bs with
  | nil => simp [setBits]
  | cons j is ih =>
    show getBit (setBits (setBit bs j) is) i = _
    rw [ih, length_setBit, getBit_setBit, ← Bool.or_assoc, ← Bool.decide_or]
    simp only [mem_cons, or_and_right, or_comm]

theorem getBit_replicate_zero (n i : Nat) : getBit (List.replicate n 0) i = false := by
  have hzero : (List.replicate n (0 : UInt8)).getD (i / 8) 0 = 0 := by
    rw [getD_eq_getElem?_getD, List.getElem?_replicate]
    split <;> rfl
  rw [getBit_eq_testBit, hzero]
  exact Nat.zero_testBit _

end ProximaDb.Lib
