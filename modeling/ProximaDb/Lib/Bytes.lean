/-
  ProximaDb.Lib.Bytes

  Byte strings: little-endian fixed-width integers and exact-length reads, texts as they are kept
  in small files (UTF-8, trimming of Unicode white space, decimal numbers of 64 bits), and CRC-32
  bit by bit.
-/
import Mathlib

namespace ProximaDb.Lib

open List

abbrev Bytes := List UInt8

/-! ## Little-endian integers -/

/-- The low `width` bytes of `n`, least significant first (`to_le_bytes`). -/
def leBytes : Nat → Nat → Bytes
  | 0, _ => []
  | width + 1, n => UInt8.ofNat n :: leBytes width (n / 256)

/-- The value of a little-endian byte string (`from_le_bytes`). -/
def leNat : Bytes → Nat
  | [] => 0
  | b :: rest => b.toNat + 256 * leNat rest

@[simp] theorem length_leBytes (width n : Nat) : (leBytes width n).length = width := by
  induction width generalizing n with
  | zero => rfl
  | succ width ih => simp [leBytes, ih]

theorem leNat_leBytes {width n : Nat} (h : n < 256 ^ width) : leNat (leBytes width n) = n := by
  induction width generalizing n with
  | zero =>
    have : n = 0 := by simpa using h
    simp [leBytes, leNat, this]
  | succ width ih =>
    have hdiv : n / 256 < 256 ^ width := by
      rw [Nat.pow_succ] at h
      exact Nat.div_lt_of_lt_mul (by omega)
    have hlow : (UInt8.ofNat n).toNat = n % 256 := by simp
    rw [leBytes, leNat, ih hdiv, hlow]
    omega

/-! ## Exact-length reads -/

/-- Take exactly `n` bytes, or fail (`read_exact`). -/
def takeExact (n : Nat) (bs : Bytes) : Option (Bytes × Bytes) :=
  if n ≤ bs.length then some (bs.take n, bs.drop n) else none

theorem takeExact_append {n : Nat} {a : Bytes} (h : a.length = n) (rest : Bytes) :
    takeExact n (a ++ rest) = some (a, rest) := by
  subst h
  simp [takeExact]

def utf8 (s : String) : Bytes := s.toByteArray.data.toList

def ofUtf8 (bs : Bytes) : Option String := String.fromUTF8? ⟨bs.toArray⟩

theorem ofUtf8_utf8 (s : String) : ofUtf8 (utf8 s) = some s := by
  have h : (⟨s.toByteArray.data.toList.toArray⟩ : ByteArray) = s.toByteArray := by simp
  rw [ofUtf8, utf8, h, String.fromUTF8?, dif_pos s.isValidUTF8]
  rfl

/-! ## White space -/

/-- The Unicode property `White_Space`. -/
def isWhitespace (c : Char) : Bool :=
  decide (0x09 ≤ c.toNat ∧ c.toNat ≤ 0x0D) || c.toNat == 0x20 || c.toNat == 0x85 ||
    c.toNat == 0xA0 || c.toNat == 0x1680 || decide (0x2000 ≤ c.toNat ∧ c.toNat ≤ 0x200A) ||
    c.toNat == 0x2028 || c.toNat == 0x2029 || c.toNat == 0x202F || c.toNat == 0x205F ||
    c.toNat == 0x3000

def trim (s : String) : String :=
  String.ofList (((s.toList.dropWhile isWhitespace).reverse.dropWhile isWhitespace).reverse)

theorem trim_eq_self {s : String} (h : ∀ c ∈ s.toList, isWhitespace c = false) : trim s = s := by
  have hkeep : ∀ l : List Char, (∀ c ∈ l, isWhitespace c = false) →
      l.dropWhile isWhitespace = l := by
    intro l hl
    cases l with
    | nil => rfl
    | cons c l => rw [dropWhile_cons_of_neg (by simp [hl c (by simp)])]
  rw [trim, hkeep _ h, hkeep _ (fun c hc => h c (mem_reverse.1 hc)), reverse_reverse,
    String.ofList_toList]

/-! ## Decimal numbers -/

def decimal (n : Nat) : String := String.ofList (Nat.toDigits 10 n)

def parseDigits (digits : List Char) : Option Nat :=
  if digits ≠ [] ∧ digits.all Char.isDigit ∧ Nat.ofDigitChars 10 digits 0 < 2 ^ 64 then
    some (Nat.ofDigitChars 10 digits 0)
  else none

/-- A number of 64 bits in decimal, with an optional plus sign. -/
def parseU64 (s : String) : Option Nat :=
  parseDigits (if s.toList.head? = some '+' then s.toList.tail else s.toList)

theorem isDigit_of_mem_decimal {n : Nat} {c : Char} (h : c ∈ (decimal n).toList) :
    c.isDigit = true := by
  rw [decimal, String.toList_ofList] at h
  exact Nat.isDigit_of_mem_toDigits (by decide) (by decide) h

theorem isWhitespace_of_isDigit {c : Char} (h : c.isDigit = true) : isWhitespace c = false := by
  have hc : 48 ≤ c.toNat ∧ c.toNat ≤ 57 := Char.isDigit_iff_toNat.1 h
  simp only [isWhitespace, Bool.or_eq_false_iff, decide_eq_false_iff_not, beq_eq_false_iff_ne]
  omega

theorem parseU64_decimal {n : Nat} (h : n < 2 ^ 64) : parseU64 (decimal n) = some n := by
  have hlist : (decimal n).toList = Nat.toDigits 10 n := String.toList_ofList
  have hplus : (decimal n).toList.head? ≠ some '+' := by
    intro hhead
    exact absurd (isDigit_of_mem_decimal (mem_of_head? hhead)) (by decide)
  have hall : (Nat.toDigits 10 n).all Char.isDigit = true :=
    all_eq_true.2 (fun c hc => isDigit_of_mem_decimal (hlist ▸ hc))
  have hvalue : Nat.ofDigitChars 10 (Nat.toDigits 10 n) 0 = n := Nat.ofDigitChars_ten_toDigits
  rw [parseU64, if_neg hplus, hlist, parseDigits,
    if_pos ⟨Nat.toDigits_ne_nil, hall, hvalue.symm ▸ h⟩, hvalue]

theorem parseU64_trim_decimal {n : Nat} (h : n < 2 ^ 64) :
    parseU64 (trim (decimal n)) = some n := by
  rw [trim_eq_self (fun c hc => isWhitespace_of_isDigit (isDigit_of_mem_decimal hc)),
    parseU64_decimal h]

def crcStep (crc : Nat) : Nat :=
  if crc % 2 = 1 then (crc / 2) ^^^ 0xEDB88320 else crc / 2

def crcByte (crc : Nat) (b : UInt8) : Nat := crcStep^[8] (crc ^^^ b.toNat)

def crc32 (bs : Bytes) : Nat := bs.foldl crcByte 0xFFFFFFFF ^^^ 0xFFFFFFFF

/-- The check value of the polynomial: the digits `123456789`. -/
example : crc32 [49, 50, 51, 52, 53, 54, 55, 56, 57] = 0xCBF43926 := by decide +kernel

theorem crcStep_lt {crc : Nat} (h : crc < 2 ^ 32) : crcStep crc < 2 ^ 32 := by
  unfold crcStep
  have hhalf : crc / 2 < 2 ^ 32 := by omega
  split_ifs
  · exact Nat.xor_lt_two_pow hhalf (by decide)
  · exact hhalf

theorem crcByte_lt {crc : Nat} (h : crc < 2 ^ 32) (b : UInt8) : crcByte crc b < 2 ^ 32 := by
  have hb : b.toNat < 2 ^ 32 := by
    have := b.toNat_lt
    omega
  have hstart : crc ^^^ b.toNat < 2 ^ 32 := Nat.xor_lt_two_pow h hb
  exact Function.Iterate.rec (· < 2 ^ 32) hstart (fun _ => crcStep_lt) 8

theorem crc32_lt (bs : Bytes) : crc32 bs < 2 ^ 32 := by
  have hfold : bs.foldl crcByte (2 ^ 32 - 1) < 2 ^ 32 :=
    bs.foldlRecOn crcByte (motive := (· < 2 ^ 32)) (by decide) (fun _ h b _ => crcByte_lt h b)
  exact Nat.xor_lt_two_pow hfold (by decide)

end ProximaDb.Lib
