/-
  ProximaDb.Lib.Format

  Self-delimiting serial formats. A `Format` writes a value as bytes and reads it back from the
  front of any byte string that starts with them; the law `get_put` is what every reader of a
  concatenation needs. Unsigned LEB128 is one of them.
-/
import ProximaDb.Lib.Bytes

namespace ProximaDb.Lib

structure Format (α : Type) where
  put : α → Bytes
  get : Bytes → Option (α × Bytes)
  get_put : ∀ a rest, get (put a ++ rest) = some (a, rest)

namespace Format

variable {α β : Type}

/-! ## Natural numbers: base 255, closed by 255 -/

/-- The digits of `n` in base 255, least significant first; `fuel` bounds their number. -/
def digits255 : Nat → Nat → Bytes
  | 0, _ => []
  | fuel + 1, n => if n = 0 then [] else UInt8.ofNat (n % 255) :: digits255 fuel (n / 255)

def getNat : Bytes → Option (Nat × Bytes)
  | [] => none
  | b :: rest =>
    if b = 255 then some (0, rest)
    else (getNat rest).map (fun p => (b.toNat + 255 * p.1, p.2))

theorem toNat_ofNat_of_lt_255 {n : Nat} (h : n < 255) :
    (UInt8.ofNat n).toNat = n ∧ UInt8.ofNat n ≠ 255 := by
  have hnat : (UInt8.ofNat n).toNat = n := by
    simp only [UInt8.toNat_ofNat']
    omega
  refine ⟨hnat, fun heq => ?_⟩
  rw [heq] at hnat
  have h255 : (255 : UInt8).toNat = 255 := by decide
  omega

theorem getNat_digits255 (fuel n : Nat) (h : n ≤ fuel) (rest : Bytes) :
    getNat (digits255 fuel n ++ 255 :: rest) = some (n, rest) := by
  fun_induction digits255 fuel n with
  | case1 n =>
    have : n = 0 := by omega
    simp [getNat, this]
  | case2 fuel => simp [getNat]
  | case3 fuel n hn ih =>
    have hlt : n % 255 < 255 := Nat.mod_lt _ (by decide)
    obtain ⟨hnat, hne⟩ := toNat_ofNat_of_lt_255 hlt
    have hdiv : n / 255 ≤ fuel := by
      have : n / 255 < n := Nat.div_lt_self (by omega) (by decide)
      omega
    rw [List.cons_append, getNat, if_neg hne, ih hdiv]
    simp only [Option.map_some, hnat, Option.some.injEq, Prod.mk.injEq, and_true]
    omega

def nat : Format Nat where
  put n := digits255 n n ++ [255]
  get := getNat
  get_put n rest := by
    rw [List.append_assoc]
    exact getNat_digits255 n n le_rfl rest

/-! ## Combinators -/

/-- Transport along an injection with a left inverse. -/
def iso (f : Format α) (into : β → α) (back : α → β) (h : ∀ b, back (into b) = b) :
    Format β where
  put b := f.put (into b)
  get bs := (f.get bs).map (fun p => (back p.1, p.2))
  get_put b rest := by simp [f.get_put, h]

def pair (f : Format α) (g : Format β) : Format (α × β) where
  put p := f.put p.1 ++ g.put p.2
  get bs := (f.get bs).bind (fun p => (g.get p.2).map (fun q => ((p.1, q.1), q.2)))
  get_put p rest := by simp [f.get_put, g.get_put]

/-- Read `n` values in a row. -/
def getMany (f : Format α) : Nat → Bytes → Option (List α × Bytes)
  | 0, bs => some ([], bs)
  | n + 1, bs =>
    (f.get bs).bind (fun p => (getMany f n p.2).map (fun q => (p.1 :: q.1, q.2)))

theorem getMany_flatMap_put (f : Format α) (l : List α) (rest : Bytes) :
    getMany f l.length (l.flatMap f.put ++ rest) = some (l, rest) := by
  induction l with
  | nil => rfl
  | cons a l ih =>
    rw [List.length_cons, List.flatMap_cons, List.append_assoc, getMany, f.get_put]
    simp [ih]

def list (f : Format α) : Format (List α) where
  put l := nat.put l.length ++ l.flatMap f.put
  get bs := (nat.get bs).bind (fun p => getMany f p.1 p.2)
  get_put l rest := by
    rw [List.append_assoc, nat.get_put]
    exact getMany_flatMap_put f l rest

def option (f : Format α) : Format (Option α) :=
  (list f).iso Option.toList List.head? (by intro o; cases o <;> rfl)

def byte : Format UInt8 where
  put b := [b]
  get bs := bs.head?.map (fun b => (b, bs.tail))
  get_put _ _ := rfl

def bytes : Format Bytes := list byte

/-- A machine word of `width` bytes, least significant first. -/
def leWord (width : Nat) : Format (BitVec (8 * width)) where
  put w := leBytes width w.toNat
  get bs := (takeExact width bs).map (fun p => (BitVec.ofNat (8 * width) (leNat p.1), p.2))
  get_put w rest := by
    have hlt : w.toNat < 256 ^ width := by
      rw [show 256 = 2 ^ 8 from rfl, ← Nat.pow_mul]
      exact w.isLt
    rw [takeExact_append (length_leBytes _ _) rest, Option.map_some, leNat_leBytes hlt]
    simp

def word32 : Format (BitVec 32) := leWord 4

def word64 : Format (BitVec 64) := leWord 8

def string : Format String :=
  (list nat).iso (fun s => s.toList.map Char.toNat) (fun l => String.ofList (l.map Char.ofNat))
    (by intro s; simp [Function.comp_def])

def int : Format Int :=
  (pair nat nat).iso (fun i => (i.toNat, (-i).toNat)) (fun p => (p.1 : Int) - p.2) (by
    intro i
    show ((i.toNat : Nat) : Int) - ((-i).toNat : Nat) = i
    omega)

end Format

/-- Write `n`; `fuel` bounds the number of bytes before the last. -/
def varintBytes : Nat → Nat → Bytes
  | 0, n => [UInt8.ofNat n]
  | fuel + 1, n =>
    if n < 128 then [UInt8.ofNat n]
    else UInt8.ofNat (n % 128 + 128) :: varintBytes fuel (n / 128)

/-- Read on from the bits below `shift`. -/
def getVarint (value : BitVec 64) (shift : Nat) : Bytes → Option (BitVec 64 × Bytes)
  | [] => none
  | b :: rest =>
    let value := value ||| BitVec.ofNat 64 (b.toNat % 128) <<< shift
    if b.toNat < 128 then some (value, rest)
    else if 64 ≤ shift + 7 then none
    else getVarint value (shift + 7) rest

theorem or_shift_seven (n shift : Nat) :
    BitVec.ofNat 64 (n % 128) <<< shift ||| BitVec.ofNat 64 (n / 128) <<< (shift + 7) =
      BitVec.ofNat 64 n <<< shift := by
  apply BitVec.eq_of_getLsbD_eq
  intro i hi
  simp only [BitVec.getLsbD_or, BitVec.getLsbD_shiftLeft, BitVec.getLsbD_ofNat]
  have hmod : (n % 128).testBit (i - shift) = (decide (i - shift < 7) && n.testBit (i - shift)) :=
    Nat.testBit_mod_two_pow n 7 (i - shift)
  have hdiv : (n / 128).testBit (i - (shift + 7)) = n.testBit (i - (shift + 7) + 7) :=
    Nat.testBit_div_two_pow (n := 7) n (i - (shift + 7))
  rw [hmod, hdiv]
  by_cases hlow : i < shift
  · simp [hlow, show i < shift + 7 by omega]
  · by_cases hseven : i < shift + 7
    · simp [hlow, hseven, show i - shift < 7 by omega]
    · have hidx : i - (shift + 7) + 7 = i - shift := by omega
      simp [hlow, hseven, hidx, show ¬ i - shift < 7 by omega, show i - (shift + 7) < 64 by omega,
        show i - shift < 64 by omega]

theorem getVarint_last {n : Nat} (h : n < 128) (value : BitVec 64) (shift : Nat) (rest : Bytes) :
    getVarint value shift ([UInt8.ofNat n] ++ rest) =
      some (value ||| BitVec.ofNat 64 n <<< shift, rest) := by
  have hnat : (UInt8.ofNat n).toNat = n := by
    rw [UInt8.toNat_ofNat']
    omega
  simp [getVarint, hnat, h, Nat.mod_eq_of_lt h]

theorem getVarint_varintBytes (fuel n : Nat) (value : BitVec 64) (shift : Nat) (rest : Bytes)
    (hfuel : n < 2 ^ (7 * fuel + 7)) (hfit : n * 2 ^ shift < 2 ^ 64) (hshift : shift < 64) :
    getVarint value shift (varintBytes fuel n ++ rest) =
      some (value ||| BitVec.ofNat 64 n <<< shift, rest) := by
  fun_induction varintBytes fuel n generalizing value shift with
  | case1 n => exact getVarint_last (by simpa using hfuel) value shift rest
  | case2 fuel n hn => exact getVarint_last hn value shift rest
  | case3 fuel n hn ih =>
    have hnat : (UInt8.ofNat (n % 128 + 128)).toNat = n % 128 + 128 := by
      rw [UInt8.toNat_ofNat']
      omega
    -- the number still has bits above the next seven, so there is room for them
    have hroom : shift + 7 < 64 := by
      by_contra hge
      have hpow : 2 ^ (64 - 7) ≤ 2 ^ shift := Nat.pow_le_pow_right (by decide) (by omega)
      have : 128 * 2 ^ (64 - 7) ≤ n * 2 ^ shift := Nat.mul_le_mul (by omega) hpow
      omega
    have hfuel' : n / 128 < 2 ^ (7 * fuel + 7) := by
      apply Nat.div_lt_of_lt_mul
      calc n < 2 ^ (7 * (fuel + 1) + 7) := hfuel
        _ = 128 * 2 ^ (7 * fuel + 7) := by
            rw [show 7 * (fuel + 1) + 7 = 7 + (7 * fuel + 7) by ring, Nat.pow_add]
    have hfit' : n / 128 * 2 ^ (shift + 7) < 2 ^ 64 := by
      calc n / 128 * 2 ^ (shift + 7) = n / 128 * 128 * 2 ^ shift := by
            rw [Nat.pow_add]
            ring
        _ ≤ n * 2 ^ shift := Nat.mul_le_mul_right _ (Nat.div_mul_le_self n 128)
        _ < 2 ^ 64 := hfit
    rw [List.cons_append, getVarint, hnat, if_neg (by omega), if_neg (by omega),
      show (n % 128 + 128) % 128 = n % 128 by omega, ih _ (shift + 7) hfuel' hfit' hroom,
      BitVec.or_assoc, or_shift_seven]

def Format.varint : Format (BitVec 64) where
  put w := varintBytes 9 w.toNat
  get bs := getVarint 0 0 bs
  get_put w rest := by
    have hfit : w.toNat * 2 ^ 0 < 2 ^ 64 := by simpa using w.isLt
    have hfuel : w.toNat < 2 ^ (7 * 9 + 7) := lt_trans w.isLt (by decide)
    rw [getVarint_varintBytes 9 w.toNat 0 0 rest hfuel hfit (by decide)]
    simp

end ProximaDb.Lib
