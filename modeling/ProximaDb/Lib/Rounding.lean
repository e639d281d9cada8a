/-
  ProximaDb.Lib.Rounding

  Rounding of positive rationals to a number of significant bits, to the nearest and ties to even,
  with an exponent that is as large or as small as it has to be. With 24 bits this is what `f32`
  does to numbers within its range. Rounding is monotone and leaves alone what fits.
-/
import Mathlib

namespace ProximaDb.Lib

/-! ## To the nearest integer -/

def roundHalfEven (q : ℚ) : ℤ :=
  if q - ⌊q⌋ < 1 / 2 then ⌊q⌋
  else if 1 / 2 < q - ⌊q⌋ then ⌊q⌋ + 1
  else if ⌊q⌋ % 2 = 0 then ⌊q⌋ else ⌊q⌋ + 1

theorem roundHalfEven_intCast (n : ℤ) : roundHalfEven n = n := by
  simp [roundHalfEven]

theorem floor_le_roundHalfEven (q : ℚ) : ⌊q⌋ ≤ roundHalfEven q := by
  unfold roundHalfEven
  split_ifs <;> omega

theorem roundHalfEven_le_floor_add_one (q : ℚ) : roundHalfEven q ≤ ⌊q⌋ + 1 := by
  unfold roundHalfEven
  split_ifs <;> omega

theorem roundHalfEven_mono {q q' : ℚ} (h : q ≤ q') : roundHalfEven q ≤ roundHalfEven q' := by
  have hfloor : ⌊q⌋ ≤ ⌊q'⌋ := Int.floor_le_floor h
  rcases Int.lt_or_eq_of_le hfloor with hlt | heq
  · have hup := roundHalfEven_le_floor_add_one q
    have hlow := floor_le_roundHalfEven q'
    omega
  · unfold roundHalfEven
    rw [← heq]
    split_ifs <;> first | omega | linarith

/-- Rounding to the nearest multiple of a step. -/
theorem roundHalfEven_mul_mono {q q' c : ℚ} (hc : 0 < c) (h : q ≤ q') :
    roundHalfEven (q / c) * c ≤ roundHalfEven (q' / c) * c :=
  mul_le_mul_of_nonneg_right
    (Int.cast_le.2 (roundHalfEven_mono (div_le_div_of_nonneg_right h hc.le))) hc.le

theorem roundHalfEven_mul_self {c : ℚ} (hc : 0 < c) (n : ℤ) :
    (roundHalfEven (n * c / c) * c : ℚ) = n * c := by
  rw [mul_div_cancel_right₀ _ hc.ne', roundHalfEven_intCast]

/-! ## To significant bits -/

/-- The exponent of the last of `p` significant bits. -/
def lastBit (p : ℕ) (q : ℚ) : ℤ := Int.log 2 q + 1 - p

def roundSig (p : ℕ) (q : ℚ) : ℚ :=
  if q ≤ 0 then 0 else roundHalfEven (q / 2 ^ lastBit p q) * 2 ^ lastBit p q

variable {p : ℕ} {q q' : ℚ} {e : ℤ} {n : ℕ}

theorem roundSig_of_pos (h : 0 < q) :
    roundSig p q = roundHalfEven (q / 2 ^ lastBit p q) * 2 ^ lastBit p q :=
  if_neg (not_le.2 h)

theorem log_eq_of_bounds (hlow : (2 : ℚ) ^ e ≤ q) (hhigh : q < (2 : ℚ) ^ (e + 1)) :
    Int.log 2 q = e := by
  have hpos : 0 < q := lt_of_lt_of_le (by positivity) hlow
  have hle : e ≤ Int.log 2 q := (Int.zpow_le_iff_le_log one_lt_two hpos).1 hlow
  have hlt : Int.log 2 q < e + 1 := (Int.lt_zpow_iff_log_lt one_lt_two hpos).1 hhigh
  omega

theorem roundSig_eq_self {m : ℕ} (hm : m < 2 ^ p) (hq : q = m * (2 : ℚ) ^ e) :
    roundSig p q = q := by
  rcases Nat.eq_zero_or_pos m with hzero | hpos
  · subst hzero
    simp [hq, roundSig]
  · have hqpos : 0 < q := by
      rw [hq]
      positivity
    have hlt : q < (2 : ℚ) ^ (e + p) := by
      rw [hq, zpow_add₀ two_ne_zero, mul_comm]
      have hcast : (m : ℚ) < 2 ^ p := by exact_mod_cast hm
      rw [zpow_natCast]
      exact mul_lt_mul_of_pos_left hcast (by positivity)
    have hlog : Int.log 2 q < e + p := (Int.lt_zpow_iff_log_lt one_lt_two hqpos).1 hlt
    obtain ⟨n, hn⟩ : ∃ n : ℕ, e = lastBit p q + n :=
      ⟨(e - lastBit p q).toNat, by unfold lastBit; omega⟩
    have hint : q = ((m * 2 ^ n : ℕ) : ℤ) * (2 : ℚ) ^ lastBit p q := by
      calc q = m * (2 : ℚ) ^ (lastBit p q + n) := by rw [← hn, ← hq]
        _ = ((m * 2 ^ n : ℕ) : ℤ) * 2 ^ lastBit p q := by
            rw [zpow_add₀ two_ne_zero, zpow_natCast]
            push_cast
            ring
    have hself := roundHalfEven_mul_self (show (0 : ℚ) < 2 ^ lastBit p q by positivity) (m * 2 ^ n : ℕ)
    rw [← hint] at hself
    rw [roundSig_of_pos hqpos, hself]

theorem roundSig_natCast (h : n < 2 ^ p) : roundSig p n = n :=
  roundSig_eq_self h (e := 0) (by simp)

/-- A power of two above the last bit is a multiple of it. -/
theorem zpow_eq_mul_lastBit (h : e = n + lastBit p q) :
    (2 : ℚ) ^ e = ((2 ^ n : ℕ) : ℤ) * 2 ^ lastBit p q := by
  rw [h, zpow_add₀ two_ne_zero, zpow_natCast]
  push_cast
  rfl

theorem zpow_log_le_roundSig (hp : 0 < p) (h : 0 < q) : (2 : ℚ) ^ Int.log 2 q ≤ roundSig p q := by
  have hle : (2 : ℚ) ^ Int.log 2 q ≤ q := Int.zpow_log_le_self one_lt_two h
  have hstep : (0 : ℚ) < 2 ^ lastBit p q := by positivity
  have hsplit : (2 : ℚ) ^ Int.log 2 q = ((2 ^ (p - 1) : ℕ) : ℤ) * 2 ^ lastBit p q :=
    zpow_eq_mul_lastBit (by unfold lastBit; omega)
  rw [hsplit] at hle
  rw [roundSig_of_pos h, hsplit, ← roundHalfEven_mul_self hstep]
  exact roundHalfEven_mul_mono hstep hle

theorem roundSig_le_zpow_log (h : 0 < q) : roundSig p q ≤ (2 : ℚ) ^ (Int.log 2 q + 1) := by
  have hlt : q < (2 : ℚ) ^ (Int.log 2 q + 1) := Int.lt_zpow_succ_log_self one_lt_two q
  have hstep : (0 : ℚ) < 2 ^ lastBit p q := by positivity
  have hsplit : (2 : ℚ) ^ (Int.log 2 q + 1) = ((2 ^ p : ℕ) : ℤ) * 2 ^ lastBit p q :=
    zpow_eq_mul_lastBit (by unfold lastBit; omega)
  rw [hsplit] at hlt
  rw [roundSig_of_pos h, hsplit, ← roundHalfEven_mul_self hstep (2 ^ p : ℕ)]
  exact roundHalfEven_mul_mono hstep hlt.le

theorem roundSig_pos (hp : 0 < p) (h : 0 < q) : 0 < roundSig p q :=
  lt_of_lt_of_le (by positivity) (zpow_log_le_roundSig hp h)

theorem roundSig_mono (hp : 0 < p) (h : q ≤ q') : roundSig p q ≤ roundSig p q' := by
  by_cases hq : q ≤ 0
  · rw [show roundSig p q = 0 from if_pos hq]
    by_cases hq' : q' ≤ 0
    · rw [show roundSig p q' = 0 from if_pos hq']
    · exact (roundSig_pos hp (not_le.1 hq')).le
  · have hpos : 0 < q := not_le.1 hq
    have hpos' : 0 < q' := hpos.trans_le h
    rcases Int.lt_or_eq_of_le (Int.log_mono_right hpos h) with hlt | heq
    · calc roundSig p q ≤ (2 : ℚ) ^ (Int.log 2 q + 1) := roundSig_le_zpow_log hpos
        _ ≤ (2 : ℚ) ^ Int.log 2 q' := zpow_le_zpow_right₀ one_le_two hlt
        _ ≤ roundSig p q' := zpow_log_le_roundSig hp hpos'
    · have hbit : lastBit p q = lastBit p q' := by
        unfold lastBit
        rw [heq]
      rw [roundSig_of_pos hpos, roundSig_of_pos hpos', hbit]
      exact roundHalfEven_mul_mono (by positivity) h

end ProximaDb.Lib
