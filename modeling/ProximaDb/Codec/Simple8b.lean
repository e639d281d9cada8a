/-
  ProximaDb.Codec.Simple8b

  Small numbers packed into words of 64 bits: four bits at the top select how many fields of how
  many bits there are below. A word takes as many of the values left as fit the narrowest fields.
-/
import ProximaDb.Codec.Repeats

namespace ProximaDb.Codec

open ProximaDb.Lib Format List

/-- The number and the width of the fields, by selector. -/
def selectors : List (Nat × Nat) :=
  [(240, 0), (120, 0), (60, 1), (30, 2), (20, 3), (15, 4), (12, 5), (10, 6), (8, 7), (7, 8),
    (6, 10), (5, 12), (4, 15), (3, 20), (2, 30), (1, 60)]

/-! ## Packing -/

/-- Lay `values` into the fields from the `i`th on. -/
def orFields (bits : Nat) : Nat → Word → List Word → Word
  | _, word, [] => word
  | i, word, v :: rest => orFields bits (i + 1) (word ||| v <<< (i * bits)) rest

/-- The values that a selector takes all fit its fields. -/
def selectorFits (values : List Word) (s : (Nat × Nat) × Nat) : Bool :=
  (values.take s.1.1).all (fun v => decide (v.toNat ≤ 2 ^ s.1.2 - 1))

/-- How many values went into the word, and the word. -/
def packWord (values : List Word) : Option (Nat × Word) :=
  match (selectors.zipIdx.drop 2).find? (selectorFits values) with
  | some ((count, bits), selector) =>
    some (min values.length count,
      orFields bits 0 (BitVec.ofNat 64 selector <<< 60) (values.take count))
  | none =>
    match values with
    | [] => none
    | v :: _ => if 2 ^ 60 ≤ v.toNat then none else some (1, 15#64 <<< 60 ||| v)

/-- Word after word; every one takes a value, so the number of values is fuel enough. -/
def packWords : Nat → List Word → Option (List Word)
  | _, [] => some []
  | 0, _ :: _ => none
  | fuel + 1, v :: rest =>
    (packWord (v :: rest)).bind (fun p =>
      (packWords fuel ((v :: rest).drop p.1)).map (p.2 :: ·))

/-- `[number of words][words]` -/
def encodeSimple8bWire (values : List Word) : Option Bytes :=
  if values = [] then some []
  else
    (packWords values.length values).map (fun words =>
      word32.put (BitVec.ofNat 32 words.length) ++ words.flatMap word64.put)

/-! ## Unpacking -/

def wordValues (word : Word) : List Word :=
  let (count, bits) := selectors.getD (word >>> 60).toNat (0, 0)
  if bits = 0 then List.replicate count 0
  else (List.range count).map (fun i => word >>> (i * bits) &&& BitVec.ofNat 64 (2 ^ bits - 1))

/-- The values of the words behind those read so far, up to the count. -/
def unpackWords (count : Nat) : List Word → List Word → List Word
  | acc, [] => acc
  | acc, word :: words =>
    if count ≤ acc.length then acc
    else unpackWords count (acc ++ (wordValues word).take (count - acc.length)) words

def decodeSimple8bWire (data : Bytes) (count : Nat) : Option (List Word) :=
  if count = 0 then some []
  else
    (word32.get data).bind (fun p =>
      (getMany word64 p.1.toNat p.2).map (fun words => (unpackWords count [] words.1).take count))

/-! ## Fields -/

variable {v : Word}

theorem getLsbD_shift {n q : Nat} (hq : q < 64) :
    (v <<< n).getLsbD q = true ↔ n ≤ q ∧ v.getLsbD (q - n) = true := by
  simp only [BitVec.getLsbD_shiftLeft, Bool.and_eq_true, decide_eq_true_eq, Bool.not_eq_true',
    decide_eq_false_iff_not, Nat.not_lt, hq, true_and]

variable {values : List Word} {rest : List Word} {data : Bytes} {word : Word} {fuel : Nat} {n : Nat}

theorem getLsbD_orFields {bits i q : Nat} (hq : q < 64) :
    (orFields bits i word values).getLsbD q = true ↔
      word.getLsbD q = true ∨ ∃ k, ∃ h : k < values.length,
        (i + k) * bits ≤ q ∧ values[k].getLsbD (q - (i + k) * bits) = true := by
  induction values generalizing i word with
  | nil => simp [orFields]
  | cons v rest ih =>
    rw [orFields, ih, BitVec.getLsbD_or, Bool.or_eq_true, getLsbD_shift hq, or_assoc]
    apply or_congr_right
    constructor
    · rintro (⟨hle, hbit⟩ | ⟨k, hk, hle, hbit⟩)
      · exact ⟨0, Nat.succ_pos _, hle, hbit⟩
      · rw [Nat.add_right_comm] at hle hbit
        exact ⟨k + 1, Nat.succ_lt_succ hk, hle, hbit⟩
    · rintro ⟨k, hk, hle, hbit⟩
      cases k with
      | zero => exact Or.inl ⟨hle, hbit⟩
      | succ k =>
        refine Or.inr ⟨k, Nat.lt_of_succ_lt_succ hk, ?_⟩
        rw [Nat.add_right_comm]
        exact ⟨hle, hbit⟩

theorem lt_of_getLsbD {bits q : Nat} (hv : v.toNat < 2 ^ bits)
    (h : v.getLsbD q = true) : q < bits := by
  by_contra hge
  have hzero : v.toNat.testBit q = false :=
    Nat.testBit_lt_two_pow (lt_of_lt_of_le hv (Nat.pow_le_pow_right (by decide) (by omega)))
  rw [BitVec.getLsbD, hzero] at h
  cases h

section Word

variable {bits count selector : Nat} {values : List Word}
  (hroom : count * bits ≤ 60) (hlen : values.length ≤ count)
  (hfit : ∀ v ∈ values, v.toNat < 2 ^ bits)

include hroom hlen hfit

theorem getLsbD_word {j p : Nat} (hj : j < values.length) (hp : p < bits) :
    (orFields bits 0 (BitVec.ofNat 64 selector <<< 60) values).getLsbD (j * bits + p) =
      values[j].getLsbD p := by
  have hend : (j + 1) * bits ≤ count * bits := Nat.mul_le_mul_right bits (by omega)
  rw [Nat.add_mul] at hend
  rw [Bool.eq_iff_iff, getLsbD_orFields (by omega)]
  constructor
  · rintro (hsel | ⟨k, hk, hle, hbit⟩)
    · have habove := ((getLsbD_shift (by omega)).1 hsel).1
      omega
    · rw [Nat.zero_add] at hle hbit
      have hpos := lt_of_getLsbD (hfit _ (getElem_mem hk)) hbit
      obtain rfl : j = k := block_unique hp hpos (by omega)
      rwa [Nat.add_sub_cancel_left] at hbit
  · intro hbit
    refine Or.inr ⟨j, hj, ?_⟩
    rw [Nat.zero_add, Nat.add_sub_cancel_left]
    exact ⟨Nat.le_add_right _ _, hbit⟩

theorem selector_of_word (hselector : selector < 16) :
    (orFields bits 0 (BitVec.ofNat 64 selector <<< 60) values >>> 60).toNat = selector := by
  have hword : orFields bits 0 (BitVec.ofNat 64 selector <<< 60) values >>> 60 =
      BitVec.ofNat 64 selector := by
    apply BitVec.eq_of_getLsbD_eq
    intro i hi
    rw [BitVec.getLsbD_ushiftRight]
    by_cases htop : 60 + i < 64
    · rw [Bool.eq_iff_iff, getLsbD_orFields htop]
      constructor
      · rintro (hsel | ⟨k, hk, hle, hbit⟩)
        · have hbit := ((getLsbD_shift htop).1 hsel).2
          rwa [Nat.add_sub_cancel_left] at hbit
        · rw [Nat.zero_add] at hle hbit
          have hpos := lt_of_getLsbD (hfit _ (getElem_mem hk)) hbit
          have hend : (k + 1) * bits ≤ count * bits := Nat.mul_le_mul_right bits (by omega)
          rw [Nat.add_mul] at hend
          omega
      · intro hbit
        refine Or.inl ((getLsbD_shift htop).2 ⟨Nat.le_add_right _ _, ?_⟩)
        rwa [Nat.add_sub_cancel_left]
    · have hpow : 2 ^ 4 ≤ 2 ^ i := Nat.pow_le_pow_right (by decide) (by omega)
      have hsmall : selector.testBit i = false :=
        Nat.testBit_lt_two_pow (lt_of_lt_of_le hselector hpow)
      rw [BitVec.getLsbD_of_ge _ _ (by omega), BitVec.getLsbD_ofNat, hsmall, Bool.and_false]
  rw [hword, BitVec.toNat_ofNat, Nat.mod_eq_of_lt (by omega)]

theorem field_of_word {j : Nat} (hj : j < values.length) :
    orFields bits 0 (BitVec.ofNat 64 selector <<< 60) values >>> (j * bits) &&&
      BitVec.ofNat 64 (2 ^ bits - 1) = values[j] := by
  apply BitVec.eq_of_getLsbD_eq
  intro p hp
  rw [BitVec.getLsbD_and, BitVec.getLsbD_ushiftRight, BitVec.getLsbD_ofNat,
    Nat.testBit_two_pow_sub_one]
  by_cases hin : p < bits
  · rw [getLsbD_word hroom hlen hfit hj hin]
    simp [hin, hp]
  · have hout : values[j].getLsbD p = false := by
      refine Bool.eq_false_iff.2 (fun hbit => hin ?_)
      exact lt_of_getLsbD (hfit _ (getElem_mem hj)) hbit
    simp [hin, hout]

variable (hselector : selector < 16) (hbits : bits ≠ 0)
  (htable : selectors.getD selector (0, 0) = (count, bits))

include hselector hbits htable

theorem take_wordValues :
    (wordValues (orFields bits 0 (BitVec.ofNat 64 selector <<< 60) values)).take values.length =
      values := by
  unfold wordValues
  rw [selector_of_word hroom hlen hfit hselector, htable]
  dsimp only
  rw [if_neg hbits]
  apply ext_getElem
  · rw [length_take, length_map, length_range]
    omega
  · intro j hj hj'
    rw [getElem_take, getElem_map, getElem_range]
    exact field_of_word hroom hlen hfit hj'

theorem length_wordValues :
    (wordValues (orFields bits 0 (BitVec.ofNat 64 selector <<< 60) values)).length = count := by
  unfold wordValues
  rw [selector_of_word hroom hlen hfit hselector, htable]
  dsimp only
  rw [if_neg hbits, length_map, length_range]

end Word

/-! ## Round trip -/

theorem selectors_wellFormed : ∀ s ∈ selectors.zipIdx.drop 2,
    0 < s.1.1 ∧ s.1.2 ≠ 0 ∧ s.1.2 ≤ 60 ∧ s.1.1 * s.1.2 ≤ 60 ∧ s.2 < 16 ∧
      selectors.getD s.2 (0, 0) = s.1 := by
  decide

/-- What it means that a word holds the first `n` of the values: it has no others unless they are
    all there were. -/
structure Packed (values : List Word) (n : Nat) (word : Word) : Prop where
  pos : 0 < n
  le : n ≤ values.length
  front : (wordValues word).take n = values.take n
  whole : n < values.length → (wordValues word).length = n
  small : ∀ v ∈ values.take n, v.toNat < 2 ^ 60

theorem packed_of_selector {s : (Nat × Nat) × Nat}
    (hmem : s ∈ selectors.zipIdx.drop 2) (hfits : selectorFits (v :: rest) s = true) :
    Packed (v :: rest) (min (v :: rest).length s.1.1)
      (orFields s.1.2 0 (BitVec.ofNat 64 s.2 <<< 60) ((v :: rest).take s.1.1)) := by
  obtain ⟨⟨count, bits⟩, selector⟩ := s
  obtain ⟨hcount, hbits, hwidth, hroom, hselector, htable⟩ := selectors_wellFormed _ hmem
  have hfit : ∀ w ∈ (v :: rest).take count, w.toNat < 2 ^ bits := by
    intro w hw
    have hle : w.toNat ≤ 2 ^ bits - 1 := by
      simpa using all_eq_true.1 hfits w hw
    have := Nat.two_pow_pos bits
    omega
  have hlen : ((v :: rest).take count).length ≤ count := length_take_le _ _
  have htake : (v :: rest).take (min (v :: rest).length count) = (v :: rest).take count := by
    rw [Nat.min_comm, ← take_take, take_length]
  constructor
  · exact lt_min (Nat.succ_pos _) hcount
  · exact min_le_left _ _
  · have hback := take_wordValues hroom hlen hfit hselector hbits htable
    rw [length_take, Nat.min_comm] at hback
    rw [hback, htake]
  · intro hlt
    rw [length_wordValues hroom hlen hfit hselector hbits htable]
    omega
  · intro w hw
    rw [htake] at hw
    exact lt_of_lt_of_le (hfit w hw) (Nat.pow_le_pow_right (by decide) hwidth)

theorem selectorFits_widest (h : v.toNat < 2 ^ 60) :
    selectorFits (v :: rest) ((1, 60), 15) = true := by
  simp only [selectorFits, take_succ_cons, take_zero, all_cons, all_nil,
    Bool.and_true, decide_eq_true_eq]
  omega

theorem packWord_cases (v : Word) (rest : List Word) :
    (∃ n word, packWord (v :: rest) = some (n, word) ∧ Packed (v :: rest) n word) ∨
      (packWord (v :: rest) = none ∧ 2 ^ 60 ≤ v.toNat) := by
  unfold packWord
  cases hfind : (selectors.zipIdx.drop 2).find? (selectorFits (v :: rest)) with
  | some s =>
    exact Or.inl ⟨_, _, rfl, packed_of_selector (mem_of_find?_eq_some hfind)
      (List.find?_some hfind)⟩
  | none =>
    have hnone : ¬ selectorFits (v :: rest) ((1, 60), 15) = true :=
      List.find?_eq_none.1 hfind _ (by decide)
    have hlarge : 2 ^ 60 ≤ v.toNat := by
      by_contra hsmall
      exact hnone (selectorFits_widest (by omega))
    exact Or.inr ⟨if_pos hlarge, hlarge⟩

theorem packWords_isSome_iff (h : values.length ≤ fuel) :
    (packWords fuel values).isSome = true ↔ ∀ v ∈ values, v.toNat < 2 ^ 60 := by
  induction fuel generalizing values with
  | zero =>
    obtain rfl : values = [] := eq_nil_of_length_eq_zero (by omega)
    simp [packWords]
  | succ fuel ih =>
    cases values with
    | nil => simp [packWords]
    | cons v rest =>
      rw [packWords]
      rcases packWord_cases v rest with ⟨n, word, hword, hpacked⟩ | ⟨hnone, hlarge⟩
      · have hpos := hpacked.pos
        have hdrop : ((v :: rest).drop n).length ≤ fuel := by
          rw [length_drop]
          omega
        rw [hword, Option.bind_some, Option.isSome_map, ih hdrop]
        constructor
        · intro hrest w hw
          rw [← take_append_drop n (v :: rest), mem_append] at hw
          rcases hw with hfront | hback
          · exact hpacked.small w hfront
          · exact hrest w hback
        · exact fun hall w hw => hall w (mem_of_mem_drop hw)
      · rw [hnone]
        constructor
        · intro hsome
          cases hsome
        · intro hall
          exact absurd (hall v mem_cons_self) (not_lt.2 hlarge)

theorem encodeSimple8bWire_isSome_iff (values : List Word) :
    (encodeSimple8bWire values).isSome = true ↔ ∀ v ∈ values, v.toNat < 2 ^ 60 := by
  unfold encodeSimple8bWire
  split
  · rename_i hnil
    simp [hnil]
  · rw [Option.isSome_map]
    exact packWords_isSome_iff le_rfl

end ProximaDb.Codec
