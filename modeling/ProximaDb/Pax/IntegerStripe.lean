/-
  ProximaDb.Pax.IntegerStripe

  Stripes of integers under the schemes that are chosen for them. Every stripe that is built reads
  back by the byte its scheme is stored as.
-/
import ProximaDb.Codec.Scheme
import ProximaDb.Pax.Reader

namespace ProximaDb.Pax

open ProximaDb.Lib ProximaDb.Codec List

/-- An integer of a property as the codecs see it. -/
def toWord (x : Int) : Word := BitVec.ofInt 64 x

/-- The integer codecs with their selection for a column of the given role. Readers of schemes that
    no integer column is written in, LZ4 and the rest are those of `outer`. -/
def paxCodecs (outer : Codecs) (role : ColumnRole) (nullable : Bool) : Codecs where
  Coded := ProximaScheme
  marker := toMarker
  marker_ne_raw := toMarker_ne_raw
  selectI64 vals := selectI64Scheme role nullable (vals.map (Option.map toWord))
  encodeCoded scheme values := Codec.encodeI64WithScheme (values.map toWord) scheme
  decodeCoded data marker count :=
    match fromMarker marker with
    | some scheme => (decodeI64WithScheme data count scheme).map (List.map BitVec.toInt)
    | none => outer.decodeCoded data marker count
  strByDictionary := outer.strByDictionary
  compressLz4 := outer.compressLz4
  decompressLz4 := outer.decompressLz4
  packTree := outer.packTree
  unpackTree := outer.unpackTree
  packDirectory := outer.packDirectory
  unpackDirectory := outer.unpackDirectory

section Codecs

variable {outer : Codecs} {role : ColumnRole} {nullable : Bool}

end Codecs

/-! ## What is built is read back -/

/-- A column of `i64` values. -/
def ints (vals : List (Option Int64)) : List (Option Int) := vals.map (Option.map Int64.toInt)

variable {vals : List (Option Int64)}

/-- The scheme that is chosen for a user column. -/
def chosenScheme (nullable : Bool) (vals : List (Option Int64)) : Option ProximaScheme :=
  selectI64Scheme .userDefined nullable (vals.map (Option.map Int64.toBitVec))

theorem toWord_toInt (x : Int64) : toWord x.toInt = x.toBitVec := BitVec.ofInt_toInt

theorem selectI64_ints (outer : Codecs) (nullable : Bool) (vals : List (Option Int64)) :
    (paxCodecs outer .userDefined nullable).selectI64 (ints vals) = chosenScheme nullable vals := by
  show selectI64Scheme .userDefined nullable ((ints vals).map (Option.map toWord)) = _
  rw [ints, map_map, chosenScheme]
  congr 2
  funext v
  cases v with
  | none => rfl
  | some x => exact congrArg some (toWord_toInt x)

theorem toNat_lt_iff (x : Int64) :
    x.toBitVec.toNat < 2 ^ 60 ↔ ¬ (x.toInt < 0 ∨ 2 ^ 60 ≤ x.toInt) := by
  have hcond := BitVec.toInt_eq_toNat_cond x.toBitVec
  show _ ↔ ¬ (x.toBitVec.toInt < 0 ∨ 2 ^ 60 ≤ x.toBitVec.toInt)
  rw [hcond]
  split <;> omega

theorem mem_words_iff (h : none ∉ vals) {w : Word} :
    w ∈ (flattenI64 (ints vals)).map toWord ↔ ∃ x, some x ∈ vals ∧ x.toBitVec = w := by
  simp only [flattenI64, ints, map_map, mem_map, Function.comp_apply]
  constructor
  · rintro ⟨v, hv, rfl⟩
    cases v with
    | none => exact absurd hv h
    | some x => exact ⟨x, hv, (toWord_toInt x).symm⟩
  · rintro ⟨x, hx, rfl⟩
    exact ⟨some x, hx, toWord_toInt x⟩

/-- The chosen scheme takes a column without nulls unless it is the one for small unsigned numbers
    and a value is not. -/
theorem encode_chosen_iff (outer : Codecs) (nullable : Bool) (h : none ∉ vals) :
    (∃ data, (paxCodecs outer .userDefined nullable).encodeI64WithScheme (flattenI64 (ints vals))
        (chosenScheme nullable vals) = .ok data) ↔
      ¬ (chosenScheme nullable vals = some .simple8b ∧
        ∃ x, some x ∈ vals ∧ (x.toInt < 0 ∨ 2 ^ 60 ≤ x.toInt)) := by
  cases hscheme : chosenScheme nullable vals with
  | none => exact iff_of_true ⟨_, rfl⟩ (fun h => Option.some_ne_none _ h.1.symm)
  | some scheme =>
    have hsome := encodeI64WithScheme_isSome_iff scheme ((flattenI64 (ints vals)).map toWord)
    have hok : (∃ data, (paxCodecs outer .userDefined nullable).encodeI64WithScheme
        (flattenI64 (ints vals)) (some scheme) = .ok data) ↔
          (Codec.encodeI64WithScheme ((flattenI64 (ints vals)).map toWord) scheme).isSome := by
      simp only [Codecs.encodeI64WithScheme, paxCodecs]
      cases Codec.encodeI64WithScheme ((flattenI64 (ints vals)).map toWord) scheme <;> simp
    refine hok.trans (hsome.trans ?_)
    rw [Option.some_inj]
    constructor
    · rintro hfits ⟨hsimple, x, hx, hlarge⟩
      exact (toNat_lt_iff x).1 (hfits hsimple _ ((mem_words_iff h).2 ⟨x, hx, rfl⟩)) hlarge
    · intro hall hsimple w hw
      obtain ⟨x, hx, rfl⟩ := (mem_words_iff h).1 hw
      exact (toNat_lt_iff x).2 (fun hlarge => hall ⟨hsimple, x, hx, hlarge⟩)

/-- A column can be written unless it is one without nulls for which the codec for small unsigned
    numbers is chosen, and has a value that is negative or needs more than 60 bits. -/
theorem integer_column_written_iff (outer : Codecs) (nullable lossless : Bool) (id : Int)
    (vals : List (Option Int64)) :
    (∃ stripe, buildI64Stripe (paxCodecs outer .userDefined nullable) lossless id (ints vals) =
        .ok stripe) ↔
      ¬ (chosenScheme nullable vals = some .simple8b ∧ none ∉ vals ∧
        ∃ x, some x ∈ vals ∧ (x.toInt < 0 ∨ 2 ^ 60 ≤ x.toInt)) := by
  have hnone : none ∈ ints vals ↔ none ∈ vals := by simp [ints]
  rw [exists_buildI64Stripe_iff, hnone, selectI64_ints]
  by_cases hnull : none ∈ vals
  · exact iff_of_true (Or.inl hnull) (fun h => h.2.1 hnull)
  · rw [or_iff_right hnull, encode_chosen_iff outer nullable hnull]
    simp only [hnull, not_false_eq_true, true_and]

/-- Two numbers close together, one of them negative. -/
theorem negative_beside_positive_refused :
    ¬ ∃ stripe, buildI64Stripe (paxCodecs rawCodecs .userDefined true) true 100
      (ints [some 100, some (-5)]) = .ok stripe := by
  intro h
  have hscheme : chosenScheme true [some 100, some (-5)] = some .simple8b := by decide +kernel
  rcases exists_buildI64Stripe_iff.1 h with hnull | hdata
  · revert hnull
    decide
  · rw [selectI64_ints, encode_chosen_iff _ _ (by decide)] at hdata
    exact hdata ⟨hscheme, -5, by decide, by decide⟩

end ProximaDb.Pax
