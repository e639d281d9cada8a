/-
  ProximaDb.Pax.Reader

  Reading the stripes of a block. The null of an integer column is the smallest integer.
-/
import ProximaDb.Pax.Block

namespace ProximaDb.Pax

open ProximaDb.Lib List

variable {lossless : Bool} {vals : List (Option String)} {stripe : ColumnStripe}

def readLen (bs : Bytes) : Option (Nat × Bytes) :=
  (takeExact 4 bs).map (fun p => (leNat p.1, p.2))

def nullLen : Nat := 2 ^ 32 - 1

/-- A value behind its length; the largest length is no value. -/
def readCell (bs : Bytes) : Option (Option Bytes × Bytes) :=
  (readLen bs).bind (fun p =>
    if p.1 = nullLen then some (none, p.2)
    else (takeExact p.1 p.2).map (fun q => (some q.1, q.2)))

def InI64 (x : Int) : Prop := i64Min ≤ x ∧ x ≤ i64Max

variable {values : List Int}

/-- The codecs give back what they are given: integers of 64 bits under every scheme, and bytes that
    were compressed. A block has fewer than 2 ^ 32 rows. -/
structure Codecs.Lossless (c : Codecs) : Prop where
  coded : ∀ {scheme values data}, (∀ x ∈ values, InI64 x) → values.length < 2 ^ 32 →
    c.encodeCoded scheme values = some data →
      c.decodeCoded data (c.marker scheme) values.length = some values
  lz4 : ∀ {data compressed}, c.compressLz4 data = some compressed →
    c.decompressLz4 compressed = some data

variable {id : Int} {c : Codecs} {s : String}

theorem buildI64Stripe_ok {vals : List (Option Int)}
    (h : buildI64Stripe c lossless id vals = .ok stripe) :
    ∃ scheme data, encodeI64Column c vals = .ok (scheme, data) ∧
      c.encodeLosslessScalar lossless data (vals.count none) vals.length =
        (stripe.data, stripe.info.isLz4Compressed) ∧
      stripe.info.stripeLen = stripe.data.length ∧ stripe.info.nullCount = vals.count none ∧
      stripe.info.encodingId = c.markerOf scheme := by
  obtain ⟨r, hcol, h⟩ := exists_of_bind_ok h
  cases h
  exact ⟨r.1, r.2, hcol, rfl, rfl, rfl, rfl⟩

/-- A stripe is built unless its column has no nulls and the selected scheme refuses it. -/
theorem exists_buildI64Stripe_iff {vals : List (Option Int)} :
    (∃ stripe, buildI64Stripe c lossless id vals = .ok stripe) ↔
      (none ∈ vals ∨ ∃ data, c.encodeI64WithScheme (flattenI64 vals) (c.selectI64 vals) = .ok data) := by
  have hbuilt : (∃ stripe, buildI64Stripe c lossless id vals = .ok stripe) ↔
      ∃ r, encodeI64Column c vals = .ok r := by
    constructor
    · rintro ⟨stripe, h⟩
      obtain ⟨scheme, data, hcol, -⟩ := buildI64Stripe_ok h
      exact ⟨_, hcol⟩
    · rintro ⟨r, hr⟩
      unfold buildI64Stripe
      rw [hr]
      exact ⟨_, rfl⟩
  have hnulls : List.count none vals = 0 ↔ none ∉ vals := count_eq_zero
  rw [hbuilt]
  unfold encodeI64Column
  dsimp only
  cases hencode : c.encodeI64WithScheme (flattenI64 vals) (c.selectI64 vals) with
  | ok data =>
    refine iff_of_true ?_ (Or.inr ⟨data, rfl⟩)
    dsimp only
    split <;> exact ⟨_, rfl⟩
  | error e =>
    dsimp only
    split
    · rename_i hzero
      refine iff_of_false ?_ ?_
      · rintro ⟨r, hr⟩
        cases hr
      · rintro (hnone | ⟨data, hdata⟩)
        · exact hnulls.1 hzero hnone
        · cases hdata
    · rename_i hsome
      exact iff_of_true ⟨_, rfl⟩ (Or.inl (by_contra fun hnone => hsome (hnulls.2 hnone)))

section Integers

variable {c : Codecs} (hc : c.Lossless) {scheme : Option c.Coded} {nulls rows : Nat} {data : Bytes}

include hc

end Integers

/-! ## Bytes and strings come back -/

def codeOf (dictionary : List String) (v : Option String) : Nat :=
  v.elim nullLen dictionary.idxOf

section Stripes

variable {c : Codecs} (hc : c.Lossless)

include hc

end Stripes

end ProximaDb.Pax
