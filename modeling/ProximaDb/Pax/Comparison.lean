/-
  ProximaDb.Pax.Comparison

  The order of literals and the LIKE operator. Values are ordered as their tokens in prefix form
  are, an object apart, which is above itself; and a pattern is matched piece by piece, but for
  one that ends in two runs.
-/
import ProximaDb.Pax.IntegerBounds

namespace ProximaDb.Pax

open List

/-! ## The order of values -/

variable {a b c : Json}

/-- Built of integers, texts and lists, without fractions and objects. -/
inductive Plain : Json → Prop
  | null : Plain .null
  | bool (b : Bool) : Plain (.bool b)
  | int (n : Int) (h : -2 ^ 63 ≤ n ∧ n < 2 ^ 64) : Plain (.num (.int n h))
  | str (s : String) : Plain (.str s)
  | array {items : List Json} : (∀ item ∈ items, Plain item) → Plain (.array items)

abbrev Token := Nat × Int × String

mutual

/-- The value in prefix form. Texts and numbers are single tokens, and a list says of every item
    that it comes and at its end that none does. -/
def Json.tokens : Json → List Token
  | .bool b => [(1, b.toNat, "")]
  | .num (.int n _) => [(2, n, "")]
  | .str s => [(3, 0, s)]
  | .array items => (4, 0, "") :: itemTokens items
  | _ => [(0, 0, "")]

def itemTokens : List Json → List Token
  | [] => [(0, 0, "")]
  | v :: items => (1, 0, "") :: v.tokens ++ itemTokens items

end

def compareTokens : List Token → List Token → Ordering :=
  List.compareLex (compareLex (compareOn Prod.fst)
    (compareLex (compareOn (fun t => t.2.1)) (compareOn (fun t => t.2.2))))

instance : Std.TransCmp compareTokens := inferInstanceAs (Std.TransCmp (List.compareLex _))

theorem compareTokens_cons (k l : Nat) (m n : Int) (s t : String) (x y : List Token) :
    compareTokens ((k, m, s) :: x) ((l, n, t) :: y) =
      (compare k l).then ((compare m n).then ((compare s t).then (compareTokens x y))) := by
  simp [compareTokens, List.compareLex_cons_cons, compareLex, compareOn, Ordering.then_assoc]

theorem compareTokens_tokens (ha : Plain a) (hb : Plain b) (x y : List Token) :
    compareTokens (a.tokens ++ x) (b.tokens ++ y) =
      (compareJsonValues a b).then (compareTokens x y) := by
  induction ha generalizing b x y with
  | null | str =>
    cases hb <;> simp [Json.tokens, compareTokens_cons, compareJsonValues] <;> rfl
  | bool b =>
    cases hb <;> simp [Json.tokens, compareTokens_cons, compareJsonValues]
    case bool b' => cases b <;> cases b' <;> rfl
    all_goals rfl
  | int n h =>
    cases hb <;>
      simp [Json.tokens, compareTokens_cons, compareJsonValues, compareNumbers_int] <;> rfl
  | @array items hitems ih =>
    cases hb <;> simp [Json.tokens, compareTokens_cons, compareJsonValues]
    case array items' hitems' =>
      clear hitems
      induction items generalizing items' with
      | nil =>
        cases items' <;> simp [itemTokens, compareTokens_cons, compareJsonLists]
        rfl
      | cons v items ih' =>
        cases items' with
        | nil => simp [itemTokens, compareTokens_cons, compareJsonLists]; rfl
        | cons v' items' =>
          have hrest := ih' (fun v hv => ih v (mem_cons_of_mem _ hv))
            (fun v hv => hitems' v (mem_cons_of_mem _ hv))
          simp [itemTokens, compareTokens_cons, compareJsonLists,
            ih v mem_cons_self (hitems' v' mem_cons_self), hrest]
          cases compareJsonValues v v' <;> rfl
    all_goals rfl

/-- Values whose numbers are integers. -/
inductive IntegerNumbers : Json → Prop
  | null : IntegerNumbers .null
  | bool (b : Bool) : IntegerNumbers (.bool b)
  | int (n : Int) (h : -2 ^ 63 ≤ n ∧ n < 2 ^ 64) : IntegerNumbers (.num (.int n h))
  | str (s : String) : IntegerNumbers (.str s)
  | array {items : List Json} : (∀ item ∈ items, IntegerNumbers item) →
      IntegerNumbers (.array items)
  | object {fields : List (String × Json)} : (∀ field ∈ fields, IntegerNumbers field.2) →
      IntegerNumbers (.object fields)

theorem compareJsonLists_self {items : List Json} :
    compareJsonLists items items = .eq ↔ ∀ item ∈ items, compareJsonValues item item = .eq := by
  induction items with
  | nil => simp [compareJsonLists]
  | cons v items ih =>
    rw [compareJsonLists, forall_mem_cons, ← ih]
    cases compareJsonValues v v <;> simp

/-- A value is equal to itself exactly if no object is inside. -/
theorem compareJsonValues_self (ha : IntegerNumbers a) :
    compareJsonValues a a = .eq ↔ Plain a := by
  induction ha with
  | null => simp [compareJsonValues, Plain.null]
  | bool b => simp [compareJsonValues, Plain.bool]
  | int n h => simp [compareJsonValues, compareNumbers_int, Plain.int]
  | str s => simp [compareJsonValues, Plain.str]
  | @array items _ ih =>
    rw [compareJsonValues, compareJsonLists_self]
    refine ⟨fun h => .array (fun item hitem => (ih item hitem).1 (h item hitem)), fun h => ?_⟩
    cases h with
    | array hitems => exact fun item hitem => (ih item hitem).2 (hitems item hitem)
  | object =>
    rw [compareJsonValues]
    constructor <;> intro h <;> cases h

/-- `compareJsonValues` is a total order up to equivalence on the values without objects, and it is
    reflexive only there. -/
theorem compareJsonValues_order :
    (IntegerNumbers a → (compareJsonValues a a = .eq ↔ Plain a)) ∧
    (Plain a → Plain b → Plain c → compareJsonValues b a = (compareJsonValues a b).swap ∧
      (compareJsonValues a b = .lt → compareJsonValues b c = .lt → compareJsonValues a c = .lt) ∧
      (compareJsonValues a b = .eq → compareJsonValues b c = .eq → compareJsonValues a c = .eq) ∧
      ((compareJsonValues a b).isLE → (compareJsonValues b c).isLE →
        (compareJsonValues a c).isLE)) := by
  have hkey : ∀ {a b}, Plain a → Plain b →
      compareJsonValues a b = compareTokens a.tokens b.tokens := by
    intro a b ha hb
    have h := compareTokens_tokens ha hb [] []
    rw [show compareTokens [] [] = .eq from rfl, Ordering.then_eq, append_nil, append_nil] at h
    exact h.symm
  refine ⟨compareJsonValues_self, fun ha hb hc => ?_⟩
  rw [hkey hb ha, hkey ha hb, hkey hb hc, hkey ha hc]
  exact ⟨Std.OrientedCmp.eq_swap, Std.TransCmp.lt_trans, Std.TransCmp.eq_trans,
    Std.TransCmp.isLE_trans⟩

theorem compareJsonValues_order_lists :
    compareJsonValues (.array [.null, .str "a"]) (.array [.null, .str "b", .null]) = .lt := by
  have ha : Plain (.array [.null, .str "a"]) := .array (by simp [Plain.null, Plain.str])
  have hb : Plain (.array [.null, .str "b"]) := .array (by simp [Plain.null, Plain.str])
  have hc : Plain (.array [.null, .str "b", .null]) := .array (by simp [Plain.null, Plain.str])
  exact (compareJsonValues_order.2 ha hb hc).2.1 (by rfl) (by rfl)

/-- An object is above itself. -/
theorem object_above_itself : compareJsonValues (.object []) (.object []) = .gt := by
  rw [compareJsonValues]

/-! ## Patterns -/

/-- The pieces of text that a character of a pattern stands for. -/
def PieceOf (c : Char) (piece : List Char) : Prop :=
  c = '%' ∨ c = '_' ∧ piece.length = 1 ∨ piece = [c]

/-- The text can be cut into pieces, one for each character of the pattern. -/
def LikeMatches : (pattern text : List Char) → Prop
  | [], text => text = []
  | c :: pattern, text =>
    ∃ piece rest, text = piece ++ rest ∧ PieceOf c piece ∧ LikeMatches pattern rest

variable {pattern text : List Char}

theorem likeMatches_cons_char {c : Char} (hc : c ≠ '%') : LikeMatches (c :: pattern) text ↔
    ∃ d rest, text = d :: rest ∧ (c = '_' ∨ d = c) ∧ LikeMatches pattern rest := by
  constructor
  · rintro ⟨piece, rest, rfl, hpiece, h⟩
    rcases hpiece with hany | ⟨hone, hlen⟩ | rfl
    · exact absurd hany hc
    · obtain ⟨d, rfl⟩ := length_eq_one_iff.1 hlen
      exact ⟨d, rest, rfl, .inl hone, h⟩
    · exact ⟨c, rest, rfl, .inr rfl, h⟩
  · rintro ⟨d, rest, rfl, hone | rfl, h⟩
    · exact ⟨[d], rest, rfl, .inr (.inl ⟨hone, rfl⟩), h⟩
    · exact ⟨[d], rest, rfl, .inr (.inr rfl), h⟩

/-- At the end of the text nothing is left to match but runs. -/
theorem LikeMatches.eq_replicate (h : LikeMatches pattern []) :
    pattern = replicate pattern.length '%' := by
  induction pattern with
  | nil => rfl
  | cons c pattern ih =>
    obtain ⟨piece, rest, hnil, hpiece, hrest⟩ := h
    obtain ⟨rfl, rfl⟩ := append_eq_nil_iff.1 hnil.symm
    rcases hpiece with rfl | ⟨-, hone⟩ | hone
    · rw [length_cons, replicate_succ, ← ih hrest]
    · cases hone
    · cases hone

theorem likePatternMatch_iff (hend : ¬ ['%', '%'] <:+ pattern) :
    likePatternMatch pattern text = true ↔ LikeMatches pattern text := by
  induction pattern, text using likePatternMatch.induct with
  | case1 text =>
    simp [likePatternMatch, LikeMatches]
  | case2 pattern text ih =>
    have hrest := fun t => ih t (fun h => hend (h.trans (suffix_cons _ _)))
    rw [likePatternMatch, Bool.or_eq_true, any_eq_true]
    constructor
    · rintro (hlast | ⟨t, ht, hmatch⟩)
      · rw [List.isEmpty_iff.1 hlast]
        exact ⟨text, [], (append_nil text).symm, .inl rfl, rfl⟩
      · obtain ⟨piece, rfl⟩ := (mem_tails _ _).1 ht
        exact ⟨piece, t, rfl, .inl rfl, (hrest t).1 (Bool.and_eq_true_iff.1 hmatch).2⟩
    · rintro ⟨piece, rest, rfl, -, h⟩
      cases rest with
      | cons c rest =>
        refine .inr ⟨c :: rest, (mem_tails _ _).2 (suffix_append _ _), ?_⟩
        rw [(hrest _).2 h]
        rfl
      | nil =>
        have hruns := h.eq_replicate
        cases pattern with
        | nil => exact .inl rfl
        | cons c pattern =>
          -- all that is left are runs, so that this one is not the only one at the end
          refine absurd ⟨replicate pattern.length '%', ?_⟩ hend
          rw [hruns, length_cons, ← replicate_succ, replicate_add _ 2]
          rfl
  | case3 pattern text ih =>
    have hrest := ih (fun h => hend (h.trans (suffix_cons _ _)))
    rw [likePatternMatch, Bool.and_eq_true, hrest, likeMatches_cons_char (by decide)]
    cases text <;> simp
  | case4 c pattern text hany hone ih =>
    have hrest := ih (fun h => hend (h.trans (suffix_cons _ _)))
    rw [likePatternMatch.eq_4 _ _ _ hany hone, Bool.and_eq_true, hrest, likeMatches_cons_char hany]
    cases text <;> simp [show ¬ c = '_' from hone]

/-- A text with no character to spare leaves nothing for two runs at the end. -/
theorem likePatternMatch_append_runs (h : text.length ≤ pattern.countP (· ≠ '%')) :
    likePatternMatch (pattern ++ ['%', '%']) text = false := by
  induction pattern generalizing text with
  | nil =>
    rw [length_eq_zero_iff.1 (Nat.le_zero.1 h)]
    rfl
  | cons c pattern ih =>
    by_cases hrun : c = '%'
    · subst hrun
      rw [cons_append, likePatternMatch, Bool.or_eq_false_iff, any_eq_false]
      refine ⟨by simp, fun t ht => ?_⟩
      have hlen := ((mem_tails _ _).1 ht).length_le
      simp [ih (hlen.trans (by simpa using h))]
    · have hrest : likePatternMatch (pattern ++ ['%', '%']) text.tail = false := by
        refine ih ?_
        rw [countP_cons_of_pos (by simpa using hrun)] at h
        rw [length_tail]
        omega
      by_cases hone : c = '_'
      · subst hone
        rw [cons_append, likePatternMatch, hrest, Bool.and_false]
      · rw [cons_append, likePatternMatch.eq_4 _ _ _ hrun hone, hrest, Bool.and_false]

theorem likeMatches_append_runs :
    LikeMatches (pattern ++ ['%', '%']) (pattern.filter (· ≠ '%')) := by
  induction pattern with
  | nil => exact ⟨[], [], rfl, .inl rfl, [], [], rfl, .inl rfl, rfl⟩
  | cons c pattern ih =>
    by_cases hrun : c = '%'
    · exact ⟨[], _, by simp [hrun], .inl hrun, ih⟩
    · exact ⟨[c], _, by simp [hrun], .inr (.inr rfl), ih⟩

/-- The matcher is exact on every text for the patterns that do not end in two runs, and for no
    others. -/
theorem like_exact : (∀ text, likePatternMatch pattern text = true ↔ LikeMatches pattern text) ↔
    ¬ ['%', '%'] <:+ pattern := by
  refine ⟨?_, fun hend text => likePatternMatch_iff hend⟩
  rintro hall ⟨pattern', rfl⟩
  have hmatch := (hall _).2 likeMatches_append_runs
  rw [likePatternMatch_append_runs (countP_eq_length_filter ..).ge] at hmatch
  cases hmatch

/-- The empty text is two empty runs. -/
theorem two_runs_unmatched :
    LikeMatches ['%', '%'] [] ∧ likePatternMatch ['%', '%'] [] = false := by
  refine ⟨?_, by decide⟩
  exact ⟨[], [], rfl, .inl rfl, [], [], rfl, .inl rfl, rfl⟩

end ProximaDb.Pax
