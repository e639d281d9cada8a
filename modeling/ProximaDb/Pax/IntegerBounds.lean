/-
  ProximaDb.Pax.IntegerBounds

  Comparisons with integer literals against the bounds of an integer column. `Admits` says of the
  literal that a row resolves to, and in terms of the order of literals alone, when no such
  comparison that holds of it is skipped; the lemmas below work it out by the kind of literal.
-/
import ProximaDb.Pax.Prune

namespace ProximaDb.Pax

open ProximaDb.Lib BlockZoneSource Number ColumnMeta

/-! ## Literals -/

theorem roundSig_pow (e : Nat) : roundSig 53 ((2 : ℚ) ^ e) = (2 : ℚ) ^ e :=
  roundSig_eq_self (m := 1) (e := e) (by norm_num) (by norm_num)

variable {n : Int} {q : ℚ}

theorem roundF64_of_large (h : i64Max < n) : (2 : ℚ) ^ 63 ≤ roundF64 n := by
  have hle : ((2 : ℚ) ^ 63) ≤ (n : ℚ) := by
    have hint : (2 : Int) ^ 63 ≤ n := by
      unfold i64Max at h
      omega
    exact_mod_cast hint
  have hpos : (0 : ℚ) ≤ (n : ℚ) := le_trans (by positivity) hle
  rw [roundF64, if_pos hpos]
  calc (2 : ℚ) ^ 63 = roundSig 53 ((2 : ℚ) ^ 63) := (roundSig_pow 63).symm
    _ ≤ roundSig 53 n := roundSig_mono (by decide) hle

theorem f64AsI64_of_large (h : (2 : ℚ) ^ 63 ≤ q) : f64AsI64 q = i64Max := by
  have hpos : 0 ≤ q := le_trans (by positivity) h
  have hfloor : (2 : Int) ^ 63 ≤ ⌊q⌋ := Int.le_floor.2 (by exact_mod_cast h)
  have hle : i64Max ≤ ⌊q⌋ := le_trans (by decide) hfloor
  rw [f64AsI64, if_pos hpos, min_eq_left hle]
  exact max_eq_right (by decide)

theorem toI64_int (n : Int) (h : -2 ^ 63 ≤ n ∧ n < 2 ^ 64) :
    Json.toI64 (.num (.int n h)) = some (min n i64Max) := by
  by_cases hn : n ≤ i64Max
  · simp [Json.toI64, asI64, hn]
  · have hlarge := not_le.1 hn
    rw [min_eq_right hlarge.le]
    simp [Json.toI64, asI64, hn, asF64, f64AsI64_of_large (roundF64_of_large hlarge)]

/-- The comparisons with integer literals that can be skipped. -/
inductive IntegerTest (ok : Int → Prop) : ComparisonOperator → Json → Prop
  | equals {n : Int} {h : -2 ^ 63 ≤ n ∧ n < 2 ^ 64} (hn : ok n) :
      IntegerTest ok .equals (.num (.int n h))
  | lessThan {n : Int} {h : -2 ^ 63 ≤ n ∧ n < 2 ^ 64} (hn : ok n) :
      IntegerTest ok .lessThan (.num (.int n h))
  | lessThanOrEqual {n : Int} {h : -2 ^ 63 ≤ n ∧ n < 2 ^ 64} (hn : ok n) :
      IntegerTest ok .lessThanOrEqual (.num (.int n h))
  | greaterThan {n : Int} {h : -2 ^ 63 ≤ n ∧ n < 2 ^ 64} (hn : ok n) :
      IntegerTest ok .greaterThan (.num (.int n h))
  | greaterThanOrEqual {n : Int} {h : -2 ^ 63 ≤ n ∧ n < 2 ^ 64} (hn : ok n) :
      IntegerTest ok .greaterThanOrEqual (.num (.int n h))
  | isIn {items : List Json} (h : ∀ j ∈ items, ∃ n h, ok n ∧ j = .num (.int n h)) :
      IntegerTest ok .isIn (.array items)

/-- The bounds are so that no comparison with an integer literal is skipped that holds of `j`. -/
structure Admits (ok : Int → Prop) (lo hi : Int) (j : Json) : Prop where
  above : ∀ n h, ok n → compareJsonValues j (.num (.int n h)) ≠ .lt → min n i64Max ≤ hi
  below : ∀ n h, ok n → compareJsonValues j (.num (.int n h)) ≠ .gt → lo ≤ min n i64Max
  equal : ∀ m ∈ j.members, ∀ n h, ok n → jsonEq m (.num (.int n h)) = true →
    lo ≤ min n i64Max ∧ min n i64Max ≤ hi

/-! ## Skipping by bounds -/

/-- A source that shows an integer column with these bounds. -/
structure ShowsBounds (S : BlockZoneSource) (id lo hi : Int) : Prop where
  dataType : S.columnMetaType id = some .i64
  contains : ∀ n, i64Min ≤ n → n ≤ i64Max → (S.mayContainI64 id n = true ↔ lo ≤ n ∧ n ≤ hi)
  above : ∀ n ≤ i64Max, S.rangeOverlapsI64 id n i64Max = true ↔ n ≤ hi
  below : ∀ n, i64Min ≤ n → (S.rangeOverlapsI64 id i64Min n = true ↔ lo ≤ n)

theorem showsBounds_of_column {S : BlockZoneSource} {id lo hi : Int} {m : ColumnMeta}
    (hm : S.column id = some m) (hstats : m.stats = .i64 lo hi) (hhint : m.distinctHint ≠ 0)
    (hlo : lo ≤ i64Max) (hhi : i64Min ≤ hi) : ShowsBounds S id lo hi where
  dataType := by simp [columnMetaType, hm, hstats, ColumnStats.dataType]
  contains n _ _ := by
    simp [mayContainI64, hm, i64InRange, hstats, hhint]
  above n hn := by
    simp [rangeOverlapsI64, hm, i64RangeOverlaps, hstats, hhint, hn, hlo]
  below n hn := by
    simp [rangeOverlapsI64, hm, i64RangeOverlaps, hstats, hhint, hn, hhi]

theorem showsBounds_of_no_values {S : BlockZoneSource} {id lo hi : Int} {m : ColumnMeta}
    (hm : S.column id = some m) (hstats : m.stats = .i64 lo hi) (hhint : m.distinctHint = 0) :
    ShowsBounds S id i64Min i64Max where
  dataType := by simp [columnMetaType, hm, hstats, ColumnStats.dataType]
  contains n hmin hmax := by
    simp [mayContainI64, hm, i64InRange, hstats, hhint, hmin, hmax]
  above n hn := by
    simp [rangeOverlapsI64, hm, i64RangeOverlaps, hstats, hhint, hn]
  below n hn := by
    simp [rangeOverlapsI64, hm, i64RangeOverlaps, hstats, hhint, hn]

variable {S : BlockZoneSource} {id lo hi : Int} {ok : Int → Prop} {j : Json}
  {op : ComparisonOperator} {value : Json}

theorem i64Min_le_min (h : -2 ^ 63 ≤ n) : i64Min ≤ min n i64Max :=
  le_min h (by decide)

theorem compareJsonOp_integer (h : IntegerTest ok op value) :
    compareJsonOp op j value = (!j.isNull && compareValues op j value) := by
  have hvalue : value.isNull = false := by cases h <;> rfl
  have hboth : (if value.isNull then compareToNull op j
      else if j.isNull then false else compareValues op j value) =
        (!j.isNull && compareValues op j value) := by
    rw [hvalue]
    cases j.isNull <;> rfl
  cases h <;> exact hboth

theorem mem_members_of_jsonEq {n : Number} (h : jsonEq j (.num n) = true) : j ∈ j.members := by
  cases j with
  | array items => cases h
  | _ => exact List.mem_singleton_self _

theorem pruneI64_of_admits (hS : ShowsBounds S id lo hi) (h : Admits ok lo hi j)
    (htest : IntegerTest ok op value)
    (hmatch : compareValues op j value = true) : pruneI64 S id op value = .mayMatch := by
  cases htest with
  | @equals n hlit hn =>
    rw [pruneI64, toI64_int]
    have hwithin := h.equal j (mem_members_of_jsonEq hmatch) n hlit hn hmatch
    exact keepIf_eq_mayMatch.2 ((hS.contains _ (i64Min_le_min hlit.1) (min_le_right _ _)).2 hwithin)
  | @lessThan n hlit hn =>
    rw [pruneI64, toI64_int]
    have hlow := h.below n hlit hn (by rw [beq_iff_eq.1 hmatch]; decide)
    exact keepIf_eq_mayMatch.2 ((hS.below _ (i64Min_le_min hlit.1)).2 hlow)
  | @lessThanOrEqual n hlit hn =>
    rw [pruneI64, toI64_int]
    have hlow := h.below n hlit hn (bne_iff_ne.1 hmatch)
    exact keepIf_eq_mayMatch.2 ((hS.below _ (i64Min_le_min hlit.1)).2 hlow)
  | @greaterThan n hlit hn =>
    rw [pruneI64, toI64_int]
    have hhigh := h.above n hlit hn (by rw [beq_iff_eq.1 hmatch]; decide)
    exact keepIf_eq_mayMatch.2 ((hS.above _ (min_le_right _ _)).2 hhigh)
  | @greaterThanOrEqual n hlit hn =>
    rw [pruneI64, toI64_int]
    have hhigh := h.above n hlit hn (bne_iff_ne.1 hmatch)
    exact keepIf_eq_mayMatch.2 ((hS.above _ (min_le_right _ _)).2 hhigh)
  | @isIn items hitems =>
    obtain ⟨m, hm, item, hitem, heq⟩ : ∃ m ∈ j.members, ∃ item ∈ items, jsonEq m item = true := by
      simpa [compareValues, Json.asArray, anyEqual] using hmatch
    obtain ⟨n, hlit, hn, rfl⟩ := hitems item hitem
    have hwithin := h.equal m hm n hlit hn heq
    have hvalue : min n i64Max ∈ items.filterMap Json.toI64 :=
      List.mem_filterMap.2 ⟨_, hitem, toI64_int n hlit⟩
    rw [pruneI64]
    simp only [Json.asArray]
    split
    · have hkeep := (hS.contains _ (i64Min_le_min hlit.1) (min_le_right _ _)).2 hwithin
      exact keepIf_eq_mayMatch.2 (List.any_eq_true.2 ⟨_, hvalue, hkeep⟩)
    · rfl

theorem admits_all : Admits ok i64Min i64Max j where
  above _ _ _ _ := min_le_right _ _
  below _ hlit _ _ := i64Min_le_min hlit.1
  equal _ _ _ hlit _ _ := ⟨i64Min_le_min hlit.1, min_le_right _ _⟩

theorem admits_of_pruneI64 (hS : ShowsBounds S id lo hi)
    (h : ∀ op value, IntegerTest ok op value → compareValues op j value = true →
      pruneI64 S id op value = .mayMatch) : Admits ok lo hi j where
  above n hlit hn hmatch := by
    have hmay := h .greaterThanOrEqual _ (.greaterThanOrEqual (h := hlit) hn) (bne_iff_ne.2 hmatch)
    rw [pruneI64, toI64_int] at hmay
    exact (hS.above _ (min_le_right _ _)).1 (keepIf_eq_mayMatch.1 hmay)
  below n hlit hn hmatch := by
    have hmay := h .lessThanOrEqual _ (.lessThanOrEqual (h := hlit) hn) (bne_iff_ne.2 hmatch)
    rw [pruneI64, toI64_int] at hmay
    exact (hS.below _ (i64Min_le_min hlit.1)).1 (keepIf_eq_mayMatch.1 hmay)
  equal m hm n hlit hn hmatch := by
    have hitems : IntegerTest ok .isIn (.array [.num (.int n hlit)]) :=
      .isIn (fun item hitem => ⟨n, hlit, hn, List.mem_singleton.1 hitem⟩)
    have hmember : compareValues .isIn j (.array [.num (.int n hlit)]) = true := by
      simpa [compareValues, Json.asArray, anyEqual] using ⟨m, hm, hmatch⟩
    have hmay := h .isIn _ hitems hmember
    have hkeep : keepIf (S.mayContainI64 id (min n i64Max)) = .mayMatch := by
      simpa [pruneI64, Json.asArray, toI64_int] using hmay
    exact (hS.contains _ (i64Min_le_min hlit.1) (min_le_right _ _)).1 (keepIf_eq_mayMatch.1 hkeep)

/-! ## Integers in the order of literals -/

theorem roundF64_nonpos (h : n < 0) : roundF64 n ≤ 0 := by
  have hneg : ¬(0 : ℚ) ≤ n := by exact_mod_cast not_le.2 h
  rw [roundF64, if_neg hneg]
  have hpos := roundSig_pos (p := 53) (by decide) (neg_pos.2 (not_le.1 hneg))
  linarith

theorem roundSig_le_pow (h : q ≤ 2 ^ 64) : roundSig 53 q ≤ 2 ^ 64 := by
  rw [← roundSig_pow 64]
  exact roundSig_mono (by decide) h

theorem abs_roundF64_le (h : -2 ^ 63 ≤ n ∧ n < 2 ^ 64) : |roundF64 n| ≤ 2 ^ 64 := by
  have hlow : -(2 : ℚ) ^ 64 ≤ n := by
    have hint : -(2 : Int) ^ 64 ≤ n := le_trans (by decide) h.1
    exact_mod_cast hint
  have hhigh : (n : ℚ) ≤ 2 ^ 64 := by exact_mod_cast h.2.le
  rw [roundF64]
  split
  case isTrue hpos =>
    have hround := roundSig_mono (p := 53) (by decide) hpos
    rw [roundSig_eq_self (m := 0) (e := 0) (by norm_num) (by norm_num)] at hround
    rw [abs_of_nonneg (by simpa using hround)]
    exact roundSig_le_pow hhigh
  case isFalse hneg =>
    have hround := roundSig_pos (p := 53) (by decide) (neg_pos.2 (not_le.1 hneg))
    rw [abs_neg, abs_of_pos hround]
    exact roundSig_le_pow (by linarith)

theorem not_close {x y : ℚ} (hx : (2 : ℚ) ^ 63 ≤ x) (hy : y ≤ 0) (hxmax : |x| ≤ 2 ^ 64)
    (hymax : |y| ≤ 2 ^ 64) : ¬|roundF64 (x - y)| < f64Epsilon * max (max |x| |y|) 1 ∧
      ¬|roundF64 (y - x)| < f64Epsilon * max (max |y| |x|) 1 := by
  have hdist : (2 : ℚ) ^ 63 ≤ x - y := by linarith
  have hround : (2 : ℚ) ^ 63 ≤ roundSig 53 (x - y) := by
    rw [← roundSig_pow 63]
    exact roundSig_mono (by decide) hdist
  have hpos : 0 ≤ x - y := le_trans (by positivity) hdist
  have hneg : ¬0 ≤ y - x := by
    have : (0 : ℚ) < 2 ^ 63 := by positivity
    linarith
  have hscale : f64Epsilon * max (max |x| |y|) 1 ≤ 2 ^ 12 := by
    have hmax : max (max |x| |y|) 1 ≤ (2 : ℚ) ^ 64 := max_le (max_le hxmax hymax) (by norm_num)
    calc f64Epsilon * max (max |x| |y|) 1 ≤ f64Epsilon * 2 ^ 64 :=
          mul_le_mul_of_nonneg_left hmax (by norm_num [f64Epsilon])
      _ = 2 ^ 12 := by norm_num [f64Epsilon]
  have hfar : f64Epsilon * max (max |x| |y|) 1 ≤ roundSig 53 (x - y) :=
    le_trans hscale (le_trans (by norm_num) hround)
  constructor
  · rw [roundF64, if_pos hpos, not_lt]
    exact le_trans hfar (le_abs_self _)
  · rw [roundF64, if_neg hneg, neg_sub, abs_neg, max_comm |y| |x|, not_lt]
    exact le_trans hfar (le_abs_self _)

/-- No integer type of the comparison holds both. -/
abbrev Opposite (x n : Int) : Prop := ¬(x ≤ i64Max ∧ n ≤ i64Max) ∧ ¬(0 ≤ x ∧ 0 ≤ n)

/-- Two integers are both of `i64`, or both of `u64`, or on different sides of both. -/
theorem integer_ranges (x n : Int) :
    (x ≤ i64Max ∧ n ≤ i64Max) ∨ (¬(x ≤ i64Max ∧ n ≤ i64Max) ∧ 0 ≤ x ∧ 0 ≤ n) ∨
      (i64Max < x ∧ n < 0 ∧ Opposite x n) ∨ (x < 0 ∧ i64Max < n ∧ Opposite x n) := by
  omega

section Integers

variable {x n : Int} {hx : -2 ^ 63 ≤ x ∧ x < 2 ^ 64} {hn : -2 ^ 63 ≤ n ∧ n < 2 ^ 64}

theorem compareNumbers_of_large (h : ¬(x ≤ i64Max ∧ n ≤ i64Max)) :
    compareNumbers (.int x hx) (.int n hn) =
      if 0 ≤ x ∧ 0 ≤ n then compare x.toNat n.toNat else compare (roundF64 x) (roundF64 n) := by
  by_cases hxm : x ≤ i64Max <;> by_cases hnm : n ≤ i64Max
  · exact absurd ⟨hxm, hnm⟩ h
  all_goals
    by_cases hx0 : 0 ≤ x <;> by_cases hn0 : 0 ≤ n <;>
      simp [compareNumbers, asI64, asU64, asF64, hxm, hnm, hx0, hn0]

theorem compareJsonNumbers_of_large (h : ¬(x ≤ i64Max ∧ n ≤ i64Max)) :
    compareJsonNumbers (.int x hx) (.int n hn) = if 0 ≤ x ∧ 0 ≤ n then decide (x.toNat = n.toNat)
      else decide (|roundF64 (roundF64 x - roundF64 n)| <
        f64Epsilon * max (max |roundF64 x| |roundF64 n|) 1) := by
  by_cases hxm : x ≤ i64Max <;> by_cases hnm : n ≤ i64Max
  · exact absurd ⟨hxm, hnm⟩ h
  all_goals
    by_cases hx0 : 0 ≤ x <;> by_cases hn0 : 0 ≤ n <;>
      simp [compareJsonNumbers, asI64, asU64, asF64, hxm, hnm, hx0, hn0] <;>
      rfl

theorem compareNumbers_int : compareNumbers (.int x hx) (.int n hn) = compare x n := by
  rcases integer_ranges x n with ⟨hx', hn'⟩ | ⟨hlarge, hx', hn'⟩ |
    ⟨hx', hn', hlarge, hsign⟩ | ⟨hx', hn', hlarge, hsign⟩
  · simp [compareNumbers, asI64, hx', hn']
  · rw [compareNumbers_of_large hlarge, if_pos ⟨hx', hn'⟩]
    rcases lt_trichotomy x n with h | rfl | h
    · rw [compare_lt_iff_lt.2 h, compare_lt_iff_lt]
      omega
    · rw [compare_eq_iff_eq.2 rfl, compare_eq_iff_eq.2 rfl]
    · rw [compare_gt_iff_gt.2 h, compare_gt_iff_gt]
      omega
  · have hgt : n < x := hn'.trans (lt_of_le_of_lt (by decide) hx')
    rw [compareNumbers_of_large hlarge, if_neg hsign, compare_gt_iff_gt.2 hgt, compare_gt_iff_gt]
    exact lt_of_le_of_lt (roundF64_nonpos hn') (lt_of_lt_of_le (by positivity)
      (roundF64_of_large hx'))
  · have hlt : x < n := hx'.trans (lt_of_le_of_lt (by decide) hn')
    rw [compareNumbers_of_large hlarge, if_neg hsign, compare_lt_iff_lt.2 hlt, compare_lt_iff_lt]
    exact lt_of_le_of_lt (roundF64_nonpos hx') (lt_of_lt_of_le (by positivity)
      (roundF64_of_large hn'))

theorem compareJsonNumbers_int : compareJsonNumbers (.int x hx) (.int n hn) = decide (x = n) := by
  rcases integer_ranges x n with ⟨hx', hn'⟩ | ⟨hlarge, hx', hn'⟩ |
    ⟨hx', hn', hlarge, hsign⟩ | ⟨hx', hn', hlarge, hsign⟩
  · simp [compareJsonNumbers, asI64, hx', hn']
  · rw [compareJsonNumbers_of_large hlarge, if_pos ⟨hx', hn'⟩, decide_eq_decide]
    omega
  · have hgt : n < x := hn'.trans (lt_of_le_of_lt (by decide) hx')
    have hfar := (not_close (roundF64_of_large hx') (roundF64_nonpos hn') (abs_roundF64_le hx)
      (abs_roundF64_le hn)).1
    rw [compareJsonNumbers_of_large hlarge, if_neg hsign, decide_eq_false hfar,
      decide_eq_false hgt.ne']
  · have hlt : x < n := hx'.trans (lt_of_le_of_lt (by decide) hn')
    have hfar := (not_close (roundF64_of_large hn') (roundF64_nonpos hx') (abs_roundF64_le hn)
      (abs_roundF64_le hx)).2
    rw [compareJsonNumbers_of_large hlarge, if_neg hsign, decide_eq_false hfar,
      decide_eq_false hlt.ne]

end Integers

/-! ## By the kind of literal -/

section Kinds

variable (hok : ∀ n, n ≤ i64Max → ok n) {x : Int}

include hok

/-- An integer has to be within the bounds, one above `i64` as the largest of it. -/
theorem admits_int (hlit : -2 ^ 63 ≤ x ∧ x < 2 ^ 64) (hlo : lo ≤ i64Max) :
    Admits ok lo hi (.num (.int x hlit)) ↔ lo ≤ min x i64Max ∧ min x i64Max ≤ hi := by
  constructor
  · intro h
    have hcut : -2 ^ 63 ≤ min x i64Max ∧ min x i64Max < 2 ^ 64 :=
      ⟨i64Min_le_min hlit.1, lt_of_le_of_lt (min_le_left _ _) hlit.2⟩
    have hmin : ok (min x i64Max) := hok _ (min_le_right _ _)
    have hhigh := h.above (min x i64Max) hcut hmin (by
      rw [compareJsonValues, compareNumbers_int, Ne, compare_lt_iff_lt]
      exact not_lt.2 (min_le_left _ _))
    rw [min_eq_left (min_le_right x i64Max)] at hhigh
    refine ⟨?_, hhigh⟩
    rcases le_total x i64Max with hx | hx
    · have hlow := h.below x hlit (hok x hx) (by
        rw [compareJsonValues, compareNumbers_int, Ne, compare_gt_iff_gt]
        exact lt_irrefl x)
      exact hlow
    · rwa [min_eq_right hx]
  · rintro ⟨hlow, hhigh⟩
    refine ⟨fun n hn _ hcmp => ?_, fun n hn _ hcmp => ?_, fun m hm n hn _ heq => ?_⟩
    · rw [compareJsonValues, compareNumbers_int, Ne, compare_lt_iff_lt, not_lt] at hcmp
      exact le_trans (min_le_min_right _ hcmp) hhigh
    · rw [compareJsonValues, compareNumbers_int, Ne, compare_gt_iff_gt, not_lt] at hcmp
      exact le_trans hlow (min_le_min_right _ hcmp)
    · rw [List.mem_singleton.1 hm, jsonEq, compareJsonNumbers_int] at heq
      rw [← of_decide_eq_true heq]
      exact ⟨hlow, hhigh⟩

theorem admits_isI64 (hx : IsI64 j x) (hlo : lo ≤ i64Max) :
    Admits ok lo hi j ↔ lo ≤ x ∧ x ≤ hi := by
  obtain ⟨hlit, rfl, -, hmax⟩ := hx
  rw [admits_int hok hlit hlo, min_eq_left hmax]

theorem admits_bool (b : Bool) (hlo : i64Min ≤ lo) : Admits ok lo hi (.bool b) ↔ lo = i64Min := by
  have hlt : ∀ n, compareJsonValues (.bool b) (.num n) = .lt := fun n => rfl
  constructor
  · intro h
    have hlow := h.below i64Min (by decide) (hok _ (by decide)) (by rw [hlt]; decide)
    exact le_antisymm hlow hlo
  · rintro rfl
    refine ⟨fun n hn _ hcmp => absurd (hlt _) hcmp, fun n hn _ _ => i64Min_le_min hn.1, ?_⟩
    intro m hm n hn _ heq
    rw [List.mem_singleton.1 hm] at heq
    cases heq

theorem admits_str (s : String) (hhi : hi ≤ i64Max) : Admits ok lo hi (.str s) ↔ hi = i64Max := by
  have hgt : ∀ n, compareJsonValues (.str s) (.num n) = .gt := fun n => rfl
  constructor
  · intro h
    have hhigh := h.above i64Max (by decide) (hok _ le_rfl) (by rw [hgt]; decide)
    exact le_antisymm hhi hhigh
  · rintro rfl
    refine ⟨fun n hn _ _ => min_le_right _ _, fun n hn _ hcmp => absurd (hgt _) hcmp, ?_⟩
    intro m hm n hn _ heq
    rw [List.mem_singleton.1 hm] at heq
    cases heq

end Kinds

end ProximaDb.Pax
