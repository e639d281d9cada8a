/-
  ProximaDb.Pax.PruneSafety

  When a block is skipped that has a matching row, for filters over integer columns that hold
  `Int64` values and string columns that hold strings.
-/
import ProximaDb.Pax.ShreddedColumns

namespace ProximaDb.Pax

open ProximaDb.Lib

variable {cfg : Settings} {others : List ColumnStripe} {records : List ProximaTree}
  {block : PaxBlock} {col : ShredColumn} {stripe : ColumnStripe} {e : FilterExpression}
  {props : ProximaTree} {S : BlockZoneSource} {ints : List Int} {s : String}

/-! ## The filters -/

/-- The property is an `Int64` or absent. -/
def HoldsInt64 (records : List ProximaTree) (key : String) : Prop :=
  ∀ props ∈ records, ∀ v, shredValue props key = some v → ∃ x, v = .int64 x

/-- The property is a `String` or absent. -/
def HoldsStrings (records : List ProximaTree) (key : String) : Prop :=
  ∀ props ∈ records, ∀ v, shredValue props key = some v → ∃ s, v = .string s

/-- Comparisons of integer columns with literals of `i64`, and of string columns with strings. -/
inductive ScalarLeaf (spec : List ShredColumn) (records : List ProximaTree) :
    String → ComparisonOperator → Json → Prop
  | integer {col : ShredColumn} {op : ComparisonOperator} {value : Json} (hcol : col ∈ spec)
      (hholds : HoldsInt64 records col.key) (htest : IntegerTest (· ≤ i64Max) op value) :
      ScalarLeaf spec records col.key op value
  | string {col : ShredColumn} {s : String} (hcol : col ∈ spec)
      (hholds : HoldsStrings records col.key) :
      ScalarLeaf spec records col.key .equals (.str s)

/-- A block with a matching row is skipped by none of the three sources. -/
def NeverDropsMatch (spec : List ShredColumn) (records : List ProximaTree) (block : PaxBlock) :
    Prop :=
  ∀ e : FilterExpression, e.LeavesIn (ScalarLeaf spec records) →
    (∃ props ∈ records, evaluateFilterProxima e props = true) →
    evaluateBlock block.reader (fieldToCol spec) e = .mayMatch ∧
    evaluateBlock block.layout (fieldToCol spec) e = .mayMatch ∧
    ∀ keep, evaluateBlock (block.footerStats keep) (fieldToCol spec) e = .mayMatch

/-! ## When it holds -/

/-- Behind the zeros in front nothing comes, or there are values on both sides of zero. -/
def ZeroInside (ints : List Int) : Prop :=
  afterMarks 0 ints = [] ∨
    (∃ v ∈ afterMarks 0 ints, v ≤ 0) ∧ ∃ v ∈ afterMarks 0 ints, 0 ≤ v

/-- If there are zeros in front, zero is within the bounds. -/
def ZerosCovered (ints : List Int) : Prop := ints.head? = some 0 → ZeroInside ints

/-- What a column needs for its statistics to cover what the filters see. -/
structure MatchesCovered (cfg : Settings) (records : List ProximaTree) (col : ShredColumn) :
    Prop where
  zeros : HoldsInt64 records col.key → '.' ∉ col.key.toList →
    classOf records col = some .int → ZerosCovered (columnInts records col.key)
  /-- a path leads to something that the bounds admit -/
  ints : HoldsInt64 records col.key → '.' ∈ col.key.toList →
    ∀ props ∈ records, ∀ j, resolveFilterLiteral props col.key = some j → j.isNull = false →
      ColumnAdmits (· ≤ i64Max) records col j
  /-- or to no string that the hashes exclude -/
  strings : HoldsStrings records col.key → '.' ∈ col.key.toList →
    classOf records col ≠ some .int → classOf records col ≠ some .float →
    ∀ props ∈ records, ∀ s, resolveFilterLiteral props col.key = some (.str s) →
      (buildStrStripe cfg.codecs cfg.losslessScalar col.columnId
        (columnStrs records col.key)).mayContainStr s = true

/-! ## Integer columns -/

theorem HoldsInt64.noFloats {key : String} (h : HoldsInt64 records key) : NoFloats records key := by
  intro props hprops v hv
  obtain ⟨x, rfl⟩ := h props hprops v hv
  rfl

theorem within_shownBounds_iff :
    (∀ x ∈ ints, (shownBounds ints).1 ≤ x ∧ x ≤ (shownBounds ints).2) ↔ ZerosCovered ints := by
  cases ints with
  | nil => simp [ZerosCovered]
  | cons x rest => exact forall_within_markedBounds_iff

theorem shownBounds_le (h : ∀ x ∈ ints, i64Min ≤ x ∧ x ≤ i64Max) :
    (shownBounds ints).1 ≤ i64Max := by
  unfold shownBounds
  split
  · decide
  · exact (i64Bounds_range h).1.2

/-- With a plain key, the bounds admit what the filters see if they cover the zeros in front. -/
theorem columnAdmits_plain_iff (hholds : HoldsInt64 records col.key)
    (hplain : '.' ∉ col.key.toList) (hclass : classOf records col = some .int) :
    (∀ props ∈ records, ∀ j, resolveFilterLiteral props col.key = some j → j.isNull = false →
      ColumnAdmits (· ≤ i64Max) records col j) ↔ ZerosCovered (columnInts records col.key) := by
  rw [← within_shownBounds_iff]
  have hle := shownBounds_le (columnInts_range records col.key)
  have hresolve : ∀ props ∈ records, ∀ v, shredValue props col.key = some v →
      ∃ x, pvToI64 v = some x ∧ IsI64 v.toFilterLiteral x := by
    intro props hprops v hv
    obtain ⟨y, rfl⟩ := hholds props hprops v hv
    exact ⟨y.toInt, rfl, isI64_ofI64 rfl⟩
  constructor
  · intro h x hx
    obtain ⟨props, hprops, v, hv, hvx⟩ := mem_columnInts.1 hx
    obtain ⟨y, hvy, hy⟩ := hresolve props hprops v hv
    have hxy : x = y := Option.some.inj (hvx.symm.trans hvy)
    subst hxy
    have hj : resolveFilterLiteral props col.key = some v.toFilterLiteral := by
      rw [resolveFilterLiteral_eq_shredValue hplain, hv]
      rfl
    have hnull : v.toFilterLiteral.isNull = false := by
      obtain ⟨_, hlit, _⟩ := hy
      rw [hlit]
      rfl
    exact (admits_isI64 (fun n hn => hn) hy hle).1 (h props hprops _ hj hnull hclass)
  · intro h props hprops j hj hnull _
    rw [resolveFilterLiteral_eq_shredValue hplain] at hj
    obtain ⟨v, hv, rfl⟩ := Option.map_eq_some_iff.1 hj
    obtain ⟨x, hvx, hx⟩ := hresolve props hprops v hv
    exact (admits_isI64 (fun n hn => hn) hx hle).2
      (h x (mem_columnInts.2 ⟨props, hprops, v, hv, hvx⟩))

/-! ## String columns -/

/-- A string of the column is excluded by neither the hash bounds nor the Bloom filter. -/
theorem mayContainStr_of_mem {c : Codecs} {lossless : Bool} {id : Int}
    {strs : List (Option String)} (hs : some s ∈ strs) :
    (buildStrStripe c lossless id strs).mayContainStr s = true := by
  have hhashed := hashed_stringStats hs
  rw [ColumnStripe.mayContainStr, Bool.and_eq_true_iff]
  refine ⟨?_, hhashed.bloom⟩
  have hrange := And.intro hhashed.lower hhashed.upper
  simpa [buildStrStripe, ColumnMeta.hash64InRange] using Or.inr hrange

theorem evaluateComparison_string {row : String → Option Json} {field s : String} :
    evaluateComparison row field .equals (.str s) = true ↔ row field = some (.str s) := by
  have hrow : evaluateComparison row field .equals (.str s) =
      (row field).elim false (fun j => compareJsonOp .equals j (.str s)) := by
    cases hj : row field <;> simp only [evaluateComparison, hj, Option.elim]
  rw [hrow]
  cases row field with
  | none => simp
  | some j =>
    cases j with
    | num n =>
      cases n <;> simp [compareJsonOp, compareValues, jsonEq, Json.same, Json.isNull]
    | _ => simp [compareJsonOp, compareValues, jsonEq, Json.same, Json.isNull]

/-- A comparison with a string is skipped by the statistics of a string column alone. -/
theorem evaluateLeaf_string {columnOf : String → Option Int}
    (hcolumnOf : columnOf col.key = some col.columnId) (hS : Shows S col.columnId stripe)
    (hstripe : StripeOf cfg records col stripe)
    (h : classOf records col ≠ some .int → classOf records col ≠ some .float →
      stripe.mayContainStr s = true) :
    evaluateLeaf S columnOf col.key .equals (.str s) = .mayMatch := by
  rw [evaluateLeaf, hcolumnOf]
  rcases hS.column with hnone | hsome
  · simp [BlockZoneSource.columnMetaType, hnone]
  · by_cases hint : classOf records col = some .int
    · simp only [(showsBounds_stripe hstripe hint hsome).dataType]
      rfl
    · by_cases hfloat : classOf records col = some .float
      · simp only [columnMetaType_of_float hstripe hfloat hsome]
        rfl
      · simp only [columnMetaType_of_str hstripe hint hfloat hsome]
        exact keepIf_eq_mayMatch.2 (hS.str s (h hint hfloat))

/-! ## Whole blocks -/

section Covered

variable {S : BlockZoneSource} (hown : OwnColumns cfg.shredSpec others)
  (hS : ∀ col ∈ cfg.shredSpec, ∃ stripe, StripeOf cfg records col stripe ∧
    Shows S col.columnId stripe) (hcovered : ∀ col ∈ cfg.shredSpec, MatchesCovered cfg records col)

include hown hS hcovered

/-- A leaf that holds of a row is kept by every source that shows no more than the stripes. -/
theorem evaluateLeaf_of_covered (hprops : props ∈ records) {field : String}
    {op : ComparisonOperator} {value : Json}
    (hleaf : ScalarLeaf cfg.shredSpec records field op value)
    (hmatch : evaluateComparison (resolveFilterLiteral props) field op value = true) :
    evaluateLeaf S (fieldToCol cfg.shredSpec) field op value = .mayMatch := by
  cases hleaf with
  | @integer col _ _ hcol hholds htest =>
    obtain ⟨stripe, hstripe, hshows⟩ := hS col hcol
    obtain ⟨j, hj, hnull, hcompare⟩ := (evaluateComparison_integer htest).1 hmatch
    have hadmits : ColumnAdmits (· ≤ i64Max) records col j := by
      by_cases hplain : '.' ∈ col.key.toList
      · exact (hcovered col hcol).ints hholds hplain props hprops j hj hnull
      · intro hclass
        exact (columnAdmits_plain_iff hholds hplain hclass).2
          ((hcovered col hcol).zeros hholds hplain hclass) props hprops j hj hnull hclass
    exact evaluateLeaf_of_admits (fieldToCol_key hown.keys hcol) hshows hstripe
      hholds.noFloats hadmits htest hcompare
  | @string col s hcol hholds =>
    obtain ⟨stripe, hstripe, hshows⟩ := hS col hcol
    have hj := evaluateComparison_string.1 hmatch
    refine evaluateLeaf_string (fieldToCol_key hown.keys hcol) hshows hstripe
      (fun hint hfloat => ?_)
    rw [stripe_of_str hstripe hint hfloat]
    by_cases hplain : '.' ∈ col.key.toList
    · exact (hcovered col hcol).strings hholds hplain hint hfloat props hprops s hj
    · rw [resolveFilterLiteral_eq_shredValue hplain] at hj
      obtain ⟨v, hv, hlit⟩ := Option.map_eq_some_iff.1 hj
      obtain ⟨t, rfl⟩ := hholds props hprops v hv
      cases hlit
      exact mayContainStr_of_mem (List.mem_map.2 ⟨_, List.mem_map.2 ⟨props, hprops, hv⟩, rfl⟩)

end Covered

theorem evaluateBlock_of_no_columns {spec : List ShredColumn}
    (hS : ∀ col ∈ spec, S.column col.columnId = none)
    (he : e.LeavesIn (ScalarLeaf spec records))
    (hmatch : ∃ props ∈ records, evaluateFilterProxima e props = true) :
    evaluateBlock S (fieldToCol spec) e = .mayMatch := by
  obtain ⟨props, hprops, hrow⟩ := hmatch
  refine evaluateBlock_of_leaves (fun field op value _ _ => ?_) he hrow
  rw [evaluateLeaf]
  cases hfield : fieldToCol spec field with
  | none => rfl
  | some id =>
    obtain ⟨col, hcol, rfl⟩ := Option.map_eq_some_iff.1 hfield
    simp [BlockZoneSource.columnMetaType, hS col (mem_of_find hcol).1]

/-- A block with a matching row is skipped only for the zeros in front of an integer column or for a
    path that leads past the columns. -/
theorem prune_keeps_matches (h : writeBlock cfg others records = .ok block)
    (hown : OwnColumns cfg.shredSpec others) : NeverDropsMatch cfg.shredSpec records block ↔
      (cfg.mode.hasColumnStripes = true →
        ∀ col ∈ cfg.shredSpec, MatchesCovered cfg records col) := by
  constructor
  · intro hkeeps hmode col hcol
    obtain ⟨stripe, hmem, hstripe, honly⟩ := column_of_writeBlock h hown hmode hcol
    have hid : stripe.info.columnId = col.columnId := buildShredStripe_columnId hstripe
    have hcolumn := reader_column hmem hid honly
    have hcolumnOf := fieldToCol_key hown.keys hcol
    have hints : HoldsInt64 records col.key → ∀ props ∈ records, ∀ j,
        resolveFilterLiteral props col.key = some j → j.isNull = false →
        ColumnAdmits (· ≤ i64Max) records col j := by
      intro hholds props hprops j hj hnull
      refine columnAdmits_of_evaluateLeaf hcolumnOf hcolumn hstripe
        (fun op value htest hcompare => ?_)
      have hrow := (evaluateComparison_integer htest).2 ⟨j, hj, hnull, hcompare⟩
      exact (hkeeps _ (.comparison (.integer hcol hholds htest)) ⟨props, hprops, hrow⟩).1
    refine ⟨fun hholds hplain hclass => ?_, fun hholds _ => hints hholds, ?_⟩
    · exact (columnAdmits_plain_iff hholds hplain hclass).1 (hints hholds)
    · intro hholds _ hint hfloat props hprops s hs
      have hrow := evaluateComparison_string.2 hs
      have hkeep := (hkeeps _ (.comparison (.string hcol hholds)) ⟨props, hprops, hrow⟩).1
      rw [evaluateBlock, evaluateLeaf, hcolumnOf] at hkeep
      simp only [columnMetaType_of_str hstripe hint hfloat hcolumn] at hkeep
      rw [← stripe_of_str hstripe hint hfloat, ← reader_mayContainStr hmem hid honly]
      exact keepIf_eq_mayMatch.1 hkeep
  · intro hcovered e he hmatch
    cases hmode : cfg.mode.hasColumnStripes with
    | true =>
      have hshow := fun col (hcol : col ∈ cfg.shredSpec) => sources_show h hown hmode hcol
      obtain ⟨props, hprops, hrow⟩ := hmatch
      have hkeep := fun S hS => evaluateBlock_of_leaves (S := S) (fun _ _ _ hleaf hholds =>
        evaluateLeaf_of_covered hown hS (hcovered hmode) hprops hleaf hholds) he hrow
      refine ⟨hkeep _ (fun col hcol => ?_), hkeep _ (fun col hcol => ?_),
        fun keep => hkeep _ (fun col hcol => ?_)⟩
      all_goals obtain ⟨stripe, hstripe, hreader, hlayout, hfooter⟩ := hshow col hcol
      · exact ⟨stripe, hstripe, hreader⟩
      · exact ⟨stripe, hstripe, hlayout⟩
      · exact ⟨stripe, hstripe, hfooter keep⟩
    | false =>
      have hshow := fun col (hcol : col ∈ cfg.shredSpec) => sources_show_nothing h hown hmode hcol
      have hkeep := fun S hS => evaluateBlock_of_no_columns (S := S) hS he hmatch
      exact ⟨hkeep _ (fun col hcol => (hshow col hcol).1),
        hkeep _ (fun col hcol => (hshow col hcol).2.1),
        fun keep => hkeep _ (fun col hcol => (hshow col hcol).2.2 keep)⟩

/-! ## A block of two rows -/

/-- A writer with the raw codecs and one shredded column. -/
def oneColumn (declared : Option ProximaType) : Settings where
  codecs := rawCodecs
  mode := .olap
  losslessScalar := false
  residualTail := false
  shredSpec := [⟨"k", 100, declared⟩]

/-- Rows with a property `k`. -/
def rowsOf (values : List ProximaValue) : List ProximaTree := values.map (fun v => [("k", .value v)])

theorem ownColumns_oneColumn (declared : Option ProximaType) :
    OwnColumns (oneColumn declared).shredSpec [] where
  keys := List.nodup_singleton _
  ids := List.nodup_singleton _
  others := nofun
  props col hcol := by
    rw [List.mem_singleton.1 hcol]
    exact (by decide : (100 : Int) ≠ ColId.props)
  directory col hcol := by
    rw [List.mem_singleton.1 hcol]
    exact (by decide : (100 : Int) ≠ ColId.shredDirectory)

/-- Rows with 5, 0 and -3 are never skipped when one of them matches. -/
theorem prune_keeps_matches_zero_inside :
    ∃ block, writeBlock (oneColumn none) [] (rowsOf [.int64 5, .int64 0, .int64 (-3)]) = .ok block ∧
      NeverDropsMatch (oneColumn none).shredSpec (rowsOf [.int64 5, .int64 0, .int64 (-3)])
        block := by
  refine ⟨_, rfl, (prune_keeps_matches rfl (ownColumns_oneColumn none)).2 (fun _ col hcol => ?_)⟩
  rw [List.mem_singleton.1 hcol]
  have hplain : '.' ∉ "k".toList := by decide
  have hhead : (columnInts (rowsOf [.int64 5, .int64 0, .int64 (-3)]) "k").head? ≠ some 0 := by
    decide
  exact ⟨fun _ _ _ hzero => absurd hzero hhead, fun _ hdot => absurd hdot hplain,
    fun _ hdot => absurd hdot hplain⟩

/-- Rows with 0 and 5: the first is what `k = 0` asks for, and the block is skipped. -/
theorem zero_in_front_dropped :
    ∃ block, writeBlock (oneColumn none) [] (rowsOf [.int64 0, .int64 5]) = .ok block ∧
      evaluateFilterProxima (.comparison "k" .equals (.num (.ofI64 0))) [("k", .value (.int64 0))] =
        true ∧
      evaluateBlock block.reader (fieldToCol (oneColumn none).shredSpec)
        (.comparison "k" .equals (.num (.ofI64 0))) = .skip ∧
      evaluateBlock block.layout (fieldToCol (oneColumn none).shredSpec)
        (.comparison "k" .equals (.num (.ofI64 0))) = .skip ∧
      evaluateBlock (block.footerStats [100]) (fieldToCol (oneColumn none).shredSpec)
        (.comparison "k" .equals (.num (.ofI64 0))) = .skip :=
  ⟨_, rfl, by decide, by decide, by decide, by decide⟩

end ProximaDb.Pax
