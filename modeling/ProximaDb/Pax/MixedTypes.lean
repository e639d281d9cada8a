/-
  ProximaDb.Pax.MixedTypes

  A property of mixed types in one shredded column, and comparisons with integer literals.
-/
import ProximaDb.Pax.PruneSafety

namespace ProximaDb.Pax

open ProximaDb.Lib

variable {cfg : Settings} {others : List ColumnStripe} {records : List ProximaTree}
  {block : PaxBlock} {col : ShredColumn} {stripe : ColumnStripe}

def ProximaValue.isScalar : ProximaValue → Bool
  | .boolean _ | .int8 _ | .int16 _ | .int32 _ | .int64 _ => true
  | .uint8 _ | .uint16 _ | .uint32 _ | .uint64 _ => true
  | .date _ | .time _ _ | .timestamp _ _ | .timestampTz _ _ => true
  | .decimal _ | .string _ | .symbol _ | .binary _ | .uuid _ | .ulid _ | .null => true
  | _ => false

variable {v : ProximaValue}

theorem eq_null_of_isNull (hscalar : v.isScalar = true) (h : v.toFilterLiteral.isNull = true) :
    v = .null := by
  cases v <;> first | rfl | cases h | cases hscalar

theorem pvToF64_of_isScalar (hscalar : v.isScalar = true) : pvToF64 v = none := by
  cases v <;> first | rfl | cases hscalar

def HoldsScalars (records : List ProximaTree) (key : String) : Prop :=
  ∀ props ∈ records, ∀ v, shredValue props key = some v → v.isScalar = true

/-- No comparison of the property with integer literals skips a block with a matching row. -/
def NeverDropsIntegerMatch (spec : List ShredColumn) (records : List ProximaTree)
    (block : PaxBlock) (key : String) : Prop :=
  ∀ op value, IntegerTest (fun _ => True) op value →
    (∃ props ∈ records, evaluateFilterProxima (.comparison key op value) props = true) →
    evaluateBlock block.reader (fieldToCol spec) (.comparison key op value) ≠ .skip ∧
    evaluateBlock block.layout (fieldToCol spec) (.comparison key op value) ≠ .skip ∧
    ∀ keep,
      evaluateBlock (block.footerStats keep) (fieldToCol spec) (.comparison key op value) ≠ .skip

/-! ## Value by value -/

def ValueAdmitted (lo hi : Int) : ProximaValue → Prop
  | .null => True
  | .boolean _ => lo = i64Min
  | .binary bytes => hi = i64Max ∧ ∀ b ∈ bytes, lo ≤ b.toNat
  | v =>
    match pvToI64 v with
    | some x => lo ≤ x ∧ x ≤ hi
    | none => hi = i64Max

theorem valueAdmitted_iff {lo hi : Int} : ValueAdmitted lo hi v ↔
      (∀ b, v = .boolean b → lo = i64Min) ∧
      (∀ bytes, v = .binary bytes → ∀ b ∈ bytes, lo ≤ b.toNat) ∧
      (v ≠ .null → pvToI64 v = none → hi = i64Max) ∧
      ((∀ b, v ≠ .boolean b) → ∀ x, pvToI64 v = some x → lo ≤ x ∧ x ≤ hi) := by
  cases v with
  | uint64 x =>
    by_cases hx : (x.toNat : Int) ≤ i64Max <;> simp [ValueAdmitted, pvToI64, hx]
  | binary bytes => simp [ValueAdmitted, pvToI64, and_comm]
  | _ => simp [ValueAdmitted, pvToI64]

section Values

variable {ok : Int → Prop} {lo hi : Int} (hok : ∀ n, n ≤ i64Max → ok n)
  (hlo : i64Min ≤ lo ∧ lo ≤ i64Max) (hhi : i64Min ≤ hi ∧ hi ≤ i64Max)

theorem isI64_byte (b : UInt8) : IsI64 (.num (.ofU64 b.toUInt64)) b.toNat :=
  isI64_ofU64 b.toNat_toUInt64 (natCast_le_i64Max (lt_trans b.toNat_lt (by decide)))

include hok hhi

theorem admits_bytes (bytes : Bytes) :
    Admits ok lo hi (.array (bytes.map (fun b => .num (.ofU64 b.toUInt64)))) ↔
      hi = i64Max ∧ ∀ b ∈ bytes, lo ≤ b.toNat := by
  have hgt : ∀ items n, compareJsonValues (.array items) (.num n) = .gt := fun items n => rfl
  constructor
  · intro h
    have hhigh := h.above i64Max (by decide) (hok _ le_rfl) (by rw [hgt]; decide)
    refine ⟨le_antisymm hhi.2 hhigh, fun b hb => ?_⟩
    obtain ⟨hlit, heq, -, hmax⟩ := isI64_byte b
    have hself : jsonEq (.num (.ofU64 b.toUInt64)) (.num (.int b.toNat hlit)) = true := by
      rw [heq, jsonEq, compareJsonNumbers_int]
      exact decide_eq_true rfl
    have hwithin := h.equal _ (List.mem_map.2 ⟨b, hb, rfl⟩) _ hlit (hok _ hmax) hself
    rw [min_eq_left hmax] at hwithin
    exact hwithin.1
  · rintro ⟨rfl, hbytes⟩
    refine ⟨fun _ _ _ _ => min_le_right _ _, fun n hn _ hcmp => absurd (hgt _ _) hcmp, ?_⟩
    intro m hm n hlit' _ heq
    obtain ⟨b, hb, rfl⟩ := List.mem_map.1 hm
    obtain ⟨hlit, hnum, -, hmax⟩ := isI64_byte b
    rw [hnum, jsonEq, compareJsonNumbers_int] at heq
    rw [← of_decide_eq_true heq, min_eq_left hmax]
    exact ⟨hbytes b hb, hmax⟩

include hlo

theorem admits_uint64 (x : UInt64) :
    Admits ok lo hi (.num (.ofU64 x)) ↔ ValueAdmitted lo hi (.uint64 x) := by
  by_cases hx : (x.toNat : Int) ≤ i64Max
  · have hvalue : ValueAdmitted lo hi (.uint64 x) ↔ lo ≤ x.toNat ∧ x.toNat ≤ hi := by
      simp [ValueAdmitted, pvToI64, hx]
    rw [hvalue]
    exact admits_isI64 hok (isI64_ofU64 rfl hx) hlo.2
  · have hvalue : ValueAdmitted lo hi (.uint64 x) ↔ hi = i64Max := by
      simp [ValueAdmitted, pvToI64, hx]
    rw [hvalue, Number.ofU64, admits_int hok _ hlo.2, min_eq_right (not_le.1 hx).le]
    exact ⟨fun h => le_antisymm hhi.2 h.2, fun h => ⟨hlo.2, h.ge⟩⟩

theorem admits_value_iff (hscalar : v.isScalar = true) (hnull : v.toFilterLiteral.isNull = false) :
    Admits ok lo hi v.toFilterLiteral ↔ ValueAdmitted lo hi v := by
  cases v with
  | null => cases hnull
  | boolean b => exact admits_bool hok b hlo.1
  | binary bytes => exact admits_bytes hok hhi bytes
  | uint64 x => exact admits_uint64 hok hlo hhi x
  | decimal s | string s | symbol s | uuid s | ulid s => exact admits_str hok _ hhi.2
  | int8 | int16 | int32 | int64 | uint8 | uint16 | uint32 | date | time | timestamp | timestampTz =>
    exact admits_isI64 hok (isI64_of_pvToI64 rfl nofun) hlo.2
  | _ => cases hscalar

end Values

/-! ## Column by column -/

/-- What the values of a column with these integers ask of them. -/
structure MixedCovered (records : List ProximaTree) (key : String) (ints : List Int) : Prop where
  /-- zeros other than `false` -/
  zero : (∃ props ∈ records, ∃ v, shredValue props key = some v ∧ (∀ b, v ≠ .boolean b) ∧
    pvToI64 v = some 0) → ZeroInside ints
  booleans : (∃ props ∈ records, ∃ b, shredValue props key = some (.boolean b)) → i64Min ∈ ints
  /-- texts, binary values and integers above `i64` -/
  above : (∃ props ∈ records, ∃ v, shredValue props key = some v ∧ v ≠ .null ∧
    pvToI64 v = none) → i64Max ∈ ints
  bytes : ∀ props ∈ records, ∀ bytes, shredValue props key = some (.binary bytes) →
    ∀ b ∈ bytes, ∃ x ∈ afterMarks 0 ints, x ≤ b.toNat

section Bounds

variable {ints : List Int} (hrange : ∀ x ∈ ints, i64Min ≤ x ∧ x ≤ i64Max)

include hrange

theorem fst_i64Bounds_eq_iff : (i64Bounds ints).1 = i64Min ↔ i64Min ∈ ints := by
  rw [i64Bounds_eq]
  constructor
  · intro h
    rw [← h]
    exact fst_markedBounds_mem (by rw [h]; decide)
  · intro h
    have hwithin := within_markedBounds (z := 0) h (by decide)
    exact le_antisymm hwithin.1 (i64Bounds_range hrange).1.1

theorem snd_i64Bounds_eq_iff : (i64Bounds ints).2 = i64Max ↔ i64Max ∈ ints := by
  rw [i64Bounds_eq]
  constructor
  · intro h
    rw [← h]
    exact snd_markedBounds_mem (by rw [h]; decide)
  · intro h
    have hwithin := within_markedBounds (z := 0) h (by decide)
    exact le_antisymm (i64Bounds_range hrange).2.2 hwithin.2

end Bounds

theorem mixedCovered_iff {key : String} : MixedCovered records key (columnInts records key) ↔
      ∀ props ∈ records, ∀ v, shredValue props key = some v →
        ValueAdmitted (i64Bounds (columnInts records key)).1
          (i64Bounds (columnInts records key)).2 v := by
  have hrange := columnInts_range records key
  constructor
  · intro h props hprops v hv
    refine valueAdmitted_iff.2 ⟨?_, ?_, ?_, ?_⟩
    · rintro b rfl
      exact (fst_i64Bounds_eq_iff hrange).2 (h.booleans ⟨props, hprops, b, hv⟩)
    · rintro bytes rfl b hb
      obtain ⟨x, hx, hle⟩ := h.bytes props hprops bytes hv b hb
      exact le_trans ((spans_markedBounds (List.ne_nil_of_mem hx)).lower x hx) hle
    · intro hnull hnone
      exact (snd_i64Bounds_eq_iff hrange).2 (h.above ⟨props, hprops, v, hv, hnull, hnone⟩)
    · intro hbool x hx
      by_cases hzero : x = 0
      · subst hzero
        exact mark_within_markedBounds_iff.2 (h.zero ⟨props, hprops, v, hv, hbool, hx⟩)
      · exact within_markedBounds (mem_columnInts.2 ⟨props, hprops, v, hv, hx⟩) hzero
  · intro h
    have hparts := fun props hprops v hv => valueAdmitted_iff.1 (h props hprops v hv)
    refine ⟨?_, ?_, ?_, ?_⟩
    · rintro ⟨props, hprops, v, hv, hbool, hx⟩
      exact mark_within_markedBounds_iff.1 ((hparts props hprops v hv).2.2.2 hbool 0 hx)
    · rintro ⟨props, hprops, b, hv⟩
      exact (fst_i64Bounds_eq_iff hrange).1 ((hparts props hprops _ hv).1 b rfl)
    · rintro ⟨props, hprops, v, hv, hnull, hnone⟩
      exact (snd_i64Bounds_eq_iff hrange).1 ((hparts props hprops v hv).2.2.1 hnull hnone)
    · intro props hprops bytes hv b hb
      obtain ⟨-, hbytes, habove, -⟩ := hparts props hprops _ hv
      have hmax := habove nofun rfl
      have hafter : afterMarks 0 (columnInts records key) ≠ [] := by
        intro hnil
        rw [i64Bounds_eq, markedBounds_of_afterMarks_eq_nil hnil] at hmax
        exact absurd hmax (by decide)
      exact ⟨_, (spans_markedBounds hafter).lower_mem, hbytes bytes rfl b hb⟩

/-- What a column needs for no comparison with integers to skip a matching row. -/
structure IntegersCovered (records : List ProximaTree) (col : ShredColumn) : Prop where
  plain : '.' ∉ col.key.toList → classOf records col = some .int →
    columnInts records col.key ≠ [] →
    MixedCovered records col.key (columnInts records col.key)
  /-- a path leads to something that the bounds admit -/
  path : '.' ∈ col.key.toList → ∀ props ∈ records, ∀ j,
    resolveFilterLiteral props col.key = some j → j.isNull = false →
      ColumnAdmits (fun _ => True) records col j

theorem shownBounds_of_ne_nil {ints : List Int} (h : ints ≠ []) :
    shownBounds ints = i64Bounds ints := by
  rw [shownBounds, if_neg (by simpa using h)]

theorem columnAdmits_mixed_iff (hscalar : HoldsScalars records col.key)
    (hplain : '.' ∉ col.key.toList) :
    (∀ props ∈ records, ∀ j, resolveFilterLiteral props col.key = some j → j.isNull = false →
      ColumnAdmits (fun _ => True) records col j) ↔
      (classOf records col = some .int → columnInts records col.key ≠ [] →
        MixedCovered records col.key (columnInts records col.key)) := by
  obtain ⟨hlo, hhi⟩ := i64Bounds_range (columnInts_range records col.key)
  constructor
  · intro h hclass hne
    refine mixedCovered_iff.2 (fun props hprops v hv => ?_)
    have hj : resolveFilterLiteral props col.key = some v.toFilterLiteral := by
      rw [resolveFilterLiteral_eq_shredValue hplain, hv]
      rfl
    cases hnull : v.toFilterLiteral.isNull with
    | true =>
      rw [eq_null_of_isNull (hscalar props hprops v hv) hnull]
      trivial
    | false =>
      have hadmits := h props hprops _ hj hnull hclass
      rw [shownBounds_of_ne_nil hne] at hadmits
      exact (admits_value_iff (fun _ _ => trivial) hlo hhi (hscalar props hprops v hv) hnull).1
        hadmits
  · intro h props hprops j hj hnull hclass
    rw [resolveFilterLiteral_eq_shredValue hplain] at hj
    obtain ⟨v, hv, rfl⟩ := Option.map_eq_some_iff.1 hj
    by_cases hne : columnInts records col.key = []
    · rw [hne]
      exact admits_all
    · have hvalue := mixedCovered_iff.1 (h hclass hne) props hprops v hv
      rw [shownBounds_of_ne_nil hne]
      exact (admits_value_iff (fun _ _ => trivial) hlo hhi (hscalar props hprops v hv) hnull).2
        hvalue

/-! ## Whole blocks -/

/-- A comparison with integer literals skips a matching row only if the integers that the column
    keeps do not reach around what it leaves out, or for the zeros in front of it. -/
theorem prune_keeps_mixed_types (h : writeBlock cfg others records = .ok block)
    (hown : OwnColumns cfg.shredSpec others) (hcol : col ∈ cfg.shredSpec)
    (hscalar : HoldsScalars records col.key) :
    NeverDropsIntegerMatch cfg.shredSpec records block col.key ↔
      (cfg.mode.hasColumnStripes = true → IntegersCovered records col) := by
  have hcolumnOf := fieldToCol_key hown.keys hcol
  have hfloats : NoFloats records col.key := fun props hprops v hv =>
    pvToF64_of_isScalar (hscalar props hprops v hv)
  constructor
  · intro hkeeps hmode
    obtain ⟨stripe, hmem, hstripe, honly⟩ := column_of_writeBlock h hown hmode hcol
    have hcolumn := reader_column hmem (buildShredStripe_columnId hstripe) honly
    have hadmits : ∀ props ∈ records, ∀ j, resolveFilterLiteral props col.key = some j →
        j.isNull = false → ColumnAdmits (fun _ => True) records col j := by
      intro props hprops j hj hnull
      refine columnAdmits_of_evaluateLeaf hcolumnOf hcolumn hstripe
        (fun op value htest hcompare => ?_)
      have hrow := (evaluateComparison_integer htest).2 ⟨j, hj, hnull, hcompare⟩
      exact PruneResult.ne_skip.1 (hkeeps op value htest ⟨props, hprops, hrow⟩).1
    exact ⟨fun hplain => (columnAdmits_mixed_iff hscalar hplain).1 hadmits, fun _ => hadmits⟩
  · intro hcovered op value htest hmatch
    obtain ⟨props, hprops, hrow⟩ := hmatch
    obtain ⟨j, hj, hnull, hcompare⟩ := (evaluateComparison_integer htest).1 hrow
    cases hmode : cfg.mode.hasColumnStripes with
    | true =>
      have hadmits : ColumnAdmits (fun _ => True) records col j := by
        by_cases hplain : '.' ∈ col.key.toList
        · exact (hcovered hmode).path hplain props hprops j hj hnull
        · exact (columnAdmits_mixed_iff hscalar hplain).2 ((hcovered hmode).plain hplain) props
            hprops j hj hnull
      obtain ⟨stripe, hstripe, hreader, hlayout, hfooter⟩ := sources_show h hown hmode hcol
      have hkeep := fun S (hS : Shows S col.columnId stripe) =>
        PruneResult.ne_skip.2
          (evaluateLeaf_of_admits hcolumnOf hS hstripe hfloats hadmits htest hcompare)
      exact ⟨hkeep _ hreader, hkeep _ hlayout, fun keep => hkeep _ (hfooter keep)⟩
    | false =>
      obtain ⟨hreader, hlayout, hfooter⟩ := sources_show_nothing h hown hmode hcol
      have hkeep : ∀ S : BlockZoneSource, S.column col.columnId = none →
          evaluateLeaf S (fieldToCol cfg.shredSpec) col.key op value ≠ .skip := by
        intro S hS
        rw [evaluateLeaf, hcolumnOf]
        simp [BlockZoneSource.columnMetaType, hS]
      exact ⟨hkeep _ hreader, hkeep _ hlayout, fun keep => hkeep _ (hfooter keep)⟩

theorem mem_of_shredValue_rowsOf {values : List ProximaValue} {props : ProximaTree}
    (hprops : props ∈ rowsOf values) (hv : shredValue props "k" = some v) : v ∈ values := by
  obtain ⟨w, hw, rfl⟩ := List.mem_map.1 hprops
  have hself : shredValue [("k", .value w)] "k" = some w := rfl
  rwa [Option.some.inj (hself.symm.trans hv)] at hw

/-- A text, an integer above `i64` and a null beside the largest integer of `i64`. -/
def reachedValues : List ProximaValue :=
  [.int64 9223372036854775807, .string "x", .uint64 18446744073709551615, .null]

theorem prune_keeps_mixed_types_reached :
    ∃ block, writeBlock (oneColumn none) [] (rowsOf reachedValues) = .ok block ∧
      NeverDropsIntegerMatch (oneColumn none).shredSpec (rowsOf reachedValues) block "k" := by
  have hscalar : ∀ v ∈ reachedValues, v.isScalar = true := by decide
  have hzero : ∀ v ∈ reachedValues, pvToI64 v ≠ some 0 := by decide
  refine ⟨_, rfl, (prune_keeps_mixed_types rfl (ownColumns_oneColumn none)
    (List.mem_singleton_self _) ?_).2 (fun _ => ⟨fun _ _ _ => ?_, fun hdot => ?_⟩)⟩
  · exact fun props hprops v hv => hscalar v (mem_of_shredValue_rowsOf hprops hv)
  · refine ⟨?_, ?_, fun _ => by decide, ?_⟩
    · rintro ⟨props, hprops, v, hv, -, hx⟩
      exact absurd hx (hzero v (mem_of_shredValue_rowsOf hprops hv))
    · rintro ⟨props, hprops, b, hv⟩
      have hmem := mem_of_shredValue_rowsOf hprops hv
      simp [reachedValues] at hmem
    · intro props hprops bytes hv
      have hmem := mem_of_shredValue_rowsOf hprops hv
      simp [reachedValues] at hmem
  · exact absurd hdot (by decide)

/-- The row with a string matches `k > 5`, and the bounds are those of the other one. -/
theorem string_beside_integer_dropped :
    ∃ block, writeBlock (oneColumn none) [] (rowsOf [.int64 1, .string "x"]) = .ok block ∧
      evaluateFilterProxima (.comparison "k" .greaterThan (.num (.ofI64 5)))
        [("k", .value (.string "x"))] = true ∧
      evaluateBlock block.reader (fieldToCol (oneColumn none).shredSpec)
        (.comparison "k" .greaterThan (.num (.ofI64 5))) = .skip :=
  ⟨_, rfl, by decide, by decide⟩

end ProximaDb.Pax
