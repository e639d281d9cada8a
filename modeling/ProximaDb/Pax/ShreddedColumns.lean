/-
  ProximaDb.Pax.ShreddedColumns

  Shredded columns as a pruner sees them: the statistics of their stripes, what the three sources
  show of a stripe, and when a comparison with an integer literal is skipped that holds of a row.
-/
import ProximaDb.Pax.IntegerBounds

namespace ProximaDb.Pax

open ProximaDb.Lib BlockZoneSource List

variable {cfg : Settings} {others : List ColumnStripe} {records : List ProximaTree}
  {block : PaxBlock} {col : ShredColumn} {stripe : ColumnStripe} {key : String} {x : Int}

/-! ## Statistics of a stripe -/

def columnInts (records : List ProximaTree) (key : String) : List Int :=
  ((columnValues records key).map (fun v => v.bind pvToI64)).reduceOption

def columnStrs (records : List ProximaTree) (key : String) : List (Option String) :=
  (columnValues records key).map (fun v => v.bind pvToStr)

def classOf (records : List ProximaTree) (col : ShredColumn) : Option ShredClass :=
  columnClass col.declaredType (columnValues records col.key)

theorem mem_columnInts : x ∈ columnInts records key ↔
      ∃ props ∈ records, ∃ v, shredValue props key = some v ∧ pvToI64 v = some x := by
  simp [columnInts, columnValues, reduceOption_mem_iff, Option.bind_eq_some_iff]

theorem pvToI64_range {v : ProximaValue} (h : pvToI64 v = some x) : i64Min ≤ x ∧ x ≤ i64Max := by
  by_cases hbool : ∃ b, v = .boolean b
  · obtain ⟨b, rfl⟩ := hbool
    cases h
    cases b <;> decide
  · obtain ⟨-, -, hrange⟩ := isI64_of_pvToI64 h (fun b hb => hbool ⟨b, hb⟩)
    exact hrange

theorem i64Bounds_range {ints : List Int} (h : ∀ x ∈ ints, i64Min ≤ x ∧ x ≤ i64Max) :
    (i64Min ≤ (i64Bounds ints).1 ∧ (i64Bounds ints).1 ≤ i64Max) ∧
      i64Min ≤ (i64Bounds ints).2 ∧ (i64Bounds ints).2 ≤ i64Max := by
  rw [i64Bounds_eq]
  constructor
  · by_cases hz : (markedBounds 0 ints).1 = 0
    · rw [hz]
      decide
    · exact h _ (fst_markedBounds_mem hz)
  · by_cases hz : (markedBounds 0 ints).2 = 0
    · rw [hz]
      decide
    · exact h _ (snd_markedBounds_mem hz)

theorem columnInts_range (records : List ProximaTree) (key : String) :
    ∀ x ∈ columnInts records key, i64Min ≤ x ∧ x ≤ i64Max := by
  intro x hx
  obtain ⟨_, _, v, _, hv⟩ := mem_columnInts.1 hx
  exact pvToI64_range hv

theorem stripe_of_int (h : StripeOf cfg records col stripe) (hclass : classOf records col = some .int) :
    stripe.info.stats = .i64 (i64Bounds (columnInts records col.key)).1
        (i64Bounds (columnInts records col.key)).2 ∧
      stripe.info.distinctHint = distinctCount (columnInts records col.key) := by
  rw [classOf] at hclass
  rw [StripeOf, buildShredStripe, hclass] at h
  unfold buildI64Stripe at h
  cases hdata : encodeI64Column cfg.codecs
      ((columnValues records col.key).map (fun v => v.bind pvToI64)) with
  | error e =>
    rw [hdata] at h
    cases h
  | ok encoded =>
    rw [hdata] at h
    cases h
    exact ⟨rfl, rfl⟩

theorem stripe_of_float (h : StripeOf cfg records col stripe)
    (hclass : classOf records col = some .float) : stripe = buildF64Stripe col.columnId
      ((columnValues records col.key).map (fun v => v.bind pvToF64)) := by
  rw [classOf] at hclass
  rw [StripeOf, buildShredStripe, hclass] at h
  exact (Except.ok.inj h).symm

theorem stripe_of_str (h : StripeOf cfg records col stripe)
    (hint : classOf records col ≠ some .int) (hfloat : classOf records col ≠ some .float) :
    stripe = buildStrStripe cfg.codecs cfg.losslessScalar col.columnId
      (columnStrs records col.key) := by
  rw [classOf] at hint hfloat
  rw [StripeOf, buildShredStripe] at h
  split at h
  case h_1 hclass => exact absurd hclass hint
  case h_2 hclass => exact absurd hclass hfloat
  case h_3 => exact (Except.ok.inj h).symm

/-! ## What the sources show -/

theorem mem_of_find {α : Type} {P : α → Prop} [DecidablePred P] {l : List α} {a : α}
    (h : l.find? (fun a => decide (P a)) = some a) : a ∈ l ∧ P a :=
  ⟨mem_of_find?_eq_some h, by simpa using find?_some h⟩

/-- What a source may show of a stripe: nothing, or its statistics. -/
structure Shows (S : BlockZoneSource) (id : Int) (stripe : ColumnStripe) : Prop where
  column : S.column id = none ∨ S.column id = some stripe.info
  str : ∀ s, stripe.mayContainStr s = true → S.mayContainStr id s = true

variable {id : Int} {metas : List ColumnMeta} {S : BlockZoneSource}

theorem shows_ofMetas (h : ∀ m ∈ metas, m.columnId = id → m = stripe.info) :
    Shows (.ofMetas metas) id stripe := by
  have hfind : ∀ m, metas.find? (fun m => decide (m.columnId = id)) = some m →
      m = stripe.info := fun m hm =>
    h m (mem_of_find hm).1 (mem_of_find hm).2
  refine ⟨?_, fun s hs => ?_⟩
  · cases hm : metas.find? (fun m => decide (m.columnId = id)) with
    | none => exact Or.inl hm
    | some m => exact Or.inr (hm.trans (congrArg some (hfind m hm)))
  · cases hm : metas.find? (fun m => decide (m.columnId = id)) with
    | none => simp [ofMetas, hm]
    | some m =>
      rw [ColumnStripe.mayContainStr, Bool.and_eq_true_iff] at hs
      simp only [ofMetas, hm, Option.all_some]
      rw [hfind m hm]
      exact hs.1

section Sources

variable {id : Int} (hmem : stripe ∈ block.columns) (hid : stripe.info.columnId = id)
  (honly : ∀ s ∈ block.columns, s.info.columnId = id → s = stripe)

include honly

theorem metas_only : ∀ m ∈ block.columnMetas, m.columnId = id → m = stripe.info := by
  intro m hm hmid
  obtain ⟨s, hs, rfl⟩ := mem_map.1 hm
  rw [honly s hs hmid]

theorem shows_layout : Shows block.layout id stripe := shows_ofMetas (metas_only honly)

theorem shows_footerStats (keep : List Int) : Shows (block.footerStats keep) id stripe :=
  shows_ofMetas (fun m hm => metas_only honly m (mem_of_mem_filter hm))

include hmem hid

theorem reader_column : block.reader.column id = some stripe.info := by
  have hsome : (block.columnMetas.find? (fun m => decide (m.columnId = id))).isSome :=
    find?_isSome.2 ⟨stripe.info, mem_map.2 ⟨stripe, hmem, rfl⟩, decide_eq_true hid⟩
  obtain ⟨m, hm⟩ := Option.isSome_iff_exists.1 hsome
  have hself := metas_only honly m (mem_of_find hm).1 (mem_of_find hm).2
  rw [hself] at hm
  exact hm

theorem reader_mayContainStr (s : String) :
    block.reader.mayContainStr id s = stripe.mayContainStr s := by
  have hsome : (block.columns.find? (fun c => decide (c.info.columnId = id))).isSome :=
    find?_isSome.2 ⟨stripe, hmem, decide_eq_true hid⟩
  obtain ⟨c, hc⟩ := Option.isSome_iff_exists.1 hsome
  have hself := honly c (mem_of_find hc).1 (mem_of_find hc).2
  simp [PaxBlock.reader, hc, hself]

theorem shows_reader : Shows block.reader id stripe :=
  ⟨Or.inr (reader_column hmem hid honly),
    fun s hs => (reader_mayContainStr hmem hid honly s).trans hs⟩

end Sources

/-- All three sources show the stripe of a shredded column, or nothing under its id. -/
theorem sources_show (h : writeBlock cfg others records = .ok block)
    (hown : OwnColumns cfg.shredSpec others) (hmode : cfg.mode.hasColumnStripes = true)
    (hcol : col ∈ cfg.shredSpec) :
    ∃ stripe, StripeOf cfg records col stripe ∧ Shows block.reader col.columnId stripe ∧
      Shows block.layout col.columnId stripe ∧
      ∀ keep, Shows (block.footerStats keep) col.columnId stripe := by
  obtain ⟨stripe, hmem, hstripe, honly⟩ := column_of_writeBlock h hown hmode hcol
  have hid : stripe.info.columnId = col.columnId := buildShredStripe_columnId hstripe
  exact ⟨stripe, hstripe, shows_reader hmem hid honly, shows_layout honly, shows_footerStats honly⟩

theorem column_of_no_metas (h : ∀ m ∈ metas, m.columnId ≠ id) : (ofMetas metas).column id = none :=
  find?_eq_none.2 (fun m hm => by simpa using h m hm)

theorem sources_show_nothing (h : writeBlock cfg others records = .ok block)
    (hown : OwnColumns cfg.shredSpec others) (hmode : cfg.mode.hasColumnStripes = false)
    (hcol : col ∈ cfg.shredSpec) :
    block.reader.column col.columnId = none ∧ block.layout.column col.columnId = none ∧
      ∀ keep, (block.footerStats keep).column col.columnId = none := by
  have hmetas : ∀ m ∈ block.columnMetas, m.columnId ≠ col.columnId := by
    intro m hm
    obtain ⟨s, hs, rfl⟩ := mem_map.1 hm
    rw [columns_of_no_stripes h hmode s hs]
    exact (hown.directory col hcol).symm
  exact ⟨column_of_no_metas hmetas, column_of_no_metas hmetas,
    fun keep => column_of_no_metas (fun m hm => hmetas m (mem_of_mem_filter hm))⟩

theorem columnMetaType_of_float
    (h : StripeOf cfg records col stripe) (hclass : classOf records col = some .float)
    (hcolumn : S.column id = some stripe.info) : S.columnMetaType id = some .f64 := by
  rw [columnMetaType, hcolumn, stripe_of_float h hclass]
  rfl

theorem columnMetaType_of_str
    (h : StripeOf cfg records col stripe) (hint : classOf records col ≠ some .int)
    (hfloat : classOf records col ≠ some .float) (hcolumn : S.column id = some stripe.info) :
    S.columnMetaType id = some .bytesOrStr := by
  rw [columnMetaType, hcolumn, stripe_of_str h hint hfloat]
  rfl

theorem fieldToCol_key {spec : List ShredColumn} (hkeys : (spec.map ShredColumn.key).Nodup)
    (hcol : col ∈ spec) : fieldToCol spec col.key = some col.columnId := by
  have hsome : (spec.find? (fun c => decide (c.key = col.key))).isSome :=
    find?_isSome.2 ⟨col, hcol, decide_eq_true rfl⟩
  obtain ⟨c, hc⟩ := Option.isSome_iff_exists.1 hsome
  have hsame : c = col := inj_on_of_nodup_map hkeys (mem_of_find hc).1 hcol (mem_of_find hc).2
  rw [fieldToCol, hc, hsame]
  rfl

/-! ## Comparisons with integer literals -/

section IntegerLeaves

variable {S : BlockZoneSource} {ok : Int → Prop} {op : ComparisonOperator} {value : Json}
  {columnOf : String → Option Int} {j : Json}

theorem evaluateComparison_integer {row : String → Option Json} {field : String}
    (h : IntegerTest ok op value) : evaluateComparison row field op value = true ↔
      ∃ j, row field = some j ∧ j.isNull = false ∧ compareValues op j value = true := by
  have hrow : evaluateComparison row field op value = (row field).elim false
      (fun j => compareJsonOp op j value) := by
    cases h <;> cases hj : row field <;> simp only [evaluateComparison, hj, Option.elim]
  rw [hrow]
  cases hj : row field with
  | none => simp
  | some j =>
    simp [compareJsonOp_integer h]

/-- The bounds of a column of integers, if it has any. -/
def shownBounds (ints : List Int) : Int × Int :=
  if ints.isEmpty then (i64Min, i64Max) else i64Bounds ints

theorem showsBounds_stripe (h : StripeOf cfg records col stripe)
    (hclass : classOf records col = some .int) (hcolumn : S.column id = some stripe.info) :
    ShowsBounds S id (shownBounds (columnInts records col.key)).1
      (shownBounds (columnInts records col.key)).2 := by
  obtain ⟨hstats, hhint⟩ := stripe_of_int h hclass
  obtain ⟨hlow, hhigh⟩ := i64Bounds_range (columnInts_range records col.key)
  cases hempty : (columnInts records col.key).isEmpty with
  | true =>
    rw [isEmpty_iff.1 hempty] at hhint
    rw [shownBounds, hempty]
    exact showsBounds_of_no_values hcolumn hstats hhint
  | false =>
    have hne : stripe.info.distinctHint ≠ 0 := by
      rw [hhint, Ne, distinctCount_eq_zero, ← List.isEmpty_iff, hempty]
      exact Bool.false_ne_true
    rw [shownBounds, hempty]
    exact showsBounds_of_column hcolumn hstats hne hlow.2 hhigh.1

theorem pruneF64_of_no_values {m : ColumnMeta} {min max : F64}
    (hm : S.column id = some m) (hstats : m.stats = .f64 min max) (hhint : m.distinctHint = 0)
    (htest : IntegerTest ok op value) : pruneF64 S id op value = .mayMatch := by
  have hoverlaps : ∀ a b : F64, b.lt a = false → S.rangeOverlapsF64 id a b = true := by
    intro a b hab
    simp [rangeOverlapsF64, hm, ColumnMeta.f64RangeOverlaps, hstats, hhint, hab]
  cases htest with
  | equals => exact keepIf_eq_mayMatch.2 (hoverlaps _ _ (by simp [F64.lt]))
  | lessThan | lessThanOrEqual | greaterThan | greaterThanOrEqual =>
    exact keepIf_eq_mayMatch.2 (hoverlaps _ _ rfl)
  | isIn => rfl

/-- The property of a column holds no floats. -/
def NoFloats (records : List ProximaTree) (key : String) : Prop :=
  ∀ props ∈ records, ∀ v, shredValue props key = some v → pvToF64 v = none

theorem NoFloats.doubles (h : NoFloats records key) :
    ((columnValues records key).map (fun v => v.bind pvToF64)).reduceOption = [] := by
  rw [eq_nil_iff_forall_not_mem]
  intro x hx
  rw [reduceOption_mem_iff, mem_map] at hx
  obtain ⟨v, hv, hx⟩ := hx
  obtain ⟨props, hprops, rfl⟩ := mem_map.1 hv
  obtain ⟨w, hw, hx⟩ := Option.bind_eq_some_iff.1 hx
  rw [h props hprops w hw] at hx
  cases hx

/-- The bounds of an integer column admit a literal; there are none to do so in other columns. -/
def ColumnAdmits (ok : Int → Prop) (records : List ProximaTree) (col : ShredColumn) (j : Json) :
    Prop :=
  classOf records col = some .int →
    Admits ok (shownBounds (columnInts records col.key)).1
      (shownBounds (columnInts records col.key)).2 j

theorem evaluateLeaf_of_admits
    (hcolumnOf : columnOf col.key = some col.columnId) (hS : Shows S col.columnId stripe)
    (hstripe : StripeOf cfg records col stripe) (hfloats : NoFloats records col.key)
    (hadmits : ColumnAdmits ok records col j) (htest : IntegerTest ok op value)
    (hmatch : compareValues op j value = true) :
    evaluateLeaf S columnOf col.key op value = .mayMatch := by
  rw [evaluateLeaf, hcolumnOf]
  rcases hS.column with hnone | hsome
  · simp [columnMetaType, hnone]
  · by_cases hint : classOf records col = some .int
    · have hbounds := showsBounds_stripe hstripe hint hsome
      simp only [hbounds.dataType]
      exact pruneI64_of_admits hbounds (hadmits hint) htest hmatch
    · by_cases hfloat : classOf records col = some .float
      · have hstripe' := stripe_of_float hstripe hfloat
        have hhint : stripe.info.distinctHint = 0 := by
          rw [hstripe']
          exact distinctCount_eq_zero.2 hfloats.doubles
        simp only [columnMetaType_of_float hstripe hfloat hsome]
        exact pruneF64_of_no_values hsome (by rw [hstripe']; rfl) hhint htest
      · simp only [columnMetaType_of_str hstripe hint hfloat hsome]
        cases htest <;> rfl

theorem columnAdmits_of_evaluateLeaf (hcolumnOf : columnOf col.key = some col.columnId)
    (hcolumn : S.column col.columnId = some stripe.info)
    (hstripe : StripeOf cfg records col stripe)
    (h : ∀ op value, IntegerTest ok op value → compareValues op j value = true →
      evaluateLeaf S columnOf col.key op value = .mayMatch) :
    ColumnAdmits ok records col j := by
  intro hclass
  have hbounds := showsBounds_stripe hstripe hclass hcolumn
  refine admits_of_pruneI64 hbounds (fun op value htest hmatch => ?_)
  have hleaf := h op value htest hmatch
  rw [evaluateLeaf, hcolumnOf] at hleaf
  simpa only [hbounds.dataType] using hleaf

end IntegerLeaves

end ProximaDb.Pax
