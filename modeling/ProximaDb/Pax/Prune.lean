/-
  ProximaDb.Pax.Prune

  Skipping a block by its statistics: the sources a pruner reads them from (an opened block, the
  ranged layout of a block, the block statistics in the footer of a segment), and the walk over a
  filter expression. Row groups are left out: `evaluate_block` does not look at them.
-/
import ProximaDb.Pax.Block
import ProximaDb.Pax.Filter

namespace ProximaDb.Pax

inductive PruneResult
  | skip
  | mayMatch
  deriving DecidableEq

/-! ## Sources -/

inductive DataType
  | f32Vector
  | i64
  | f64
  | bytesOrStr
  deriving DecidableEq

def ColumnStats.dataType : ColumnStats → DataType
  | .i64 _ _ => .i64
  | .f64 _ _ => .f64
  | .hash _ _ => .bytesOrStr
  | .vector => .f32Vector

/-- Where a pruner reads statistics. The sources differ in the columns they know and in how they
    test a string; an unknown column may contain anything. -/
structure BlockZoneSource where
  column : Int → Option ColumnMeta
  mayContainStr : Int → String → Bool

namespace BlockZoneSource

variable (S : BlockZoneSource)

def columnMetaType (id : Int) : Option DataType := (S.column id).map (fun m => m.stats.dataType)

def mayContainI64 (id value : Int) : Bool := (S.column id).all (fun m => m.i64InRange value)

def rangeOverlapsI64 (id lo hi : Int) : Bool := (S.column id).all (fun m => m.i64RangeOverlaps lo hi)

def rangeOverlapsF64 (id : Int) (lo hi : F64) : Bool :=
  (S.column id).all (fun m => m.f64RangeOverlaps lo hi)

/-- Metadata alone: strings are tested by their hash bounds. -/
def ofMetas (metas : List ColumnMeta) : BlockZoneSource where
  column id := metas.find? (fun m => decide (m.columnId = id))
  mayContainStr id s :=
    (metas.find? (fun m => decide (m.columnId = id))).all
      (fun m => m.hash64InRange (fnv1aHash s).toNat)

end BlockZoneSource

/-- `column_may_contain_str` of a column: by the hash bounds and the Bloom filter. -/
def ColumnStripe.mayContainStr (c : ColumnStripe) (s : String) : Bool :=
  c.info.hash64InRange (fnv1aHash s).toNat && bloomMayContainHash c.bloom (fnv1aHash s)

namespace PaxBlock

variable (b : PaxBlock)

def columnMetas : List ColumnMeta := b.columns.map ColumnStripe.info

def reader : BlockZoneSource where
  column := (BlockZoneSource.ofMetas b.columnMetas).column
  mayContainStr id s :=
    (b.columns.find? (fun c => decide (c.info.columnId = id))).all (fun c => c.mayContainStr s)

/-- `BlockLayout`: what the ranged path knows of a block. -/
def layout : BlockZoneSource := .ofMetas b.columnMetas

/-- `FooterBlockStats::from_column_metas`: the kept columns that have statistics. -/
def footerStats (keep : List Int) : BlockZoneSource :=
  .ofMetas (b.columnMetas.filter
    (fun m => decide (m.columnId ∈ keep) && decide (m.distinctHint ≠ 0)))

end PaxBlock

/-- The column that a field is shredded into. -/
def fieldToCol (spec : List ShredColumn) (field : String) : Option Int :=
  (spec.find? (fun c => decide (c.key = field))).map ShredColumn.columnId

/-! ## Leaves -/

def keepIf (b : Bool) : PruneResult := if b then .mayMatch else .skip

@[simp] theorem keepIf_eq_mayMatch {b : Bool} : keepIf b = .mayMatch ↔ b = true := by
  cases b <;> simp [keepIf]

/-- `as_i64`: a number that is no `i64` is one by way of `f64`. -/
def Json.toI64 : Json → Option Int
  | .num n => some (n.asI64.getD (f64AsI64 n.asF64))
  | _ => none

def Json.toF64 : Json → Option ℚ
  | .num n => some n.asF64
  | _ => none

def betweenBounds : Json → Option (ℚ × ℚ)
  | .array [a, b] => do
      let lo ← a.toF64
      let hi ← b.toF64
      some (min lo hi, max lo hi)
  | _ => none

section Leaves

variable (S : BlockZoneSource) (col : Int)

def pruneI64 (op : ComparisonOperator) (value : Json) : PruneResult :=
  match op with
  | .equals => value.toI64.elim .mayMatch (fun v => keepIf (S.mayContainI64 col v))
  | .greaterThan | .greaterThanOrEqual =>
    value.toI64.elim .mayMatch (fun v => keepIf (S.rangeOverlapsI64 col v i64Max))
  | .lessThan | .lessThanOrEqual =>
    value.toI64.elim .mayMatch (fun v => keepIf (S.rangeOverlapsI64 col i64Min v))
  | .between =>
    (betweenBounds value).elim .mayMatch (fun b =>
      keepIf (S.rangeOverlapsI64 col (f64AsI64 b.1) (f64AsI64 ⌈b.2⌉)))
  | .isIn =>
    match value.asArray with
    | some items =>
      if items.any (fun v => v.toI64.isSome) then
        keepIf ((items.filterMap Json.toI64).any (S.mayContainI64 col))
      else .mayMatch
    | none => .mayMatch
  | _ => .mayMatch

def pruneF64 (op : ComparisonOperator) (value : Json) : PruneResult :=
  match op with
  | .equals =>
    value.toF64.elim .mayMatch (fun v => keepIf (S.rangeOverlapsF64 col (.finite v) (.finite v)))
  | .greaterThan | .greaterThanOrEqual =>
    value.toF64.elim .mayMatch (fun v => keepIf (S.rangeOverlapsF64 col (.finite v) .posInf))
  | .lessThan | .lessThanOrEqual =>
    value.toF64.elim .mayMatch (fun v => keepIf (S.rangeOverlapsF64 col .negInf (.finite v)))
  | .between =>
    (betweenBounds value).elim .mayMatch (fun b =>
      keepIf (S.rangeOverlapsF64 col (.finite b.1) (.finite b.2)))
  | _ => .mayMatch

def pruneStr (op : ComparisonOperator) (value : Json) : PruneResult :=
  match op with
  | .equals => value.asStr.elim .mayMatch (fun s => keepIf (S.mayContainStr col s))
  | _ => .mayMatch

end Leaves

def evaluateLeaf (S : BlockZoneSource) (columnOf : String → Option Int) (field : String)
    (op : ComparisonOperator) (value : Json) : PruneResult :=
  match columnOf field with
  | none => .mayMatch
  | some col =>
    match S.columnMetaType col with
    | none => .mayMatch
    | some .i64 => pruneI64 S col op value
    | some .f64 => pruneF64 S col op value
    | some .bytesOrStr => pruneStr S col op value
    | some .f32Vector => .mayMatch

/-! ## The walk -/

mutual

/-- One skipped part skips a conjunction, only all of them a disjunction; a negation is never
    skipped. -/
def evaluateBlock (S : BlockZoneSource) (columnOf : String → Option Int) :
    FilterExpression → PruneResult
  | .and exprs => if anySkipped S columnOf exprs then .skip else .mayMatch
  | .or exprs => if !exprs.isEmpty && allSkipped S columnOf exprs then .skip else .mayMatch
  | .not _ => .mayMatch
  | .comparison field op value => evaluateLeaf S columnOf field op value

def anySkipped (S : BlockZoneSource) (columnOf : String → Option Int) :
    List FilterExpression → Bool
  | [] => false
  | e :: rest => decide (evaluateBlock S columnOf e = .skip) || anySkipped S columnOf rest

def allSkipped (S : BlockZoneSource) (columnOf : String → Option Int) :
    List FilterExpression → Bool
  | [] => true
  | e :: rest => decide (evaluateBlock S columnOf e = .skip) && allSkipped S columnOf rest

end

section Walk

variable {S : BlockZoneSource} {columnOf : String → Option Int} {exprs : List FilterExpression}

theorem PruneResult.ne_skip {p : PruneResult} : p ≠ .skip ↔ p = .mayMatch := by
  cases p <;> simp

theorem anySkipped_eq_true :
    anySkipped S columnOf exprs = true ↔ ∃ e ∈ exprs, evaluateBlock S columnOf e = .skip := by
  induction exprs with
  | nil => simp [anySkipped]
  | cons e rest ih => simp [anySkipped, ih]

theorem allSkipped_eq_true :
    allSkipped S columnOf exprs = true ↔ ∀ e ∈ exprs, evaluateBlock S columnOf e = .skip := by
  induction exprs with
  | nil => simp [allSkipped]
  | cons e rest ih => simp [allSkipped, ih]

theorem evaluateBlock_or (h : ∃ e ∈ exprs, evaluateBlock S columnOf e = .mayMatch) :
    evaluateBlock S columnOf (.or exprs) = .mayMatch := by
  obtain ⟨e, he, hmay⟩ := h
  rw [evaluateBlock, if_neg]
  intro hall
  have hskip := allSkipped_eq_true.1 (Bool.and_eq_true_iff.1 hall).2 e he
  exact PruneResult.ne_skip.2 hmay hskip

end Walk

theorem evaluateBlock_of_leaves {S : BlockZoneSource} {columnOf : String → Option Int}
    {P : String → ComparisonOperator → Json → Prop} {row : String → Option Json}
    (hleaf : ∀ field op value, P field op value →
      evaluateComparison row field op value = true →
        evaluateLeaf S columnOf field op value = .mayMatch)
    {e : FilterExpression} (he : e.LeavesIn P) (hmatch : evaluateFilterResolved row e = true) :
    evaluateBlock S columnOf e = .mayMatch := by
  induction e with
  | comparison field op value =>
    cases he with
    | comparison h =>
      rw [evaluateFilterResolved] at hmatch
      rw [evaluateBlock]
      exact hleaf field op value h hmatch
  | and exprs ih =>
    cases he with
    | and h =>
      rw [evaluateFilterResolved] at hmatch
      rw [evaluateBlock, if_neg]
      intro hany
      obtain ⟨e, hmem, hskip⟩ := anySkipped_eq_true.1 hany
      have hkept := ih e hmem (h e hmem) (evaluateAll_eq_true.1 hmatch e hmem)
      exact PruneResult.ne_skip.2 hkept hskip
  | or exprs ih =>
    cases he with
    | or h =>
      rw [evaluateFilterResolved] at hmatch
      obtain ⟨e, hmem, hrow⟩ := evaluateAny_eq_true.1 hmatch
      exact evaluateBlock_or ⟨e, hmem, ih e hmem (h e hmem) hrow⟩
  | not e ih => rfl

end ProximaDb.Pax
