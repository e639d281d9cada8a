/-
  ProximaDb.Pax.ThreeValued

  Filters in three-valued logic. `kleene` is the walk of the security evaluator: a conjunction or
  disjunction that is not decided is unknown if a part of it was, and so is the negation of what
  is unknown.
-/
import ProximaDb.Pax.IntegerBounds

namespace ProximaDb.Pax

open FilterExpression Option

/-! ## Kleene's connectives -/

variable {resolve : String → Option Json} {op : ComparisonOperator} {field : String} {value : Json}

section Walk

variable (leaf : String → ComparisonOperator → Json → Option Bool)
  {P : String → ComparisonOperator → Json → Prop}

mutual

def kleene : FilterExpression → Option Bool
  | .and exprs => kleeneAll false exprs
  | .or exprs => kleeneAny false exprs
  | .not e => (kleene e).map (!·)
  | .comparison field operator value => leaf field operator value

def kleeneAll (sawUnknown : Bool) : List FilterExpression → Option Bool
  | [] => if sawUnknown then none else some true
  | e :: rest =>
    match kleene e with
    | some false => some false
    | none => kleeneAll true rest
    | some true => kleeneAll sawUnknown rest

def kleeneAny (sawUnknown : Bool) : List FilterExpression → Option Bool
  | [] => if sawUnknown then none else some false
  | e :: rest =>
    match kleene e with
    | some true => some true
    | none => kleeneAny true rest
    | some false => kleeneAny sawUnknown rest

end

variable {leaf} {exprs : List FilterExpression} {saw : Bool} {e : FilterExpression}

theorem kleeneAll_eq_some (saw : Bool) :
    (kleeneAll leaf saw exprs = some true ↔
      saw = false ∧ ∀ e ∈ exprs, kleene leaf e = some true) ∧
    (kleeneAll leaf saw exprs = some false ↔ ∃ e ∈ exprs, kleene leaf e = some false) := by
  induction exprs generalizing saw with
  | nil => cases saw <;> simp [kleeneAll]
  | cons e rest ih => rcases h : kleene leaf e with _ | _ | _ <;> simp [kleeneAll, h, ih]

theorem kleeneAny_eq_some (saw : Bool) :
    (kleeneAny leaf saw exprs = some true ↔ ∃ e ∈ exprs, kleene leaf e = some true) ∧
    (kleeneAny leaf saw exprs = some false ↔
      saw = false ∧ ∀ e ∈ exprs, kleene leaf e = some false) := by
  induction exprs generalizing saw with
  | nil => cases saw <;> simp [kleeneAny]
  | cons e rest ih => rcases h : kleene leaf e with _ | _ | _ <;> simp [kleeneAny, h, ih]

/-- What is decided in three-valued logic the permissive evaluator decides alike, if that is so of
    the comparisons and none is false of a field without a value. -/
theorem evaluateFilterResolved_of_kleene
    (hleaf : ∀ field op value b, P field op value → leaf field op value = some b →
      evaluateComparison resolve field op value = b)
    (hnull : ∀ field op value, P field op value → leaf field op value = some false →
      (comparison field op value).unknown resolve = false)
    (he : e.LeavesIn P) {b : Bool} (h : kleene leaf e = some b) :
    evaluateFilterResolved resolve e = b := by
  induction e generalizing b with
  | comparison field op value =>
    cases he with
    | comparison hP => exact hleaf field op value b hP h
  | and exprs ih =>
    cases he with
    | and hP =>
      rw [kleene] at h
      rw [evaluateFilterResolved]
      cases b with
      | true =>
        refine evaluateAll_eq_true.2 (fun e hmem => ih e hmem (hP e hmem) ?_)
        exact ((kleeneAll_eq_some false).1.1 h).2 e hmem
      | false =>
        obtain ⟨e, hmem, hfalse⟩ := (kleeneAll_eq_some false).2.1 h
        refine Bool.eq_false_iff.2 (fun hall => ?_)
        have htrue := evaluateAll_eq_true.1 hall e hmem
        rw [ih e hmem (hP e hmem) hfalse] at htrue
        cases htrue
  | or exprs ih =>
    cases he with
    | or hP =>
      rw [kleene] at h
      rw [evaluateFilterResolved]
      cases b with
      | true =>
        obtain ⟨e, hmem, htrue⟩ := (kleeneAny_eq_some false).1.1 h
        exact evaluateAny_eq_true.2 ⟨e, hmem, ih e hmem (hP e hmem) htrue⟩
      | false =>
        refine Bool.eq_false_iff.2 (fun hany => ?_)
        obtain ⟨e, hmem, htrue⟩ := evaluateAny_eq_true.1 hany
        rw [ih e hmem (hP e hmem) (((kleeneAny_eq_some false).2.1 h).2 e hmem)] at htrue
        cases htrue
  | not e ih =>
    cases he with
    | not hP =>
      rw [kleene, map_eq_some_iff] at h
      obtain ⟨c, hc, rfl⟩ := h
      rw [evaluateFilterResolved, ih hP hc]
      -- only a comparison is probed, and it is decided
      cases c with
      | true => rfl
      | false =>
        have hknown : e.unknown resolve = false := by
          cases hP with
          | comparison hP => exact hnull _ _ _ hP hc
          | and | or | not => rfl
        rw [hknown]
        rfl

end Walk

/-! ## The strict evaluator -/

/-- Exact equality: like `jsonEq`, but doubles are equal only if they are the same. -/
def exactJsonEq : Json → Json → Bool
  | .num n1, .num n2 =>
    match n1.asI64, n2.asI64 with
    | some i1, some i2 => decide (i1 = i2)
    | _, _ =>
      match n1.asU64, n2.asU64 with
      | some u1, some u2 => decide (u1 = u2)
      | _, _ => decide (n1.asF64 = n2.asF64)
  | a, b => a.same b

/-- `comparable_class` is the kind that literals are ranked by. -/
def sameClass (a b : Json) : Bool := a.rank == b.rank

/-- A result that only comparable operands have. -/
def onlyIf (comparable result : Bool) : Option Bool := if comparable then some result else none

theorem onlyIf_eq_some {comparable result b : Bool} :
    onlyIf comparable result = some b ↔ comparable = true ∧ result = b := by
  cases comparable <;> simp [onlyIf]

/-- `compare_json_op_type_strict`: `none` where the operands are of different kinds. -/
def compareJsonOpTypeStrict (operator : ComparisonOperator) (jsonVal value : Json) : Option Bool :=
  let permissive := compareJsonOp operator jsonVal value
  if value.isNull then some permissive
  else
    match operator with
    | .isNull | .isNotNull | .fieldExists | .fieldNotExists => some permissive
    | .regex _ | .contains | .startsWith | .endsWith | .like =>
      onlyIf (jsonVal.asStr.isSome && value.asStr.isSome) permissive
    | .isIn | .notIn =>
      match value.asArray with
      | some values => onlyIf (values.any (sameClass jsonVal)) permissive
      | none => none
    | .between =>
      match value.asArray with
      | some [low, high] => onlyIf (sameClass jsonVal low && sameClass jsonVal high) permissive
      | _ => none
    | .equals => onlyIf (sameClass jsonVal value) (exactJsonEq jsonVal value)
    | .notEquals => onlyIf (sameClass jsonVal value) (!exactJsonEq jsonVal value)
    | .lessThan | .lessThanOrEqual | .greaterThan | .greaterThanOrEqual =>
      onlyIf (sameClass jsonVal value) permissive

def strictComparison (resolve : String → Option Json) (field : String)
    (operator : ComparisonOperator) (value : Json) : Option Bool :=
  if operator.isNullTest then some (evaluateComparison resolve field operator value)
  else (resolve field).bind (fun jsonVal => compareJsonOpTypeStrict operator jsonVal value)

def evaluateFilterResolvedTypeStrictTri (resolve : String → Option Json) (expr : FilterExpression) :
    Option Bool :=
  kleene (strictComparison resolve) expr

def evaluateFilterResolvedTypeStrict (resolve : String → Option Json) (expr : FilterExpression) :
    Bool :=
  (evaluateFilterResolvedTypeStrictTri resolve expr).getD false

/-! ## Strict against permissive -/

theorem exactJsonEq_num (n1 n2 : Number) :
    exactJsonEq (.num n1) (.num n2) = decide (compareNumbers n1 n2 = .eq) := by
  rw [exactJsonEq, compareNumbers]
  rcases n1.asI64 with _ | _ <;> rcases n2.asI64 with _ | _ <;>
    rcases n1.asU64 with _ | _ <;> rcases n2.asU64 with _ | _ <;> simp

theorem exactJsonEq_eq_jsonEq {a b : Json} (ha : ∀ x, a ≠ .num (.float x))
    (hb : ∀ x, b ≠ .num (.float x)) : exactJsonEq a b = jsonEq a b := by
  rcases a with _ | _ | (⟨x, hx⟩ | x) | _ | _ | _
  case num.float => exact absurd rfl (ha x)
  case num.int =>
    rcases b with _ | _ | (⟨n, hn⟩ | n) | _ | _ | _
    case num.float => exact absurd rfl (hb n)
    case num.int =>
      rw [exactJsonEq_num, compareNumbers_int, jsonEq, compareJsonNumbers_int, decide_eq_decide]
      exact compare_eq_iff_eq
    all_goals rfl
  all_goals rfl

theorem compareJsonOp_of_strict {jsonVal value : Json} {b : Bool}
    (ha : ∀ x, jsonVal ≠ .num (.float x)) (hb : ∀ x, value ≠ .num (.float x))
    (h : compareJsonOpTypeStrict op jsonVal value = some b) :
    compareJsonOp op jsonVal value = b := by
  have hexact := exactJsonEq_eq_jsonEq ha hb
  unfold compareJsonOpTypeStrict at h
  by_cases hnull : value.isNull
  · rw [if_pos hnull] at h
    exact some.inj h
  · rw [if_neg hnull] at h
    -- equals of one kind are not null
    have hequal : sameClass jsonVal value = true → jsonVal.isNull = false := by
      intro hclass
      rcases jsonVal with _ | _ | _ | _ | _ | _
      case null => rcases value with _ | _ | _ | _ | _ | _ <;> simp_all [sameClass, Json.rank]
      all_goals rfl
    cases op
    case equals | notEquals =>
      obtain ⟨hclass, rfl⟩ := onlyIf_eq_some.1 h
      rw [hexact]
      unfold compareJsonOp
      simp [hnull, hequal hclass, compareValues]
    case isIn | notIn | between =>
      dsimp only at h
      split at h
      · exact (onlyIf_eq_some.1 h).2
      · cases h
    case isNull | isNotNull | fieldExists | fieldNotExists => exact some.inj h
    all_goals exact (onlyIf_eq_some.1 h).2

theorem evaluateComparison_of_value (htest : op.isNullTest = false)
    {jsonVal : Json} (hfield : resolve field = some jsonVal) (value : Json) :
    evaluateComparison resolve field op value = compareJsonOp op jsonVal value := by
  cases op <;> simp_all [evaluateComparison, ComparisonOperator.isNullTest]

/-- Over rows and literals whose numbers are integers, the strict evaluator admits only what the
    permissive one admits, in every filter built from some comparisons, if and only if it takes none
    of them for false on a null field. -/
theorem strict_tightens_iff (resolve : String → Option Json)
    (hrow : ∀ field x, resolve field ≠ some (.num (.float x)))
    (leaves : String → ComparisonOperator → Json → Prop)
    (hint : ∀ field op value, leaves field op value → ∀ x, value ≠ .num (.float x)) :
    (∀ e : FilterExpression, e.LeavesIn leaves →
        evaluateFilterResolvedTypeStrict resolve e = true →
        evaluateFilterResolved resolve e = true) ↔
      ∀ field op value, leaves field op value → op.isNullTest = false →
        resolve field = some .null → compareJsonOpTypeStrict op .null value ≠ some false := by
  constructor
  · intro htight field op value hleaf htest hfield hfalse
    have hadmits : evaluateFilterResolvedTypeStrict resolve
        (.not (.comparison field op value)) = true := by
      have hstrict : strictComparison resolve field op value = some false := by
        rw [strictComparison, htest, hfield]
        exact hfalse
      simp [evaluateFilterResolvedTypeStrict, evaluateFilterResolvedTypeStrictTri, kleene, hstrict]
    have hdenied := htight _ (.not (.comparison hleaf)) hadmits
    simp [evaluateFilterResolved, unknown, htest, hfield, Json.isNull] at hdenied
  · intro hnull e he hadmits
    have htrue : kleene (strictComparison resolve) e = some true := by
      rw [evaluateFilterResolvedTypeStrict, evaluateFilterResolvedTypeStrictTri] at hadmits
      rcases hk : kleene (strictComparison resolve) e with _ | _ | _ <;> simp_all
    refine evaluateFilterResolved_of_kleene (fun field op value b hleaf h => ?_)
      (fun field op value hleaf h => ?_) he htrue
    all_goals
      unfold strictComparison at h
      by_cases htest : op.isNullTest = true
    · rw [if_pos htest] at h
      exact some.inj h
    · rw [if_neg htest] at h
      obtain ⟨jsonVal, hfield, hop⟩ := bind_eq_some_iff.1 h
      rw [evaluateComparison_of_value (Bool.eq_false_iff.2 htest) hfield]
      exact compareJsonOp_of_strict (fun x hx => hrow field x (hx ▸ hfield)) (hint _ _ _ hleaf) hop
    · simp [unknown, htest]
    · rw [if_neg htest] at h
      obtain ⟨jsonVal, hfield, hop⟩ := bind_eq_some_iff.1 h
      rcases jsonVal with _ | _ | _ | _ | _ | _
      case null => exact absurd hop (hnull field op value hleaf (Bool.eq_false_iff.2 htest) hfield)
      all_goals simp [unknown, hfield, Json.isNull]

/-- A row whose only field is `a`. -/
def rowOf (value : Json) (field : String) : Option Json := if field = "a" then some value else none

theorem rowOf_ne_float (h : ∀ x, value ≠ .num (.float x)) (field : String) (x : ℚ) :
    rowOf value field ≠ some (.num (.float x)) := by
  unfold rowOf
  split_ifs
  · exact fun heq => h x (some.inj heq)
  · exact nofun

/-- `NOT a = 'x'` of a row with `a = 'y'`. -/
theorem strict_tightens_negated_equality : evaluateFilterResolvedTypeStrict (rowOf (.str "y"))
        (.not (.comparison "a" .equals (.str "x"))) = true ∧
      evaluateFilterResolved (rowOf (.str "y")) (.not (.comparison "a" .equals (.str "x"))) = true :=
  ⟨by rfl, (strict_tightens_iff (rowOf (.str "y")) (rowOf_ne_float nofun)
    (fun field op value => field = "a" ∧ op = .equals ∧ value = .str "x")
    (fun _ _ _ h => h.2.2 ▸ nofun)).2
      (fun field op value h _ hfield => by simp [rowOf, h.1] at hfield)
      _ (.not (.comparison ⟨rfl, rfl, rfl⟩)) (by rfl)⟩

/-- `NOT a <> null` of a row with `a = null`: the strict evaluator admits it, the permissive one
    does not. -/
theorem strict_admits_more_on_null :
    evaluateFilterResolvedTypeStrict (rowOf .null) (.not (.comparison "a" .notEquals .null)) = true ∧
      evaluateFilterResolved (rowOf .null) (.not (.comparison "a" .notEquals .null)) = false := by
  decide

/-! ## The logic of SQL -/

end ProximaDb.Pax
