/-
  ProximaDb.Pax.Filter

  Filter expressions and what they say of a row: comparisons of JSON literals, the walk over the
  expression with its rule for negated comparisons of absent fields, and the evaluation on a
  property tree.
-/
import ProximaDb.Pax.Value

namespace ProximaDb.Pax

/-! ## Comparing literals -/

def f64Epsilon : ℚ := 1 / 2 ^ 52

/-- `compare_json_numbers`; JSON numbers are finite. -/
def compareJsonNumbers (n1 n2 : Number) : Bool :=
  match n1.asI64, n2.asI64 with
  | some i1, some i2 => decide (i1 = i2)
  | _, _ =>
    match n1.asU64, n2.asU64 with
    | some u1, some u2 => decide (u1 = u2)
    | _, _ =>
      let f1 := n1.asF64
      let f2 := n2.asF64
      decide (|roundF64 (f1 - f2)| < f64Epsilon * max (max |f1| |f2|) 1)

/-- The order of two numbers, by the widest integer type both fit in, or as doubles. -/
def compareNumbers (n1 n2 : Number) : Ordering :=
  match n1.asI64, n2.asI64 with
  | some i1, some i2 => compare i1 i2
  | _, _ =>
    match n1.asU64, n2.asU64 with
    | some u1, some u2 => compare u1 u2
    | _, _ => compare n1.asF64 n2.asF64

/-- Null < Bool < Number < String < Array < Object. -/
def Json.rank : Json → Nat
  | .null => 0
  | .bool _ => 1
  | .num _ => 2
  | .str _ => 3
  | .array _ => 4
  | .object _ => 5

mutual

/-- `compare_json_values`: literals of one kind by value, others by kind. -/
def compareJsonValues : Json → Json → Ordering
  | .num n1, .num n2 => compareNumbers n1 n2
  | .str s1, .str s2 => compare s1 s2
  | .bool b1, .bool b2 => compare b1 b2
  | .null, .null => .eq
  | .array a1, .array a2 => compareJsonLists a1 a2
  -- an object is above everything, another object included
  | .object _, _ => .gt
  | a, b => compare a.rank b.rank

def compareJsonLists : List Json → List Json → Ordering
  | [], [] => .eq
  | [], _ :: _ => .lt
  | _ :: _, [] => .gt
  | v1 :: a1, v2 :: a2 =>
    match compareJsonValues v1 v2 with
    | .eq => compareJsonLists a1 a2
    | other => other

end

mutual

/-- `a == b` of `serde_json`. -/
def Json.same : Json → Json → Bool
  | .null, .null => true
  | .bool b1, .bool b2 => b1 == b2
  | .num (.int n1 _), .num (.int n2 _) => n1 == n2
  | .num (.float x1), .num (.float x2) => decide (x1 = x2)
  | .str s1, .str s2 => s1 == s2
  | .array a1, .array a2 => sameItems a1 a2
  | .object f1, .object f2 => f1.length == f2.length && sameFields f1 f2
  | _, _ => false

def sameItems : List Json → List Json → Bool
  | [], [] => true
  | v1 :: a1, v2 :: a2 => v1.same v2 && sameItems a1 a2
  | _, _ => false

def sameFields : List (String × Json) → List (String × Json) → Bool
  | [], _ => true
  | (k, v) :: rest, f2 =>
    (match f2.lookup k with
      | some w => v.same w
      | none => false) && sameFields rest f2

end

/-- Numbers by value, everything else by structure. -/
def jsonEq : Json → Json → Bool
  | .num n1, .num n2 => compareJsonNumbers n1 n2
  | a, b => a.same b

/-- `%` is any run of characters and `_` one; behind a `%` that is not the last there has to be
    something left to match. -/
def likePatternMatch : (pattern text : List Char) → Bool
  | [], text => text.isEmpty
  | '%' :: rest, text =>
    rest.isEmpty || text.tails.any (fun t => !t.isEmpty && likePatternMatch rest t)
  | '_' :: rest, text => !text.isEmpty && likePatternMatch rest text.tail
  | c :: rest, text => text.head? == some c && likePatternMatch rest text.tail

/-! ## Operators -/

/-- `regex` comes with the matcher that patterns are compiled for. -/
inductive ComparisonOperator
  | equals
  | notEquals
  | greaterThan
  | greaterThanOrEqual
  | lessThan
  | lessThanOrEqual
  | isIn
  | notIn
  | contains
  | startsWith
  | endsWith
  | between
  | isNull
  | isNotNull
  | like
  | fieldExists
  | fieldNotExists
  | regex (isMatch : (pattern text : List Char) → Bool)

namespace ComparisonOperator

/-- The operators that ask whether there is a value at all. -/
def isNullTest : ComparisonOperator → Bool
  | isNull | isNotNull | fieldExists | fieldNotExists => true
  | _ => false

end ComparisonOperator

/-- Both literals are strings and the test holds of them. -/
def bothStrings (test : List Char → List Char → Bool) (a b : Json) : Bool :=
  match a.asStr, b.asStr with
  | some s, some t => test s.toList t.toList
  | _, _ => false

/-- One of the values has an equal one in the list. -/
def anyEqual (values list : List Json) : Bool := values.any (fun v => list.any (jsonEq v))

/-- What `In`, `NotIn` and `Contains` take a literal for: the items of an array, or itself. -/
def Json.members : Json → List Json
  | .array items => items
  | j => [j]

/-- `compare_json_op` with a null literal on the right. -/
def compareToNull (op : ComparisonOperator) (jsonVal : Json) : Bool :=
  match op with
  | .equals => jsonVal.isNull
  | .notEquals => !jsonVal.isNull
  | .notIn => !jsonVal.isNull
  | .contains => (jsonVal.asArray.getD []).any Json.isNull
  | _ => false

/-- `compare_json_op` on two literals that are not null. -/
def compareValues (op : ComparisonOperator) (jsonVal value : Json) : Bool :=
  match op with
  | .equals => jsonEq jsonVal value
  | .notEquals => !jsonEq jsonVal value
  | .lessThan => compareJsonValues jsonVal value == .lt
  | .lessThanOrEqual => compareJsonValues jsonVal value != .gt
  | .greaterThan => compareJsonValues jsonVal value == .gt
  | .greaterThanOrEqual => compareJsonValues jsonVal value != .lt
  | .isIn =>
    match value.asArray with
    | some values => anyEqual jsonVal.members values
    | none => false
  | .notIn =>
    match value.asArray with
    | some values => !values.any Json.isNull && !anyEqual jsonVal.members values
    | none => true
  | .contains =>
    match jsonVal with
    | .array items => items.any (fun item => jsonEq item value)
    | _ => bothStrings (fun haystack needle => haystack.tails.any needle.isPrefixOf) jsonVal value
  | .startsWith => bothStrings (fun haystack start => start.isPrefixOf haystack) jsonVal value
  | .endsWith => bothStrings (fun haystack ending => ending.isSuffixOf haystack) jsonVal value
  | .between =>
    match value.asArray with
    | some [low, high] =>
      !low.isNull && !high.isNull && compareJsonValues jsonVal low != .lt &&
        compareJsonValues jsonVal high != .gt
    | _ => false
  | .like => bothStrings (fun haystack pattern => likePatternMatch pattern haystack) jsonVal value
  | .regex isMatch => bothStrings (fun text pattern => isMatch pattern text) jsonVal value
  | .isNull | .isNotNull | .fieldExists | .fieldNotExists => false

def compareJsonOp (op : ComparisonOperator) (jsonVal value : Json) : Bool :=
  match op with
  | .isNull | .fieldNotExists => jsonVal.isNull
  | .isNotNull | .fieldExists => !jsonVal.isNull
  | op =>
    if value.isNull then compareToNull op jsonVal
    else if jsonVal.isNull then false
    else compareValues op jsonVal value

/-! ## Expressions -/

inductive FilterExpression
  | comparison (field : String) (operator : ComparisonOperator) (value : Json)
  | and (exprs : List FilterExpression)
  | or (exprs : List FilterExpression)
  | not (expr : FilterExpression)

@[induction_eliminator]
theorem FilterExpression.induct {P : FilterExpression → Prop}
    (comparison : ∀ field operator value, P (.comparison field operator value))
    (and : ∀ exprs, (∀ e ∈ exprs, P e) → P (.and exprs))
    (or : ∀ exprs, (∀ e ∈ exprs, P e) → P (.or exprs))
    (not : ∀ e, P e → P (.not e)) (e : FilterExpression) : P e := by
  refine FilterExpression.rec (motive_1 := P) (motive_2 := fun exprs => ∀ e ∈ exprs, P e)
    comparison and or not ?_ ?_ e
  · exact fun _ h => absurd h List.not_mem_nil
  · intro head tail hhead htail e he
    rcases List.mem_cons.1 he with rfl | he
    · exact hhead
    · exact htail e he

/-- Every comparison of an expression is one of these. -/
inductive FilterExpression.LeavesIn (P : String → ComparisonOperator → Json → Prop) :
    FilterExpression → Prop
  | comparison {field : String} {op : ComparisonOperator} {value : Json} (h : P field op value) :
      LeavesIn P (.comparison field op value)
  | and {exprs : List FilterExpression} (h : ∀ e ∈ exprs, LeavesIn P e) : LeavesIn P (.and exprs)
  | or {exprs : List FilterExpression} (h : ∀ e ∈ exprs, LeavesIn P e) : LeavesIn P (.or exprs)
  | not {e : FilterExpression} (h : LeavesIn P e) : LeavesIn P (.not e)

/-- The parts of an expression, itself included. -/
inductive FilterExpression.PartOf (part : FilterExpression) : FilterExpression → Prop
  | refl : PartOf part part
  | and {exprs : List FilterExpression} {e : FilterExpression} (he : e ∈ exprs)
      (h : PartOf part e) : PartOf part (.and exprs)
  | or {exprs : List FilterExpression} {e : FilterExpression} (he : e ∈ exprs)
      (h : PartOf part e) : PartOf part (.or exprs)
  | not {e : FilterExpression} (h : PartOf part e) : PartOf part (.not e)

namespace FilterExpression.PartOf

variable {a b c : FilterExpression} {P : String → ComparisonOperator → Json → Prop}

theorem trans (hab : PartOf a b) (hbc : PartOf b c) : PartOf a c := by
  induction hbc with
  | refl => exact hab
  | and he _ ih => exact .and he ih
  | or he _ ih => exact .or he ih
  | not _ ih => exact .not ih

end FilterExpression.PartOf

/-- The field of a comparison that is no null test is absent or null: its negation is unknown,
    too. -/
def FilterExpression.unknown (resolve : String → Option Json) : FilterExpression → Bool
  | .comparison field operator _ => !operator.isNullTest && ((resolve field).getD .null).isNull
  | _ => false

/-- A comparison; only the null tests hold of an absent field. -/
def evaluateComparison (resolve : String → Option Json) (field : String)
    (operator : ComparisonOperator) (value : Json) : Bool :=
  match operator with
  | .isNull | .fieldNotExists => ((resolve field).getD .null).isNull
  | .isNotNull | .fieldExists => !((resolve field).getD .null).isNull
  | operator =>
    match resolve field with
    | some jsonVal => compareJsonOp operator jsonVal value
    | none => false

mutual

def evaluateFilterResolved (resolve : String → Option Json) : FilterExpression → Bool
  | .and exprs => evaluateAll resolve exprs
  | .or exprs => evaluateAny resolve exprs
  | .not e =>
    let inner := evaluateFilterResolved resolve e
    if !inner && e.unknown resolve then false else !inner
  | .comparison field operator value => evaluateComparison resolve field operator value

def evaluateAll (resolve : String → Option Json) : List FilterExpression → Bool
  | [] => true
  | e :: rest => evaluateFilterResolved resolve e && evaluateAll resolve rest

def evaluateAny (resolve : String → Option Json) : List FilterExpression → Bool
  | [] => false
  | e :: rest => evaluateFilterResolved resolve e || evaluateAny resolve rest

end

variable {resolve : String → Option Json} {exprs : List FilterExpression}

theorem evaluateAll_eq_true : evaluateAll resolve exprs = true ↔
      ∀ e ∈ exprs, evaluateFilterResolved resolve e = true := by
  induction exprs with
  | nil => simp [evaluateAll]
  | cons e rest ih => simp [evaluateAll, ih]

theorem evaluateAny_eq_true : evaluateAny resolve exprs = true ↔
      ∃ e ∈ exprs, evaluateFilterResolved resolve e = true := by
  induction exprs with
  | nil => simp [evaluateAny]
  | cons e rest ih => simp [evaluateAny, ih]

def evaluateFilterProxima (expr : FilterExpression) (props : ProximaTree) : Bool :=
  evaluateFilterResolved (resolveFilterLiteral props) expr

end ProximaDb.Pax
