/-
  ProximaDb.Pax.FailLoud

  The evaluator that reports an unresolved field, against the one that takes it for false. It is a
  walk of its own on the properties: it looks at every part of a conjunction, puts an error of a
  disjunction off, compares some values without a literal, and has its own test for null.
-/
import ProximaDb.Pax.Filter

namespace ProximaDb.Pax

open FilterExpression

/-! ## Values -/

/-- A property, or what `json_to_proxima` makes of a place in a JSON document. -/
inductive Resolved
  | native (v : ProximaValue)
  | owned (j : Json)

namespace Resolved

def literal : Resolved → Json
  | native v => v.toFilterLiteral
  | owned j => j.toFilterLiteral

/-- `matches!(pv, ProximaValue::Null)` -/
def isNullValue : Resolved → Bool
  | native .null => true
  | owned .null => true
  | _ => false

end Resolved

def resolveProximaValue (props : ProximaTree) (field : String) : Option Resolved :=
  match treeGet props (segments field) with
  | some v => some (.native v)
  | none =>
    match segments field with
    | head :: next :: rest =>
      match props.lookup head with
      | some (.value (.json root)) => (root.getPath (next :: rest)).map .owned
      | some (.value (.jsonb root)) => (root.getPath (next :: rest)).map .owned
      | _ => none
    | _ => none

def nativeScalarOrder : Resolved → Json → Option Ordering
  | .native (.boolean b), .bool jb => some (compare b jb)
  | .native (.string s), .str js => some (compare s js)
  | .native (.symbol s), .str js => some (compare s js)
  | .owned (.bool b), .bool jb => some (compare b jb)
  | .owned (.str s), .str js => some (compare s js)
  | _, _ => none

def applyOp (op : ComparisonOperator) (ord : Ordering) : Bool :=
  match op with
  | .equals => ord == .eq
  | .notEquals => ord != .eq
  | .lessThan => ord == .lt
  | .lessThanOrEqual => ord != .gt
  | .greaterThan => ord == .gt
  | .greaterThanOrEqual => ord != .lt
  | _ => false

def compareProximaOp (pv : Resolved) (op : ComparisonOperator) (literal : Json) : Bool :=
  match op with
  | .equals | .notEquals | .lessThan | .lessThanOrEqual | .greaterThan | .greaterThanOrEqual =>
    match nativeScalarOrder pv literal with
    | some ord => applyOp op ord
    | none => compareJsonOp op pv.literal literal
  | _ => compareJsonOp op pv.literal literal

inductive FilterEvalError
  | missingField (field : String)

section Walk

variable (props : ProximaTree)

/-- The test for null under a negation, on the properties alone. -/
def FilterExpression.probedNull : FilterExpression → Bool
  | .comparison field operator _ =>
    !operator.isNullTest &&
      match treeGet props (segments field) with
      | none | some .null => true
      | _ => false
  | _ => false

def compareFailLoud (field : String) (operator : ComparisonOperator) (value : Json) :
    Except FilterEvalError Bool :=
  let isNull := (resolveProximaValue props field).all Resolved.isNullValue
  match operator with
  | .isNull | .fieldNotExists => .ok isNull
  | .isNotNull | .fieldExists => .ok !isNull
  | operator =>
    match resolveProximaValue props field with
    | some pv => .ok (compareProximaOp pv operator value)
    | none => .error (.missingField field)

mutual

def evaluateFilterProximaStrict : FilterExpression → Except FilterEvalError Bool
  | .and exprs => evaluateEach true exprs
  | .or exprs => evaluateUntil none exprs
  | .not e =>
    if e.probedNull props then .ok false else (evaluateFilterProximaStrict e).map (!·)
  | .comparison field operator value => compareFailLoud props field operator value

def evaluateEach (acc : Bool) : List FilterExpression → Except FilterEvalError Bool
  | [] => .ok acc
  | e :: rest =>
    match evaluateFilterProximaStrict e with
    | .ok b => evaluateEach (acc && b) rest
    | .error err => .error err

def evaluateUntil (pending : Option FilterEvalError) :
    List FilterExpression → Except FilterEvalError Bool
  | [] => pending.elim (.ok false) .error
  | e :: rest =>
    match evaluateFilterProximaStrict e with
    | .ok true => .ok true
    | .ok false => evaluateUntil pending rest
    | .error err => evaluateUntil (pending.or (some err)) rest

end

variable {props} {exprs : List FilterExpression} {resolve : String → Option Json}

end Walk

/-! ## Agreement -/

/-- What the null test of a field reads is null if and only if the literal it stands for is. -/
def NullTestAgrees (props : ProximaTree) (field : String) : Prop :=
  ∀ pv, resolveProximaValue props field = some pv → pv.isNullValue = pv.literal.isNull

/-- What the probe of a negation says of an expression that is not true is whether it is unknown. -/
def ProbeAgrees (props : ProximaTree) (e : FilterExpression) : Prop :=
  evaluateFilterProxima e props = true ∨ e.probedNull props = e.unknown (resolveFilterLiteral props)

/-- The null tests of an expression see what the literals say, and so do the probes of its
    negations. Of a comparison that no negation stands directly above nothing is asked. -/
structure ProbesAgree (props : ProximaTree) (e : FilterExpression) : Prop where
  nullTests : ∀ field op value, PartOf (.comparison field op value) e → op.isNullTest = true →
    NullTestAgrees props field
  probes : ∀ field op value, PartOf (.not (.comparison field op value)) e →
    op.isNullTest = false → ProbeAgrees props (.comparison field op value)

section Leaf

variable {props : ProximaTree} {field : String} {op : ComparisonOperator} {value : Json}

/-- Where the evaluator that reports unresolved fields answers, it gives the other's answer. -/
def Agrees (props : ProximaTree) (e : FilterExpression) : Prop :=
  ∀ b, evaluateFilterProximaStrict props e = .ok b → b = evaluateFilterProxima e props

/-- Only a comparison is probed for null. -/
theorem ProbesAgree.not {e : FilterExpression} (h : ProbesAgree props (.not e)) :
    ProbeAgrees props e := by
  cases e with
  | comparison field op value =>
    cases htest : op.isNullTest with
    | true => exact .inr (by simp [probedNull, unknown, htest])
    | false => exact h.probes field op value .refl htest
  | and | or | not => exact .inr rfl

end Leaf

end ProximaDb.Pax
