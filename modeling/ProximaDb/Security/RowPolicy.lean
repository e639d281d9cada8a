/-
  ProximaDb.Security.RowPolicy

  Row-security predicates and the filters they are lowered to. A test of the row becomes a
  comparison, a negative one with a guard that the field is there; constants are folded through a
  lattice, and negation is left to the strict evaluator.
-/
import ProximaDb.Pax.ThreeValued

namespace ProximaDb.Security

open ProximaDb.Pax List

/-! ## Predicates -/

inductive FilterOperator
  | equals
  | notEquals
  | greaterThan
  | greaterThanOrEquals
  | lessThan
  | lessThanOrEquals
  | contains
  | startsWith
  | endsWith
  | isIn
  | notIn

inductive ValueSource
  | userAttribute (key : String)
  | literal (value : Json)
  | currentTimestamp
  | userTenant
  | userId

/-- The predicates that compare a field of the row. -/
inductive RowTest
  | ownerOnly (metadataField : String)
  | departmentIsolation (userDeptField recordDeptField : String)
  | tenantIsolation (recordTenantField : String)
  | timeBasedAccess (expiryField : String)
  | classificationBased (recordField userClearanceField : String)
      (classificationHierarchy : List String)
  | customFilter (field : String) (operator : FilterOperator) (valueSource : ValueSource)

inductive SecurityPredicate
  | test (t : RowTest)
  | roleBased (metadataField : String) (allowedValues : List String)
  | and (predicates : List SecurityPredicate)
  | or (predicates : List SecurityPredicate)
  | not (inner : SecurityPredicate)
  | alwaysAllow
  | alwaysDeny

open SecurityPredicate

structure UserContext where
  userId : String
  tenantId : Option String
  roles : List String
  metadata : String → Option String

/-! ## Lowering -/

def convertOperator : FilterOperator → ComparisonOperator
  | .equals => .equals
  | .notEquals => .notEquals
  | .greaterThan => .greaterThan
  | .greaterThanOrEquals => .greaterThanOrEqual
  | .lessThan => .lessThan
  | .lessThanOrEquals => .lessThanOrEqual
  | .contains => .contains
  | .startsWith => .startsWith
  | .endsWith => .endsWith
  | .isIn => .isIn
  | .notIn => .notIn

inductive SecurityFilter
  | unrestricted
  | restricted (e : FilterExpression)
  | unsatisfiable

namespace SecurityFilter

def comparison (field : String) (operator : ComparisonOperator) (value : Json) : SecurityFilter :=
  match operator with
  | .notEquals | .notIn =>
    .restricted (.and [.comparison field operator value, .comparison field .isNotNull .null])
  | _ => .restricted (.comparison field operator value)

/-- The point that admits every row or none. -/
def constant : Bool → SecurityFilter
  | true => .unrestricted
  | false => .unsatisfiable

def isConstant (b : Bool) : SecurityFilter → Bool
  | .unrestricted => b
  | .unsatisfiable => !b
  | .restricted _ => false

def restriction : SecurityFilter → Option FilterExpression
  | .restricted e => some e
  | _ => none

/-- Parts joined, where the constant of `b` decides and the other one drops out. -/
def combine (b : Bool) (join : List FilterExpression → FilterExpression)
    (parts : List SecurityFilter) : SecurityFilter :=
  if parts.isEmpty then .unsatisfiable
  else if parts.any (isConstant b) then constant b
  else
    match parts.filterMap restriction with
    | [] => constant (!b)
    | [e] => .restricted e
    | exprs => .restricted (join exprs)

def all : List SecurityFilter → SecurityFilter := combine false .and

def any : List SecurityFilter → SecurityFilter := combine true .or

def negate : SecurityFilter → SecurityFilter
  | .unrestricted => .unsatisfiable
  | .unsatisfiable => .unrestricted
  | .restricted e => .restricted (.not e)

def unsatisfiableExpression : FilterExpression :=
  .and [.comparison "__proximadb_rls_unsatisfiable__" .isNull .null,
    .comparison "__proximadb_rls_unsatisfiable__" .isNotNull .null]

def intoExpression : SecurityFilter → Option FilterExpression
  | .unrestricted => none
  | .restricted e => some e
  | .unsatisfiable => some unsatisfiableExpression

/-- No expression admits every row; one is walked by the strict evaluator. -/
def admits (row : String → Option Json) (filter : SecurityFilter) : Bool :=
  match filter.intoExpression with
  | none => true
  | some e => evaluateFilterResolvedTypeStrict row e

end SecurityFilter

section Lower

variable (user : UserContext) (now : Int64)

def resolveValueSource : ValueSource → Except String Json
  | .userAttribute key =>
    match user.metadata key with
    | some value => .ok (.str value)
    | none => .error ("User attribute '" ++ key ++ "' not found")
  | .literal value => .ok value
  | .currentTimestamp => .ok (.num (.ofI64 now))
  | .userTenant =>
    match user.tenantId with
    | some tenant => .ok (.str tenant)
    | none => .error "User tenant not available"
  | .userId => .ok (.str user.userId)

/-- What a test compares for a user: the field, the operator and the literal. -/
def RowTest.comparison : RowTest → Except String (String × FilterOperator × Json)
  | .ownerOnly metadataField => .ok (metadataField, .equals, .str user.userId)
  | .tenantIsolation recordTenantField =>
    match user.tenantId with
    | some tenantId => .ok (recordTenantField, .equals, .str tenantId)
    | none => .error "Tenant context required for tenant-isolated data"
  | .departmentIsolation userDeptField recordDeptField =>
    match user.metadata userDeptField with
    | some userDept => .ok (recordDeptField, .equals, .str userDept)
    | none => .error ("User department attribute '" ++ userDeptField ++ "' not found")
  | .timeBasedAccess expiryField => .ok (expiryField, .greaterThan, .num (.ofI64 now))
  | .classificationBased recordField userClearanceField classificationHierarchy =>
    match user.metadata userClearanceField with
    | none => .error "User clearance attribute not found"
    | some userClearance =>
      match classificationHierarchy.idxOf? userClearance with
      | none => .error "Invalid clearance level"
      | some idx =>
        .ok (recordField, .isIn, .array ((classificationHierarchy.take (idx + 1)).map .str))
  | .customFilter field operator valueSource =>
    (resolveValueSource user now valueSource).map (fun value => (field, operator, value))

/-- One of the allowed roles is held. -/
def hasAccess (allowedValues : List String) : Bool := allowedValues.any user.roles.contains

mutual

def buildFilter : SecurityPredicate → Except String SecurityFilter
  | .test t =>
    (t.comparison user now).map (fun c => .comparison c.1 (convertOperator c.2.1) c.2.2)
  | .roleBased _ allowedValues =>
    .ok (if hasAccess user allowedValues then .unrestricted else .unsatisfiable)
  | .and predicates => (buildFilters predicates).map .all
  | .or predicates => (buildFilters predicates).map .any
  | .not inner => (buildFilter inner).map .negate
  | .alwaysAllow => .ok .unrestricted
  | .alwaysDeny => .ok .unsatisfiable

def buildFilters : List SecurityPredicate → Except String (List SecurityFilter)
  | [] => .ok []
  | p :: rest => do
    let part ← buildFilter p
    let parts ← buildFilters rest
    return part :: parts

end

end Lower

/-! ## What a predicate says of a row -/

/-- Parts that are decided by one `b`, and unknown without it if one of them is. -/
def decided (b : Bool) (parts : List (Option Bool)) : Option Bool :=
  if some b ∈ parts then some b else if none ∈ parts then none else some (!b)

theorem decided_eq_self {b : Bool} {parts : List (Option Bool)} :
    decided b parts = some b ↔ some b ∈ parts := by
  unfold decided
  split_ifs with h <;> simp [h]

theorem decided_eq_not (b : Bool) {parts : List (Option Bool)} :
    decided b parts = some (!b) ↔ ∀ x ∈ parts, x = some (!b) := by
  unfold decided
  split_ifs with h hnone
  · simpa using ⟨_, h, by simp⟩
  · simpa using ⟨_, hnone, nofun⟩
  · refine iff_of_true rfl (fun x hx => ?_)
    rcases x with _ | c
    · exact absurd hx hnone
    · rcases Bool.eq_or_eq_not c b with rfl | rfl
      · exact absurd hx h
      · rfl

section Truth

variable (user : UserContext) (now : Int64) (row : String → Option Json)

/-- The field is absent or null. -/
def lacks (field : String) : Bool := ((row field).getD .null).isNull

def comparisonTruth (field : String) (operator : FilterOperator) (value : Json) : Option Bool :=
  if lacks row field then none
  else compareJsonOpTypeStrict (convertOperator operator) ((row field).getD .null) value

mutual

/-- A predicate in three-valued logic; an empty conjunction is false. -/
def SecurityPredicate.truth : SecurityPredicate → Option Bool
  | .test t =>
    match t.comparison user now with
    | .ok (field, operator, value) => comparisonTruth row field operator value
    | .error _ => none
  | .roleBased _ allowedValues => some (hasAccess user allowedValues)
  | .and predicates => if predicates.isEmpty then some false else decided false (truths predicates)
  | .or predicates => decided true (truths predicates)
  | .not inner => (SecurityPredicate.truth inner).map (!·)
  | .alwaysAllow => some true
  | .alwaysDeny => some false

def truths : List SecurityPredicate → List (Option Bool)
  | [] => []
  | p :: rest => SecurityPredicate.truth p :: truths rest

end

end Truth

/-- The tests of a predicate are all among these. -/
inductive SecurityPredicate.TestsIn (P : RowTest → Prop) : SecurityPredicate → Prop
  | test {t : RowTest} (h : P t) : TestsIn P (.test t)
  | roleBased (field : String) (values : List String) : TestsIn P (.roleBased field values)
  | and {ps : List SecurityPredicate} (h : ∀ p ∈ ps, TestsIn P p) : TestsIn P (.and ps)
  | or {ps : List SecurityPredicate} (h : ∀ p ∈ ps, TestsIn P p) : TestsIn P (.or ps)
  | not {p : SecurityPredicate} (h : TestsIn P p) : TestsIn P (.not p)
  | alwaysAllow : TestsIn P .alwaysAllow
  | alwaysDeny : TestsIn P .alwaysDeny

/-! ## The lattice keeps the three values -/

variable {parts : List SecurityFilter}

section Meaning

variable (row : String → Option Json)

def SecurityFilter.meaning : SecurityFilter → Option Bool
  | .unrestricted => some true
  | .restricted e => kleene (strictComparison row) e
  | .unsatisfiable => some false

variable {row} (exprs : List FilterExpression) (filter : SecurityFilter)

theorem SecurityFilter.admits_iff : filter.admits row = true ↔ filter.meaning row = some true := by
  cases filter with
  | unrestricted => simp [admits, intoExpression, meaning]
  | restricted e =>
    rw [admits, intoExpression, meaning]
    rcases h : kleene (strictComparison row) e with _ | _ | _ <;>
      simp [evaluateFilterResolvedTypeStrict, evaluateFilterResolvedTypeStrictTri, h]
  | unsatisfiable =>
    rcases h : ((row "__proximadb_rls_unsatisfiable__").getD .null).isNull <;>
      simp [admits, intoExpression, meaning, unsatisfiableExpression, kleene, kleeneAll, h,
        evaluateFilterResolvedTypeStrict, evaluateFilterResolvedTypeStrictTri, strictComparison,
        ComparisonOperator.isNullTest, evaluateComparison]

theorem SecurityFilter.meaning_negate :
    filter.negate.meaning row = (filter.meaning row).map (!·) := by
  cases filter with
  | restricted e => rw [negate, meaning, meaning, kleene]
  | unrestricted | unsatisfiable => rfl

theorem kleene_and : kleene (strictComparison row) (.and exprs) =
      decided false (exprs.map (kleene (strictComparison row))) := by
  refine Option.ext (Bool.forall_bool.2 ⟨?_, ?_⟩)
  · rw [kleene, (kleeneAll_eq_some false).2, decided_eq_self, mem_map]
  · rw [kleene, (kleeneAll_eq_some false).1]
    exact Iff.trans (by simp) (decided_eq_not false).symm

theorem kleene_or : kleene (strictComparison row) (.or exprs) =
      decided true (exprs.map (kleene (strictComparison row))) := by
  refine Option.ext (Bool.forall_bool.2 ⟨?_, ?_⟩)
  · rw [kleene, (kleeneAny_eq_some false).2]
    exact Iff.trans (by simp) (decided_eq_not true).symm
  · rw [kleene, (kleeneAny_eq_some false).1, decided_eq_self, mem_map]

/-- Without a deciding constant the restrictions decide: the other constant adds only `!b`. -/
theorem decided_restrictions {b : Bool} (hnot : ∀ p ∈ parts, p.isConstant b = false) :
    decided b ((parts.filterMap SecurityFilter.restriction).map (kleene (strictComparison row))) =
      decided b (parts.map (SecurityFilter.meaning row)) := by
  have hmem : ∀ x, x ≠ some (!b) →
      (x ∈ (parts.filterMap SecurityFilter.restriction).map (kleene (strictComparison row)) ↔
        x ∈ parts.map (SecurityFilter.meaning row)) := by
    intro x hx
    simp only [mem_map, mem_filterMap]
    constructor
    · rintro ⟨e, ⟨p, hp, he⟩, rfl⟩
      cases p with
      | restricted e' => exact ⟨_, hp, by rw [← Option.some.inj he]; rfl⟩
      | unrestricted | unsatisfiable => cases he
    · rintro ⟨p, hp, rfl⟩
      cases p with
      | restricted e => exact ⟨e, ⟨_, hp, rfl⟩, rfl⟩
      | unrestricted | unsatisfiable =>
        have := hnot _ hp
        cases b <;> simp_all [SecurityFilter.isConstant, SecurityFilter.meaning]
  simp only [decided, hmem (some b) (by simp), hmem none nofun]

theorem SecurityFilter.meaning_combine {b : Bool} {join : List FilterExpression → FilterExpression}
    (hjoin : ∀ exprs, kleene (strictComparison row) (join exprs) =
      decided b (exprs.map (kleene (strictComparison row)))) (parts : List SecurityFilter) :
    (combine b join parts).meaning row =
      if parts.isEmpty then some false else decided b (parts.map (SecurityFilter.meaning row)) := by
  have hconstant : ∀ c, (constant c).meaning row = some c := by rintro (_ | _) <;> rfl
  rw [combine]
  split_ifs with hnil hany
  · rfl
  · obtain ⟨p, hp, hb⟩ := any_eq_true.1 hany
    have hmeaning : p.meaning row = some b := by
      cases p <;> cases b <;> first | rfl | exact Bool.noConfusion hb
    rw [hconstant, decided, if_pos (mem_map.2 ⟨p, hp, hmeaning⟩)]
  · rw [← decided_restrictions (fun p hp => by
      simpa using fun h => hany (any_eq_true.2 ⟨p, hp, h⟩))]
    split
    next h => rw [h, hconstant]; simp [decided]
    next e h =>
      rw [h, meaning, map_singleton]
      rcases kleene (strictComparison row) e with _ | _ | _ <;> cases b <;> rfl
    next => exact hjoin _

/-! ## Comparisons -/

theorem meaning_comparison (field : String) (op : FilterOperator) (value : Json) :
    (SecurityFilter.comparison field (convertOperator op) value).meaning row = match op with
      | .notEquals | .notIn =>
        if lacks row field then some false
        else strictComparison row field (convertOperator op) value
      | _ => strictComparison row field (convertOperator op) value := by
  have hguard : ∀ c, decided false [c, some !lacks row field] =
      if lacks row field then some false else c := by
    cases lacks row field <;> rintro (_ | _ | _) <;> rfl
  cases op
  case notEquals | notIn =>
    exact (kleene_and _).trans (hguard _)
  all_goals rfl

variable {field : String}

theorem strictComparison_convert {jsonVal : Json} (h : row field = some jsonVal)
    (op : FilterOperator) (value : Json) : strictComparison row field (convertOperator op) value =
      compareJsonOpTypeStrict (convertOperator op) jsonVal value := by
  cases op <;> rw [strictComparison, h] <;> rfl

/-- A comparison that lowers to false of a row that lacks the field: one with a guard, and `In` of a
    list with a null for a null. -/
def decidedWithoutValue (row : String → Option Json) (field : String) (operator : FilterOperator)
    (value : Json) : Bool :=
  match operator with
  | .notEquals | .notIn => true
  | .isIn => (row field).isSome && (value.asArray.getD []).any Json.isNull
  | _ => false

theorem meaning_comparison_of_lacks (h : lacks row field = true)
    (op : FilterOperator) {value : Json} (hvalue : value.isNull = false) :
    (SecurityFilter.comparison field (convertOperator op) value).meaning row =
      if decidedWithoutValue row field op value then some false else none := by
  have hclass : ∀ v : Json, sameClass .null v = v.isNull := by
    rintro (_ | _ | _ | _ | _ | _) <;> rfl
  rw [meaning_comparison, h]
  rw [lacks] at h
  rcases hfield : row field with _ | jsonVal
  · cases op <;> simp [strictComparison, convertOperator, ComparisonOperator.isNullTest, hfield,
      decidedWithoutValue]
  · obtain rfl : jsonVal = .null := by
      rcases jsonVal with _ | _ <;> simp_all [Json.isNull]
    rw [strictComparison_convert hfield]
    cases op
    case isIn =>
      cases value <;> simp_all [convertOperator, compareJsonOpTypeStrict, Json.asArray, onlyIf,
        compareJsonOp, decidedWithoutValue, Json.isNull]
    all_goals simp [convertOperator, compareJsonOpTypeStrict, hvalue, hclass, Json.asStr, onlyIf,
      decidedWithoutValue]

end Meaning

/-! ## Lowering keeps the meaning -/

section Lowering

variable {user : UserContext} {now : Int64} {row : String → Option Json} {tests : RowTest → Prop}

theorem map_eq_ok {α β : Type} {f : α → β} {x : Except String α} {b : β}
    (h : x.map f = .ok b) : ∃ a, x = .ok a ∧ f a = b := by
  cases x with
  | error e => cases h
  | ok a => exact ⟨a, rfl, Except.ok.inj h⟩

theorem buildFilters_cons {p : SecurityPredicate} {rest : List SecurityPredicate}
    (h : buildFilters user now (p :: rest) = .ok parts) :
    ∃ part others, buildFilter user now p = .ok part ∧
      buildFilters user now rest = .ok others ∧ parts = part :: others := by
  rw [buildFilters] at h
  rcases hp : buildFilter user now p with _ | part
  · rw [hp] at h
    cases h
  · rcases hrest : buildFilters user now rest with _ | others
    · rw [hp, hrest] at h
      cases h
    · rw [hp, hrest] at h
      cases h
      exact ⟨part, others, rfl, rfl, rfl⟩

theorem isEmpty_buildFilters {ps : List SecurityPredicate}
    (h : buildFilters user now ps = .ok parts) : parts.isEmpty = ps.isEmpty := by
  cases ps with
  | nil => cases h; rfl
  | cons p rest =>
    obtain ⟨_, _, _, _, rfl⟩ := buildFilters_cons h
    rfl

/-- The tests mean what they are lowered to. -/
def Faithful (user : UserContext) (now : Int64) (row : String → Option Json)
    (tests : RowTest → Prop) : Prop :=
  ∀ t, tests t → ∀ field op value, t.comparison user now = .ok (field, op, value) →
    (SecurityFilter.comparison field (convertOperator op) value).meaning row =
      comparisonTruth row field op value

mutual

theorem meaning_buildFilter (htest : Faithful user now row tests) :
    ∀ (p : SecurityPredicate) (filter : SecurityFilter), p.TestsIn tests →
    buildFilter user now p = .ok filter → filter.meaning row = p.truth user now row
  | .test t, _, .test ht, h => by
    obtain ⟨c, hc, rfl⟩ := map_eq_ok h
    rw [truth, hc]
    exact htest t ht _ _ _ hc
  | .roleBased _ allowedValues, _, _, h => by
    cases h
    rw [truth]
    cases hasAccess user allowedValues <;> rfl
  | .and ps, _, .and hps, h => by
    obtain ⟨parts, hparts, rfl⟩ := map_eq_ok h
    rw [truth, ← map_meaning_buildFilters htest ps parts hps hparts,
      SecurityFilter.all, SecurityFilter.meaning_combine kleene_and, isEmpty_buildFilters hparts]
  | .or ps, _, .or hps, h => by
    obtain ⟨parts, hparts, rfl⟩ := map_eq_ok h
    rw [truth, ← map_meaning_buildFilters htest ps parts hps hparts,
      SecurityFilter.any, SecurityFilter.meaning_combine kleene_or]
    cases parts <;> rfl
  | .not p, _, .not hp, h => by
    obtain ⟨inner, hinner, rfl⟩ := map_eq_ok h
    rw [SecurityFilter.meaning_negate, meaning_buildFilter htest p inner hp hinner, truth]
  | .alwaysAllow, _, _, h | .alwaysDeny, _, _, h => by
    cases h
    rfl

theorem map_meaning_buildFilters (htest : Faithful user now row tests) :
    ∀ (ps : List SecurityPredicate) (parts : List SecurityFilter), (∀ p ∈ ps, p.TestsIn tests) →
    buildFilters user now ps = .ok parts →
    parts.map (SecurityFilter.meaning row) = truths user now row ps
  | [], _, _, h => by
    cases h
    rfl
  | p :: rest, parts, hps, h => by
    obtain ⟨part, others, hp, hrest, rfl⟩ := buildFilters_cons h
    rw [map_cons, truths, meaning_buildFilter htest p part (hps p mem_cons_self) hp,
      map_meaning_buildFilters htest rest others (fun q hq => hps q (mem_cons_of_mem p hq)) hrest]

end

end Lowering

/-- Every predicate over some tests that lowers admits a row only if it is true of the row, if and
    only if none of the tests lowers to false for a field the row lacks. -/
theorem lowering_admits_only_true_iff (user : UserContext) (now : Int64)
    (row : String → Option Json) (tests : RowTest → Prop)
    (hvalue : ∀ t, tests t → ∀ field op value,
      t.comparison user now = .ok (field, op, value) → value.isNull = false) :
    (∀ p : SecurityPredicate, p.TestsIn tests → ∀ filter, buildFilter user now p = .ok filter →
        filter.admits row = true → p.truth user now row = some true) ↔
      ∀ t, tests t → ∀ field op value, t.comparison user now = .ok (field, op, value) →
        lacks row field = true → decidedWithoutValue row field op value = false := by
  constructor
  · intro honly t ht field op value hc hlacks
    refine Bool.eq_false_iff.2 (fun hdecided => ?_)
    -- the negation of the test is admitted and unknown
    have hmeaning := meaning_comparison_of_lacks hlacks op (hvalue t ht field op value hc)
    rw [if_pos hdecided] at hmeaning
    have htrue := honly (.not (.test t)) (.not (.test ht))
      (SecurityFilter.comparison field (convertOperator op) value).negate
      (by rw [buildFilter, buildFilter, hc]; rfl)
      (by rw [SecurityFilter.admits_iff, SecurityFilter.meaning_negate, hmeaning]; rfl)
    rw [truth, truth, hc] at htrue
    simp [comparisonTruth, hlacks] at htrue
  · intro hundecided p hp filter hfilter hadmits
    rw [← meaning_buildFilter (fun t ht field op value hc => ?_) p filter hp hfilter]
    · exact filter.admits_iff.1 hadmits
    · cases hlacks : lacks row field with
      | false =>
        rw [meaning_comparison, comparisonTruth, hlacks]
        cases hfield : row field with
        | none => simp [lacks, hfield, Json.isNull] at hlacks
        | some jsonVal =>
          rw [strictComparison_convert hfield]
          cases op <;> rfl
      | true =>
        rw [meaning_comparison_of_lacks hlacks op (hvalue t ht field op value hc),
          hundecided t ht field op value hc hlacks, comparisonTruth, hlacks]
        rfl

/-- `NOT a = 'eng'` of a row with another value. -/
theorem lowering_admits_only_true_negated_equality :
    SecurityPredicate.truth ⟨"u", none, [], fun _ => none⟩ 0 (rowOf (.str "hr"))
      (.not (.test (.customFilter "a" .equals (.literal (.str "eng"))))) = some true :=
  (lowering_admits_only_true_iff ⟨"u", none, [], fun _ => none⟩ 0 (rowOf (.str "hr"))
    (fun t => t = .customFilter "a" .equals (.literal (.str "eng")))
    (by rintro _ rfl field op value hc; cases hc; rfl)).2
      (by rintro _ rfl field op value hc _; cases hc; rfl)
      _ (.not (.test rfl)) _ rfl (by rfl)

/-- `NOT dept <> 'eng'` admits a row without a department, of which it is unknown. -/
theorem negated_inequality_widens : (buildFilter ⟨"u", none, [], fun _ => none⟩ 0
        (.not (.test (.customFilter "dept" .notEquals (.literal (.str "eng")))))).toOption.map
          (SecurityFilter.admits (fun _ => none)) = some true ∧
      SecurityPredicate.truth ⟨"u", none, [], fun _ => none⟩ 0 (fun _ => none)
        (.not (.test (.customFilter "dept" .notEquals (.literal (.str "eng"))))) = none := by
  decide

end ProximaDb.Security
