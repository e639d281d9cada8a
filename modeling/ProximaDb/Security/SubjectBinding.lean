/-
  ProximaDb.Security.SubjectBinding

  Stored row predicates that refer to the acting subject. A comparison with the text `$subject.x`
  is compared with the subject's attribute `x` instead, as long as the server vouches for it; such
  a text inside a list or an object is left as it is.
-/
import ProximaDb.Pax.ThreeValued

namespace ProximaDb.Security

open ProximaDb.Pax Option

/-! ## Subjects -/

inductive AttrValue
  | str (s : String)
  | int (i : Int64)
  | bool (b : Bool)
  | list (items : List String)

inductive AttrSource
  | claim
  | serverResolved

structure Attr where
  value : AttrValue
  source : AttrSource

/-- The id and the tenant of the subject are not read here. -/
structure SubjectAttributes where
  attrs : String → Option Attr := fun _ => none

namespace SubjectAttributes

def withClaim (subject : SubjectAttributes) (key : String) (value : AttrValue) :
    SubjectAttributes :=
  ⟨Function.update subject.attrs key (some ⟨value, .claim⟩)⟩

def withResolved (subject : SubjectAttributes) (key : String) (value : AttrValue) :
    SubjectAttributes :=
  ⟨Function.update subject.attrs key (some ⟨value, .serverResolved⟩)⟩

def loadBearing (subject : SubjectAttributes) (key : String) : Option AttrValue :=
  match subject.attrs key with
  | some ⟨value, .serverResolved⟩ => some value
  | _ => none

end SubjectAttributes

def attrToJson : AttrValue → Json
  | .str s => .str s
  | .int i => .num (.ofI64 i)
  | .bool b => .bool b
  | .list items => .array (items.map .str)

/-! ## Substitution -/

def subjectPrefix : List Char := "$subject.".toList

def stripSubject (literal : String) : Option String :=
  if subjectPrefix.isPrefixOf literal.toList then
    some (.ofList (literal.toList.drop subjectPrefix.length))
  else none

section Substitute

-- the subject enters by what `load_bearing` says of it
variable (render : AttrValue → Json) (loadBearing : String → Option AttrValue)

def substituteValue : Json → Option Json
  | .str literal =>
    match stripSubject literal with
    | some attr => (loadBearing attr).map render
    | none => some (.str literal)
  | other => some other

mutual

def substituteSubject : FilterExpression → Option FilterExpression
  | .comparison field operator value =>
    (substituteValue render loadBearing value).map (.comparison field operator ·)
  | .and parts => (substituteParts parts).map .and
  | .or parts => (substituteParts parts).map .or
  | .not inner => (substituteSubject inner).map .not

def substituteParts : List FilterExpression → Option (List FilterExpression)
  | [] => some []
  | e :: rest => (substituteSubject e).bind (fun e' => (substituteParts rest).map (e' :: ·))

end

def unsatisfiableFilter : FilterExpression :=
  .and [.comparison "__proximadb_abac_unsatisfiable__" .isNull .null,
    .comparison "__proximadb_abac_unsatisfiable__" .isNotNull .null]

variable {Id : Type} (store : Id → Option FilterExpression)

/-- `compile_security_filter`, with the subject's values written by `render`. -/
def compileWith (refs : List Id) : Option FilterExpression :=
  if refs.isEmpty then none
  else
    match (refs.mapM store).bind (substituteParts render loadBearing) with
    | none => some unsatisfiableFilter
    | some [e] => some e
    | some resolved => some (.and resolved)

end Substitute

def compileSecurityFilter {Id : Type} (refs : List Id) (store : Id → Option FilterExpression)
    (subject : SubjectAttributes) : Option FilterExpression :=
  compileWith attrToJson subject.loadBearing store refs

/-! ## Placeholders -/

mutual

/-- The texts in a value. -/
def texts : Json → List String
  | .str s => [s]
  | .array items => textsOfItems items
  | .object fields => textsOfFields fields
  | _ => []

def textsOfItems : List Json → List String
  | [] => []
  | v :: rest => texts v ++ textsOfItems rest

def textsOfFields : List (String × Json) → List String
  | [] => []
  | (_, v) :: rest => texts v ++ textsOfFields rest

end

mutual

/-- The values an expression compares with. -/
def values : FilterExpression → List Json
  | .comparison _ _ value => [value]
  | .and parts | .or parts => valuesOfParts parts
  | .not inner => values inner

def valuesOfParts : List FilterExpression → List Json
  | [] => []
  | e :: rest => values e ++ valuesOfParts rest

end

def MentionsSubject (v : Json) : Prop := ∃ s ∈ texts v, (stripSubject s).isSome

/-! ## Substitution value by value -/

theorem mapM_eq_none {α β : Type} {f : α → Option β} {l : List α} :
    l.mapM f = none ↔ ∃ a ∈ l, f a = none := by
  induction l with
  | nil => simp
  | cons a l ih => cases h : f a <;> cases h' : l.mapM f <;> simp_all

theorem mem_of_mapM {α β : Type} {f : α → Option β} {l : List α} {l' : List β}
    (h : l.mapM f = some l') :
    (∀ a ∈ l, ∃ b ∈ l', f a = some b) ∧ ∀ b ∈ l', ∃ a ∈ l, f a = some b := by
  induction l generalizing l' with
  | nil =>
    cases h
    simp
  | cons a l ih =>
    cases hb : f a <;> cases hl : l.mapM f <;> simp_all
    rcases h with rfl
    simp_all

section Lemmas

variable {render : AttrValue → Json} {loadBearing : String → Option AttrValue} {v : Json}

mutual

theorem map_values_substituteSubject : ∀ e : FilterExpression,
    (substituteSubject render loadBearing e).map values =
      (values e).mapM (substituteValue render loadBearing)
  | .comparison _ _ value => by
    rw [substituteSubject, values]
    cases h : substituteValue render loadBearing value <;> simp [h, values]
  | .and parts | .or parts => by
    rw [substituteSubject, values, ← map_valuesOfParts_substituteParts parts, map_map]
    rfl
  | .not inner => by
    rw [substituteSubject, values, ← map_values_substituteSubject inner, map_map]
    rfl

theorem map_valuesOfParts_substituteParts : ∀ parts : List FilterExpression,
    (substituteParts render loadBearing parts).map valuesOfParts =
      (valuesOfParts parts).mapM (substituteValue render loadBearing)
  | [] => rfl
  | e :: rest => by
    rw [substituteParts, valuesOfParts, List.mapM_append, ← map_values_substituteSubject e,
      ← map_valuesOfParts_substituteParts rest]
    cases substituteSubject render loadBearing e <;>
      cases substituteParts render loadBearing rest <;> rfl

end

/-- What is left of a value when the subject's are blanked out. -/
theorem mentionsSubject_blanked {v v' : Json}
    (h : substituteValue (fun _ => .null) loadBearing v = some v') :
    MentionsSubject v' ↔ MentionsSubject v ∧ v.asStr = none := by
  cases v with
  | str literal =>
    rw [substituteValue] at h
    cases hstrip : stripSubject literal with
    | none =>
      rw [hstrip] at h
      cases h
      simp [MentionsSubject, texts, hstrip, Json.asStr]
    | some attr =>
      rw [hstrip] at h
      obtain ⟨_, -, rfl⟩ := map_eq_some_iff.1 h
      simp [MentionsSubject, texts, Json.asStr]
  | _ =>
    cases h
    simp [Json.asStr]

theorem mem_valuesOfParts {parts : List FilterExpression} :
    v ∈ valuesOfParts parts ↔ ∃ e ∈ parts, v ∈ values e := by
  induction parts with
  | nil => simp [valuesOfParts]
  | cons e rest ih => simp [valuesOfParts, ih]

theorem substituteValue_eq_none : substituteValue render loadBearing v = none ↔
    ∃ s attr, v = .str s ∧ stripSubject s = some attr ∧ loadBearing attr = none := by
  cases v with
  | str literal => cases h : stripSubject literal <;> simp [substituteValue, h]
  | _ => simp [substituteValue]

variable {Id : Type} {store : Id → Option FilterExpression} {refs : List Id}

/-- The predicate is stored, and its placeholders that are whole values have a value the server
    vouches for. -/
def Resolved (loadBearing : String → Option AttrValue) (store : Id → Option FilterExpression)
    (id : Id) : Prop :=
  ∃ e, store id = some e ∧ ∀ s attr, .str s ∈ values e → stripSubject s = some attr →
    loadBearing attr ≠ none

theorem compileWith_of_not_resolved (h : ∃ id ∈ refs, ¬ Resolved loadBearing store id) :
    compileWith render loadBearing store refs = some unsatisfiableFilter := by
  obtain ⟨id, hid, hnot⟩ := h
  have hnone : (refs.mapM store).bind (substituteParts render loadBearing) = none := by
    cases hstored : refs.mapM store with
    | none => rfl
    | some stored =>
      obtain ⟨e, he, hstore⟩ := (mem_of_mapM hstored).1 id hid
      have hvalue : ∃ v ∈ valuesOfParts stored, substituteValue render loadBearing v = none := by
        simp only [Resolved, not_exists, not_and, not_forall, not_not] at hnot
        obtain ⟨s, attr, hs, hstrip, hnone⟩ := hnot e hstore
        exact ⟨.str s, mem_valuesOfParts.2 ⟨e, he, hs⟩,
          substituteValue_eq_none.2 ⟨s, attr, rfl, hstrip, hnone⟩⟩
      rw [← mapM_eq_none, ← map_valuesOfParts_substituteParts, map_eq_none_iff] at hvalue
      exact hvalue
  rw [compileWith, if_neg (by simp [List.ne_nil_of_mem hid]), hnone]

variable (render) in
theorem compileWith_of_resolved (hrefs : refs ≠ [])
    (h : ∀ id ∈ refs, Resolved loadBearing store id) :
    ∃ e', compileWith render loadBearing store refs = some e' ∧
      (∀ id ∈ refs, ∀ e, store id = some e → ∀ v ∈ values e, ∃ v' ∈ values e',
        substituteValue render loadBearing v = some v') ∧
      ∀ v' ∈ values e', ∃ id ∈ refs, ∃ e, store id = some e ∧ ∃ v ∈ values e,
        substituteValue render loadBearing v = some v' := by
  obtain ⟨stored, hstored⟩ : ∃ stored, refs.mapM store = some stored := by
    refine ne_none_iff_exists'.1 (fun hnone => ?_)
    obtain ⟨id, hid, hmissing⟩ := mapM_eq_none.1 hnone
    obtain ⟨e, he, -⟩ := h id hid
    rw [hmissing] at he
    cases he
  obtain ⟨hmem, hof⟩ := mem_of_mapM hstored
  obtain ⟨new, hnew⟩ : ∃ new, (valuesOfParts stored).mapM (substituteValue render loadBearing) =
      some new := by
    refine ne_none_iff_exists'.1 (fun hnone => ?_)
    obtain ⟨v, hv, hvalue⟩ := mapM_eq_none.1 hnone
    obtain ⟨s, attr, rfl, hstrip, hmissing⟩ := substituteValue_eq_none.1 hvalue
    obtain ⟨e, he, hve⟩ := mem_valuesOfParts.1 hv
    obtain ⟨id, hid, hstore⟩ := hof e he
    obtain ⟨e', he', hresolved⟩ := h id hid
    cases hstore.symm.trans he'
    exact hresolved s attr hve hstrip hmissing
  obtain ⟨resolved, hresolved, hvalues⟩ := map_eq_some_iff.1
    ((map_valuesOfParts_substituteParts stored).trans hnew)
  obtain ⟨e', hcompile, he'⟩ : ∃ e', compileWith render loadBearing store refs = some e' ∧
      values e' = new := by
    rw [compileWith, if_neg (by simpa using hrefs), hstored, bind_some, hresolved, ← hvalues]
    match resolved with
    | [] => exact ⟨_, rfl, rfl⟩
    | [e] => exact ⟨e, rfl, (List.append_nil _).symm⟩
    | _ :: _ :: _ => exact ⟨_, rfl, rfl⟩
  obtain ⟨hto, hfrom⟩ := mem_of_mapM hnew
  rw [← he'] at hto hfrom
  refine ⟨e', hcompile, fun id hid e he v hv => ?_, fun v' hv' => ?_⟩
  · obtain ⟨e₀, he₀, hstore⟩ := hmem id hid
    cases he.symm.trans hstore
    exact hto v (mem_valuesOfParts.2 ⟨e, he₀, hv⟩)
  · obtain ⟨v, hv, hsub⟩ := hfrom v' hv'
    obtain ⟨e, he, hve⟩ := mem_valuesOfParts.1 hv
    obtain ⟨id, hid, hstore⟩ := hof e he
    exact ⟨id, hid, e, hstore, v, hve, hsub⟩

end Lemmas

/-! ## When placeholders are bound -/

/-- A placeholder somewhere in the value that has no value the server vouches for. -/
def Unresolved (subject : SubjectAttributes) (v : Json) : Prop :=
  ∃ s ∈ texts v, ∃ attr, stripSubject s = some attr ∧ subject.loadBearing attr = none

/-- A filter does not depend on what is only claimed, has no placeholder of the stored predicates
    left (with the subject's values blanked out it has none), and admits no row if a reference is
    missing or a placeholder is not resolved. -/
structure Bound {Id : Type} (refs : List Id) (store : Id → Option FilterExpression)
    (subject : SubjectAttributes) : Prop where
  claims : ∀ subject' : SubjectAttributes,
    (∀ key, subject'.loadBearing key = subject.loadBearing key) →
    compileSecurityFilter refs store subject' = compileSecurityFilter refs store subject
  placeholders : ∀ e, compileWith (fun _ => .null) subject.loadBearing store refs = some e →
    ∀ v ∈ values e, ¬ MentionsSubject v
  denies : ((∃ id ∈ refs, store id = none) ∨
      ∃ id ∈ refs, ∃ e, store id = some e ∧ ∃ v ∈ values e, Unresolved subject v) →
    ∃ e, compileSecurityFilter refs store subject = some e ∧ ∀ row,
      evaluateFilterResolved row e = false ∧ evaluateFilterResolvedTypeStrict row e = false

theorem unsatisfiableFilter_admits_none (row : String → Option Json) :
    evaluateFilterResolved row unsatisfiableFilter = false ∧
      evaluateFilterResolvedTypeStrict row unsatisfiableFilter = false := by
  rcases h : ((row "__proximadb_abac_unsatisfiable__").getD .null).isNull <;>
    simp [unsatisfiableFilter, evaluateFilterResolved, evaluateAll, evaluateComparison, h,
      evaluateFilterResolvedTypeStrict, evaluateFilterResolvedTypeStrictTri, kleene, kleeneAll,
      strictComparison, ComparisonOperator.isNullTest]

/-- Placeholders are bound if and only if, where all references are resolved, none of the stored
    predicates has one inside a list or an object. -/
theorem subject_bound_iff {Id : Type} (refs : List Id) (store : Id → Option FilterExpression)
    (subject : SubjectAttributes) :
    Bound refs store subject ↔ ((∀ id ∈ refs, Resolved subject.loadBearing store id) →
      ∀ id ∈ refs, ∀ e, store id = some e → ∀ v ∈ values e, MentionsSubject v →
        v.asStr.isSome) := by
  constructor
  · intro h hresolved id hid e he v hv hmentions
    refine isSome_iff_ne_none.2 (fun hinside => ?_)
    obtain ⟨e', hcompile, hto, -⟩ := compileWith_of_resolved (fun _ => .null)
      (List.ne_nil_of_mem hid) hresolved
    obtain ⟨v', hv', hsub⟩ := hto id hid e he v hv
    exact h.placeholders e' hcompile v' hv' ((mentionsSubject_blanked hsub).2 ⟨hmentions, hinside⟩)
  · intro h
    refine ⟨fun subject' hsame => ?_, fun e hcompile v' hv' hmentions => ?_, fun hbroken => ?_⟩
    · rw [compileSecurityFilter, compileSecurityFilter, funext hsame]
    · by_cases hresolved : ∀ id ∈ refs, Resolved subject.loadBearing store id
      · have hrefs : refs ≠ [] := by rintro rfl; cases hcompile
        obtain ⟨e', hcompile', -, hfrom⟩ := compileWith_of_resolved (fun _ => .null)
          hrefs hresolved
        cases hcompile.symm.trans hcompile'
        obtain ⟨id, hid, e₀, he₀, v, hv, hsub⟩ := hfrom v' hv'
        obtain ⟨hv₀, hinside⟩ := (mentionsSubject_blanked hsub).1 hmentions
        have hstr := h hresolved id hid e₀ he₀ v hv hv₀
        rw [hinside] at hstr
        cases hstr
      · rw [compileWith_of_not_resolved (by simpa using hresolved)] at hcompile
        cases hcompile
        simp_all [unsatisfiableFilter, values, valuesOfParts, MentionsSubject, texts]
    · refine ⟨unsatisfiableFilter, compileWith_of_not_resolved ?_, unsatisfiableFilter_admits_none⟩
      by_contra hresolved
      push Not at hresolved
      rcases hbroken with ⟨id, hid, hmissing⟩ | ⟨id, hid, e, he, v, hv, s, hs, attr, hstrip, hnone⟩
      · obtain ⟨e, he, -⟩ := hresolved id hid
        rw [hmissing] at he
        cases he
      · -- a placeholder without a value is a whole value, and so not resolved
        have hstr := h hresolved id hid e he v hv ⟨s, hs, by rw [hstrip]; rfl⟩
        obtain ⟨e', he', hvouched⟩ := hresolved id hid
        cases he.symm.trans he'
        cases v with
        | str literal =>
          cases List.mem_singleton.1 hs
          exact hvouched s attr hv hstrip hnone
        | _ => cases hstr

theorem loadBearing_withClaim {subject : SubjectAttributes} {key : String}
    (h : subject.loadBearing key = none) (value : AttrValue) :
    (subject.withClaim key value).loadBearing = subject.loadBearing := by
  funext k
  by_cases hk : k = key
  · subst hk
    rw [h]
    simp [SubjectAttributes.withClaim, SubjectAttributes.loadBearing]
  · simp [SubjectAttributes.withClaim, SubjectAttributes.loadBearing, Function.update_of_ne hk]

/-- What a subject only claims, of an attribute the server does not vouch for, changes no filter. -/
theorem compileSecurityFilter_withClaim {Id : Type} (refs : List Id)
    (store : Id → Option FilterExpression) {subject : SubjectAttributes} {key : String}
    (h : subject.loadBearing key = none) (value : AttrValue) :
    compileSecurityFilter refs store (subject.withClaim key value) =
      compileSecurityFilter refs store subject := by
  rw [compileSecurityFilter, compileSecurityFilter, loadBearing_withClaim h]

/-- `dept NOT IN ('$subject.dept')` is stored. A subject whose department the server has resolved to
    the row's own is admitted by comparison with the text of the placeholder. -/
theorem nested_placeholder_survives : compileSecurityFilter [0]
        (fun _ => some (.comparison "dept" .notIn (.array [.str "$subject.dept"])))
        (({} : SubjectAttributes).withResolved "dept" (.str "eng")) =
      some (.comparison "dept" .notIn (.array [.str "$subject.dept"])) ∧
    evaluateFilterResolvedTypeStrict (fun _ => some (.str "eng"))
      (.comparison "dept" .notIn (.array [.str "$subject.dept"])) = true ∧
    (stripSubject "$subject.dept").isSome ∧
    ¬ Bound [0] (fun _ => some (.comparison "dept" .notIn (.array [.str "$subject.dept"])))
      (({} : SubjectAttributes).withResolved "dept" (.str "eng")) :=
  ⟨rfl, by rfl, by rfl, fun h =>
    h.placeholders _ rfl _ (List.mem_singleton_self _) ⟨_, List.mem_cons_self, by rfl⟩⟩

end ProximaDb.Security
