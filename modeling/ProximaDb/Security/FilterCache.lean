/-
  ProximaDb.Security.FilterCache

  The row-security service with its cache of results. A result is kept under the user id, the
  collection and the operation, and forgotten when a policy of the collection changes.
-/
import ProximaDb.Security.RowPolicy

namespace ProximaDb.Security

open ProximaDb.Pax List

/-! ## Policies -/

inductive Operation
  | read
  | write
  | delete
  | all
  deriving DecidableEq

def Operation.matches (op requested : Operation) : Bool := op = .all || op = requested

def Operation.debug : Operation → String
  | .read => "Read"
  | .write => "Write"
  | .delete => "Delete"
  | .all => "All"

structure RlsPolicy where
  name : String
  collection : String
  operations : List Operation
  predicate : SecurityPredicate
  enabled : Bool
  priority : Int

def RlsPolicy.appliesToOperation (p : RlsPolicy) (operation : Operation) : Bool :=
  p.enabled && p.operations.any (·.matches operation)

structure RlsFilterResult where
  filtersApplied : Bool := false
  filter : Option FilterExpression := none
  appliedPolicies : List String := []
  accessDenied : Bool := false
  denialReason : Option String := none

namespace RlsFilterResult

def noFilters : RlsFilterResult := {}

def denied (reason : String) : RlsFilterResult where
  filtersApplied := true
  filter := some SecurityFilter.unsatisfiableExpression
  accessDenied := true
  denialReason := some reason

def withFilter (filter : FilterExpression) (policies : List String) : RlsFilterResult where
  filtersApplied := true
  filter := some filter
  appliedPolicies := policies

end RlsFilterResult

/-! ## The service -/

structure RlsConfig where
  enabled : Bool
  cacheTtlSeconds : Nat
  maxCacheEntries : Nat

structure CachedFilter where
  filter : RlsFilterResult
  cachedAt : Int64

structure CollectionRls where
  policies : String → List RlsPolicy := fun _ => []
  cache : List (String × CachedFilter) := []

/-- A call of `apply_security_filter`. -/
structure Call where
  user : UserContext
  collection : String
  operation : Operation

def Call.cacheKey (c : Call) : String :=
  c.user.userId ++ ":" ++ c.collection ++ ":" ++ c.operation.debug

/-- Lowered filters, and the names of the policies that restrict anything. -/
def lowerPolicies (user : UserContext) (now : Int64) :
    List RlsPolicy → Except String (List SecurityFilter × List String)
  | [] => .ok ([], [])
  | p :: rest => do
    let filter ← buildFilter user now p.predicate
    let (lowered, names) ← lowerPolicies user now rest
    return (filter :: lowered, if filter.isConstant true then names else p.name :: names)

/-- The result from the policies, and whether it is cached. -/
def evaluatePolicies (policies : List RlsPolicy) (c : Call) (now : Int64) :
    RlsFilterResult × Bool :=
  let applicable := policies.filter (·.appliesToOperation c.operation)
  if applicable.isEmpty then (.noFilters, false)
  else
    match lowerPolicies c.user now applicable with
    | .error e => (.denied ("Security policy evaluation failed: " ++ e), false)
    | .ok (lowered, names) =>
      match (SecurityFilter.all lowered).intoExpression with
      | none => (.noFilters, true)
      | some expr => (.withFilter expr names, true)

namespace CollectionRls

variable (cfg : RlsConfig) (s : CollectionRls)

def isFresh (now : Int64) (cached : CachedFilter) : Bool :=
  decide (now.toInt - cached.cachedAt.toInt < cfg.cacheTtlSeconds)

def getCachedFilter (key : String) (now : Int64) : Option RlsFilterResult :=
  ((s.cache.lookup key).filter (isFresh cfg now)).map CachedFilter.filter

def cacheFilter (key : String) (result : RlsFilterResult) (now : Int64) : CollectionRls :=
  let kept := if cfg.maxCacheEntries ≤ s.cache.length then
      s.cache.filter (fun entry => isFresh cfg now entry.2)
    else s.cache
  { s with cache := (key, ⟨result, now⟩) :: kept.filter (fun entry => entry.1 != key) }

def invalidateCollectionCache (collection : String) : CollectionRls :=
  { s with cache := s.cache.filter (fun entry =>
      !entry.1.toList.tails.any (":" ++ collection).toList.isPrefixOf) }

/-- A second policy of the same name is refused. -/
def registerPolicy (p : RlsPolicy) : CollectionRls :=
  if (s.policies p.collection).any (fun q => q.name == p.name) then s
  else
    let sorted := (s.policies p.collection ++ [p]).insertionSort (fun a b => a.priority ≤ b.priority)
    invalidateCollectionCache { s with policies := Function.update s.policies p.collection sorted }
      p.collection

def removePolicy (collection name : String) : CollectionRls :=
  let kept := (s.policies collection).filter (fun p => p.name != name)
  if kept.length = (s.policies collection).length then s
  else
    invalidateCollectionCache { s with policies := Function.update s.policies collection kept }
      collection

def applySecurityFilter (c : Call) (now : Int64) : RlsFilterResult × CollectionRls :=
  if !cfg.enabled then (.noFilters, s)
  else
    match s.getCachedFilter cfg c.cacheKey now with
    | some cached => (cached, s)
    | none =>
      let (result, cached) := evaluatePolicies (s.policies c.collection) c now
      (result, if cached then s.cacheFilter cfg c.cacheKey result now else s)

end CollectionRls

open CollectionRls

inductive RlsEvent
  | register (p : RlsPolicy)
  | remove (collection name : String)
  | apply (c : Call) (now : Int64)

def CollectionRls.step (cfg : RlsConfig) (s : CollectionRls) : RlsEvent → CollectionRls
  | .register p => s.registerPolicy p
  | .remove collection name => s.removePolicy collection name
  | .apply c now => (s.applySecurityFilter cfg c now).2

/-! ## Policies without a clock -/

def Timeless : RowTest → Prop
  | .timeBasedAccess _ => False
  | .customFilter _ _ .currentTimestamp => False
  | _ => True

theorem RowTest.comparison_timeless {t : RowTest} (h : Timeless t) (user : UserContext)
    (now now' : Int64) : t.comparison user now = t.comparison user now' := by
  cases t with
  | timeBasedAccess => exact h.elim
  | customFilter field op source =>
    cases source with
    | currentTimestamp => exact h.elim
    | _ => rfl
  | _ => rfl

section Timeless

variable (user : UserContext) (now now' : Int64)

mutual

theorem buildFilter_timeless : ∀ {p : SecurityPredicate}, p.TestsIn Timeless →
    buildFilter user now p = buildFilter user now' p
  | .test t, .test h => by
    rw [buildFilter, buildFilter, RowTest.comparison_timeless h user now now']
  | .and ps, .and h | .or ps, .or h => by
    rw [buildFilter, buildFilter, buildFilters_timeless h]
  | .not p, .not h => by rw [buildFilter, buildFilter, buildFilter_timeless h]
  | .roleBased _ _, _ | .alwaysAllow, _ | .alwaysDeny, _ => rfl

theorem buildFilters_timeless : ∀ {ps : List SecurityPredicate},
    (∀ p ∈ ps, p.TestsIn Timeless) → buildFilters user now ps = buildFilters user now' ps
  | [], _ => rfl
  | p :: rest, h => by
    rw [buildFilters, buildFilters, buildFilter_timeless (h p mem_cons_self),
      buildFilters_timeless (fun q hq => h q (mem_cons_of_mem p hq))]

end

theorem lowerPolicies_timeless {policies : List RlsPolicy}
    (h : ∀ p ∈ policies, p.predicate.TestsIn Timeless) :
    lowerPolicies user now policies = lowerPolicies user now' policies := by
  induction policies with
  | nil => rfl
  | cons p rest ih =>
    rw [lowerPolicies, lowerPolicies, buildFilter_timeless user now now' (h p mem_cons_self),
      ih (fun q hq => h q (mem_cons_of_mem p hq))]

end Timeless

theorem evaluatePolicies_timeless {policies : List RlsPolicy}
    (h : ∀ p ∈ policies, p.predicate.TestsIn Timeless) (c : Call) (now now' : Int64) :
    evaluatePolicies policies c now = evaluatePolicies policies c now' := by
  unfold evaluatePolicies
  dsimp only
  rw [lowerPolicies_timeless c.user now now' (fun p hp => h p (mem_filter.1 hp).1)]

/-! ## What the cache holds -/

/-- Every entry is what each caller of its key gets from the policies, at any time. -/
structure Serves (callers : Call → Prop) (s : CollectionRls) : Prop where
  timeless : ∀ collection, ∀ p ∈ s.policies collection, p.predicate.TestsIn Timeless
  cached : ∀ entry ∈ s.cache, ∀ c, callers c → c.cacheKey = entry.1 → ∀ now,
    evaluatePolicies (s.policies c.collection) c now = (entry.2.filter, true)

namespace Serves

variable {callers : Call → Prop} {s : CollectionRls}

/-- The policies of a collection change, and what was cached for it is forgotten. -/
theorem changed (h : Serves callers s) (collection : String) {policies : List RlsPolicy}
    (htimeless : ∀ p ∈ policies, p.predicate.TestsIn Timeless) :
    Serves callers (invalidateCollectionCache
      { s with policies := Function.update s.policies collection policies } collection) := by
  constructor
  · intro collection' p hp
    change p ∈ Function.update s.policies collection policies collection' at hp
    rw [Function.update_apply] at hp
    split_ifs at hp
    · exact htimeless p hp
    · exact h.timeless collection' p hp
  · intro entry hentry c hc hkey now
    obtain ⟨hold, hkept⟩ := mem_filter.1 hentry
    have hother : c.collection ≠ collection := by
      -- the key has the collection behind a colon
      rintro rfl
      have hcontains : entry.1.toList.tails.any (":" ++ c.collection).toList.isPrefixOf = true := by
        refine any_eq_true.2 ⟨(":" ++ c.collection ++ ":" ++ c.operation.debug).toList,
          (mem_tails _ _).2 ⟨c.user.userId.toList, ?_⟩, ?_⟩
        · simp [← hkey, Call.cacheKey]
        · exact isPrefixOf_iff_prefix.2 ⟨(":" ++ c.operation.debug).toList, by simp⟩
      rw [hcontains] at hkept
      cases hkept
    show evaluatePolicies (Function.update s.policies collection policies c.collection) c now = _
    rw [Function.update_of_ne hother]
    exact h.cached entry hold c hc hkey now

theorem apply (h : Serves callers s) (cfg : RlsConfig) {c : Call} {now : Int64} (hc : callers c)
    (hkeys : ∀ a b, callers a → callers b → a.cacheKey = b.cacheKey → a = b) :
    Serves callers (s.applySecurityFilter cfg c now).2 := by
  unfold applySecurityFilter
  split_ifs with henabled
  · exact h
  · split
    · exact h
    · dsimp only
      split_ifs with hcached
      · refine ⟨h.timeless, fun entry hentry a ha hkey now' => ?_⟩
        rcases mem_cons.1 hentry with rfl | hold
        · rw [hkeys a c ha hc hkey]
          exact (evaluatePolicies_timeless (h.timeless _) c now' now).trans (Prod.ext rfl hcached)
        · have hin : entry ∈ s.cache := by
            have := (mem_filter.1 hold).1
            split_ifs at this
            · exact (mem_filter.1 this).1
            · exact this
          exact h.cached entry hin a ha hkey now'
      · exact h

end Serves

/-- In every run whose callers differ in their keys or are the same, and whose policies read no
    clock, a caller gets what a service with the same policies and an empty cache would return. -/
theorem cached_result_fresh (cfg : RlsConfig) (callers : Call → Prop)
    (hkeys : ∀ a b, callers a → callers b → a.cacheKey = b.cacheKey → a = b)
    (events : List RlsEvent)
    (hevents : ∀ e ∈ events, match e with
      | .register p => p.predicate.TestsIn Timeless
      | .remove _ _ => True
      | .apply c _ => callers c)
    (c : Call) (hc : callers c) (now : Int64) :
    ((events.foldl (CollectionRls.step cfg) {}).applySecurityFilter cfg c now).1 =
      (({ events.foldl (CollectionRls.step cfg) {} with cache := [] } :
        CollectionRls).applySecurityFilter cfg c now).1 := by
  have hs : Serves callers (events.foldl (step cfg) {}) := by
    refine events.foldlRecOn _ ⟨nofun, nofun⟩ (fun s hs e hmem => ?_)
    have he := hevents e hmem
    cases e with
    | register p =>
      rw [step, registerPolicy]
      split_ifs
      · exact hs
      · refine hs.changed p.collection (fun q hq => ?_)
        rcases mem_append.1 ((mem_insertionSort _).1 hq) with hold | hnew
        · exact hs.timeless _ q hold
        · exact mem_singleton.1 hnew ▸ he
    | remove collection name =>
      rw [step, removePolicy]
      split_ifs
      · exact hs
      · exact hs.changed collection (fun p hp => hs.timeless _ p (mem_filter.1 hp).1)
    | apply c now => exact hs.apply cfg he hkeys
  generalize events.foldl (step cfg) {} = s at hs ⊢
  rw [applySecurityFilter, applySecurityFilter]
  split_ifs
  · rfl
  · cases hcached : s.getCachedFilter cfg c.cacheKey now with
    | none => rfl
    | some result =>
      obtain ⟨entry, hentry, rfl⟩ := Option.map_eq_some_iff.1 hcached
      obtain ⟨before, after, hsplit, -⟩ :=
        lookup_eq_some_iff.1 (Option.filter_eq_some_iff.1 hentry).1
      have hin : (c.cacheKey, entry) ∈ s.cache := by
        rw [hsplit]
        simp
      rw [show getCachedFilter cfg { s with cache := [] } c.cacheKey now = none from rfl]
      exact (congrArg Prod.fst (hs.cached _ hin c hc rfl now)).symm

def tenantPolicy : RlsPolicy :=
  ⟨"isolation", "docs", [.all], .test (.tenantIsolation "tenant"), true, 100⟩

def tenantCall (tenant : String) : Call :=
  ⟨⟨"u", some tenant, [], fun _ => none⟩, "docs", .read⟩

/-- A call of tenant `a`, with the configuration's defaults. -/
def afterTenantA : CollectionRls :=
  [.register tenantPolicy, .apply (tenantCall "a") 0].foldl
    (CollectionRls.step ⟨true, 300, 10000⟩) {}

/-- A user who calls again gets the same filter from the cache. -/
theorem cached_result_fresh_again :
    (afterTenantA.applySecurityFilter ⟨true, 300, 10000⟩ (tenantCall "a") 1).1 =
      (({ afterTenantA with cache := [] } : CollectionRls).applySecurityFilter ⟨true, 300, 10000⟩
        (tenantCall "a") 1).1 :=
  cached_result_fresh ⟨true, 300, 10000⟩ (· = tenantCall "a") (fun _ _ ha hb _ => ha.trans hb.symm) _
    (by simp only [forall_mem_cons]; exact ⟨.test trivial, trivial, nofun⟩) _ rfl 1

/-- The key leaves the tenant out: after a call from tenant `a` the same user id of tenant `b` gets
    a filter that admits the rows of `a`. Nor does it tell the collections `b:c` and `c` apart. -/
theorem cache_ignores_tenant :
    (afterTenantA.applySecurityFilter ⟨true, 300, 10000⟩ (tenantCall "b") 1).1.filter.map
        (evaluateFilterResolvedTypeStrict (fun _ => some (.str "a"))) = some true ∧
      (({ afterTenantA with cache := [] } : CollectionRls).applySecurityFilter ⟨true, 300, 10000⟩
        (tenantCall "b") 1).1.filter.map
          (evaluateFilterResolvedTypeStrict (fun _ => some (.str "a"))) = some false ∧
      Call.cacheKey ⟨⟨"a", none, [], fun _ => none⟩, "b:c", .read⟩ =
        Call.cacheKey ⟨⟨"a:b", none, [], fun _ => none⟩, "c", .read⟩ := by
  decide

end ProximaDb.Security
