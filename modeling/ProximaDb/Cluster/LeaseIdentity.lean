/-
  ProximaDb.Cluster.LeaseIdentity

  When two names of leases or locks are the same bytes.
-/
import ProximaDb.Cluster.Lease
import ProximaDb.Lib.Traces

namespace ProximaDb.Cluster

open ProximaDb.Lib List ResourceKey Option

/-! ## Components and segments -/

theorem utf8_injective : Function.Injective utf8 := by
  intro s t h
  have := congrArg ofUtf8 h
  rwa [ofUtf8_utf8, ofUtf8_utf8, some.injEq] at this

theorem utf8_append (s t : String) : utf8 (s ++ t) = utf8 s ++ utf8 t := by
  simp [utf8]

theorem encodePathComponent_injective : Function.Injective encodePathComponent :=
  escape_injective.comp utf8_injective

variable (s : String)

theorem decodePathComponent_encode : decodePathComponent (encodePathComponent s) = some s := by
  rw [decodePathComponent, encodePathComponent, unescape_escape, bind_some, ofUtf8_utf8]

theorem not_mem_encodePathComponent {b : UInt8} (h : isUnreserved b = false) (hb : b ≠ 0x25)
    (s : String) : b ∉ encodePathComponent s := by
  intro hmem
  rcases mem_escape hmem with hun | heq
  · rw [h] at hun
    cases hun
  · exact hb heq

theorem slash_not_mem : slash ∉ encodePathComponent s :=
  not_mem_encodePathComponent (by decide) (by decide) s

variable (t : ResourceType)

theorem encode_name : encodePathComponent t.name = utf8 t.name := by
  cases t <;> rfl

theorem name_injective : Function.Injective ResourceType.name := by
  intro t t' h
  cases t <;> cases t' <;> first | rfl | exact absurd h (by decide)

def ResourceIdentifier.components : ResourceIdentifier → List String
  | single id => [id]
  | composite parts => parts
  | hierarchical parent child => [parent, child]

/-- What a key names: an identifier is its parts. -/
def ResourceKey.resource (k : ResourceKey) : String × Option String × ResourceType × List String :=
  (k.tenantId, k.namespaceId, k.resourceType, k.resourceId.components)

/-- The parts as a path shows them: no part is one empty part. -/
def written : List String → List String
  | [] => [""]
  | parts => parts

def ResourceKey.segments (k : ResourceKey) : List String :=
  k.tenantId :: (k.namespaceId.toList ++
    k.resourceType.name :: written k.resourceId.components)

variable (parts : List String) (k k' : ResourceKey)

theorem written_ne_nil : written parts ≠ [] := by
  cases parts <;> simp [written]

theorem toPath_identifier (id : ResourceIdentifier) :
    id.toPath = [slash].intercalate ((written id.components).map encodePathComponent) := by
  cases id with
  | single | hierarchical =>
    simp [ResourceIdentifier.toPath, ResourceIdentifier.components, written, List.intercalate]
  | composite parts =>
    cases parts with
    | nil | cons => rfl

theorem toPath_eq (k : ResourceKey) :
    k.toPath = [slash].intercalate (k.segments.map encodePathComponent) := by
  obtain ⟨tenant, ns, type, id⟩ := k
  have hid : ((written id.components).map encodePathComponent) ≠ [] := by
    simpa using written_ne_nil id.components
  unfold toPath segments
  cases ns with
  | none =>
    simp only [toList_none, nil_append, map_cons]
    rw [intercalate_cons _ (by simp), intercalate_cons _ hid, encode_name, toPath_identifier]
  | some n =>
    simp only [toList_some, singleton_append, map_cons]
    rw [intercalate_cons _ (by simp), intercalate_cons _ (by simp),
      intercalate_cons _ hid, encode_name, toPath_identifier]

theorem slash_not_mem_of_map {segments : List String} :
    ∀ l ∈ segments.map encodePathComponent, slash ∉ l := by
  intro l hl
  obtain ⟨s, -, rfl⟩ := mem_map.1 hl
  exact slash_not_mem s

theorem join_encoded_inj {l m : List String} (hl : l ≠ []) (hm : m ≠ []) :
    [slash].intercalate (l.map encodePathComponent) =
      [slash].intercalate (m.map encodePathComponent) ↔ l = m := by
  rw [intercalate_inj slash_not_mem_of_map slash_not_mem_of_map (by simpa using hl)
    (by simpa using hm)]
  exact (encodePathComponent_injective.list_map).eq_iff

theorem toPath_eq_iff : k.toPath = k'.toPath ↔ k.segments = k'.segments := by
  rw [toPath_eq, toPath_eq]
  exact join_encoded_inj (by simp [segments]) (by simp [segments])

/-! ## Segment lists of two keys -/

/-- `k'` has the type of `k` as its namespace, and its own type as the first part of `k`. -/
def Shifted (parts : ResourceKey → List String) (k k' : ResourceKey) : Prop :=
  k.namespaceId = none ∧ k'.namespaceId = some k.resourceType.name ∧
    parts k = k'.resourceType.name :: parts k'

/-- Two keys with the same segments, the parts taken as `parts` gives them. -/
def SameSegments (parts : ResourceKey → List String) (k k' : ResourceKey) : Prop :=
  k.tenantId = k'.tenantId ∧
    ((k.namespaceId = k'.namespaceId ∧ k.resourceType = k'.resourceType ∧ parts k = parts k') ∨
      Shifted parts k k' ∨ Shifted parts k' k)

theorem segments_eq_iff (parts : ResourceKey → List String) (k k' : ResourceKey) :
    k.tenantId :: (k.namespaceId.toList ++ k.resourceType.name :: parts k) =
        k'.tenantId :: (k'.namespaceId.toList ++ k'.resourceType.name :: parts k') ↔
      SameSegments parts k k' := by
  rw [List.cons.injEq]
  refine and_congr Iff.rfl ?_
  unfold Shifted
  cases hns : k.namespaceId with
  | none =>
    cases hns' : k'.namespaceId with
    | none =>
      simp only [toList_none, nil_append, List.cons.injEq, name_injective.eq_iff]
      simp
    | some n' =>
      simp only [toList_none, toList_some, nil_append, singleton_append, List.cons.injEq]
      simp only [reduceCtorEq, false_and, true_and, false_or, or_false, some.injEq]
      rw [eq_comm (a := n')]
  | some n =>
    cases hns' : k'.namespaceId with
    | none =>
      simp only [toList_none, toList_some, nil_append, singleton_append, List.cons.injEq]
      simp only [reduceCtorEq, false_and, true_and, false_or, some.injEq]
      rw [eq_comm (a := parts k')]
    | some n' =>
      simp only [toList_some, singleton_append, List.cons.injEq, name_injective.eq_iff]
      simp

def ResourceKey.pathParts (k : ResourceKey) : List String := written k.resourceId.components

theorem toPath_eq_iff_sameSegments : k.toPath = k'.toPath ↔ SameSegments pathParts k k' := by
  rw [toPath_eq_iff]
  exact segments_eq_iff pathParts k k'

/-! ## Reading a path back -/

theorem ofName_name : ResourceType.ofName (utf8 t.name) = some t := by
  cases t <;> rfl

theorem mapM_decode : (parts.map encodePathComponent).mapM decodePathComponent = some parts :=
  mapM_map_eq_self (fun part _ => decodePathComponent_encode part)

theorem ofTyped_encoded (tenant : String) (ns : Option String) (t : ResourceType)
    (parts : List String) : ofTyped (encodePathComponent tenant) ns
        (encodePathComponent t.name :: parts.map encodePathComponent) =
      some ⟨tenant, ns, t, identifierOf parts⟩ := by
  rw [ofTyped, encode_name, ofName_name, mapM_decode, decodePathComponent_encode]
  rfl

/-- An identifier that a path gives back: a single one, or a composite of two parts or more. -/
def Readable : ResourceIdentifier → Prop
  | .single _ => True
  | .composite parts => 2 ≤ parts.length
  | .hierarchical _ _ => False

theorem identifierOf_written {id : ResourceIdentifier} (h : Readable id) :
    identifierOf (written id.components) = id := by
  cases id with
  | single s => rfl
  | hierarchical => exact h.elim
  | composite parts =>
    match parts, h with
    | _ :: _ :: _, _ => rfl

theorem fromPath_toPath_iff {k : ResourceKey} (h : Readable k.resourceId) :
    fromPath k.toPath = some k ↔ ∀ t : ResourceType, k.namespaceId ≠ some t.name := by
  obtain ⟨tenant, ns, type, id⟩ := k
  have hparts := written_ne_nil id.components
  obtain ⟨part, parts, hpart⟩ := exists_cons_of_ne_nil hparts
  have hid := identifierOf_written h
  unfold fromPath
  rw [toPath_eq, splitOn_intercalate slash slash_not_mem_of_map (by simp [segments])]
  unfold segments
  cases ns with
  | none =>
    have htyped := ofTyped_encoded tenant none type (written id.components)
    rw [hid, hpart] at htyped
    simp only [toList_none, nil_append, map_cons, hpart, encode_name, ofName_name] at htyped ⊢
    simp [htyped]
  | some n =>
    simp only [toList_some, singleton_append, map_cons]
    cases hname : ResourceType.ofName (encodePathComponent n) with
    | none =>
      have htyped := ofTyped_encoded tenant (some n) type (written id.components)
      rw [hid] at htyped
      simp only [decodePathComponent_encode, bind_some, htyped, true_iff]
      intro t heq
      cases heq
      rw [encode_name, ofName_name] at hname
      cases hname
    | some t =>
      have hn : n = t.name := by
        have hfound := List.find?_some hname
        have hutf := of_decide_eq_true hfound
        rw [← encode_name] at hutf
        exact encodePathComponent_injective hutf.symm
      refine iff_of_false ?_ (fun hall => hall t (by rw [hn]))
      intro hread
      -- the namespace was taken for the type, so none is left
      have hns : ∀ l, ∀ k', ofTyped (encodePathComponent tenant) none l = some k' →
          k'.namespaceId = none := by
        intro l k' hk'
        cases l with
        | nil => cases hk'
        | cons segment rest =>
          obtain ⟨_, -, hk'⟩ := bind_eq_some_iff.1 hk'
          obtain ⟨_, -, hk'⟩ := bind_eq_some_iff.1 hk'
          obtain ⟨_, -, rfl⟩ := map_eq_some_iff.1 hk'
          rfl
      have := hns _ _ hread
      cases this

/-! ## Lease logs -/

/-- The parts as a log's path has them: empty ones at the end are dropped. -/
def ResourceKey.logParts (k : ResourceKey) : List String :=
  k.resourceId.components.rdropWhile (fun part => part == "")

/-- The segments of the log of a key that is not a collection. -/
def ResourceKey.logSegments (k : ResourceKey) : List String :=
  k.tenantId :: (k.namespaceId.toList ++ k.resourceType.name :: k.logParts)

theorem encodePathComponent_eq_nil {s : String} : encodePathComponent s = [] ↔ s = "" := by
  have hempty : encodePathComponent "" = [] := by rfl
  rw [← hempty]
  exact encodePathComponent_injective.eq_iff

theorem name_ne_empty : t.name ≠ "" := by
  cases t <;> decide

theorem rdropWhile_segments (k : ResourceKey) :
    k.segments.rdropWhile (fun part => part == "") = k.logSegments := by
  have hwritten : (written k.resourceId.components).rdropWhile (fun part => part == "") =
      k.logParts := by
    unfold logParts
    cases k.resourceId.components with
    | nil => decide
    | cons => rfl
  have htyped : (k.resourceType.name :: written k.resourceId.components).rdropWhile
      (fun part => part == "") = k.resourceType.name :: k.logParts := by
    rw [← hwritten, rdropWhile, rdropWhile, reverse_cons, dropWhile_append]
    split_ifs with hnil
    · simp [isEmpty_iff.1 hnil, name_ne_empty]
    · simp
  have hsplit : k.segments = (k.tenantId :: k.namespaceId.toList) ++
      k.resourceType.name :: written k.resourceId.components := rfl
  rw [hsplit, rdropWhile_append (by rw [htyped]; simp), htyped]
  rfl

theorem logSegments_ne_nil (k : ResourceKey) : k.logSegments ≠ [] := by
  simp [logSegments]

theorem committerForKey_other {store : Bytes} {k : ResourceKey} (h : k.resourceType ≠ .collection) :
    committerForKey store k =
      .ok (store ++ slash :: [slash].intercalate (k.logSegments.map encodePathComponent)) := by
  have hparts : (k.segments.map encodePathComponent).rdropWhile List.isEmpty =
      k.logSegments.map encodePathComponent := by
    have hempty : List.isEmpty ∘ encodePathComponent = fun part => part == "" := by
      funext part
      rw [Bool.eq_iff_iff]
      simp [encodePathComponent_eq_nil]
    rw [← rdropWhile_segments, rdropWhile, ← map_reverse, dropWhile_map, hempty, ← map_reverse]
    rfl
  set path := [slash].intercalate (k.logSegments.map encodePathComponent) with hpath
  have htrim : k.toPath.rdropWhile (fun b => b == slash) = path := by
    rw [toPath_eq, rdropWhile_intercalate slash_not_mem_of_map, hparts]
    rw [hparts]
    simp [logSegments_ne_nil]
  -- the slash behind the tenant is never dropped
  have hne : path ≠ [] := by
    rw [hpath, logSegments, map_cons, intercalate_cons _ (by simp)]
    simp
  have hwhole : (slash :: k.toPath).rdropWhile (fun b => b == slash) = slash :: path := by
    rw [← htrim] at hne ⊢
    show ([slash] ++ k.toPath).rdropWhile _ = _
    rw [rdropWhile_append hne, singleton_append]
  rw [committerForKey, if_neg h, logPath, trimSlashes,
    rdropWhile_append (by rw [hwhole]; simp), hwhole]

def ResourceKey.collectionText (k : ResourceKey) : String :=
  k.tenantId ++ "/" ++ (singlePart k.resourceId).getD ""

theorem committerForKey_collection {store log : Bytes} {k : ResourceKey}
    (h : k.resourceType = .collection) (hlog : committerForKey store k = .ok log) :
    log = store ++ slash :: (utf8 k.collectionText ++ slash :: utf8 "_manifests") := by
  have hend : utf8 "_manifests" = utf8 "_manifest" ++ [0x73] := by rfl
  have hslash : utf8 "/" = [slash] := by rfl
  rw [committerForKey, if_pos h] at hlog
  unfold collectionText
  split at hlog
  · next collection _ hpart =>
      cases hlog
      have hassoc : store ++ slash :: (utf8 k.tenantId ++ slash :: (utf8 collection ++
          slash :: (utf8 "_manifest" ++ [0x73]))) =
          (store ++ slash :: (utf8 k.tenantId ++ slash :: (utf8 collection ++
            slash :: utf8 "_manifest"))) ++ [0x73] := by simp
      rw [hpart, getD_some, collectionLog, logPath, trimSlashes, utf8_append, utf8_append,
        hslash, hend, hassoc, rdropWhile_concat_neg _ _ _ (by decide)]
      simp
  · cases hlog

/-- The log of the collection `k` is that of `k'`, which is none: the last segment of `k'` is the
    directory of manifests, and what stands before it is the text of `k`. -/
def CollectionClash (k k' : ResourceKey) : Prop :=
  ∃ front, k'.logSegments = front ++ ["_manifests"] ∧
    utf8 k.collectionText = [slash].intercalate (front.map encodePathComponent)

def LogClash (k k' : ResourceKey) : Prop :=
  if k.resourceType = .collection then
    if k'.resourceType = .collection then k.collectionText = k'.collectionText
    else CollectionClash k k'
  else
    if k'.resourceType = .collection then CollectionClash k' k
    else SameSegments ResourceKey.logParts k k'

theorem collectionClash_iff : utf8 k.collectionText ++ slash :: utf8 "_manifests" =
        [slash].intercalate (k'.logSegments.map encodePathComponent) ↔ CollectionClash k k' := by
  have hdir : encodePathComponent "_manifests" = utf8 "_manifests" := by rfl
  -- a tenant and a type: something stands before the last segment
  obtain ⟨front, last, hfront, hsplit⟩ :
      ∃ front last, front ≠ [] ∧ k'.logSegments = front ++ [last] := by
    rcases eq_nil_or_concat' (k'.namespaceId.toList ++ k'.resourceType.name :: k'.logParts)
      with hnil | ⟨init, last, hlast⟩
    · simp at hnil
    · exact ⟨k'.tenantId :: init, last, by simp, by rw [logSegments, hlast]; rfl⟩
  unfold CollectionClash
  rw [hsplit, map_append, map_singleton, intercalate_concat _ (by simpa using hfront), ← hdir,
    concat_inj (slash_not_mem _) (slash_not_mem _), encodePathComponent_injective.eq_iff]
  constructor
  · rintro ⟨htext, rfl⟩
    exact ⟨front, rfl, htext⟩
  · rintro ⟨front', heq, htext⟩
    obtain ⟨rfl, hone⟩ := append_inj' heq rfl
    exact ⟨htext, by simpa using hone.symm⟩

theorem committerForKey_eq_iff {store log log' : Bytes} {k k' : ResourceKey}
    (hlog : committerForKey store k = .ok log) (hlog' : committerForKey store k' = .ok log') :
    log = log' ↔ LogClash k k' := by
  unfold LogClash
  by_cases h : k.resourceType = .collection
  · rw [if_pos h, committerForKey_collection h hlog]
    by_cases h' : k'.resourceType = .collection
    · rw [if_pos h', committerForKey_collection h' hlog', append_cancel_left_eq,
        List.cons.injEq, append_cancel_right_eq, utf8_injective.eq_iff]
      simp
    · rw [if_neg h']
      rw [committerForKey_other h'] at hlog'
      cases hlog'
      rw [append_cancel_left_eq, List.cons.injEq, collectionClash_iff]
      simp
  · rw [if_neg h]
    rw [committerForKey_other h] at hlog
    cases hlog
    by_cases h' : k'.resourceType = .collection
    · rw [if_pos h', committerForKey_collection h' hlog', append_cancel_left_eq,
        List.cons.injEq, eq_comm (a := [slash].intercalate _), collectionClash_iff]
      simp
    · rw [if_neg h']
      rw [committerForKey_other h'] at hlog'
      cases hlog'
      rw [append_cancel_left_eq, List.cons.injEq,
        join_encoded_inj (logSegments_ne_nil k) (logSegments_ne_nil k')]
      simp only [true_and]
      exact segments_eq_iff logParts k k'

/-! ## Registry keys of scopes -/

def DmlLockScope.level : DmlLockScope → String
  | schema _ => "schema"
  | table _ _ => "table"
  | partition _ _ _ => "partition"
  | record _ _ _ => "record"

def DmlLockScope.dotted : DmlLockScope → String
  | schema s => s
  | table s t => s ++ "." ++ t
  | partition s t p => s ++ "." ++ t ++ "." ++ p
  | record s t k => s ++ "." ++ t ++ "." ++ k

theorem encodePathComponent_append (s t : String) :
    encodePathComponent (s ++ t) = encodePathComponent s ++ encodePathComponent t := by
  rw [encodePathComponent, utf8_append, escape_append]
  rfl

variable (scope : DmlLockScope) (tenantId : String)

theorem toKey_eq :
    scope.toKey = [0x3A].intercalate [utf8 scope.level, encodePathComponent scope.dotted] := by
  have hdot : encodePathComponent "." = [0x2E] := by rfl
  have hschema : utf8 "schema:" = utf8 "schema" ++ [0x3A] := by rfl
  have htable : utf8 "table:" = utf8 "table" ++ [0x3A] := by rfl
  have hpartition : utf8 "partition:" = utf8 "partition" ++ [0x3A] := by rfl
  have hrecord : utf8 "record:" = utf8 "record" ++ [0x3A] := by rfl
  cases scope <;>
    simp [DmlLockScope.toKey, DmlLockScope.level, DmlLockScope.dotted, List.intercalate,
      encodePathComponent_append, hdot, hschema, htable, hpartition, hrecord]

theorem level_plain : (0x3A : UInt8) ∉ utf8 scope.level ∧
    slash ∉ utf8 scope.level := by
  cases scope <;> simp only [DmlLockScope.level] <;> decide

theorem colon_not_mem : (0x3A : UInt8) ∉ encodePathComponent s :=
  not_mem_encodePathComponent (by decide) (by decide) s

theorem toKey_eq_iff (scope scope' : DmlLockScope) :
    scope.toKey = scope'.toKey ↔ scope.level = scope'.level ∧ scope.dotted = scope'.dotted := by
  have hplain : ∀ s : DmlLockScope, ∀ part ∈ [utf8 s.level, encodePathComponent s.dotted],
      (0x3A : UInt8) ∉ part := by
    intro s part hpart
    rcases mem_pair.1 hpart with rfl | rfl
    · exact (level_plain s).1
    · exact colon_not_mem _
  rw [toKey_eq, toKey_eq, intercalate_inj (hplain scope) (hplain scope') (by simp) (by simp)]
  simp [utf8_injective.eq_iff, encodePathComponent_injective.eq_iff]

theorem slash_not_mem_toKey : slash ∉ scope.toKey := by
  rw [toKey_eq]
  have hsep : slash ≠ 0x3A := by decide
  simp [List.intercalate, (level_plain scope).2, slash_not_mem, hsep]

def lockSegments (tenantId : String) (namespaceId : Option String) (scope : DmlLockScope) :
    List Bytes :=
  (utf8 "tenant:" ++ encodePathComponent tenantId) ::
    ((namespaceId.map (fun ns => utf8 "namespace:" ++ encodePathComponent ns)).toList ++
      [scope.toKey])

theorem scopedLockKey_eq (namespaceId : Option String) (scope : DmlLockScope) :
    scopedLockKey tenantId namespaceId scope =
      [slash].intercalate (lockSegments tenantId namespaceId scope) := by
  cases namespaceId <;> simp [scopedLockKey, lockSegments, List.intercalate]

theorem slash_not_mem_lockSegments (namespaceId : Option String)
    (scope : DmlLockScope) : ∀ part ∈ lockSegments tenantId namespaceId scope, slash ∉ part := by
  have htenant : slash ∉ utf8 "tenant:" := by decide
  have hns : slash ∉ utf8 "namespace:" := by decide
  cases namespaceId <;>
    simp [lockSegments, slash_not_mem, slash_not_mem_toKey, htenant, hns]

/-- Two scopes that the registry takes for one. -/
def SameLock (tenantId tenantId' : String) (namespaceId namespaceId' : Option String)
    (scope scope' : DmlLockScope) : Prop :=
  tenantId = tenantId' ∧ namespaceId = namespaceId' ∧
    scope.level = scope'.level ∧ scope.dotted = scope'.dotted

theorem scopedLockKey_eq_iff (tenantId tenantId' : String) (namespaceId namespaceId' : Option String)
    (scope scope' : DmlLockScope) :
    scopedLockKey tenantId namespaceId scope = scopedLockKey tenantId' namespaceId' scope' ↔
      SameLock tenantId tenantId' namespaceId namespaceId' scope scope' := by
  rw [scopedLockKey_eq, scopedLockKey_eq,
    intercalate_inj (slash_not_mem_lockSegments _ _ _) (slash_not_mem_lockSegments _ _ _)
      (by simp [lockSegments]) (by simp [lockSegments])]
  unfold lockSegments SameLock
  rw [List.cons.injEq, append_cancel_left_eq, encodePathComponent_injective.eq_iff]
  refine and_congr Iff.rfl ?_
  cases namespaceId <;> cases namespaceId' <;>
    simp [toKey_eq_iff, encodePathComponent_injective.eq_iff]

/-! ## Identities -/

/-- Names of different resources are different exactly when none of these holds: the type of one is
    the namespace of the other, or they differ in empty parts only (paths and logs); a collection is
    involved and the unescaped texts are equal (logs); the namespace is the word of a resource type
    (reading back); the dotted names are equal (registry keys). -/
theorem leaseIdentities_distinct_iff (k k' : ResourceKey) : (k.resource ≠ k'.resource →
      (k.toPath ≠ k'.toPath ↔ ¬ SameSegments ResourceKey.pathParts k k')) ∧
    (∀ store log log' : Bytes, k.resource ≠ k'.resource →
      committerForKey store k = .ok log → committerForKey store k' = .ok log' →
      (log ≠ log' ↔ ¬ LogClash k k')) ∧
    (Readable k.resourceId →
      (ResourceKey.fromPath k.toPath = some k ↔
        ∀ t : ResourceType, k.namespaceId ≠ some t.name)) ∧
    (∀ (tenantId tenantId' : String) (namespaceId namespaceId' : Option String)
      (scope scope' : DmlLockScope),
      (tenantId, namespaceId, scope) ≠ (tenantId', namespaceId', scope') →
      (scopedLockKey tenantId namespaceId scope ≠ scopedLockKey tenantId' namespaceId' scope' ↔
        ¬ SameLock tenantId tenantId' namespaceId namespaceId' scope scope')) := by
  refine ⟨?paths, ?logs, ?read, ?locks⟩
  case paths =>
    intro _
    exact not_congr (toPath_eq_iff_sameSegments k k')
  case logs =>
    intro store log log' _ hlog hlog'
    exact not_congr (committerForKey_eq_iff hlog hlog')
  case read =>
    intro hreadable
    exact fromPath_toPath_iff hreadable
  case locks =>
    intro tenantId tenantId' namespaceId namespaceId' scope scope' _
    exact not_congr (scopedLockKey_eq_iff _ _ _ _ _ _)

/-- A table's and a graph's key in one tenant. -/
def plainTable : ResourceKey := ⟨"t", none, .table, .composite ["s", "users"]⟩

def plainGraph : ResourceKey := ⟨"t", some "ns", .graph, .single "g"⟩

/-- Plain names meet the conditions, and are told apart. -/
theorem plainNames_distinct : plainTable.toPath ≠ plainGraph.toPath ∧
      committerForKey [] plainTable ≠ committerForKey [] plainGraph ∧
      ResourceKey.fromPath plainTable.toPath = some plainTable ∧
      scopedLockKey "t" none (.table "s" "users") ≠ scopedLockKey "t" none (.schema "s") := by
  obtain ⟨hpath, hlog, hread, hlock⟩ := leaseIdentities_distinct_iff plainTable plainGraph
  refine ⟨(hpath (by decide)).2 ?_, ?_, (hread ?_).2 ?_,
    (hlock "t" "t" none none (.table "s" "users") (.schema "s") (by decide)).2 ?_⟩
  · rintro ⟨-, ⟨hns, -⟩ | ⟨-, hns, -⟩ | ⟨hns, -⟩⟩
    · cases hns
    · exact absurd hns (by decide)
    · cases hns
  · intro heq
    have htable := @committerForKey_other [] plainTable (by decide)
    have hgraph := @committerForKey_other [] plainGraph (by decide)
    rw [htable, hgraph] at heq
    refine (hlog [] _ _ (by decide) htable hgraph).2 ?_ ?_
    · rintro ⟨-, ⟨hns, -⟩ | ⟨-, hns, -⟩ | ⟨hns, -⟩⟩
      · cases hns
      · exact absurd hns (by decide)
      · cases hns
    · injection heq
  · exact (by decide : 2 ≤ 2)
  · intro t
    simp [plainTable]
  · rintro ⟨-, -, hlevel, -⟩
    exact absurd hlevel (by decide)

/-- Each kind of name can be given to two resources, and a path can be read as another key. -/
theorem leaseIdentities_collide :
    ResourceKey.toPath ⟨"t", none, .table, .composite ["schema", "x"]⟩ =
        ResourceKey.toPath ⟨"t", some "table", .schema, .single "x"⟩ ∧
      committerForKey [] ⟨"t/a", none, .collection, .single "b"⟩ =
        committerForKey [] ⟨"t", none, .collection, .single "a/b"⟩ ∧
      ResourceKey.fromPath (ResourceKey.toPath ⟨"t", some "table", .schema, .single "x"⟩) =
        some ⟨"t", none, .table, .composite ["schema", "x"]⟩ ∧
      scopedLockKey "t" none (.table "a" "b.c") = scopedLockKey "t" none (.table "a.b" "c") := by
  refine ⟨?_, ?_, ?_, ?_⟩ <;> rfl

end ProximaDb.Cluster
