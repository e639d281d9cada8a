/-
  ProximaDb.Ledger.Replay

  The durable ledger logs what a call decides and applies it, and opening the log applies it
  again. Neither the leases that a sweep takes are logged nor the roll that a reservation makes:
  the reopened ledger, once swept, is the live one if no settlement comes after a sweep took its
  lease and no reservation rolls spend away.
-/
import ProximaDb.Ledger.Budget

namespace ProximaDb.Ledger

open ProximaDb.Lib List

/-! ## Limits and keys -/

inductive CasError
  | versionMismatch (key : String) (expected actual : Option Version)

namespace InMemoryLedger

variable (l : InMemoryLedger)

def setLimit (scope : String) (limit : Option Nat) (window : Window) (policy : Policy) :
    InMemoryLedger :=
  { l with limits := l.limits.insert scope ⟨limit, window, policy⟩ }

def checkCas (key : String) (expected : Option Version) : Except CasError Version :=
  let actual := (l.kv.lookup key).map Prod.fst
  if actual ≠ expected then .error (.versionMismatch key expected actual)
  else .ok (saturatingAdd (actual.getD 0) 1)

def applyCas (key : String) (version : Version) (value : Int) : InMemoryLedger :=
  { l with kv := l.kv.insert key (version, value) }

end InMemoryLedger

/-! ## The log -/

inductive LogRecord
  | setLimit (scope : String) (limit : Option Nat) (window policy : Nat)
  | reserve (id : Nat) (scope : String) (ceiling : Nat) (expiresAtNs : Nanos)
  | settle (id actual : Nat) (settledAtNs : Nanos)
  | cas (key : String) (version : Version) (value : Int)

def policyToU8 : Policy → Nat
  | .block => 0
  | .warn => 1

def policyFromU8 : Nat → Policy
  | 1 => .warn
  | _ => .block

def windowToU8 : Window → Nat
  | .total => 0
  | .daily => 1

def windowFromU8 : Nat → Window
  | 1 => .daily
  | _ => .total

def applyRecord (state : InMemoryLedger) : LogRecord → InMemoryLedger
  | .setLimit scope limit window policy =>
    state.setLimit scope limit (windowFromU8 window) (policyFromU8 policy)
  | .reserve id scope ceiling expiresAtNs => state.applyReserve ⟨id, scope, ceiling, expiresAtNs⟩
  | .settle id actual settledAtNs => state.settle id actual settledAtNs
  | .cas key version value => state.applyCas key version value

structure DurableLedger where
  state : InMemoryLedger := { limits := ∅ }
  log : List LogRecord := []

namespace DurableLedger

/-- `open`, of a log that is read to its end. -/
def openLog (log : List LogRecord) : DurableLedger :=
  ⟨log.foldl applyRecord { limits := ∅ }, log⟩

variable (d : DurableLedger)

def setLimit (scope : String) (limit : Option Nat) (window : Window) (policy : Policy) :
    DurableLedger :=
  ⟨d.state.setLimit scope limit window policy,
    d.log ++ [.setLimit scope limit (windowToU8 window) (policyToU8 policy)]⟩

def reserve (scope : String) (ceiling : Nat) (nowNs ttlNs : Nanos) :
    DurableLedger × ReserveOutcome :=
  let state := d.state.roll scope nowNs
  match state.checkAdmit scope ceiling with
  | .error denied => ({ d with state }, .denied denied)
  | .ok () =>
    let r := ⟨state.nextId, scope, ceiling, max (-2 ^ 63) (min (nowNs + ttlNs) (2 ^ 63 - 1))⟩
    (⟨state.applyReserve r, d.log ++ [.reserve r.id r.scope r.ceiling r.expiresAtNs]⟩, .admitted r)

def settle (id actual : Nat) (nowNs : Nanos) : DurableLedger :=
  ⟨d.state.settle id actual nowNs, d.log ++ [.settle id actual nowNs]⟩

def reclaimExpired (nowNs : Nanos) : DurableLedger × Nat :=
  let (state, reclaimed) := d.state.reclaimExpired nowNs
  ({ d with state }, reclaimed)

def compareAndSwap (key : String) (expected : Option Version) (newValue : Int) :
    DurableLedger × Except CasError Version :=
  match d.state.checkCas key expected with
  | .error e => (d, .error e)
  | .ok version =>
    (⟨d.state.applyCas key version newValue, d.log ++ [.cas key version newValue]⟩, .ok version)

end DurableLedger

/-! ## Runs -/

open DurableLedger (openLog)

inductive Op
  | setLimit (scope : String) (limit : Option Nat) (window : Window) (policy : Policy)
  | reserve (scope : String) (ceiling : Nat) (nowNs ttlNs : Nanos)
  | settle (id actual : Nat) (nowNs : Nanos)
  | reclaimExpired (nowNs : Nanos)
  | compareAndSwap (key : String) (expected : Option Version) (newValue : Int)

def Op.run (d : DurableLedger) : Op → DurableLedger
  | setLimit scope limit window policy => d.setLimit scope limit window policy
  | reserve scope ceiling nowNs ttlNs => (d.reserve scope ceiling nowNs ttlNs).1
  | settle id actual nowNs => d.settle id actual nowNs
  | reclaimExpired nowNs => (d.reclaimExpired nowNs).1
  | compareAndSwap key expected newValue => (d.compareAndSwap key expected newValue).1

/-- The log has what the call does: a reservation rolls no spend away, and fits if it is admitted; a
    settlement finds no lease in the log that a sweep has taken. -/
def Op.InLog (d : DurableLedger) : Op → Prop
  | reserve scope ceiling nowNs ttlNs =>
    (d.state.roll scope nowNs).spent scope = d.state.spent scope ∧
      ∀ r, (d.reserve scope ceiling nowNs ttlNs).2 = .admitted r →
        ∀ l ∈ [d.state, (openLog d.log).state], l.reserved scope + ceiling < 2 ^ 64
  | settle id _ _ =>
    d.state.leases.lookup id = none → (openLog d.log).state.leases.lookup id = none
  | _ => True

/-- The ledgers have the same limits, keys, next id and leases, and in each scope the same spend and
    reservations. -/
def Agree (l r : InMemoryLedger) : Prop :=
  r.limits = l.limits ∧ r.kv = l.kv ∧ r.nextId = l.nextId ∧
    (∀ id, r.leases.lookup id = l.leases.lookup id) ∧
    ∀ scope, r.spent scope = l.spent scope ∧ r.reserved scope = l.reserved scope

/-- The live ledger and the one that is opened on its log agree once they are swept at `T`. -/
def Reproduced (ops : List Op) (T : Nanos) : Prop :=
  Agree ((ops.foldl Op.run {}).state.reclaimExpired T).1
    ((openLog (ops.foldl Op.run {}).log).state.reclaimExpired T).1

/-! ## The replayed ledger -/

/-- The ledgers show the same spend in the scope, now and in any window it is rolled to. -/
def SameSpend (l r : InMemoryLedger) (scope : String) : Prop :=
  r.spent scope = l.spent scope ∧ ∀ cur, r.rolled scope cur = l.rolled scope cur

variable {l l' r r' : InMemoryLedger} {scope : String} {nowNs : Nanos} {lease : Reservation}
  {id actual : Nat}

theorem sameSpend_of_bucket (h : r.buckets.lookup scope = l.buckets.lookup scope) :
    SameSpend l r scope := by
  simp only [SameSpend, InMemoryLedger.spent, InMemoryLedger.rolled, h, implies_true, and_self]

theorem SameSpend.frame (h : SameSpend l r scope)
    (hl : l'.buckets.lookup scope = l.buckets.lookup scope)
    (hr : r'.buckets.lookup scope = r.buckets.lookup scope) : SameSpend l' r' scope := by
  simp only [SameSpend, InMemoryLedger.spent, InMemoryLedger.rolled, hl, hr] at h ⊢
  exact h

/-- The replayed ledger has the live one's leases, and those that sweeps up to `T` have taken. -/
structure Tracks (T : Nanos) (l r : InMemoryLedger) : Prop where
  limits : r.limits = l.limits
  kv : r.kv = l.kv
  nextId : r.nextId = l.nextId
  spend : ∀ scope, SameSpend l r scope
  leases : ∀ id, r.leases.lookup id = l.leases.lookup id ∨ l.leases.lookup id = none ∧
    ∃ lease, r.leases.lookup id = some lease ∧ lease.expiresAtNs ≤ T
  sums : ∀ scope, Sums scope l ∧ Sums scope r

/-- A sweep takes the expired leases and leaves the rest of the ledger. -/
theorem reclaimExpired_spec (l : InMemoryLedger) (nowNs : Nanos) :
    ((l.reclaimExpired nowNs).1.limits = l.limits ∧ (l.reclaimExpired nowNs).1.kv = l.kv ∧
      (l.reclaimExpired nowNs).1.nextId = l.nextId ∧
      (l.reclaimExpired nowNs).1.buckets = l.buckets) ∧
    ∀ id, (l.reclaimExpired nowNs).1.leases.lookup id =
      (l.leases.lookup id).filter (fun r => decide (nowNs < r.expiresAtNs)) := by
  refine ⟨foldl_reclaim (P := fun l' => l'.limits = l.limits ∧ l'.kv = l.kv ∧
    l'.nextId = l.nextId ∧ l'.buckets = l.buckets) (fun _ _ _ h _ => h) _ ⟨rfl, rfl, rfl, rfl⟩, ?_⟩
  have hfold : ∀ (ids : List Nat) (l : InMemoryLedger) (id : Nat),
      (ids.foldl InMemoryLedger.reclaim l).leases.lookup id =
        if id ∈ ids then none else l.leases.lookup id := by
    intro ids
    induction ids with
    | nil => exact fun _ _ => rfl
    | cons i ids ih =>
      intro l id
      have hone : (l.reclaim i).leases.lookup id = if id = i then none else l.leases.lookup id := by
        unfold InMemoryLedger.reclaim
        cases hlease : l.leases.lookup i with
        | none =>
          split_ifs with heq
          · rw [heq, hlease]
          · rfl
        | some lease => exact lookup_erase_eq l.leases i id
      rw [foldl_cons, ih, hone]
      by_cases h : id ∈ ids <;> simp [h]
  intro id
  refine (hfold _ l id).trans ?_
  have hmem : id ∈ (l.leases.entries.filter
      (fun e => decide (e.2.expiresAtNs ≤ nowNs))).map Sigma.fst ↔
        ∃ lease, l.leases.lookup id = some lease ∧ lease.expiresAtNs ≤ nowNs := by
    simp [← AList.mem_lookup_iff]
  by_cases hexpired : ∃ lease, l.leases.lookup id = some lease ∧ lease.expiresAtNs ≤ nowNs
  · rw [if_pos (hmem.2 hexpired)]
    obtain ⟨lease, hlease, hle⟩ := hexpired
    rw [hlease, Option.filter_some, if_neg (by simpa using hle)]
  · rw [if_neg (mt hmem.1 hexpired)]
    cases hlease : l.leases.lookup id with
    | none => rfl
    | some lease => rw [Option.filter_some, if_pos (by simpa [hlease] using hexpired)]

/-- What a settlement of a lease does. -/
theorem settle_eq (hlease : l.leases.lookup id = some lease) :
    l.settle id actual nowNs = { (l.release id lease).roll lease.scope nowNs with
      buckets := ((l.release id lease).roll lease.scope nowNs).buckets.insert lease.scope
        (windowStartNs nowNs (l.window lease.scope), saturatingAdd
          (l.rolled lease.scope (windowStartNs nowNs (l.window lease.scope))).2 actual) } := by
  have hroll : ((l.release id lease).roll lease.scope nowNs).buckets.lookup lease.scope =
      some (l.rolled lease.scope (windowStartNs nowNs (l.window lease.scope))) :=
    AList.lookup_insert _
  simp only [InMemoryLedger.settle, hlease, InMemoryLedger.charge, hroll, l.rolled_fst]

namespace Tracks

variable {T : Nanos}

/-- A reservation's roll is not logged, and does not show where it drops no spend. -/
theorem roll (h : Tracks T l r) (hsame : (l.roll scope nowNs).spent scope = l.spent scope) :
    Tracks T (l.roll scope nowNs) r := by
  refine ⟨h.limits, h.kv, h.nextId, fun s => ?_, h.leases,
    fun s => (h.sums s).imp_left (fun h => ⟨h.fresh, h.sum⟩)⟩
  by_cases hs : s = scope
  · subst hs
    refine ⟨(h.spend s).1.trans hsame.symm, fun cur => ((h.spend s).2 cur).trans ?_⟩
    have hbucket : (l.roll s nowNs).buckets.lookup s = some _ := AList.lookup_insert _
    unfold InMemoryLedger.spent at hsame
    unfold InMemoryLedger.rolled at hbucket ⊢
    rw [hbucket] at hsame ⊢
    cases hold : l.buckets.lookup s with
    | none => grind
    | some bucket => grind
  · exact (h.spend s).frame (AList.lookup_insert_ne hs) rfl

theorem applyReserve (h : Tracks T l r) (hid : lease.id = l.nextId)
    (hl : l.reserved lease.scope + lease.ceiling < 2 ^ 64)
    (hr : r.reserved lease.scope + lease.ceiling < 2 ^ 64) :
    Tracks T (l.applyReserve lease) (r.applyReserve lease) := by
  refine ⟨h.limits, h.kv, congrArg (max · _) h.nextId, h.spend, fun id => ?_, fun s => ⟨?_, ?_⟩⟩
  · simp only [InMemoryLedger.applyReserve, lookup_insert_eq]
    split_ifs
    · exact .inl rfl
    · exact h.leases id
  · exact (h.sums s).1.applyReserve hid (fun hs => hs ▸ hl)
  · exact (h.sums s).2.applyReserve (hid.trans h.nextId.symm) (fun hs => hs ▸ hr)

theorem settle (h : Tracks T l r) (hsame : r.leases.lookup id = l.leases.lookup id) :
    Tracks T (l.settle id actual nowNs) (r.settle id actual nowNs) := by
  cases hlease : l.leases.lookup id with
  | none =>
    have hl : l.settle id actual nowNs = l := by rw [InMemoryLedger.settle, hlease]
    have hr : r.settle id actual nowNs = r := by rw [InMemoryLedger.settle, hsame, hlease]
    rw [hl, hr]
    exact h
  | some lease =>
    rw [settle_eq hlease, settle_eq (hsame.trans hlease)]
    refine ⟨h.limits, h.kv, h.nextId, fun s => ?_, fun i => ?_, fun s => ?_⟩
    · by_cases hs : s = lease.scope
      · refine sameSpend_of_bucket ?_
        have hwindow : r.window lease.scope = l.window lease.scope := by
          rw [InMemoryLedger.window, h.limits]
          rfl
        rw [hs, AList.lookup_insert, AList.lookup_insert, hwindow, (h.spend _).2]
      · refine (h.spend s).frame ?_ ?_
        all_goals exact (AList.lookup_insert_ne hs).trans (AList.lookup_insert_ne hs)
    · simp only [InMemoryLedger.roll, InMemoryLedger.release, lookup_erase_eq]
      split_ifs
      · exact .inl rfl
      · exact h.leases i
    · have hl := (h.sums s).1.release hlease
      have hr := (h.sums s).2.release (hsame.trans hlease)
      exact ⟨⟨hl.fresh, hl.sum⟩, hr.fresh, hr.sum⟩

theorem reclaimExpired (h : Tracks T l r) (hT : nowNs ≤ T) :
    Tracks T (l.reclaimExpired nowNs).1 r := by
  obtain ⟨⟨hlimits, hkv, hnext, hbuckets⟩, hleases⟩ := reclaimExpired_spec l nowNs
  refine ⟨h.limits.trans hlimits.symm, h.kv.trans hkv.symm, h.nextId.trans hnext.symm,
    fun s => (h.spend s).frame (by rw [hbuckets]) rfl, fun id => ?_,
    fun s => (h.sums s).imp_left (foldl_reclaim (fun _ _ _ h hlease => h.release hlease) _)⟩
  rw [hleases]
  rcases h.leases id with heq | ⟨hnone, hgone⟩
  · rw [heq]
    cases l.leases.lookup id with
    | none => exact .inl rfl
    | some lease =>
      by_cases hlive : nowNs < lease.expiresAtNs
      · exact .inl (by simp [Option.filter_some, hlive])
      · refine .inr ⟨by simp [Option.filter_some, hlive], lease, rfl, ?_⟩
        exact Int.le_trans (Int.not_lt.1 hlive) hT
  · rw [hnone]
    exact .inr ⟨rfl, hgone⟩

theorem op {d : DurableLedger} (h : Tracks T d.state (openLog d.log).state) {o : Op}
    (ho : o.InLog d) (hT : ∀ nowNs, o = .reclaimExpired nowNs → nowNs ≤ T) :
    Tracks T (o.run d).state (openLog (o.run d).log).state := by
  have hlogged : ∀ record, (openLog (d.log ++ [record])).state =
      applyRecord (openLog d.log).state record := by
    intro record
    simp [openLog]
  cases o with
  | setLimit scope limit window policy =>
    have hspec : LimitSpec.mk limit (windowFromU8 (windowToU8 window))
        (policyFromU8 (policyToU8 policy)) = ⟨limit, window, policy⟩ := by
      cases window <;> cases policy <;> rfl
    simp only [Op.run, DurableLedger.setLimit, hlogged, applyRecord, InMemoryLedger.setLimit, hspec]
    exact ⟨congrArg (AList.insert scope _) h.limits, h.kv, h.nextId, h.spend, h.leases,
      fun s => (h.sums s).imp (fun h => ⟨h.fresh, h.sum⟩) (fun h => ⟨h.fresh, h.sum⟩)⟩
  | reserve scope ceiling nowNs ttlNs =>
    obtain ⟨hroll, hfits⟩ := ho
    have hrolled := h.roll hroll
    simp only [Op.run, DurableLedger.reserve] at hfits ⊢
    cases hcheck : (d.state.roll scope nowNs).checkAdmit scope ceiling with
    | error denied => exact hrolled
    | ok admitted =>
      rw [hcheck] at hfits
      simp only [hlogged, applyRecord]
      have hfits' := hfits _ rfl
      exact hrolled.applyReserve rfl (hfits' d.state mem_cons_self) (hfits' _ (by simp))
  | settle id actual nowNs =>
    simp only [Op.run, DurableLedger.settle, hlogged, applyRecord]
    refine h.settle ?_
    rcases h.leases id with heq | ⟨hnone, -⟩
    · exact heq
    · exact (ho hnone).trans hnone.symm
  | reclaimExpired nowNs => exact h.reclaimExpired (hT nowNs rfl)
  | compareAndSwap key expected newValue =>
    simp only [Op.run, DurableLedger.compareAndSwap]
    cases d.state.checkCas key expected with
    | error e => exact h
    | ok version =>
      simp only [hlogged, applyRecord]
      exact ⟨h.limits, congrArg (AList.insert key _) h.kv, h.nextId, h.spend, h.leases,
        fun s => (h.sums s).imp (fun h => ⟨h.fresh, h.sum⟩) (fun h => ⟨h.fresh, h.sum⟩)⟩

/-- Swept at `T`, the two are the same. -/
theorem agree (h : Tracks T l r) : Agree (l.reclaimExpired T).1 (r.reclaimExpired T).1 := by
  obtain ⟨⟨hlimits, hkv, hnext, hbuckets⟩, hleases⟩ := reclaimExpired_spec l T
  obtain ⟨⟨hlimits', hkv', hnext', hbuckets'⟩, hleases'⟩ := reclaimExpired_spec r T
  have hsame : ∀ id, (r.reclaimExpired T).1.leases.lookup id =
      (l.reclaimExpired T).1.leases.lookup id := by
    intro id
    rw [hleases, hleases']
    rcases h.leases id with heq | ⟨hnone, lease, hgone, hexpired⟩
    · rw [heq]
    · rw [hnone, hgone, Option.filter_some, if_neg (by simpa using hexpired)]
      rfl
  refine ⟨?_, ?_, ?_, hsame, fun s => ⟨?_, ?_⟩⟩
  · rw [hlimits, hlimits', h.limits]
  · rw [hkv, hkv', h.kv]
  · rw [hnext, hnext', h.nextId]
  · exact ((h.spend s).frame (by rw [hbuckets]) (by rw [hbuckets'])).1
  · have hkept : ∀ m, Sums s m → Sums s (m.reclaimExpired T).1 :=
      fun _ => foldl_reclaim (fun _ _ _ h hlease => h.release hlease) _
    rw [(hkept l (h.sums s).1).sum, (hkept r (h.sums s).2).sum]
    exact total_congr hsame

end Tracks

/-- Every run whose calls the log has is reproduced, swept at a time that is not before a sweep of
    its own. -/
theorem replay_agrees (ops : List Op) (T : Nanos)
    (hT : ∀ nowNs, Op.reclaimExpired nowNs ∈ ops → nowNs ≤ T)
    (hops : ∀ before o after, ops = before ++ o :: after → o.InLog (before.foldl Op.run {})) :
    Reproduced ops T := by
  refine Tracks.agree ?_
  induction ops using List.reverseRecOn with
  | nil =>
    exact ⟨rfl, rfl, rfl, fun _ => sameSpend_of_bucket rfl, fun _ => .inl rfl,
      fun _ => ⟨⟨fun _ _ => rfl, rfl⟩, ⟨fun _ _ => rfl, rfl⟩⟩⟩
  | append_singleton ops o ih =>
    rw [foldl_append]
    refine (ih (fun nowNs h => hT nowNs (mem_append_left _ h)) ?_).op (hops ops o [] rfl)
      (fun nowNs h => hT nowNs (h ▸ mem_append_right _ mem_cons_self))
    rintro before o' after rfl
    exact hops before o' (after ++ [o]) (by simp)

/-- A lease is settled before it expires, and another one is swept. -/
theorem reproduced_settled : Reproduced
    [.reserve "s" 10 0 5, .reserve "s" 3 0 9, .settle 0 7 1, .reclaimExpired 9] 9 := by
  refine replay_agrees _ 9 (by simp) (fun before o after heq => ?_)
  match before, heq with
  | [], heq | [_], heq =>
    cases heq
    exact ⟨by decide, fun r _ => by decide⟩
  | [_, _], heq =>
    cases heq
    exact fun h => by cases h
  | [_, _, _], heq =>
    cases heq
    trivial
  | _ :: _ :: _ :: _ :: before, heq => simp at heq

/-- A settlement that comes after the sweep changes nothing, but the reopened ledger charges it; and
    a reservation on the next day ends the spend of the day, which the reopened ledger has. -/
theorem settled_after_sweep :
    ¬ Reproduced [.reserve "s" 10 0 5, .reclaimExpired 5, .settle 0 10 5] 5 ∧
    ¬ Reproduced [.setLimit "s" none .daily .warn, .reserve "s" 10 0 5, .settle 0 10 0,
      .reserve "s" 1 nanosPerDay 5] nanosPerDay := by
  refine ⟨fun h => ?_, fun h => ?_⟩
  · exact absurd (h.2.2.2.2 "s").1 (by decide)
  · exact absurd (h.2.2.2.2 "s").1 (by decide)

end ProximaDb.Ledger
