/-
  ProximaDb.Ledger.Budget

  The in-memory ledger: spend and reservations per scope, under limits. Every call is given its
  time, and rolls the bucket of its scope to the window of that time, whichever comes first. A
  hard cap holds in each window as long as no call takes its scope back to an earlier one.
-/
import ProximaDb.Lib.KeyedFold

namespace ProximaDb.Ledger

open ProximaDb.Lib List

/-! ## Values -/

abbrev Nanos := Int

abbrev Version := Nat

def u64Max : Nat := 2 ^ 64 - 1

def saturatingAdd (a b : Nat) : Nat := min (a + b) u64Max

inductive Policy
  | block
  | warn

inductive Window
  | total
  | daily

def nanosPerDay : Nanos := 86400 * 1000000000

def windowStartNs (nowNs : Nanos) : Window → Nanos
  | .total => 0
  | .daily => nowNs.tdiv nanosPerDay * nanosPerDay

structure Reservation where
  id : Nat
  scope : String
  ceiling : Nat
  expiresAtNs : Nanos

structure Denied where
  scope : String
  limit : Nat
  spent : Nat
  reserved : Nat
  requestedCeiling : Nat

inductive ReserveOutcome
  | admitted (r : Reservation)
  | denied (d : Denied)

structure LimitSpec where
  limit : Option Nat
  window : Window
  policy : Policy

structure InMemoryLedger where
  limits : KeyMap String LimitSpec
  /-- the start of the current window, and what was spent within it -/
  buckets : KeyMap String (Nanos × Nat) := ∅
  held : KeyMap String Nat := ∅
  leases : KeyMap Nat Reservation := ∅
  nextId : Nat := 0
  kv : KeyMap String (Version × Int) := ∅

/-! ## `InMemoryLedger` -/

namespace InMemoryLedger

section Calls

variable (l : InMemoryLedger) (scope : String)

def spent : Nat := ((l.buckets.lookup scope).map Prod.snd).getD 0

def reserved : Nat := (l.held.lookup scope).getD 0

/-- `+=` of `u64` wraps in a release build. -/
def addReserved (delta : Nat) : InMemoryLedger :=
  { l with held := l.held.insert scope ((l.reserved scope + delta) % 2 ^ 64) }

def subReserved (delta : Nat) : InMemoryLedger :=
  { l with held := l.held.insert scope (l.reserved scope - delta) }

def window : Window := ((l.limits.lookup scope).map LimitSpec.window).getD .total

/-- The bucket once it is rolled to the window that starts at `cur`. -/
def rolled (cur : Nanos) : Nanos × Nat :=
  match l.buckets.lookup scope with
  | none => (cur, 0)
  | some bucket => if bucket.1 ≠ cur then (cur, 0) else bucket

def roll (nowNs : Nanos) : InMemoryLedger :=
  let bucket := l.rolled scope (windowStartNs nowNs (l.window scope))
  { l with buckets := l.buckets.insert scope bucket }

def checkAdmit (ceiling : Nat) : Except Denied Unit :=
  match l.limits.lookup scope with
  | some ⟨some limit, _, .block⟩ =>
    if saturatingAdd (saturatingAdd (l.spent scope) (l.reserved scope)) ceiling > limit then
      .error ⟨scope, limit, l.spent scope, l.reserved scope, ceiling⟩
    else .ok ()
  | _ => .ok ()

def applyReserve (r : Reservation) : InMemoryLedger :=
  { l.addReserved r.scope r.ceiling with
    nextId := max l.nextId (r.id + 1)
    leases := l.leases.insert r.id r }

def reserve (ceiling : Nat) (nowNs ttlNs : Nanos) : InMemoryLedger × ReserveOutcome :=
  let l := l.roll scope nowNs
  match l.checkAdmit scope ceiling with
  | .error denied => (l, .denied denied)
  | .ok () =>
    -- `saturating_add` of `i64`
    let expiresAtNs := max (-2 ^ 63) (min (nowNs + ttlNs) (2 ^ 63 - 1))
    let r := ⟨l.nextId, scope, ceiling, expiresAtNs⟩
    (l.applyReserve r, .admitted r)

/-- A lease is taken out of the table, and no longer counts as reserved. -/
def release (id : Nat) (lease : Reservation) : InMemoryLedger :=
  { l.subReserved lease.scope lease.ceiling with leases := l.leases.erase id }

def charge (actual : Nat) : InMemoryLedger :=
  match l.buckets.lookup scope with
  | none => l
  | some bucket =>
    { l with buckets := l.buckets.insert scope (bucket.1, saturatingAdd bucket.2 actual) }

def settle (id actual : Nat) (nowNs : Nanos) : InMemoryLedger :=
  match l.leases.lookup id with
  | none => l
  | some lease => ((l.release id lease).roll lease.scope nowNs).charge lease.scope actual

/-- One round of `reclaim_expired`. -/
def reclaim (id : Nat) : InMemoryLedger :=
  match l.leases.lookup id with
  | none => l
  | some lease => l.release id lease

def reclaimExpired (nowNs : Nanos) : InMemoryLedger × Nat :=
  let expired := (l.leases.entries.filter
    (fun e => decide (e.2.expiresAtNs ≤ nowNs))).map Sigma.fst
  (expired.foldl reclaim l, expired.length)

theorem rolled_fst (cur : Nanos) : (l.rolled scope cur).1 = cur := by
  unfold rolled
  cases l.buckets.lookup scope with
  | none => rfl
  | some bucket =>
    dsimp only
    split_ifs with h
    · rfl
    · exact not_not.1 h

/-- The ceilings of the live leases of a scope. -/
def ceilings : Nat := total (fun r => if r.scope = scope then r.ceiling else 0) l.leases

end Calls

end InMemoryLedger

open InMemoryLedger

/-! ## Runs -/

inductive Call
  | reserve (scope : String) (ceiling : Nat) (nowNs ttlNs : Nanos)
  | settle (id actual : Nat) (nowNs : Nanos)
  | reclaimExpired (nowNs : Nanos)

namespace Call

def run (l : InMemoryLedger) : Call → InMemoryLedger
  | reserve scope ceiling nowNs ttlNs => (l.reserve scope ceiling nowNs ttlNs).1
  | settle id actual nowNs => l.settle id actual nowNs
  | reclaimExpired nowNs => (l.reclaimExpired nowNs).1

/-- The time to which the call rolls the bucket of the scope, and what it adds to it. -/
def charges (scope : String) (l : InMemoryLedger) : Call → Option (Nanos × Nat)
  | reserve s _ nowNs _ => if s = scope then some (nowNs, 0) else none
  | settle id actual nowNs =>
    if (l.leases.lookup id).map Reservation.scope = some scope then some (nowNs, actual) else none
  | reclaimExpired _ => none

/-- What the call settles within the window that starts at `start`. -/
def settles (scope : String) (start : Nanos) (l : InMemoryLedger) (c : Call) : Nat :=
  match c.charges scope l with
  | some (nowNs, actual) => if windowStartNs nowNs (l.window scope) = start then actual else 0
  | none => 0

/-- A settlement reports no more than its ceiling. -/
def Honest (l : InMemoryLedger) : Call → Prop
  | settle id actual _ => ∀ lease, l.leases.lookup id = some lease → actual ≤ lease.ceiling
  | _ => True

/-- The call does not take the scope back to an earlier window. -/
def Forward (scope : String) (l : InMemoryLedger) (c : Call) : Prop :=
  ∀ nowNs actual bucket, c.charges scope l = some (nowNs, actual) →
    l.buckets.lookup scope = some bucket → bucket.1 ≤ windowStartNs nowNs (l.window scope)

end Call

/-- Every call of the run meets the condition in the state it finds. -/
def Every (P : InMemoryLedger → Call → Prop) : InMemoryLedger → List Call → Prop
  | _, [] => True
  | l, c :: calls => P l c ∧ Every P (c.run l) calls

/-- What the run settles in the scope within the window that starts at `start`. -/
def settledIn (scope : String) (start : Nanos) : InMemoryLedger → List Call → Nat
  | _, [] => 0
  | l, c :: calls => c.settles scope start l + settledIn scope start (c.run l) calls

/-! ## Leases -/

/-- What is reserved in the scope is the sum over its leases, and the next id is free. -/
structure Sums (scope : String) (l : InMemoryLedger) : Prop where
  fresh : ∀ id, l.nextId ≤ id → l.leases.lookup id = none
  sum : l.reserved scope = l.ceilings scope

variable {lease : Reservation} {id : Nat}

section Leases

variable {l : InMemoryLedger} {scope : String} {r : Reservation}

theorem reserved_release (l : InMemoryLedger) (scope : String) (id : Nat) (lease : Reservation) :
    (l.release id lease).reserved scope =
      l.reserved scope - if lease.scope = scope then lease.ceiling else 0 := by
  show ((l.held.insert _ _).lookup scope).getD 0 = _
  rw [lookup_insert_eq]
  by_cases h : scope = lease.scope
  · subst h
    simp
  · simp [h, Ne.symm h, reserved]

theorem Sums.release (h : Sums scope l)
    (hlease : l.leases.lookup id = some lease) : Sums scope (l.release id lease) := by
  have hceilings : l.ceilings scope =
      (if lease.scope = scope then lease.ceiling else 0) + (l.release id lease).ceilings scope :=
    total_erase hlease
  refine ⟨fun id' hid => ?_, ?_⟩
  · show (l.leases.erase id).lookup id' = none
    rw [lookup_erase_eq, h.fresh id' hid, ite_self]
  · rw [reserved_release, h.sum, hceilings, Nat.add_sub_cancel_left]

theorem reserved_applyReserve (hfits : r.scope = scope → l.reserved scope + r.ceiling < 2 ^ 64) :
    (l.applyReserve r).reserved scope =
      l.reserved scope + if r.scope = scope then r.ceiling else 0 := by
  show ((l.held.insert _ _).lookup scope).getD 0 = _
  rw [lookup_insert_eq]
  by_cases hs : scope = r.scope
  · rw [if_pos hs, if_pos hs.symm, ← hs]
    exact Nat.mod_eq_of_lt (hfits hs.symm)
  · rw [if_neg hs, if_neg (Ne.symm hs)]
    rfl

theorem Sums.applyReserve (h : Sums scope l) (hid : r.id = l.nextId)
    (hfits : r.scope = scope → l.reserved scope + r.ceiling < 2 ^ 64) :
    Sums scope (l.applyReserve r) := by
  have hceilings : (l.applyReserve r).ceilings scope =
      (if r.scope = scope then r.ceiling else 0) + l.ceilings scope :=
    total_insert (h.fresh r.id (Nat.le_of_eq hid.symm))
  refine ⟨fun id hid' => ?_, ?_⟩
  · have hnext : max l.nextId (r.id + 1) ≤ id := hid'
    show (l.leases.insert r.id r).lookup id = none
    rw [lookup_insert_eq, if_neg (by omega)]
    exact h.fresh id (by omega)
  · rw [reserved_applyReserve hfits, hceilings, h.sum, Nat.add_comm]

/-- What releases keep, a sweep keeps. -/
theorem foldl_reclaim {P : InMemoryLedger → Prop} (hrelease : ∀ l id lease, P l →
    l.leases.lookup id = some lease → P (l.release id lease)) (ids : List Nat) (h : P l) :
    P (ids.foldl reclaim l) := by
  refine ids.foldlRecOn reclaim h (fun l h id _ => ?_)
  unfold reclaim
  cases hlease : l.leases.lookup id with
  | none => exact h
  | some lease => exact hrelease l id lease h hlease

end Leases

/-! ## What is kept -/

/-- The scope is within its cap, `past` having been settled in each window so far: the current
    window's amount is in the bucket, and nothing was settled in a later one. -/
structure Kept (scope : String) (L : Nat) (window : Window) (past : Nanos → Nat)
    (l : InMemoryLedger) : Prop where
  spec : l.limits.lookup scope = some ⟨some L, window, .block⟩
  fresh : ∀ id, l.nextId ≤ id → l.leases.lookup id = none
  sum : l.reserved scope = l.ceilings scope
  cap : l.spent scope + l.reserved scope ≤ L
  under : ∀ start, past start ≤ L
  later : ∀ start, (∀ bucket, l.buckets.lookup scope = some bucket → bucket.1 < start) →
    past start = 0
  current : ∀ bucket, l.buckets.lookup scope = some bucket → past bucket.1 = bucket.2

namespace Kept

variable {scope : String} {L : Nat} {window : Window} {past : Nanos → Nat}
  {l l' : InMemoryLedger} {nowNs : Nanos} (h : Kept scope L window past l) {s : String}

include h

theorem window_eq : l.window scope = window := by
  rw [InMemoryLedger.window, h.spec]
  rfl

/-- A step that leaves the bucket as it is and reserves no more. -/
theorem frame (hlimits : l'.limits = l.limits)
    (hsums : Sums scope l') (hless : l'.reserved scope ≤ l.reserved scope)
    (hbucket : l'.buckets.lookup scope = l.buckets.lookup scope) : Kept scope L window past l' := by
  refine ⟨hlimits ▸ h.spec, hsums.fresh, hsums.sum, ?_, h.under, hbucket ▸ h.later, hbucket ▸ h.current⟩
  refine Nat.le_trans ?_ h.cap
  rw [spent, hbucket]
  exact Nat.add_le_add_left hless _

theorem sums : Sums scope l := ⟨h.fresh, h.sum⟩

theorem release
    (hlease : l.leases.lookup id = some lease) : Kept scope L window past (l.release id lease) := by
  refine h.frame rfl (h.sums.release hlease) ?_ rfl
  rw [reserved_release]
  exact Nat.sub_le _ _

theorem roll (hforward : s = scope → ∀ bucket,
    l.buckets.lookup scope = some bucket → bucket.1 ≤ windowStartNs nowNs (l.window scope)) :
    Kept scope L window past (l.roll s nowNs) := by
  by_cases hs : s = scope
  case neg => exact h.frame rfl ⟨h.fresh, h.sum⟩ le_rfl (AList.lookup_insert_ne (Ne.symm hs))
  replace hforward := hforward hs
  subst hs
  rw [h.window_eq] at hforward
  have hbucket : (l.roll s nowNs).buckets.lookup s =
      some (l.rolled s (windowStartNs nowNs window)) := by
    rw [← h.window_eq]
    exact AList.lookup_insert _
  by_cases hsame : l.buckets.lookup s = some (l.rolled s (windowStartNs nowNs window))
  · exact h.frame rfl ⟨h.fresh, h.sum⟩ le_rfl (hbucket.trans hsame.symm)
  · -- a new window: nothing was settled in it
    have hnew : l.rolled s (windowStartNs nowNs window) = (windowStartNs nowNs window, 0) ∧
        ∀ b, l.buckets.lookup s = some b → b.1 < windowStartNs nowNs window := by
      unfold rolled at hsame ⊢
      cases hold : l.buckets.lookup s with
      | none => exact ⟨rfl, nofun⟩
      | some bucket =>
        rw [hold] at hsame
        dsimp only at hsame ⊢
        split_ifs at hsame ⊢ with hne
        · refine ⟨rfl, fun b hb => ?_⟩
          cases hb
          exact Int.lt_iff_le_and_ne.2 ⟨hforward _ hold, hne⟩
        · exact absurd rfl hsame
    rw [hnew.1] at hbucket
    refine ⟨h.spec, h.fresh, h.sum, ?_, h.under, fun start hlater => ?_, fun bucket hb => ?_⟩
    · rw [spent, hbucket]
      exact Nat.le_trans (Nat.add_le_add_right (Nat.zero_le _) _) h.cap
    · exact h.later start (fun b hb => Int.lt_trans (hnew.2 b hb) (hlater _ hbucket))
    · rw [hbucket] at hb
      cases hb
      exact h.later _ hnew.2

variable (hL : L < u64Max)

include hL

theorem charge {bucket : Nanos × Nat}
    (hbucket : l.buckets.lookup scope = some bucket) (actual : Nat)
    (hroom : l.spent scope + l.reserved scope + actual ≤ L) :
    Kept scope L window (fun start => past start + if bucket.1 = start then actual else 0)
      (l.charge scope actual) := by
  have hspent : l.spent scope = bucket.2 := by
    rw [spent, hbucket]
    rfl
  have hsat : saturatingAdd bucket.2 actual = bucket.2 + actual := Nat.min_eq_left (by omega)
  have hnew : (l.buckets.insert scope (bucket.1, bucket.2 + actual)).lookup scope =
      some (bucket.1, bucket.2 + actual) := AList.lookup_insert _
  have hpast := h.current bucket hbucket
  rw [InMemoryLedger.charge, hbucket]
  dsimp only
  rw [hsat]
  refine ⟨h.spec, h.fresh, h.sum, ?_, fun start => ?_, fun start hlater => ?_, fun b hb => ?_⟩
  · simp only [spent, hnew]
    show bucket.2 + actual + l.reserved scope ≤ L
    omega
  · split_ifs with hstart
    · rw [← hstart, hpast]
      omega
    · exact h.under start
  · have hafter := hlater _ hnew
    rw [if_neg (Int.ne_of_lt hafter)]
    refine h.later start (fun b hb => ?_)
    rw [hbucket] at hb
    cases hb
    exact hafter
  · rw [hnew] at hb
    cases hb
    rw [if_pos rfl, hpast]

theorem applyReserve {r : Reservation} (hid : r.id = l.nextId)
    (hroom : r.scope = scope → l.spent scope + l.reserved scope + r.ceiling ≤ L) :
    Kept scope L window past (l.applyReserve r) := by
  have hfits : r.scope = scope → l.reserved scope + r.ceiling < 2 ^ 64 := by
    intro hs
    have := hroom hs
    unfold u64Max at hL
    omega
  have hsums := h.sums.applyReserve hid hfits
  refine ⟨h.spec, hsums.fresh, hsums.sum, ?_, h.under, h.later, h.current⟩
  show l.spent scope + _ ≤ L
  rw [reserved_applyReserve hfits]
  split_ifs with hs
  · have := hroom hs
    omega
  · exact h.cap

theorem reserve {ceiling : Nat}
    {ttlNs : Nanos} (hforward : Call.Forward scope l (.reserve s ceiling nowNs ttlNs)) :
    Kept scope L window past (l.reserve s ceiling nowNs ttlNs).1 := by
  have hroll : Kept scope L window past (l.roll s nowNs) :=
    h.roll (fun hs bucket hb => hforward nowNs 0 bucket (if_pos hs) hb)
  unfold InMemoryLedger.reserve
  dsimp only
  split
  · exact hroll
  · rename_i admitted hcheck
    refine hroll.applyReserve hL rfl ?_
    -- under a limit that is not the largest integer, the saturated sum is compared as the sum
    rintro rfl
    unfold checkAdmit at hcheck
    rw [hroll.spec] at hcheck
    dsimp only at hcheck ⊢
    split_ifs at hcheck with hover
    unfold saturatingAdd at hover
    omega

theorem settle {id actual : Nat} (hc : (Call.settle id actual nowNs).Honest l)
    (hforward : (Call.settle id actual nowNs).Forward scope l) : Kept scope L window
      (fun start => past start + (Call.settle id actual nowNs).settles scope start l)
      (l.settle id actual nowNs) := by
  unfold Call.settles
  unfold Call.Forward at hforward
  have hcharges : (Call.settle id actual nowNs).charges scope l =
      if (l.leases.lookup id).map Reservation.scope = some scope then some (nowNs, actual)
      else none := rfl
  rw [hcharges] at hforward ⊢
  unfold InMemoryLedger.settle
  cases hlease : l.leases.lookup id with
  | none => exact h
  | some lease =>
    rw [hlease] at hforward
    simp only [Option.map_some, Option.some_inj] at hforward ⊢
    -- the bucket does not see the release
    have hswap : (l.release id lease).roll lease.scope nowNs =
        (l.roll lease.scope nowNs).release id lease := rfl
    have hroll : Kept scope L window past (l.roll lease.scope nowNs) :=
      h.roll (fun hs bucket hb => hforward nowNs actual bucket (if_pos hs) hb)
    have hrelease : Kept scope L window past ((l.roll lease.scope nowNs).release id lease) :=
      hroll.release hlease
    have hbucket : ((l.roll lease.scope nowNs).release id lease).buckets.lookup lease.scope =
        some (l.rolled lease.scope (windowStartNs nowNs (l.window lease.scope))) :=
      AList.lookup_insert _
    rw [hswap]
    by_cases hs : lease.scope = scope
    · subst hs
      have hheld : (l.roll lease.scope nowNs).ceilings lease.scope = _ := total_erase hlease
      have hfree := reserved_release (l.roll lease.scope nowNs) lease.scope id lease
      have hcap := hroll.cap
      have hactual := hc lease hlease
      rw [if_pos rfl, ← hroll.sum] at hheld
      rw [if_pos rfl] at hfree
      have hcharged := hrelease.charge hL hbucket actual (by
        show (l.roll lease.scope nowNs).spent lease.scope + _ + actual ≤ L
        omega)
      rw [l.rolled_fst] at hcharged
      simpa using hcharged
    · rw [if_neg hs]
      rw [InMemoryLedger.charge, hbucket]
      exact hrelease.frame rfl ⟨hrelease.fresh, hrelease.sum⟩ le_rfl
        (AList.lookup_insert_ne (Ne.symm hs))

theorem call {c : Call} (hc : c.Honest l) (hforward : c.Forward scope l) :
    Kept scope L window (fun start => past start + c.settles scope start l) (c.run l) := by
  cases c with
  | reserve s ceiling nowNs ttlNs =>
    have hzero : ∀ start, (Call.reserve s ceiling nowNs ttlNs).settles scope start l = 0 := by
      intro start
      unfold Call.settles Call.charges
      by_cases hs : s = scope <;> simp [hs]
    simp only [hzero, Nat.add_zero]
    exact h.reserve hL hforward
  | settle id actual nowNs => exact h.settle hL hc hforward
  | reclaimExpired nowNs => exact foldl_reclaim (fun _ _ _ h hlease => h.release hlease) _ h

theorem run {calls : List Call}
    (hcalls : Every (fun l c => c.Honest l ∧ c.Forward scope l) l calls) :
    Kept scope L window (fun start => past start + settledIn scope start l calls)
      (calls.foldl Call.run l) := by
  induction calls generalizing l past with
  | nil => exact h
  | cons c calls ih =>
    have hrest := ih (h.call hL hcalls.1.1 hcalls.1.2) hcalls.2
    simp only [Nat.add_assoc] at hrest
    exact hrest

end Kept

/-- A scope with a hard cap below the largest `u64` keeps it, with its leases summed, and in each
    window keeps it by what is settled, in every run that settles within the ceilings and takes the
    scope to no earlier window. -/
theorem budget_kept (limits : KeyMap String LimitSpec) (scope : String) (L : Nat) (window : Window)
    (calls : List Call) (hspec : limits.lookup scope = some ⟨some L, window, .block⟩)
    (hL : L < u64Max)
    (hcalls : Every (fun l c => c.Honest l ∧ c.Forward scope l) { limits } calls) :
    (calls.foldl Call.run { limits }).spent scope +
        (calls.foldl Call.run { limits }).reserved scope ≤ L ∧
      (calls.foldl Call.run { limits }).reserved scope =
        (calls.foldl Call.run { limits }).ceilings scope ∧
      ∀ start, settledIn scope start { limits } calls ≤ L := by
  have hstart : Kept scope L window (fun _ => 0) { limits } :=
    ⟨hspec, fun _ _ => rfl, rfl, Nat.zero_le L, fun _ => Nat.zero_le L, fun _ _ => rfl, nofun⟩
  have hend := hstart.run hL hcalls
  simp only [Nat.zero_add] at hend
  exact ⟨hend.cap, hend.sum, hend.under⟩

/-- Scope `s` may spend `L` a day. -/
def daily (L : Nat) : KeyMap String LimitSpec :=
  AList.insert "s" ⟨some L, .daily, .block⟩ ∅

/-- Spend on two days. -/
def twoDays : List Call :=
  [.reserve "s" 4 0 5, .settle 0 3 1, .reserve "s" 9 nanosPerDay 5, .settle 1 9 nanosPerDay]

theorem budget_kept_ten : settledIn "s" nanosPerDay { limits := daily 10 } twoDays = 9 ∧
    ∀ start, settledIn "s" start { limits := daily 10 } twoDays ≤ 10 := by
  refine ⟨by decide, (budget_kept (daily 10) "s" 10 .daily twoDays rfl (by decide)
    ⟨⟨trivial, ?_⟩, ⟨?_, ?_⟩, ⟨trivial, ?_⟩, ⟨?_, ?_⟩, trivial⟩).2.2⟩
  · rintro _ _ _ ⟨⟩ ⟨⟩
  all_goals first
    | (rintro lease ⟨⟩; decide)
    | (rintro _ _ bucket ⟨⟩ ⟨⟩; decide)

/-- A caller whose clock is still before midnight asks for more than there is: it is denied, but
    resets the bucket, and the next day's cap is spent twice. And under the largest limit nothing is
    refused, and what is reserved wraps. -/
theorem cap_spent_twice : Every (fun l c => c.Honest l) { limits := daily 10 }
      [.reserve "s" 10 nanosPerDay 5, .settle 0 10 nanosPerDay, .reserve "s" 11 0 5,
        .reserve "s" 10 nanosPerDay 5, .settle 1 10 nanosPerDay] ∧
    settledIn "s" nanosPerDay { limits := daily 10 }
      [.reserve "s" 10 nanosPerDay 5, .settle 0 10 nanosPerDay, .reserve "s" 11 0 5,
        .reserve "s" 10 nanosPerDay 5, .settle 1 10 nanosPerDay] = 20 ∧
    ([.reserve "s" u64Max 0 5, .reserve "s" u64Max 0 5].foldl Call.run
      { limits := daily u64Max }).reserved "s" = u64Max - 1 := by
  refine ⟨⟨trivial, ?_, trivial, trivial, ?_, trivial⟩, by decide, by decide⟩
  · rintro lease ⟨⟩
    decide
  · rintro lease ⟨⟩
    decide

end ProximaDb.Ledger
