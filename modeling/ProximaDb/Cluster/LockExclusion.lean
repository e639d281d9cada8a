/-
  ProximaDb.Cluster.LockExclusion

  When DML locks exclude each other. A pod's registry keeps overlapping scopes of its own tasks
  apart, and the lease of a scope keeps the tasks of different pods apart.
-/
import ProximaDb.Cluster.LeaseIdentity
import ProximaDb.Cluster.LeaseSafety

namespace ProximaDb.Cluster

open ProximaDb.Lib ProximaDb.Manifest DmlLockRequest Option Function List

variable {ι : Type} {st : PartitionLeaseStore} {tasks : ι → DmlTask}

/-! ## The condition -/

def LockPhase.Active (phase : LockPhase) : Prop :=
  phase = .acquiring ∨ phase = .holding ∨ phase = .releasing

/-- Past the check, with a lock that is not given back. -/
def LockPhase.Occupied (phase : LockPhase) : Prop := phase = .acquiring ∨ phase = .holding

variable {phase : LockPhase}

theorem LockPhase.Occupied.active (h : phase.Occupied) : phase.Active := by
  rcases h with h | h
  · exact .inl h
  · exact .inr (.inl h)

def DmlTask.log (st : PartitionLeaseStore) (task : DmlTask) : Except String Bytes :=
  committerForKey st.path task.request.resourceKey

/-- Two requests for overlapping scopes of one tenant and namespace. -/
def DmlLockRequest.Overlaps (r r' : DmlLockRequest) : Prop :=
  r.tenantId = r'.tenantId ∧ r.namespaceId = r'.namespaceId ∧ r.scope.overlaps r'.scope = true

instance (r r' : DmlLockRequest) : Decidable (r.Overlaps r') :=
  inferInstanceAs (Decidable (_ ∧ _ ∧ _))

variable {r r' : DmlLockRequest} {lease : PartitionLease} {log : Bytes}

theorem DmlLockRequest.Overlaps.symm (h : r.Overlaps r') : r'.Overlaps r :=
  ⟨h.1.symm, h.2.1.symm, by rw [DmlLockScope.overlaps_comm]; exact h.2.2⟩

/-- Tasks that are active together: on one pod they have different lease logs and registry keys, and
    if they overlap they do not both stand between check and registration; on different pods they
    overlap only with the same lease log. Their clocks are within the time to live of each other's
    locks, and no lease was taken over for being over. -/
structure Orderly (st : PartitionLeaseStore) (tasks : ι → DmlTask) (s : LockState ι) : Prop where
  onePod : ∀ i j, i ≠ j → (s.phase i).Active → (s.phase j).Active → (tasks i).pod = (tasks j).pod →
    (tasks i).log st ≠ (tasks j).log st ∧
    (tasks i).request.lockKey ≠ (tasks j).request.lockKey ∧
    ((tasks i).request.Overlaps (tasks j).request →
      ¬ (s.phase i = .acquiring ∧ s.phase j = .acquiring))
  otherPod : ∀ i j, (s.phase i).Active → (s.phase j).Active → (tasks i).pod ≠ (tasks j).pod →
    (tasks i).request.Overlaps (tasks j).request → (tasks i).log st = (tasks j).log st
  clocks : ∀ i j, (s.phase i).Active → (s.phase j).Active →
    (tasks j).request.nowMs < saturatingAddMs (tasks i).request.nowMs lockTtlMs
  unexpired : ∀ log v w before later, w.toNat = v.toNat + 1 →
    leaseAt st.codec s.store log v = some before → leaseAt st.codec s.store log w = some later →
    later.released = false → before.released = true ∨ before.isExpired later.acquiredAtMs = false

/-! ## The invariant -/

/-- A put of the release of some task on the pod and the log of `i`. -/
def IsTombOf (st : PartitionLeaseStore) (tasks : ι → DmlTask) (i : ι) (put : Put (ι × Bool)) : Prop :=
  put.writer.2 = true ∧ (tasks put.writer.1).pod = (tasks i).pod ∧
    (tasks put.writer.1).log st = (tasks i).log st

/-- The pod of a task has the lease at some version, and every tombstone of the pod is meant for
    that version or below. -/
def Leased (st : PartitionLeaseStore) (tasks : ι → DmlTask) (i : ι) (s : LockState ι) : Prop :=
  ∃ log version lease, (tasks i).log st = .ok log ∧
    leaseAt st.codec s.store log version = some lease ∧ lease.holderPod = (tasks i).pod ∧
    lease.released = false ∧ ∀ put ∈ s.store.puts, IsTombOf st tasks i put →
      ∀ v, put.path.file = .manifest v → v ≤ version

structure LockInv (st : PartitionLeaseStore) (tasks : ι → DmlTask) (s : LockState ι) : Prop where
  orderly : Orderly st tasks s
  leases : LeaseInv st (lockCalls tasks) s.store
  registered : ∀ i, s.phase i = .holding →
    (s.locks (tasks i).pod).lookup (tasks i).request.lockKey =
      some ((tasks i).request.lock (tasks i).pod)
  apart : ∀ i j, i ≠ j → (tasks i).pod = (tasks j).pod →
    (tasks i).request.Overlaps (tasks j).request →
    ¬ ((s.phase i).Occupied ∧ (s.phase j).Occupied)
  leased : ∀ i, s.phase i = .holding → Leased st tasks i s

/-- No new tombstone on the pod and the log of `i`. -/
def NoNewTombs (st : PartitionLeaseStore) (tasks : ι → DmlTask) (i : ι) (s t : LockState ι) : Prop :=
  ∀ put ∈ t.store.puts, IsTombOf st tasks i put → put ∈ s.store.puts

/-- What a task relies on: the logs only grow; it stays where it is; and while it is active no other
    task writes a tombstone on its pod and log. -/
def lockDiscipline (st : PartitionLeaseStore) (tasks : ι → DmlTask) : Discipline ι (LockState ι) where
  inv := LockInv st tasks
  moves s t := Extends s.store t.store
  own i s t := t.phase i = s.phase i ∧ ((s.phase i).Active → NoNewTombs st tasks i s t)
  moves_refl s := .refl s.store
  moves_trans := .trans
  own_refl i s := ⟨rfl, fun _ put hput _ => hput⟩
  own_trans i s t u h h' := by
    refine ⟨h'.1.trans h.1, fun hactive put hput htomb => ?_⟩
    exact h.2 hactive put (h'.2 (h.1 ▸ hactive) put hput htomb) htomb

section Steps

variable {i j : ι} {s t : LockState ι} {store' : Shared (ι × Bool)} {release : Bool} {o : StoreOp}
  {c : Choice}

theorem Leased.mono (h : Leased st tasks i s) (hst : Extends s.store t.store)
    (htombs : NoNewTombs st tasks i s t) : Leased st tasks i t := by
  obtain ⟨log, version, lease, hlog, hlease, hpod, hlive, hbelow⟩ := h
  exact ⟨log, version, lease, hlog, hst.leaseAt hlease, hpod, hlive,
    fun put hput htomb => hbelow put (htombs put hput htomb) htomb⟩

/-- From the version of a lease on, every lease is the pod's and is not a tombstone. -/
theorem Leased.above (horderly : Orderly st tasks s) (hinv : LeaseInv st (lockCalls tasks) s.store)
    {version : UInt64} (hlog : (tasks i).log st = .ok log)
    (hlease : leaseAt st.codec s.store log version = some lease)
    (hpod : lease.holderPod = (tasks i).pod) (hlive : lease.released = false)
    (hbelow : ∀ put ∈ s.store.puts, IsTombOf st tasks i put →
      ∀ v, put.path.file = .manifest v → v ≤ version)
    {w : UInt64} {later : PartitionLease} (hle : version ≤ w)
    (hlater : leaseAt st.codec s.store log w = some later) :
    later.holderPod = (tasks i).pod ∧ later.released = false := by
  refine hinv.along (P := fun _ later => later.holderPod = (tasks i).pod ∧ later.released = false)
    hle hlease hlater ⟨hpod, hlive⟩ ?_
  rintro prev before w later hleprev hprev hbefore hlater hsucc ⟨hbpod, hblive⟩
  obtain ⟨⟨k, release⟩, hwrote⟩ := hinv.exists_wrote hlater
  obtain ⟨hwrites, hklog⟩ := hwrote.writes hinv
  cases release with
  | false =>
    obtain ⟨generation, rfl⟩ := hwrites
    refine ⟨?_, rfl⟩
    rcases hsucc.entitled with hsame | hreleased | hexpired
    · exact hsame.trans hbpod
    · rw [hblive] at hreleased
      cases hreleased
    · rcases horderly.unexpired log prev w before _ hprev hbefore hlater rfl with hr | hx
      · rw [hblive] at hr
        cases hr
      · rw [hx] at hexpired
        cases hexpired
  | true =>
    -- a tombstone of the pod would be meant for a version that is not above
    obtain ⟨ticket, -, hput⟩ := hwrote
    have hmem := mem_of_getElem? hput
    have htomb : IsTombOf st tasks i
        ⟨(k, true), ⟨log, .manifest w⟩, leaseBytes st.codec later, .create⟩ := by
      refine ⟨rfl, ?_, hklog.trans hlog.symm⟩
      exact hwrites.1.symm.trans ((hsucc.tombstone hwrites.2).trans hbpod)
    have hwle := UInt64.le_iff_toNat_le.1 (hbelow _ hmem htomb w rfl)
    have := UInt64.le_iff_toNat_le.1 hleprev
    omega

theorem Leased.pod_eq (hinv : LockInv st tasks s) (hi : Leased st tasks i s)
    (hj : Leased st tasks j s) (hlog : (tasks i).log st = (tasks j).log st) :
    (tasks i).pod = (tasks j).pod := by
  obtain ⟨log, v, lease, hlogi, hlease, hpod, hlive, hbelow⟩ := hi
  obtain ⟨log', w, lease', hlogj, hlease', hpod', hlive', hbelow'⟩ := hj
  have hsame : log = log' := by
    have := hlogi.symm.trans (hlog.trans hlogj)
    cases this
    rfl
  subst hsame
  rcases UInt64.le_total v w with hvw | hwv
  · obtain ⟨hsamePod, -⟩ :=
      Leased.above hinv.orderly hinv.leases hlogi hlease hpod hlive hbelow hvw hlease'
    exact hsamePod.symm.trans hpod'
  · exact hpod.symm.trans
      (Leased.above hinv.orderly hinv.leases hlogj hlease' hpod' hlive' hbelow' hwv hlease).1

theorem LockInv.exclusive (h : LockInv st tasks s) (hne : i ≠ j) (hi : s.phase i = .holding)
    (hj : s.phase j = .holding) : ¬ (tasks i).request.Overlaps (tasks j).request := by
  intro hoverlap
  by_cases hpod : (tasks i).pod = (tasks j).pod
  · exact h.apart i j hne hpod hoverlap ⟨.inr hi, .inr hj⟩
  · have hactive : ∀ k, s.phase k = .holding → (s.phase k).Active := fun k hk => .inr (.inl hk)
    have hlog := h.orderly.otherPod i j (hactive i hi) (hactive j hj) hpod hoverlap
    exact hpod (Leased.pod_eq h (h.leased i hi) (h.leased j hj) hlog)

/-! ## Steps -/

theorem keeps_of_phase (hinv : LockInv st tasks t) (hstore : t.store = s.store)
    (hphase : ∀ j, j ≠ i → t.phase j = s.phase j) : (lockDiscipline st tasks).Keeps i s t := by
  refine ⟨hinv, ?_, fun j hj => ⟨hphase j hj, fun _ put hput _ => ?_⟩⟩
  · show Extends s.store t.store
    rw [hstore]
    exact .refl _
  · rw [hstore] at hput
    exact hput

/-- A request of task `i` adds no tombstone to the pod and the log of another active task, and none
    at all if it is one of its claim. -/
theorem noNewTombs_of_respond {r : o.Answer} (h : Orderly st tasks s) (hactive : (s.phase i).Active)
    (hresp : respond (i, release) s.store o c = some (r, store'))
    (hj : (j ≠ i ∧ (s.phase j).Active) ∨ release = false) :
    NoNewTombs st tasks j s { s with store := store' } := by
  intro put hput htomb
  rcases respond_puts hresp with hsame | ⟨new, hwriter, hnew⟩
  · exact hsame ▸ hput
  · have hput' : put ∈ s.store.puts ++ [new] := hnew ▸ hput
    rcases mem_append.1 hput' with hold | hjust
    · exact hold
    · exfalso
      rw [mem_singleton.1 hjust, IsTombOf, hwriter] at htomb
      obtain ⟨hrelease, hpod, hlog⟩ := htomb
      rcases hj with ⟨hne, hjactive⟩ | hclaim
      · exact (h.onePod i j (Ne.symm hne) hactive hjactive hpod).1 hlog
      · rw [hclaim] at hrelease
        cases hrelease

theorem LockInv.store_step {r : o.Answer} (h : LockInv st tasks s)
    (hphase : s.phase i = if release then .releasing else .acquiring)
    (hresp : respond (i, release) s.store o c = some (r, store'))
    (hgood : Orderly st tasks { s with store := store' })
    (hkeeps : (leaseDiscipline st (lockCalls tasks)).Keeps (i, release) s.store store') :
    (lockDiscipline st tasks).Keeps i s { s with store := store' } := by
  have hactive : (s.phase i).Active := by
    rw [hphase]
    cases release
    · exact .inl rfl
    · exact .inr (.inr rfl)
  have htombs : ∀ j, j ≠ i → (s.phase j).Active →
      NoNewTombs st tasks j s { s with store := store' } :=
    fun j hne hj => noNewTombs_of_respond h.orderly hactive hresp (.inl ⟨hne, hj⟩)
  refine ⟨⟨hgood, hkeeps.1, h.registered, h.apart, fun j hj => ?_⟩, hkeeps.2.1,
    fun j hne => ⟨rfl, htombs j hne⟩⟩
  have hne : j ≠ i := by
    rintro rfl
    rw [show s.phase j = .holding from hj] at hphase
    cases release <;> cases hphase
  exact (h.leased j hj).mono hkeeps.2.1 (htombs j hne (.inr (.inl hj)))

theorem LockInv.drift_step (h : LockInv st tasks s)
    (hdrift : (objectStore (ι × Bool)).drift s.store c = some store')
    (hgood : Orderly st tasks { s with store := store' }) :
    LockInv st tasks { s with store := store' } ∧ Extends s.store store' ∧
      store'.puts = s.store.puts := by
  cases c with
  | arrive ticket now =>
    obtain ⟨hinv, hst⟩ := h.leases.arrive hdrift
    have hputs : store'.puts = s.store.puts := by
      obtain ⟨put, -, rfl⟩ := map_eq_some_iff.1 hdrift
      split_ifs <;> rfl
    refine ⟨⟨hgood, hinv, h.registered, h.apart, fun j hj => ?_⟩, hst, hputs⟩
    exact (h.leased j hj).mono hst (fun put hput _ => hputs ▸ hput)
  | _ => cases hdrift

section Phases

variable [DecidableEq ι] {pod : String}

theorem phase_enter (s : LockState ι) (i : ι) (phase : LockPhase) :
    (s.enter i phase).phase i = phase := by
  exact update_self _ _ _

theorem phase_enter_of_ne (s : LockState ι) (phase : LockPhase) (hne : j ≠ i) :
    (s.enter i phase).phase j = s.phase j := by
  exact update_of_ne hne _ _

/-- A registered lock that is not over blocks every overlapping request for another scope. -/
theorem blockedBy_isSome (pod : String)
    (hoverlap : r.Overlaps r') (hclock : r'.nowMs < saturatingAddMs r.nowMs lockTtlMs)
    (hkey : r.lockKey ≠ r'.lockKey) : (r'.blockedBy pod (r.lock pod)).isSome = true := by
  have hscope : r.scope ≠ r'.scope := by
    intro heq
    refine hkey ?_
    rw [lockKey, lockKey, hoverlap.1, hoverlap.2.1, heq]
  have hlive : (r.lock pod).isExpired r'.nowMs = false := by
    rw [ActiveLock.isExpired, decide_eq_false_iff_not, not_le]
    exact hclock
  have hmeets : ¬ ((r.lock pod).isExpired r'.nowMs = true ∨ (r.lock pod).tenantId ≠ r'.tenantId ∨
      (r.lock pod).namespaceId ≠ r'.namespaceId ∨
      (r.lock pod).scope.overlaps r'.scope = false) := by
    rw [hlive]
    simp [lock, hoverlap.1, hoverlap.2.1, hoverlap.2.2]
  unfold blockedBy
  rw [if_neg hmeets, if_neg (by simp [lock, hscope])]
  split_ifs <;> first | rfl | contradiction

variable (h : LockInv st tasks s)

include h

/-- A task goes to another phase, and its pod's registry may change with it. -/
theorem LockInv.enter_step {locks : String → KeyMap Bytes ActiveLock}
    (hgood : Orderly st tasks (({ s with locks } : LockState ι).enter i phase))
    (hlocks : ∀ j, j ≠ i → s.phase j = .holding →
      (locks (tasks j).pod).lookup (tasks j).request.lockKey =
        (s.locks (tasks j).pod).lookup (tasks j).request.lockKey)
    (halone : phase.Occupied → ∀ j, j ≠ i → (tasks j).pod = (tasks i).pod →
      (tasks j).request.Overlaps (tasks i).request → ¬ (s.phase j).Occupied)
    (hholding : phase = .holding → (locks (tasks i).pod).lookup (tasks i).request.lockKey =
      some ((tasks i).request.lock (tasks i).pod) ∧ Leased st tasks i s) :
    LockInv st tasks (({ s with locks } : LockState ι).enter i phase) := by
  have hself := phase_enter { s with locks } i phase
  have hother : ∀ j, j ≠ i → (({ s with locks } : LockState ι).enter i phase).phase j = s.phase j :=
    fun j hne => phase_enter_of_ne _ _ hne
  refine ⟨hgood, h.leases, fun j hj => ?_, ?_, fun j hj => ?_⟩
  · by_cases hji : j = i
    · subst hji
      exact (hholding (hself.symm.trans hj)).1
    · rw [hother j hji] at hj
      exact (hlocks j hji hj).trans (h.registered j hj)
  · rintro a b hab hpod hoverlap ⟨ha, hb⟩
    by_cases hai : a = i
    · subst hai
      rw [hself] at ha
      rw [hother b (Ne.symm hab)] at hb
      exact halone ha b (Ne.symm hab) hpod.symm hoverlap.symm hb
    · rw [hother a hai] at ha
      by_cases hbi : b = i
      · subst hbi
        rw [hself] at hb
        exact halone hb a hab hpod hoverlap ha
      · rw [hother b hbi] at hb
        exact h.apart a b hab hpod hoverlap ⟨ha, hb⟩
  · by_cases hji : j = i
    · subst hji
      exact (hholding (hself.symm.trans hj)).2
    · rw [hother j hji] at hj
      exact h.leased j hj

theorem LockInv.scan_step
    (hnone : (tasks i).request.blocked (tasks i).pod (s.locks (tasks i).pod) = none)
    (hgood : Orderly st tasks (s.enter i .acquiring)) :
    LockInv st tasks (s.enter i .acquiring) := by
  have hself := phase_enter s i .acquiring
  have hactive : ((s.enter i .acquiring).phase i).Active := .inl hself
  refine h.enter_step hgood (fun _ _ _ => rfl) (fun _ j hne hpod hoverlap hoccupied => ?_) nofun
  -- an overlapping task of the pod that is in its way blocks it, or breaks the condition
  have hjphase := phase_enter_of_ne s .acquiring hne
  have hjactive : ((s.enter i .acquiring).phase j).Active := hjphase ▸ hoccupied.active
  obtain ⟨-, hkey, hboth⟩ := hgood.onePod j i hne hjactive hactive hpod
  rcases hoccupied with hacq | hhold
  · exact hboth hoverlap ⟨hjphase.trans hacq, hself⟩
  · have hreg := h.registered j hhold
    rw [hpod] at hreg
    have hfree := findSome?_eq_none_iff.1 hnone _ (AList.mem_lookup_iff.1 (mem_def.2 hreg))
    have hblocked := blockedBy_isSome (tasks i).pod hoverlap
      (hgood.clocks j i hjactive hactive) hkey
    rw [hfree] at hblocked
    cases hblocked

theorem LockInv.locks_step {locks' : KeyMap Bytes ActiveLock} (hactive : (s.phase i).Active)
    (hlocks : ∀ key, key ≠ (tasks i).request.lockKey →
      locks'.lookup key = (s.locks (tasks i).pod).lookup key)
    (hgood : Orderly st tasks ((s.setLocks (tasks i).pod locks').enter i phase))
    (hoccupied : phase.Occupied → (s.phase i).Occupied)
    (hholding : phase = .holding → locks'.lookup (tasks i).request.lockKey =
      some ((tasks i).request.lock (tasks i).pod) ∧ Leased st tasks i s) :
    LockInv st tasks ((s.setLocks (tasks i).pod locks').enter i phase) := by
  refine h.enter_step hgood (fun j hne hj => ?_) (fun hocc j hne hpod hoverlap hj =>
    h.apart j i hne hpod hoverlap ⟨hj, hoccupied hocc⟩) (fun hphase => ?_)
  · by_cases hpod : (tasks j).pod = (tasks i).pod
    · rw [hpod, update_self]
      exact hlocks _ (h.orderly.onePod j i hne (.inr (.inl hj)) hactive hpod).2.1
    · rw [update_of_ne hpod]
  · rw [update_self]
    exact hholding hphase

end Phases

end Steps

/-! ## Tasks -/

section Tasks

variable [DecidableEq ι] {i : ι} {s t : LockState ι}

/-- The program keeps the discipline of the locks and ends as `Q` says. -/
abbrev LockMeets (st : PartitionLeaseStore) (tasks : ι → DmlTask) (i : ι) {ε α : Type}
    (Q : Except ε α → LockState ι → Prop) (p : LockProg ε α) (s : LockState ι) : Prop :=
  Meets ((lockSystem ι).within (Orderly st tasks)) (lockDiscipline st tasks) i Q p s

/-- A program of the store, run by a task that is acquiring or releasing: what it gives of the
    store, and that the task stays where it is; a claim leaves no tombstone. -/
theorem onStore_meets {ε α : Type} {release : Bool} {p : StoreProg ε α}
    {Q : Except ε α → Shared (ι × Bool) → Prop}
    (hphase : s.phase i = if release then .releasing else .acquiring)
    (h : Meets (objectStore (ι × Bool)) (leaseDiscipline st (lockCalls tasks)) (i, release) Q p
      s.store) :
    LockMeets st tasks i
      (fun r t => (t.phase i = s.phase i ∧ (release = false → NoNewTombs st tasks i s t)) ∧
        Q r t.store) (onStore release p) s := by
  have hactive : ∀ t : LockState ι, t.phase i = s.phase i → (t.phase i).Active := by
    intro t ht
    rw [ht, hphase]
    cases release
    · exact .inl rfl
    · exact .inr (.inr rfl)
  have hlocal : s.phase i = s.phase i ∧ (release = false → NoNewTombs st tasks i s s) :=
    ⟨rfl, fun _ put hput _ => hput⟩
  -- what the whole adds to the store: where the task is, and the tombstones of its pod
  refine Meets.lift ?rely ?inv ?step hlocal h
  case rely =>
    rintro a b ⟨haphase, hatombs⟩ ⟨hmoves, hbphase, hbtombs⟩
    refine ⟨⟨hbphase.trans haphase, fun hclaim put hput htomb => ?_⟩, hmoves, trivial⟩
    exact hatombs hclaim put (hbtombs (hactive a haphase) put hput htomb) htomb
  case inv => exact fun a ha => ha.leases
  case step =>
    rintro a o c r b ⟨haphase, hatombs⟩ hinv hresp
    obtain ⟨hresp, hgood⟩ := System.respond_within.1 hresp
    obtain ⟨⟨r', store'⟩, hstore, heq⟩ := map_eq_some_iff.1 hresp
    cases heq
    refine ⟨c, hstore, fun hkeeps => ⟨hinv.store_step (haphase.trans hphase) hstore hgood hkeeps,
      haphase, fun hclaim put hput htomb => ?_⟩⟩
    have hnew := noNewTombs_of_respond hinv.orderly (hactive a haphase) hstore (j := i)
      (.inr hclaim) put hput htomb
    exact hatombs hclaim put hnew htomb

omit [DecidableEq ι] in
/-- Tombstones that were on their way when a claim began are for the claimed version or below. -/
theorem leased_of_claim (hinv : LockInv st tasks s) (htombs : NoNewTombs st tasks i s t)
    (hlog : (tasks i).log st = .ok log)
    (hmeans : ClaimMeans st (tasks i).claimRequest log s.store (.acquired lease) t.store) :
    Leased st tasks i t := by
  obtain ⟨hpod, hlive, version, hlease, habove⟩ := hmeans.owned lease rfl
  refine ⟨log, version, lease, hlog, hlease, hpod, hlive, fun put hput htomb v hv => ?_⟩
  obtain ⟨-, lease', -, -, hputlog, v', hfile, hroot⟩ :=
    hinv.leases.puts put (htombs put hput htomb)
  rw [hv] at hfile
  cases hfile
  have hsame : put.path.log = log := by
    obtain ⟨⟨k, release⟩, path, bytes, mode⟩ := put
    obtain ⟨hrelease, -, hklog⟩ := htomb
    subst hrelease
    have : Except.ok path.log = .ok log := hputlog.symm.trans (hklog.trans hlog)
    cases this
    rfl
  rw [hsame] at hroot
  rcases hroot with rfl | ⟨prev, before, hprev, hbefore, -⟩
  · exact UInt64.le_iff_toNat_le.2 (Nat.zero_le _)
  · have hlt := UInt64.lt_iff_toNat_lt.1 (habove prev before hbefore)
    exact UInt64.le_iff_toNat_le.2 (by omega)

/-- Where a task is after `acquire_dml_lock`: holding exactly with the lock. -/
def AcquireMeans (i : ι) : Except LeaseError LockOutcome → LockState ι → Prop
  | .ok (.acquired _), t => t.phase i = .holding
  | _, t => t.phase i = .idle ∨ t.phase i = .acquiring

theorem acquireLease_meets (hinv : LockInv st tasks s) (hphase : s.phase i = .acquiring) :
    LockMeets st tasks i (AcquireMeans i) ((tasks i).acquireLease st) s := by
  refine Meets.bind ((onStore_meets hphase (claim_gives rfl)).mono (fun r t _ hr => ?_))
  obtain ⟨⟨htphase, htombs⟩, hr⟩ := hr
  have hacquiring : t.phase i = .acquiring := htphase.trans hphase
  have hstays : ∀ {u : LockState ι}, (lockDiscipline st tasks).rely i t u →
      u.phase i = .idle ∨ u.phase i = .acquiring :=
    fun hu => .inr (hu.2.1.trans hacquiring)
  match r with
  | .error e => exact .inr hacquiring
  | .ok (.held lease) => exact fun u hu _ => hstays hu
  | .ok (.fenced lease) => exact fun u hu _ => hstays hu
  | .ok (.acquired lease) =>
    obtain ⟨-, log, hlog, hmeans⟩ := hr
    have hleased : Leased st tasks i t := leased_of_claim hinv (htombs rfl) hlog hmeans
    refine Meets.perform_within (fun u hu hinvu c r v hresp hgood => ?_)
    have huacq : u.phase i = .acquiring := hu.2.1.trans hacquiring
    have huleased : Leased st tasks i u := hleased.mono hu.1 (hu.2.2 (.inl hacquiring))
    cases c with
    | plain =>
      cases hresp
      refine ⟨keeps_of_phase (hinvu.locks_step (.inl huacq) (fun key hkey =>
        AList.lookup_insert_ne hkey) hgood (fun _ => .inl huacq)
        (fun _ => ⟨AList.lookup_insert _, huleased⟩)) rfl
        (fun j hj => phase_enter_of_ne _ _ hj), ?_⟩
      intro w hw _
      exact hw.2.1.trans (phase_enter _ _ _)
    | _ => cases hresp

theorem acquireDmlLock_meets (hphase : s.phase i = .idle) :
    LockMeets st tasks i (AcquireMeans i) ((tasks i).acquireDmlLock st) s := by
  refine Meets.perform_within (fun t ht hinvt c r u hresp hgood => ?_)
  have htidle : t.phase i = .idle := ht.2.1.trans hphase
  cases c with
  | plain =>
    simp only [lockSystem, LockState.respond] at hresp
    split at hresp
    · rename_i outcome hblocked
      cases hresp
      refine ⟨.refl hinvt, fun v hv _ => ?_⟩
      have hvidle : v.phase i = .idle := hv.2.1.trans htidle
      -- a lock of the registry gives no lease
      cases outcome with
      | acquired lease =>
        obtain ⟨e, -, he⟩ := exists_of_findSome?_eq_some hblocked
        unfold blockedBy at he
        split_ifs at he <;> cases he
      | held | conflict | fenced => exact .inl hvidle
    · rename_i hblocked
      cases hresp
      have hinvu := hinvt.scan_step hblocked hgood
      refine ⟨keeps_of_phase hinvu rfl (fun j hj => phase_enter_of_ne _ _ hj), ?_⟩
      exact acquireLease_meets hinvu (phase_enter _ _ _)
  | _ => cases hresp

theorem finish_meets {α : Type} {p : LockProg DmlLockError α} (hend : ∀ t,
      LockMeets st tasks i (fun _ _ => True) p t) :
    LockMeets st tasks i (fun _ _ => True) (DmlTask.finish >>= fun _ => p) s := by
  refine Meets.perform_within (fun t _ hinvt c r u hresp hgood => ?_)
  cases c with
  | plain =>
    cases hresp
    have hinvu := hinvt.enter_step hgood (fun _ _ _ => rfl)
      (fun hocc => by rcases hocc with h | h <;> cases h) nofun
    exact ⟨keeps_of_phase hinvu rfl (fun j hj => phase_enter_of_ne _ _ hj), hend _⟩
  | _ => cases hresp

theorem releaseFull_meets (hphase : s.phase i = .holding) :
    LockMeets st tasks i (fun _ _ => True) ((tasks i).releaseFull st) s := by
  refine Meets.perform_within (fun t ht hinvt c r u hresp hgood => ?_)
  have hholding : t.phase i = .holding := ht.2.1.trans hphase
  cases c with
  | plain =>
    cases hresp
    have hinvu := hinvt.locks_step (.inr (.inl hholding)) (fun key hkey =>
      AList.lookup_erase_ne hkey) hgood (fun h => by rcases h with h | h <;> cases h)
      nofun
    refine ⟨keeps_of_phase hinvu rfl (fun j hj => phase_enter_of_ne _ _ hj), ?_⟩
    have hreleasing : ((t.setLocks (tasks i).pod ((t.locks (tasks i).pod).erase
        (tasks i).request.lockKey)).enter i .releasing).phase i =
          if true then .releasing else .acquiring := phase_enter _ _ _
    have hrelease := @onStore_meets ι st tasks _ i _ _ _ true _ _ hreleasing
      (releaseWithKey_gives rfl)
    exact Meets.bind (Meets.attempt (hrelease.mono (fun _ _ _ _ => fun _ _ _ => trivial)))
  | _ => cases hresp

theorem DmlTask.prog_meets (hphase : s.phase i = .idle) :
    LockMeets st tasks i (fun _ _ => True) ((tasks i).prog st) s := by
  refine Meets.bind (Meets.attempt ((acquireDmlLock_meets hphase).mono (fun r t _ hr => ?_)))
  match r with
  | .error e => exact finish_meets (fun _ _ _ _ => trivial)
  | .ok .conflict => exact finish_meets (fun _ _ _ _ => trivial)
  | .ok (.held holder expires) => exact finish_meets (fun _ _ _ _ => trivial)
  | .ok (.fenced latest) => exact finish_meets (fun _ _ _ _ => trivial)
  | .ok (.acquired lease) =>
    refine Meets.bind ((releaseFull_meets hr).mono (fun r u _ _ => ?_))
    cases r with
    | error e => trivial
    | ok _ => exact finish_meets (p := Prog.ret ()) (fun _ _ _ _ => trivial)

/-! ## Runs -/

def lockPool (st : PartitionLeaseStore) (tasks : ι → DmlTask) (start : LockState ι) :
    Pool ι (LockState ι) LockOp LockOp.Answer DmlLockError Unit :=
  ⟨start, fun i => (tasks i).prog st⟩

/-- A store without leases and no task that has begun; the registries may hold anything. -/
structure NoLocks (s : LockState ι) : Prop where
  store : NoLeases s.store
  phase : ∀ i, s.phase i = .idle

omit [DecidableEq ι] in
theorem NoLocks.lockInv (h : NoLocks s) : LockInv st tasks s := by
  have hidle : ∀ i, ¬ (s.phase i).Active := by
    intro i hactive
    rw [h.phase i] at hactive
    rcases hactive with hi | hi | hi <;> cases hi
  have hfree : ∀ i, s.phase i ≠ .holding := fun i hi => hidle i (.inr (.inl hi))
  refine ⟨⟨fun i _ _ hi => absurd hi (hidle i), fun i _ hi => absurd hi (hidle i),
    fun i _ hi => absurd hi (hidle i), ?_⟩, h.store.leaseInv, fun i hi => absurd hi (hfree i), ?_,
    fun i hi => absurd hi (hfree i)⟩
  · intro log v w before later _ hbefore
    unfold leaseAt Shared.object at hbefore
    rw [h.store.objects] at hbefore
    cases hbefore
  · rintro i j - - - ⟨hi, -⟩
    exact hidle i hi.active

theorem lockSystem_drift :
    (lockDiscipline st tasks).AllowsDrift ((lockSystem ι).within (Orderly st tasks)) := by
  intro s c t hinv h
  obtain ⟨hdrift, hgood⟩ := System.drift_within.1 h
  obtain ⟨store', hstore, rfl⟩ := map_eq_some_iff.1 hdrift
  obtain ⟨hinvt, hst, hputs⟩ := hinv.drift_step hstore hgood
  exact ⟨hinvt, hst, fun j => ⟨rfl, fun _ put hput _ => hputs ▸ hput⟩⟩

/-- Any tasks on any pods that share a store, in every state they reach by states that are orderly:
    two outstanding guards do not overlap. -/
theorem dmlLocks_exclude (hstart : NoLocks s)
    {P : Pool ι (LockState ι) LockOp LockOp.Answer DmlLockError Unit}
    (h : ReachesWithin (lockSystem ι) (Orderly st tasks) (lockPool st tasks s) P) (i j : ι)
    (hne : i ≠ j) (hi : P.shared.phase i = .holding) (hj : P.shared.phase j = .holding) :
    ¬ (tasks i).request.Overlaps (tasks j).request := by
  have hinv : LockInv st tasks s := hstart.lockInv
  obtain ⟨hinvP, -, -⟩ := h.reaches.meets lockSystem_drift hinv
    (fun k => DmlTask.prog_meets (hstart.phase k))
  exact hinvP.exclusive hne hi hj

end Tasks

/-! ## Three tasks on two pods -/

/-- A task of tenant `t` that writes to a scope. -/
def writer (pod : String) (scope : DmlLockScope) : DmlTask := ⟨pod, ⟨"t", none, scope, .write, 0⟩, 5⟩

/-- Pods `a` and `b` want one table, and `a` wants a record of another one. -/
def threeWriters : Fin 3 → DmlTask
  | 0 => writer "a" (.table "s" "users")
  | 1 => writer "b" (.table "s" "users")
  | 2 => writer "a" (.record "s" "orders" "r")

/-- A claim of a scope nobody has claimed, up to the registration. -/
def claimed {ι : Type} (i : ι) (ticket : Nat) : List (Turn ι Choice) :=
  List.replicate 12 (.act i .plain) ++ [.drift (.arrive ticket 0)] ++
    List.replicate 2 (.act i .plain)

def threeTurns : List (Turn (Fin 3) Choice) :=
  claimed 0 0 ++ List.replicate 12 (.act 1 .plain) ++ claimed 2 1

/-- Every object of the store is the first version of its log. -/
def onlyFirst {ι : Type} (s : LockState ι) : Bool :=
  s.store.objects.entries.all (fun e => decide (e.1.file = .manifest 0))

theorem unexpired_of_onlyFirst {s : LockState ι} (h : onlyFirst s = true) (log : Bytes)
    (w : UInt64) (later : PartitionLease) (hlater : leaseAt st.codec s.store log w = some later) :
    w = 0 := by
  obtain ⟨o, ho, -⟩ := bind_eq_some_iff.1 hlater
  have hmem := AList.mem_lookup_iff.1 (mem_def.2 ho)
  have hfile := of_decide_eq_true (all_eq_true.1 h _ hmem)
  cases hfile
  rfl

theorem threeWriters_orderly (s : LockState (Fin 3)) (h : onlyFirst s = true) :
    Orderly rootStore threeWriters s := by
  have honePod : ∀ i j, i ≠ j → (threeWriters i).pod = (threeWriters j).pod →
      (threeWriters i).log rootStore ≠ (threeWriters j).log rootStore ∧
      (threeWriters i).request.lockKey ≠ (threeWriters j).request.lockKey ∧
      ¬ (threeWriters i).request.Overlaps (threeWriters j).request := by decide
  have hotherPod : ∀ i j, (threeWriters i).pod ≠ (threeWriters j).pod →
      (threeWriters i).request.Overlaps (threeWriters j).request →
      (threeWriters i).log rootStore = (threeWriters j).log rootStore := by decide
  have hclocks : ∀ i j, (threeWriters j).request.nowMs <
      saturatingAddMs (threeWriters i).request.nowMs lockTtlMs := by decide
  refine ⟨fun i j hne _ _ hpod => ?_, fun i j _ _ => hotherPod i j, fun i j _ _ => hclocks i j,
    fun log v w before later hvw _ hlater => ?_⟩
  · obtain ⟨hlog, hkey, hapart⟩ := honePod i j hne hpod
    exact ⟨hlog, hkey, fun hoverlap => absurd hoverlap hapart⟩
  · have hw := unexpired_of_onlyFirst h log w later hlater
    subst hw
    have hzero : (0 : UInt64).toNat = 0 := rfl
    omega

/-- The table goes to `a` and not to `b`, and both guards of `a` are outstanding. -/
theorem dmlLocks_exclude_threeWriters :
    ∃ P, Pool.playWithin (lockSystem (Fin 3)) onlyFirst (lockPool rootStore threeWriters {})
        threeTurns = some P ∧
      P.shared.phase 0 = .holding ∧ P.shared.phase 2 = .holding ∧
      (P.procs 1).outcome = some (.error (.held (threeWriters 1).request.scope.toKey "a")) ∧
      ¬ (threeWriters 0).request.Overlaps (threeWriters 2).request := by
  have hplays : (Pool.playWithin (lockSystem (Fin 3)) onlyFirst (lockPool rootStore threeWriters {})
      threeTurns).map (fun P => (P.shared.phase 0, P.shared.phase 2, (P.procs 1).outcome)) =
        some (.holding, .holding,
          some (.error (.held (threeWriters 1).request.scope.toKey "a"))) := by rfl
  obtain ⟨P, hP, hends⟩ := map_eq_some_iff.1 hplays
  obtain ⟨hfirst, hrest⟩ := Prod.mk.inj hends
  obtain ⟨hsecond, hrefused⟩ := Prod.mk.inj hrest
  refine ⟨P, hP, hfirst, hsecond, hrefused, ?_⟩
  exact dmlLocks_exclude ⟨⟨rfl, rfl, rfl, rfl⟩, fun _ => rfl⟩
    (Pool.reachesWithin_of_playWithin threeWriters_orderly hP) 0 2 (by decide) hfirst hsecond

/-! ## Locks that do not exclude each other -/

/-- Pod `a` writes to a table and pod `b` to a partition of it. -/
def tableAndPartition (second : Bool) : DmlTask :=
  if second then writer "b" (.partition "s" "users" "p") else writer "a" (.table "s" "users")

def tableTwice (_ : Bool) : DmlTask := writer "a" (.table "s" "users")

/-- A scope that the pod itself has claimed, claimed again. -/
def reclaimed {ι : Type} (i : ι) (ticket : Nat) : List (Turn ι Choice) :=
  List.replicate 17 (.act i .plain) ++ [.drift (.arrive ticket 0)] ++
    List.replicate 2 (.act i .plain)

/-- Every lease of the store is in force at time 0. -/
def inForce (s : LockState Bool) : Bool :=
  s.store.objects.entries.all (fun e =>
    (leaseCodec.fromSlice (ManifestCommitter.decodeFenced e.2.bytes).2).all
      (fun lease => !lease.isExpired 0))

/-- A schedule after which both tasks hold their guards and all leases are in force. -/
theorem holding_of_play (tasks : Bool → DmlTask) (turns : List (Turn Bool Choice))
    (h : (Pool.play (lockSystem Bool) (lockPool rootStore tasks {}) turns).map
      (fun P => (inForce P.shared, P.shared.phase false, P.shared.phase true)) =
        some (true, .holding, .holding)) :
    ∃ P, Reaches (lockSystem Bool) (lockPool rootStore tasks {}) P ∧ inForce P.shared = true ∧
      P.shared.phase false = .holding ∧ P.shared.phase true = .holding := by
  obtain ⟨P, hP, hends⟩ := map_eq_some_iff.1 h
  obtain ⟨hforce, hrest⟩ := Prod.mk.inj hends
  obtain ⟨hfirst, hsecond⟩ := Prod.mk.inj hrest
  exact ⟨P, Pool.reaches_of_play hP, hforce, hfirst, hsecond⟩

/-- Both tasks hold their guards while all leases are in force: a table and its partition on two
    pods, whose leases differ and whose registries do not know of each other; and a table twice on
    one pod, which lets its own scope through and renews its own lease. -/
theorem overlapping_guards :
    ((∃ P, Reaches (lockSystem Bool) (lockPool rootStore tableAndPartition {}) P ∧
        inForce P.shared = true ∧ P.shared.phase false = .holding ∧
        P.shared.phase true = .holding) ∧
      (tableAndPartition false).request.Overlaps (tableAndPartition true).request) ∧
    ((∃ P, Reaches (lockSystem Bool) (lockPool rootStore tableTwice {}) P ∧
        inForce P.shared = true ∧ P.shared.phase false = .holding ∧
        P.shared.phase true = .holding) ∧
      (tableTwice false).request.Overlaps (tableTwice true).request) := by
  refine ⟨⟨holding_of_play tableAndPartition (claimed false 0 ++ claimed true 1) ?levels, by decide⟩,
    ⟨holding_of_play tableTwice (claimed false 0 ++ reclaimed true 1) ?twice, by decide⟩⟩
  case levels => rfl
  case twice => rfl

end ProximaDb.Cluster
