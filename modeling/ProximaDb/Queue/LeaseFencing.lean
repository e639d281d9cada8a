/-
  ProximaDb.Queue.LeaseFencing

  Progress is fenced by the lease. A consumer that has begun a commit relies on this: the other
  consumers never put its name into the lease file, so whenever the file names it, the lease has
  not passed to anybody since the call began.
-/
import ProximaDb.Queue.Leases

namespace ProximaDb.Queue

open ProximaDb.Lib MetaState

variable {ι : Type} {codecs : MetaCodecs} {place : Place} {holder : ι → String}

/-! ## What is kept -/

/-- A change that a renewal or a release may make: the lease names the consumer before and after
    it. -/
def LeaseChange.Legal (holder : ι → String) (c : LeaseChange ι) : Prop :=
  ((∃ d, c.call = some (.renew d)) ∨ c.call = some .release) →
    c.before = some (holder c.consumer) ∧ c.after = some (holder c.consumer)

/-- A commit that took effect under the lease it began under. -/
def CommitRecord.Legal (holder : ι → String) (c : CommitRecord ι) : Prop :=
  c.named = some (holder c.consumer) ∧ c.begun = c.term

structure MetaState.Legal (holder : ι → String) (s : MetaState ι) : Prop where
  changes : ∀ c ∈ s.changes, c.Legal holder
  commits : ∀ c ∈ s.commits, c.Legal holder

/-- What consumer `i` relies on: it stays in its call, and the lease file names it only if it did
    before and the lease has not passed to anybody. -/
def fencing (codecs : MetaCodecs) (place : Place) (holder : ι → String) :
    Discipline ι (MetaState ι) where
  inv := MetaState.Legal holder
  moves s t := NotBehind (s.progress codecs place) (t.progress codecs place)
  own i s t := t.calls i = s.calls i ∧ t.begun i = s.begun i ∧
    (t.named codecs = some (holder i) → t.term = s.term ∧ s.named codecs = some (holder i))
  moves_refl s := .refl _
  moves_trans := .trans
  own_refl i s := ⟨rfl, rfl, fun h => ⟨rfl, h⟩⟩
  own_trans i s t u h h' := by
    refine ⟨h'.1.trans h.1, h'.2.1.trans h.2.1, fun hnamed => ?_⟩
    obtain ⟨hterm', hnamed'⟩ := h'.2.2 hnamed
    obtain ⟨hterm, hnamed''⟩ := h.2.2 hnamed'
    exact ⟨hterm'.trans hterm, hnamed''⟩

/-- A consumer whose call began under the lease that names it, if one does. -/
def MetaState.Current (codecs : MetaCodecs) (holder : ι → String) (i : ι) (s : MetaState ι) : Prop :=
  s.named codecs = some (holder i) → s.term = s.begun i

theorem MetaState.Current.rely {i : ι} {s t : MetaState ι} (h : s.Current codecs holder i)
    (hst : (fencing codecs place holder).rely i s t) : t.Current codecs holder i := by
  intro hnamed
  obtain ⟨-, -, hbegun, howned⟩ := hst
  obtain ⟨hterm, hnamed'⟩ := howned hnamed
  rw [hterm, hbegun]
  exact h hnamed'

/-! ## Exchanges -/

variable {lease : LeaseMeta} {bytes : Bytes}

section Exchanges

variable {i : ι} {s : MetaState ι}

theorem MetaState.named_of_file
    (hfile : s.files .lease = some bytes) (hlease : codecs.lease.fromSlice bytes = some lease) :
    s.named codecs = some lease.holderId := by
  unfold named
  rw [hfile, Option.bind_some, hlease]
  rfl

theorem keeps_publish_lease (hholder : Function.Injective holder)
    (hinv : s.Legal holder) (hname : lease.holderId = holder i)
    (hlegal : ((∃ d, s.calls i = some (.renew d)) ∨ s.calls i = some .release) →
      s.named codecs = some (holder i)) :
    (fencing codecs place holder).Keeps i s (s.publish codecs i .lease (codecs.lease.toVec lease)) := by
  have hafter : (s.publish codecs i .lease (codecs.lease.toVec lease)).named codecs =
    some lease.holderId :=
      named_of_file (s.files_publish_self codecs i .lease _) (codecs.lease.fromSlice_toVec lease)
  refine ⟨⟨fun c hc => ?_, hinv.commits⟩, .refl _, fun j hj => ⟨rfl, rfl, fun hnamed => ?_⟩⟩
  · rcases List.mem_append.1 hc with hold | hnew
    · exact hinv.changes c hold
    · rw [List.mem_singleton.1 hnew]
      intro hcall
      exact ⟨hlegal hcall, by rw [← hname]; exact hafter⟩
  · -- the file names the consumer itself, not another one
    rw [hafter, hname] at hnamed
    exact absurd (hholder (Option.some.inj hnamed)).symm hj

/-- An offset that is not behind is committed under a lease that names the consumer. -/
theorem keeps_publish_offset {offset : Nat} (hinv : s.Legal holder)
    (hnamed : s.named codecs = some (holder i)) (hcurrent : s.Current codecs holder i)
    (hahead : NotBehind (s.progress codecs place) (some offset)) :
    (fencing codecs place holder).Keeps i s
      (s.publish codecs i .offset (codecs.offset.toVec ⟨place.group, offset⟩)) := by
  refine ⟨⟨hinv.changes, fun c hc => ?_⟩, ?_, fun j _ => ⟨rfl, rfl, fun h => ⟨rfl, h⟩⟩⟩
  · rcases List.mem_append.1 hc with hold | hnew
    · exact hinv.commits c hold
    · rw [List.mem_singleton.1 hnew]
      exact ⟨hnamed, (hcurrent hnamed).symm⟩
  · show NotBehind _ (progress codecs place _)
    unfold progress at hahead ⊢
    rw [s.files_publish_self codecs i .offset]
    simpa [decodeOffset, codecs.offset.fromSlice_toVec, Except.toOption] using hahead

end Exchanges

/-! ## Programs that keep to it -/

/-- A program that keeps to the discipline, however it ends. -/
def Fenced [DecidableEq ι] (codecs : MetaCodecs) (place : Place) (holder : ι → String) (i : ι) {α : Type}
    (p : MetaProg α) (s : MetaState ι) : Prop :=
  Meets (metaSystem ι codecs) (fencing codecs place holder) i (fun _ _ => True) p s

namespace Fenced

variable [DecidableEq ι] {α β : Type} {i : ι} {s : MetaState ι} {file : MetaFile}

theorem ret (a : α) : Fenced codecs place holder i (.ret a) s := fun _ _ _ => trivial

theorem fail (e : QueueError) : Fenced codecs place holder i (.fail e : MetaProg α) s :=
  fun _ _ _ => trivial

theorem ofExcept {x : Except QueueError α} {k : α → MetaProg β}
    (h : ∀ a, x = .ok a → Fenced codecs place holder i (k a) s) :
    Fenced codecs place holder i (Prog.ofExcept x >>= k) s := by
  cases x with
  | ok a => exact h a rfl
  | error e => exact fail e

theorem nowUnixNanos {k : Nat → MetaProg α}
    (h : ∀ t now, (fencing codecs place holder).rely i s t → t.Legal holder →
      Fenced codecs place holder i (k now) t) :
    Fenced codecs place holder i (Queue.nowUnixNanos >>= k) s := by
  intro t hst hinv c r u hr
  cases hr
  refine ⟨.refl hinv, ?_⟩
  cases hclock : c.clock with
  | some now => exact h t now hst hinv
  | none => exact fail _

theorem readBytes {k : Option Bytes → MetaProg α}
    (h : ∀ t, (fencing codecs place holder).rely i s t → t.Legal holder →
      Fenced codecs place holder i (k (t.files file)) t) :
    Fenced codecs place holder i (Queue.readBytes file >>= k) s := by
  intro t hst hinv c r u hr
  simp only [metaSystem, respond] at hr
  split_ifs at hr
  · cases hr
    exact ⟨.refl hinv, h t hst hinv⟩
  · cases hr
    exact ⟨.refl hinv, fail _⟩

/-- An exchange: what it publishes is kept to, and if nothing is published the program goes on. -/
theorem compareExchange {expected : Option Bytes} {replacement : Bytes}
    {guards : List (MetaFile × Option Bytes)} {onError : String → QueueError}
    {k : Bool → MetaProg α}
    (hpublish : ∀ t, (fencing codecs place holder).rely i s t → t.Legal holder →
      t.Matches file expected guards →
      (fencing codecs place holder).Keeps i t (t.publish codecs i file replacement))
    (htrue : ∀ t, Fenced codecs place holder i (k true) t)
    (hfalse : ∀ t, (fencing codecs place holder).rely i s t → t.Legal holder →
      Fenced codecs place holder i (k false) t) :
    Fenced codecs place holder i
      (Queue.compareExchange file expected replacement guards onError >>= k) s := by
  intro t hst hinv c r u hr
  simp only [metaSystem, respond] at hr
  split at hr
  case h_1 =>
    split_ifs at hr with hmatches
    · cases hr
      exact ⟨hpublish t hst hinv hmatches, htrue _⟩
    · cases hr
      exact ⟨.refl hinv, hfalse t hst hinv⟩
  case h_2 =>
    cases hr
    exact ⟨.refl hinv, hfalse t hst hinv⟩
  case h_3 =>
    cases hr
    exact ⟨.refl hinv, fail _⟩
  case h_4 =>
    split_ifs at hr with hmatches
    cases hr
    exact ⟨hpublish t hst hinv hmatches, fail _⟩

end Fenced

theorem parseLease_ok {corrupt : String} (h : parseLease codecs corrupt bytes = .ok lease) :
    codecs.lease.fromSlice bytes = some lease := by
  unfold parseLease at h
  split at h
  case h_1 lease' hlease =>
    cases h
    exact hlease
  case h_2 => cases h

section Decisions

variable {s : MetaState ι} {observed : Option Bytes}

theorem named_of_renewal {existing : Option LeaseMeta} {now : Nat}
    {name : String} (hfile : s.files .lease = observed)
    (hparse : parseExisting codecs observed = .ok existing)
    (hcheck : checkExisting place name true now existing = .ok ()) :
    s.named codecs = some name := by
  cases observed with
  | none =>
    cases hparse
    cases hcheck
  | some bytes =>
    simp only [parseExisting, Except.map] at hparse
    split at hparse
    · cases hparse
    · rename_i lease hlease
      cases hparse
      rw [named_of_file hfile (parseLease_ok hlease)]
      simp only [checkExisting] at hcheck
      split_ifs at hcheck with hempty hrejected
      by_contra hne
      refine hrejected (decide_eq_true (.inl fun heq => hne ?_))
      rw [heq]

theorem notBehind_previous {previous : Option Nat} (hfile : s.files .offset = observed)
    (hdecode : decodePrevious codecs place observed = .ok previous) (offset : Nat) :
    NotBehind (s.progress codecs place) (some (previous.elim offset (max · offset))) := by
  intro c hc
  unfold progress at hc
  rw [hfile] at hc
  cases observed with
  | none => cases hc
  | some bytes =>
    simp only [decodePrevious, Except.map] at hdecode
    dsimp only at hc
    split at hdecode
    · cases hdecode
    · rename_i prev hoffset
      rw [hoffset] at hc
      cases hdecode
      cases hc
      exact ⟨max c offset, rfl, Nat.le_max_left _ _⟩

end Decisions

section Calls

variable [DecidableEq ι] {i : ι} {s : MetaState ι} {call : LeaseCall}

variable (hholder : Function.Injective holder) {leaseDuration : Nat} {renewal : Bool}

include hholder

theorem fenced_updateRounds (rounds : Nat) (hcall : s.calls i = some call)
    (hrenewal : (∃ d, call = .renew d) ∨ call = .release → renewal = true) :
    Fenced codecs place holder i
      (updateRounds codecs place (holder i) renewal leaseDuration rounds) s := by
  induction rounds generalizing s with
  | zero => exact .fail _
  | succ rounds ih =>
    refine .readBytes (fun t hst _ => .nowUnixNanos (fun u now htu _ => ?_))
    refine .ofExcept (fun existing hparse => .ofExcept (fun _ hcheck => ?_))
    split_ifs
    · exact .fail _
    · refine .compareExchange (fun v huv hinv hmatches => ?_) (fun _ => .ret ()) (fun v huv _ => ?_)
      · have hcall' : v.calls i = some call := by
          rw [huv.2.1, htu.2.1, hst.2.1]
          exact hcall
        refine keeps_publish_lease hholder hinv rfl (fun hkind => ?_)
        rw [hcall'] at hkind
        have htrue : renewal = true := by
          refine hrenewal (hkind.imp ?_ Option.some.inj)
          rintro ⟨d, hd⟩
          exact ⟨d, Option.some.inj hd⟩
        subst htrue
        exact named_of_renewal hmatches.1 hparse hcheck
      · refine ih ?_
        rw [huv.2.1, htu.2.1, hst.2.1]
        exact hcall

theorem fenced_update (hcall : s.calls i = some call)
    (hrenewal : (∃ d, call = .renew d) ∨ call = .release → renewal = true) :
    Fenced codecs place holder i (update codecs place (holder i) renewal leaseDuration) s := by
  refine .ofExcept (fun _ _ => ?_)
  split_ifs
  · exact .fail _
  · exact fenced_updateRounds hholder 8 hcall hrenewal

theorem fenced_releaseRounds (rounds : Nat) :
    Fenced codecs place holder i (releaseRounds codecs (holder i) rounds) s := by
  induction rounds generalizing s with
  | zero => exact .fail _
  | succ rounds ih =>
    refine .readBytes (fun t _ _ => ?_)
    cases t.files .lease with
    | none => exact .ret ()
    | some bytes =>
      refine .ofExcept (fun lease hparse => ?_)
      split_ifs with hdone
      · exact .ret ()
      · have hname : lease.holderId = holder i := by
          by_contra hne
          exact hdone (.inl hne)
        refine .compareExchange (fun u _ hinv hmatches => ?_) (fun _ => .ret ()) (fun u _ _ => ih)
        refine keeps_publish_lease hholder hinv hname (fun _ => ?_)
        rw [← hname]
        exact named_of_file hmatches.1 (parseLease_ok hparse)

omit hholder in
theorem fenced_ownedBytes {α : Type} {k : Bytes → MetaProg α}
    (h : ∀ t bytes lease, (fencing codecs place holder).rely i s t → t.Legal holder →
      codecs.lease.fromSlice bytes = some lease → lease.holderId = holder i →
      Fenced codecs place holder i (k bytes) t) :
    Fenced codecs place holder i (ownedBytes codecs place (holder i) >>= k) s := by
  unfold ownedBytes
  rw [Prog.bind_assoc]
  refine .ofExcept (fun _ _ => ?_)
  rw [Prog.bind_assoc]
  refine .readBytes (fun t hst _ => ?_)
  cases t.files .lease with
  | none => exact .fail _
  | some bytes =>
    rw [Prog.bind_assoc]
    refine .ofExcept (fun lease hparse => ?_)
    by_cases hname : lease.holderId = holder i
    · rw [if_neg (not_not_intro hname), Prog.bind_assoc]
      refine .nowUnixNanos (fun u now htu hinv => ?_)
      by_cases hexpired : lease.expiresAtUnixNanos ≤ now
      · rw [if_pos hexpired]
        exact .fail _
      · rw [if_neg hexpired]
        exact h u bytes lease (hst.trans htu) hinv (parseLease_ok hparse) hname
    · rw [if_pos hname]
      exact .fail _

omit hholder in
theorem fenced_commitRounds {committedOffset : Nat} (rounds : Nat)
    (hcurrent : s.Current codecs holder i) :
    Fenced codecs place holder i (commitRounds codecs place (holder i) committedOffset rounds) s := by
  induction rounds generalizing s with
  | zero => exact .fail _
  | succ rounds ih =>
    refine fenced_ownedBytes (fun t leaseBytes lease hst _ hparse hname => ?_)
    refine .readBytes (fun u htu _ => .ofExcept (fun previous hdecode => ?_))
    have hcurrent' := (hcurrent.rely hst).rely htu
    refine .compareExchange (fun v huv hinvv hmatches => ?_) (fun _ => .ret ())
      (fun v huv _ => ih (hcurrent'.rely huv))
    have hnamed : v.named codecs = some (holder i) := by
      rw [← hname]
      exact named_of_file (hmatches.2 _ (List.mem_singleton_self _)) hparse
    exact keeps_publish_offset hinvv hnamed (hcurrent'.rely huv)
      (notBehind_previous hmatches.1 hdecode committedOffset)

theorem fenced_call (hcall : s.calls i = some call) (hcurrent : s.Current codecs holder i) :
    Fenced codecs place holder i (call.prog codecs place (holder i)) s := by
  cases call with
  | tryAcquire leaseDuration =>
    refine fenced_update hholder hcall ?_
    rintro (⟨d, hd⟩ | hd) <;> cases hd
  | renew => exact fenced_update hholder hcall (fun _ => rfl)
  | release => exact .ofExcept (fun _ _ => fenced_releaseRounds hholder 8)
  | commit => exact .ofExcept (fun _ _ => fenced_commitRounds 8 hcurrent)

theorem fenced_consumerCalls (script : List LeaseCall) :
    Fenced codecs place holder i (consumerCalls codecs place (holder i) script) s := by
  induction script generalizing s with
  | nil => exact .ret ()
  | cons call rest ih =>
    intro t _ hinvt c r u hr
    cases hr
    have hkeeps : (fencing codecs place holder).Keeps i t (t.beginCall i call) :=
      ⟨⟨hinvt.changes, hinvt.commits⟩, .refl _, fun _ hj =>
        ⟨Function.update_of_ne hj _ _, Function.update_of_ne hj _ _, fun h => ⟨rfl, h⟩⟩⟩
    refine ⟨hkeeps, ?_⟩
    have hcall : (t.beginCall i call).calls i = some call := Function.update_self _ _ _
    have hcurrent : (t.beginCall i call).Current codecs holder i :=
      fun _ => (Function.update_self i t.term t.begun).symm
    have hfenced : Fenced codecs place holder i _ _ := fenced_call hholder hcall hcurrent
    show Meets _ _ i _ (Prog.attempt (call.prog codecs place (holder i)) >>= _) _
    refine Meets.bind (Meets.attempt (hfenced.mono (fun _ _ _ _ => ?_)))
    exact ih

end Calls

/-- Over any contents of the files, any calls of any consumers with different names, and any
    interleaving, clocks and faults: the committed offset never decreases; a commit takes effect
    only while the lease names the consumer and has not passed to anybody since the call began; a
    renewal or a release changes only a lease that names the consumer, which it names after. -/
theorem progress_fenced_by_lease [DecidableEq ι] (hholder : Function.Injective holder)
    {scripts : ι → List LeaseCall} {files : MetaFile → Option Bytes}
    {p q : Pool ι (MetaState ι) MetaOp MetaOp.Answer QueueError Unit}
    (hp : Reaches (metaSystem ι codecs) (consumersOn codecs place holder scripts files) p)
    (hq : Reaches (metaSystem ι codecs) p q) :
    NotBehind (p.shared.progress codecs place) (q.shared.progress codecs place) ∧
    (∀ c ∈ q.shared.commits, c.named = some (holder c.consumer) ∧ c.begun = c.term) ∧
    (∀ c ∈ q.shared.changes, (∃ d, c.call = some (.renew d)) ∨ c.call = some .release →
      c.before = some (holder c.consumer) ∧ c.after = some (holder c.consumer)) := by
  have hdrift : (fencing codecs place holder).AllowsDrift (metaSystem ι codecs) := by
    intro s c s' _ hd
    cases hd
  have hstart : (consumersOn codecs place holder scripts files).shared.Legal holder :=
    ⟨nofun, nofun⟩
  obtain ⟨hinvp, -, hmeets⟩ :=
    hp.meets hdrift hstart (fun i => fenced_consumerCalls hholder (scripts i))
  obtain ⟨hinvq, hmoves, -⟩ := hq.meets hdrift hinvp hmeets
  exact ⟨hmoves, hinvq.commits, hinvq.changes⟩

/-! ## A takeover -/

def JsonCodec.ofFormat {α : Type} (f : Format α) : JsonCodec α where
  toVec := f.put
  fromSlice bytes := (f.get bytes).map Prod.fst
  fromSlice_toVec a := by
    have h := f.get_put a []
    rw [List.append_nil] at h
    rw [h]
    rfl

def plainMeta : MetaCodecs where
  lease := .ofFormat ((Format.pair Format.string Format.nat).iso
    (fun m => (m.holderId, m.expiresAtUnixNanos)) (fun p => ⟨p.1, p.2⟩) (fun _ => rfl))
  offset := .ofFormat ((Format.pair Format.string Format.nat).iso
    (fun m => (m.group, m.committedOffset)) (fun p => ⟨p.1, p.2⟩) (fun _ => rfl))

def holderName (second : Bool) : String := if second then "b" else "a"

def takeoverCalls (second : Bool) : List LeaseCall :=
  if second then [.tryAcquire 10, .commit 6] else [.tryAcquire 10, .commit 5, .commit 7]

/-- The first consumer takes the lease, commits 5 and has read its lease to commit 7, when the
    second one, whose clock is past the deadline, takes the lease over; the commit of 7 goes on and
    fails, and the second consumer commits 6. -/
def takeover : List (Turn Bool MetaChoice) :=
  let turns (second : Bool) (clocks : List (Option Nat)) : List (Turn Bool MetaChoice) :=
    clocks.map (fun clock => .act second { clock })
  turns false [none, none, some 0, none] ++ turns false [none, none, some 1, none, none] ++
    turns false [none, none, some 2] ++ turns true [none, none, some 20, none] ++
    turns false [none, none, none] ++ turns true [none, none, some 21, none, none]

theorem progress_fenced_by_lease_takeover : Function.Injective holderName ∧ ∃ q,
    Reaches (metaSystem Bool plainMeta)
      (consumersOn plainMeta ⟨"t", 0, "g"⟩ holderName takeoverCalls (fun _ => none)) q ∧
    q.shared.progress plainMeta ⟨"t", 0, "g"⟩ = some 6 ∧
    q.shared.commits = [⟨false, some "a", 1, 1⟩, ⟨true, some "b", 2, 2⟩] ∧
    ∀ c ∈ q.shared.commits, c.named = some (holderName c.consumer) ∧ c.begun = c.term := by
  have hinjective : Function.Injective holderName := by
    intro x y hxy
    revert x y
    decide
  have hrun : (Pool.play (metaSystem Bool plainMeta)
      (consumersOn plainMeta ⟨"t", 0, "g"⟩ holderName takeoverCalls (fun _ => none)) takeover).map
        (fun q => (q.shared.progress plainMeta ⟨"t", 0, "g"⟩, q.shared.commits)) =
      some (some 6, [⟨false, some "a", 1, 1⟩, ⟨true, some "b", 2, 2⟩]) := by
    rfl
  obtain ⟨q, hq, hview⟩ := Option.map_eq_some_iff.1 hrun
  simp only [Prod.mk.injEq] at hview
  have hreaches := Pool.reaches_of_play hq
  exact ⟨hinjective, q, hreaches, hview.1, hview.2,
    (progress_fenced_by_lease hinjective hreaches .refl).2.1⟩

end ProximaDb.Queue
