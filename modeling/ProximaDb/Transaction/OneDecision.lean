/-
  ProximaDb.Transaction.OneDecision

  The storage engines' coordinator takes one decision per transaction, as long as the calls come
  in order: the transaction is begun first, prepared once, not aborted while it is prepared, and
  nobody joins after that.
-/
import ProximaDb.Transaction.MultiModel

namespace ProximaDb.MultiModel

open ProximaDb.Lib List World Option MultiModel Pool
open Meets (perform_within)

variable {ι : Type}

/-! ## The invariant -/

variable {d : Decision} {w : World ι}

def World.Deciding (w : World ι) : Decision → Prop
  | .commit => w.state = some .committing ∨ w.state = some .committed
  | .abort => w.state = some .aborting ∨ w.state = some .aborted

theorem World.Deciding.eq {d' : Decision} (h : w.Deciding d) (h' : w.Deciding d') : d = d' := by
  cases d <;> cases d' <;> simp only [World.Deciding] at h h' ⊢ <;> rcases h with h | h <;>
    rcases h' with h' | h' <;> rw [h] at h' <;> cases h'

/-- The states from which a decision is still to be taken. -/
def Undecided (state : Option TransactionState) : Prop :=
  state = none ∨ state = some .active ∨ state = some .preparing ∨ state = some .prepared

theorem World.not_deciding (h : Undecided w.state) (d : Decision) : ¬ w.Deciding d := by
  intro hd
  cases d <;> rcases hd with hd | hd <;> rw [hd] at h <;> rcases h with h | h | h | h <;> cases h

structure Inv (w : World ι) : Prop where
  orderly : w.orderly = true
  sent : ∀ s ∈ w.sent, w.Deciding s.decision ∧
    (s.decision = .commit → ∀ p ∈ s.enlisted, p ∈ s.yes)
  agreed : w.state = some .prepared ∨ w.Deciding .commit → ∀ p ∈ w.enlisted, p ∈ w.yes
  idle : w.phase = .idle → w.aborting = false ∧ (w.state = none ∨ w.state = some .active) ∨
    w.aborting = true ∧ w.Deciding .abort
  running : ∀ i, w.phase = .running i → w.state = some .preparing

structure Moves (w u : World ι) : Prop where
  terminal : ∀ state, w.state = some state → state.isTerminal = true → u.state = some state
  deciding : ∀ d, w.Deciding d → u.Deciding d
  joined : w.phase ≠ .idle → u.phase ≠ .idle ∧ ∀ p ∈ u.enlisted, p ∈ w.enlisted
  yes : ∀ p ∈ w.yes, p ∈ u.yes

def order (ι : Type) : Discipline ι (World ι) where
  inv := Inv
  moves := Moves
  own i w u := w.phase = .running i → u.phase = .running i
  moves_refl _ := ⟨fun _ h _ => h, fun _ h => h, fun h => ⟨h, fun _ hp => hp⟩, fun _ hp => hp⟩
  moves_trans h h' :=
    ⟨fun state hs ht => h'.terminal state (h.terminal state hs ht) ht,
      fun d hd => h'.deciding d (h.deciding d hd),
      fun hidle => ⟨(h'.joined (h.joined hidle).1).1,
        fun p hp => (h.joined hidle).2 p ((h'.joined (h.joined hidle).1).2 p hp)⟩,
      fun p hp => h'.yes p (h.yes p hp)⟩
  own_refl _ _ h := h
  own_trans _ _ _ _ h h' hw := h' (h hw)

theorem Inv.unsent (h : Inv w) (hnone : ∀ d, ¬ w.Deciding d) : w.sent = [] := by
  cases hsent : w.sent with
  | nil => rfl
  | cons s rest => exact absurd (h.sent s (by rw [hsent]; exact mem_cons_self)).1 (hnone _)

/-! ## What a step keeps -/

section Steps

variable {w u : World ι} {i : ι}

theorem not_agreed (h : w.state = none ∨ w.state = some .active ∨ w.state = some .preparing ∨
    w.Deciding .abort) : ¬(w.state = some .prepared ∨ w.Deciding .commit) := by
  rintro (hagreed | hagreed | hagreed) <;> rcases h with h | h | h | h | h <;>
    rw [hagreed] at h <;> cases h

theorem Inv.not_agreed (h : Inv w) (hidle : w.phase = .idle) :
    ¬(w.state = some .prepared ∨ w.Deciding .commit) := by
  rcases h.idle hidle with ⟨-, hnone | hactive⟩ | ⟨-, habort⟩
  · exact MultiModel.not_agreed (.inl hnone)
  · exact MultiModel.not_agreed (.inr (.inl hactive))
  · exact MultiModel.not_agreed (.inr (.inr (.inr habort)))

theorem keeps_same (h : Inv w) (hstate : u.state = w.state)
    (henlisted : w.phase ≠ .idle → ∀ p ∈ u.enlisted, p ∈ w.enlisted) (hsent : u.sent = w.sent)
    (hphase : u.phase = w.phase) (haborting : u.aborting = w.aborting)
    (horderly : u.orderly = w.orderly) (hyes : ∀ p ∈ w.yes, p ∈ u.yes) : (order ι).Keeps i w u := by
  have hdeciding : ∀ d, u.Deciding d ↔ w.Deciding d := by
    intro d
    cases d <;> simp only [World.Deciding, hstate]
  refine ⟨⟨?_, ?_, ?_, ?_, ?_⟩, ⟨?_, ?_, ?_, hyes⟩, fun j _ hj => by rw [hphase]; exact hj⟩
  · rw [horderly]
    exact h.orderly
  · rw [hsent]
    exact fun s hs => ⟨(hdeciding _).2 (h.sent s hs).1, (h.sent s hs).2⟩
  · rw [hstate, hdeciding]
    exact fun hagreed p hp => hyes p (h.agreed hagreed p
      (henlisted (fun hidle => h.not_agreed hidle hagreed) p hp))
  · rw [hphase, haborting, hstate, hdeciding]
    exact h.idle
  · rw [hphase, hstate]
    exact h.running
  · intro state hs _
    rw [hstate]
    exact hs
  · exact fun d hd => (hdeciding d).2 hd
  · intro hidle
    rw [hphase]
    exact ⟨hidle, henlisted hidle⟩

/-- A step that takes the state from before a decision on, with nothing sent yet. -/
theorem keeps_advance (h : Inv w) (hnone : ∀ d, ¬ w.Deciding d) (horderly : u.orderly = true)
    (hsent : u.sent = w.sent) (henlisted : u.enlisted = w.enlisted) (hyes : u.yes = w.yes)
    (hagreed : u.state = some .prepared ∨ u.Deciding .commit → ∀ p ∈ w.enlisted, p ∈ w.yes)
    (hidle : u.phase = .idle → u.aborting = false ∧ (u.state = none ∨ u.state = some .active) ∨
      u.aborting = true ∧ u.Deciding .abort)
    (hrunning : ∀ j, u.phase = .running j → u.state = some .preparing)
    (hphase : w.phase ≠ .idle → u.phase ≠ .idle)
    (hown : ∀ j, j ≠ i → w.phase = .running j → u.phase = .running j) : (order ι).Keeps i w u := by
  refine ⟨⟨horderly, ?_, ?_, hidle, hrunning⟩, ⟨?_, ?_, ?_, ?_⟩, hown⟩
  · rw [hsent, h.unsent hnone]
    exact fun s hs => absurd hs not_mem_nil
  · rw [henlisted, hyes]
    exact hagreed
  · -- a terminal state is a decision
    intro state hs hterminal
    cases state with
    | committed => exact absurd (.inr hs) (hnone .commit)
    | aborted => exact absurd (.inr hs) (hnone .abort)
    | active | preparing | prepared | committing | aborting | unknown => cases hterminal
  · exact fun d hd => absurd hd (hnone d)
  · rw [henlisted]
    exact fun hne => ⟨hphase hne, fun _ hp => hp⟩
  · rw [hyes]
    exact fun _ hp => hp

theorem keeps_decided (h : Inv w) (hd : w.Deciding d) (hd' : u.Deciding d)
    (hterminal : ∀ state, w.state = some state → state.isTerminal = true → u.state = some state)
    (horderly : u.orderly = true) (hsent : ∀ s ∈ u.sent, s ∈ w.sent ∨
      s.decision = d ∧ (d = .commit → ∀ p ∈ s.enlisted, p ∈ s.yes))
    (henlisted : u.enlisted = w.enlisted) (hyes : u.yes = w.yes) (hphase : u.phase = w.phase)
    (haborting : w.aborting = true → u.aborting = true) : (order ι).Keeps i w u := by
  have hside : ∀ d', u.Deciding d' ↔ w.Deciding d' := fun d' =>
    ⟨fun h' => hd'.eq h' ▸ hd, fun h' => hd.eq h' ▸ hd'⟩
  refine ⟨⟨horderly, fun s hs => ?_, ?_, ?_, ?_⟩, ⟨hterminal, fun d' h' => (hside d').2 h', ?_, ?_⟩,
    fun j _ hj => by rw [hphase]; exact hj⟩
  · rcases hsent s hs with hs | ⟨rfl, hvoted⟩
    · exact ⟨(hside _).2 (h.sent s hs).1, (h.sent s hs).2⟩
    · exact ⟨hd', hvoted⟩
  · rw [henlisted, hyes]
    rintro (hprepared | hcommit)
    · exact absurd hd' (not_deciding (.inr (.inr (.inr hprepared))) d)
    · exact h.agreed (.inr ((hside _).1 hcommit))
  · rw [hphase]
    intro hidle
    rcases h.idle hidle with ⟨-, hstate⟩ | ⟨hbegun, habort⟩
    · exact absurd hd (not_deciding (hstate.imp id .inl) d)
    · exact .inr ⟨haborting hbegun, (hside _).2 habort⟩
  · rw [hphase]
    intro j hj
    exact absurd hd (not_deciding (.inr (.inr (.inl (h.running j hj)))) d)
  · rw [hphase, henlisted]
    exact fun hne => ⟨hne, fun _ hp => hp⟩
  · rw [hyes]
    exact fun _ hp => hp

end Steps

/-! ## The operations -/

variable {p : ParticipantType} {types : List ParticipantType}

section Operations

variable {w u : World ι} {i : ι} {state : TransactionState}
  {f : ParticipantState → ParticipantState} {t : TwoPhaseTransaction}

theorem state_of_transaction (ht : w.transaction = some t) : w.state = some t.state := by
  rw [World.state, ht]
  rfl

theorem state_setState {before : TransactionState} (h : w.state = some before) :
    (w.setState state).state = some state := by
  obtain ⟨t, ht, -⟩ := map_eq_some_iff.1 h
  simp [World.state, World.setState, World.modify, ht]

theorem enlisted_setState (state : TransactionState) :
    (w.setState state).enlisted = w.enlisted := by
  cases hw : w.transaction with
  | none | some => simp [World.enlisted, World.setState, World.modify, hw]

theorem state_note : (w.modify (fun t => t.modify p f)).state = w.state := by
  cases hw : w.transaction with
  | none => simp [World.state, World.modify, hw]
  | some t =>
    simp only [World.state, World.modify, hw, map_some, TwoPhaseTransaction.modify]
    cases t.participants.lookup p <;> rfl

theorem enlisted_note : (w.modify (fun t => t.modify p f)).enlisted = w.enlisted := by
  cases hw : w.transaction with
  | none => simp [World.enlisted, World.modify, hw]
  | some t =>
    simp only [World.enlisted, World.modify, hw, map_some, TwoPhaseTransaction.modify]
    cases t.participants.lookup p with
    | none => rfl
    | some pstate => exact AList.keys_replace _ _ _

section

variable (h : Inv w)

include h

theorem keeps_note (f : ParticipantState → ParticipantState) (p : ParticipantType) :
    (order ι).Keeps i w (w.modify (fun t => t.modify p f)) :=
  keeps_same h state_note (fun _ q hq => by rwa [enlisted_note] at hq) rfl rfl rfl rfl
    (fun _ hq => hq)

theorem keeps_begin (hnone : w.transaction = none) :
    (order ι).Keeps i w { w with transaction := some .new } := by
  have hstate : w.state = none := by
    rw [state, hnone]
    rfl
  refine keeps_advance h (not_deciding (.inl hstate)) h.orderly rfl ?_ rfl ?_ ?_ ?_
    (fun hne => hne) (fun _ _ hj => hj)
  · rw [enlisted, enlisted, hnone]
    rfl
  · rintro (hactive | hactive | hactive) <;> cases hactive
  · intro hidle
    rcases h.idle hidle with ⟨haborting, -⟩ | ⟨-, habort⟩
    · exact .inl ⟨haborting, .inr rfl⟩
    · exact absurd habort (not_deciding (.inl hstate) _)
  · intro j hj
    have hrunning := h.running j hj
    rw [hstate] at hrunning
    cases hrunning

variable {orderly : Bool}

theorem keeps_startPrepare (hsome : w.transaction.isSome = true)
    (hidle : w.phase = .idle) (haborting : w.aborting = false)
    (horderly : orderly = true) : (order ι).Keeps i w { w.setState .preparing with
      phase := .running i
      orderly := orderly } := by
  obtain ⟨t, ht⟩ := isSome_iff_exists.1 hsome
  have hactive : w.state = some .active := by
    rcases h.idle hidle with ⟨-, hnone | hactive⟩ | ⟨hbegun, -⟩
    · cases (state_of_transaction ht).symm.trans hnone
    · exact hactive
    · rw [haborting] at hbegun
      cases hbegun
  have hpreparing : (w.setState .preparing).state = some .preparing := state_setState hactive
  refine keeps_advance h (not_deciding (.inr (.inl hactive))) horderly rfl
    (enlisted_setState _) rfl ?_ ?_ ?_ ?_ ?_
  · exact fun hagreed => absurd hagreed (not_agreed (.inr (.inr (.inl hpreparing))))
  · intro hphase
    cases hphase
  · intro j _
    exact hpreparing
  · intro _ hphase
    cases hphase
  · intro j _ hj
    rw [hidle] at hj
    cases hj

/-- The end of the prepare call: agreed only if every enlisted participant has voted yes. -/
theorem keeps_endPrepare (hrunning : w.phase = .running i) {allYes : Bool}
    (hyes : allYes = true → ∀ p ∈ w.enlisted, p ∈ w.yes) : (order ι).Keeps i w
      { w.setState (if allYes then .prepared else .aborting) with phase := .done } := by
  have hpreparing := h.running i hrunning
  have hstate : (w.setState (if allYes then .prepared else .aborting)).state =
      some (if allYes then .prepared else .aborting) := state_setState hpreparing
  refine keeps_advance h (not_deciding (.inr (.inr (.inl hpreparing)))) h.orderly rfl
    (enlisted_setState _) rfl ?_ ?_ ?_ ?_ ?_
  · intro hagreed
    cases allYes with
    | true => exact hyes rfl
    | false => exact absurd hagreed (not_agreed (.inr (.inr (.inr (.inl hstate)))))
  · intro hphase
    cases hphase
  · intro j hj
    cases hj
  · intro _ hphase
    cases hphase
  · intro j hj hrunning'
    rw [hrunning] at hrunning'
    exact absurd (Phase.running.inj hrunning').symm hj

theorem keeps_startCommit (hprepared : w.state = some .prepared) :
    (order ι).Keeps i w (w.setState .committing) := by
  refine keeps_advance h (not_deciding (.inr (.inr (.inr hprepared)))) h.orderly rfl
    (enlisted_setState _) rfl (fun _ => h.agreed (.inl hprepared)) ?_ ?_ (fun hne => hne)
    (fun _ _ hj => hj)
  · exact fun hidle => absurd (.inl hprepared) (h.not_agreed hidle)
  · intro j hj
    have hrunning := h.running j hj
    rw [hprepared] at hrunning
    cases hrunning

theorem keeps_startAbort (hstate : w.state = some state) (hcan : state.canAbort = true)
    (hphase : w.phase = .idle ∨ w.phase = .done) (horderly : orderly = true) :
    (order ι).Keeps i w { w.setState .aborting with
      aborting := true
      orderly := orderly } := by
  have haborting : (w.setState .aborting).state = some .aborting := state_setState hstate
  by_cases hdecided : state = .aborting
  · subst hdecided
    refine keeps_decided (d := .abort) h (.inl hstate) (.inl haborting) ?_ horderly
      (fun s hs => .inl hs) (enlisted_setState _) rfl rfl (fun _ => rfl)
    intro state' hs hterminal
    rw [hstate] at hs
    cases hs
    cases hterminal
  · have hundecided : Undecided w.state := by
      rw [hstate]
      cases state with
      | active => exact .inr (.inl rfl)
      | preparing => exact .inr (.inr (.inl rfl))
      | prepared => exact .inr (.inr (.inr rfl))
      | aborting => exact absurd rfl hdecided
      | committing | committed | aborted | unknown => cases hcan
    refine keeps_advance h (not_deciding hundecided) horderly rfl (enlisted_setState _) rfl
      ?_ (fun _ => .inr ⟨rfl, .inl haborting⟩) ?_ (fun hne => hne) (fun _ _ hj => hj)
    · exact fun hagreed => absurd hagreed (not_agreed (.inr (.inr (.inr (.inl haborting)))))
    · intro j hj
      rcases hphase with hphase | hphase <;> cases hphase.symm.trans hj

theorem keeps_send (hd : w.Deciding d) (p : ParticipantType) :
    (order ι).Keeps i w { w with sent := ⟨d, p, w.enlisted, w.yes⟩ :: w.sent } := by
  refine keeps_decided h hd (by cases d <;> exact hd) (fun _ hs _ => hs) h.orderly (fun s hs => ?_)
    rfl rfl rfl (fun hbegun => hbegun)
  rcases mem_cons.1 hs with rfl | hs
  · refine .inr ⟨rfl, ?_⟩
    rintro rfl
    exact h.agreed (.inr hd)
  · exact .inl hs

theorem keeps_settle (hd : w.Deciding d)
    (hstate : (d = .commit ∧ state = .committed) ∨ (d = .abort ∧ state = .aborted)) :
    (order ι).Keeps i w (w.setState state) := by
  obtain ⟨before, hbefore⟩ := ne_none_iff_exists'.1 (fun hnone => not_deciding (.inl hnone) d hd)
  have hset : (w.setState state).state = some state := state_setState hbefore
  have hd' : (w.setState state).Deciding d := by
    rcases hstate with ⟨rfl, rfl⟩ | ⟨rfl, rfl⟩
    · exact .inr hset
    · exact .inr hset
  refine keeps_decided h hd hd' (fun state' hs hterminal => ?_) h.orderly (fun s hs => .inl hs)
    (enlisted_setState _) rfl rfl (fun hbegun => hbegun)
  rcases hstate with ⟨rfl, rfl⟩ | ⟨rfl, rfl⟩ <;> rcases hd with hd | hd <;> rw [hd] at hs <;> cases hs
  · cases hterminal
  · exact hset
  · cases hterminal
  · exact hset

end

/-- The prepare call of task `i` runs on the participants it has listed. -/
def Running (i : ι) (types : List ParticipantType) (w : World ι) : Prop :=
  w.phase = .running i ∧ ∀ p ∈ w.enlisted, p ∈ types

theorem Running.moves (h : Running i types w) (hmoves : Moves w u)
    (hphase : w.phase = .running i → u.phase = .running i) : Running i types u := by
  have hne : w.phase ≠ .idle := by
    rw [h.1]
    intro hidle
    cases hidle
  exact ⟨hphase h.1, fun p hp => h.2 p ((hmoves.joined hne).2 p hp)⟩

end Operations

/-! ## The calls -/

section Calls

variable [DecidableEq ι]

noncomputable def orderlySystem (ι : Type) [DecidableEq ι] :
    System ι (World ι) TpcOp TpcOp.Answer Reply :=
  (tpcSystem ι).within (fun w => w.orderly = true)

variable {w u : World ι} {i : ι} {registered : ParticipantType → Bool} {maxRetries : Nat} {α : Type}

/-- The program keeps the order of the calls, however it ends. -/
abbrev KeepsOrder (i : ι) (p : TpcProg α) (w : World ι) : Prop :=
  Meets (orderlySystem ι) (order ι) i (fun _ _ => True) p w

theorem meets_ofExcept (result : Except TwoPhaseError Unit) :
    KeepsOrder i (Prog.ofExcept result) w := by
  cases result with
  | ok | error => exact fun _ _ _ => trivial

theorem meets_begin : KeepsOrder i begin w := by
  refine perform_within (fun t _ hinv c r u hr _ => ⟨?_, meets_ofExcept r⟩)
  replace hr : respond i t .begin c = some (r, u) := hr
  simp only [respond] at hr
  split at hr
  · cases hr
    exact .refl hinv
  · rename_i ht
    cases hr
    exact keeps_begin hinv ht

theorem meets_enlist (p : ParticipantType) : KeepsOrder i (enlist p) w := by
  refine perform_within (fun t _ hinv c r u hr horderly => ⟨?_, meets_ofExcept r⟩)
  replace hr : respond i t (.enlist p) c = some (r, u) := hr
  simp only [respond] at hr
  split at hr
  · cases hr
    exact .refl hinv
  · rename_i txn ht
    split_ifs at hr
    · cases hr
      exact .refl hinv
    · cases hr
      obtain ⟨-, hidle⟩ := Bool.and_eq_true_iff.1 horderly
      exact keeps_same hinv (state_of_transaction ht).symm
        (fun hne => absurd (of_decide_eq_true hidle) hne) rfl rfl rfl
        (horderly.trans hinv.orderly.symm) (fun _ hq => hq)

theorem respond_send (hinv : Inv w) (hd : w.Deciding d) {c : Reply}
    {r : CommitResult} (h : respond i w (.send d p) c = some (r, u)) :
    (order ι).Keeps i w u ∧ u.Deciding d := by
  cases c with
  | result result =>
    cases h
    have hkeeps := keeps_send (i := i) hinv hd p
    exact ⟨hkeeps, hkeeps.2.1.deciding d hd⟩
  | vote | order => cases h

theorem meets_sendRetrying (p : ParticipantType) (attempts : Nat) (hd : w.Deciding d) :
    Meets (orderlySystem ι) (order ι) i (fun r u => (∃ a, r = .ok a) ∧ u.Deciding d)
      (sendRetrying d p attempts) w := by
  induction attempts generalizing w with
  | zero =>
    intro t hwt hinv c r u hr
    obtain ⟨hkeeps, hdu⟩ :=
      respond_send hinv (hwt.1.deciding d hd) (System.respond_within.1 hr).1
    exact ⟨hkeeps, fun v huv _ => ⟨⟨r, rfl⟩, huv.1.deciding d hdu⟩⟩
  | succ attempts ih =>
    refine perform_within (fun t hwt hinv c r u hr _ => ?_)
    obtain ⟨hkeeps, hdu⟩ := respond_send hinv (hwt.1.deciding d hd) hr
    refine ⟨hkeeps, ?_⟩
    split_ifs
    · exact fun v huv _ => ⟨⟨r, rfl⟩, huv.1.deciding d hdu⟩
    · exact ih hdu

theorem meets_tellEach (types : List ParticipantType) (allSuccess : Bool) (hd : w.Deciding d) :
    Meets (orderlySystem ι) (order ι) i (fun r u => (∃ a, r = .ok a) ∧ u.Deciding d)
      (tellEach registered maxRetries d types allSuccess) w := by
  induction types generalizing w allSuccess with
  | nil => exact fun u hwu _ => ⟨⟨_, rfl⟩, hwu.1.deciding d hd⟩
  | cons p rest ih =>
    unfold tellEach
    split_ifs
    · refine Meets.bind ((meets_sendRetrying p maxRetries hd).mono (fun r t _ ht => ?_))
      obtain ⟨⟨result, rfl⟩, hdt⟩ := ht
      refine perform_within (fun t' htt' hinvt' c r u hr _ => ?_)
      cases hr
      have hkeeps := keeps_note (i := i) hinvt' (fun s => { s with commitResult := some result }) p
      exact ⟨hkeeps, ih _ (hkeeps.2.1.deciding d (htt'.1.deciding d hdt))⟩
    · exact ih allSuccess hd

theorem meets_decided (d : Decision) (last : TpcOp) {f : Bool → last.Answer → TpcProg Unit}
    (hlast : ∀ t, Inv t → t.Deciding d → ∀ c r u,
      respond i t last c = some (r, u) → (order ι).Keeps i t u)
    (hf : ∀ b r t, KeepsOrder i (f b r) t)
    (hd : w.Deciding d) : KeepsOrder i (Prog.perform TpcOp.participantTypes >>= fun types =>
        tellEach registered maxRetries d types true >>= fun b => Prog.perform last >>= f b) w := by
  refine perform_within (fun t hwt hinv c types u hr _ => ?_)
  have hdt := hwt.1.deciding d hd
  have hu : u = t := by
    cases c with
    | order order =>
      replace hr : (if order.Perm t.enlisted then some (order, t) else none) = some (types, u) := hr
      split_ifs at hr
      cases hr
      rfl
    | vote | result => cases hr
  subst hu
  refine ⟨.refl hinv, Meets.bind ((meets_tellEach types true hdt).mono (fun r v _ hv => ?_))⟩
  obtain ⟨⟨b, rfl⟩, hdv⟩ := hv
  refine perform_within (fun v' hvv' hinvv' c r u hr _ => ?_)
  exact ⟨hlast v' hinvv' (hvv'.1.deciding d hdv) c r u hr, hf b r u⟩

theorem meets_commit : KeepsOrder i (commit registered maxRetries) w := by
  refine perform_within (fun t _ hinv c r u hr horderly => ?_)
  replace hr : respond i t .startCommit c = some (r, u) := hr
  simp only [respond] at hr
  split at hr
  · cases hr
    cases horderly
  · rename_i txn ht
    have hstate := state_of_transaction ht
    split_ifs at hr with hprepared
    · cases hr
      exact ⟨.refl hinv, fun _ _ _ => trivial⟩
    · cases hr
      rw [not_not] at hprepared
      rw [hprepared] at hstate
      have hkeeps := keeps_startCommit (i := i) hinv hstate
      have hd : (t.setState .committing).Deciding .commit := .inl (state_setState hstate)
      refine ⟨hkeeps, meets_decided .commit .endCommit ?_ ?_ hd⟩
      · intro v hinvv hdv c r u hr
        cases hr
        exact keeps_settle hinvv hdv (.inl ⟨rfl, rfl⟩)
      · intro b _ v
        split_ifs
        · exact fun _ _ _ => trivial
        · exact fun _ _ _ => trivial

theorem meets_abort : KeepsOrder i (abort registered maxRetries) w := by
  refine perform_within (fun t _ hinv c r u hr horderly => ?_)
  replace hr : respond i t .startAbort c = some (r, u) := hr
  simp only [respond] at hr
  split at hr
  · cases hr
    cases horderly
  · rename_i txn ht
    have hstate := state_of_transaction ht
    split_ifs at hr with hcan
    · cases hr
      exact ⟨.refl hinv, fun _ _ _ => trivial⟩
    · cases hr
      obtain ⟨-, hphase⟩ := Bool.and_eq_true_iff.1 horderly
      have hphase : t.phase = .idle ∨ t.phase = .done := by
        simpa using hphase
      have hkeeps := keeps_startAbort (i := i) hinv hstate (by simpa using hcan)
        hphase horderly
      have hd : (t.setState .aborting).Deciding .abort := .inl (state_setState hstate)
      refine ⟨hkeeps, meets_decided .abort .endAbort (f := fun _ _ => .ret ()) ?_ ?_ hd⟩
      · intro v hinvv hdv c r u hr
        cases hr
        exact keeps_settle hinvv hdv (.inr ⟨rfl, rfl⟩)
      · exact fun _ _ _ _ _ _ => trivial

theorem meets_askEach (rest done : List ParticipantType)
    (allYes : Bool) (hinv : Inv w) (htypes : types = done ++ rest) (hrunning : Running i types w)
    (hyes : allYes = true → ∀ p ∈ done, p ∈ w.yes) : Meets (orderlySystem ι) (order ι) i
      (fun r u => ∃ b, r = .ok b ∧ Running i types u ∧ (b = true → ∀ p ∈ types, p ∈ u.yes))
      (askEach registered rest allYes) w := by
  induction rest generalizing w done allYes with
  | nil =>
    rw [append_nil] at htypes
    subst htypes
    exact fun u hwu _ => ⟨allYes, rfl, hrunning.moves hwu.1 hwu.2,
      fun hall p hp => hwu.1.yes p (hyes hall p hp)⟩
  | cons p rest ih =>
    have htypes' : types = (done ++ [p]) ++ rest := by
      rw [htypes, append_assoc, singleton_append]
    unfold askEach
    split_ifs
    · refine perform_within (fun t hwt hinvt c result u hr _ => ?_)
      cases c with
      | order | result => cases hr
      | vote vote =>
        cases hr
        have hkeeps : (order ι).Keeps i t
            { t with yes := if result.isYes then p :: t.yes else t.yes } := by
          refine keeps_same hinvt rfl (fun _ _ hq => hq) rfl rfl rfl rfl (fun q hq => ?_)
          split_ifs
          · exact mem_cons_of_mem p hq
          · exact hq
        refine ⟨hkeeps, perform_within (fun t' htt' hinvt' c r u hr _ => ?_)⟩
        cases hr
        have hnote := keeps_note (i := i) hinvt'
          (fun s => { s with prepareResult := some result }) p
        have hrunning' : Running i types t' :=
          ((hrunning.moves hwt.1 hwt.2).moves hkeeps.2.1 id).moves htt'.1 htt'.2
        refine ⟨hnote, ih (done ++ [p]) _ hnote.1 htypes' (hrunning'.moves hnote.2.1 id)
          (fun hall q hq => hnote.2.1.yes q (htt'.1.yes q ?_))⟩
        obtain ⟨hbefore, hresult⟩ := Bool.and_eq_true_iff.1 hall
        rw [if_pos hresult]
        rcases mem_append.1 hq with hq | hq
        · exact mem_cons_of_mem p (hwt.1.yes q (hyes hbefore q hq))
        · exact mem_cons.2 (.inl (mem_singleton.1 hq))
    · exact ih (done ++ [p]) false hinv htypes' hrunning nofun

theorem meets_prepare : KeepsOrder i (prepare registered >>= fun _ => Prog.ret ()) w := by
  show KeepsOrder i (Prog.perform TpcOp.startPrepare >>= fun _ => Prog.perform TpcOp.participantTypes >>=
      fun types => (askEach registered types true >>= fun allYes =>
        Prog.perform (TpcOp.endPrepare allYes) >>= fun _ => Prog.ret allYes) >>=
          fun _ => Prog.ret ()) w
  refine perform_within (fun t _ hinv c r u hr horderly => ?_)
  cases hr
  obtain ⟨-, hinOrder⟩ := Bool.and_eq_true_iff.1 horderly
  obtain ⟨hinOrder, haborting⟩ := Bool.and_eq_true_iff.1 hinOrder
  obtain ⟨hsome, hidle⟩ := Bool.and_eq_true_iff.1 hinOrder
  have hkeeps := keeps_startPrepare (i := i) hinv hsome (of_decide_eq_true hidle)
    (by simpa using haborting) horderly
  refine ⟨hkeeps, perform_within (fun t' htt' hinvt' c types u hr _ => ?_)⟩
  cases c with
  | vote | result => cases hr
  | order order =>
    replace hr : (if order.Perm t'.enlisted then some (order, t') else none) = some (types, u) := hr
    split_ifs at hr with hperm
    cases hr
    refine ⟨.refl hinvt', ?_⟩
    have hrunning : Running i types t' := ⟨htt'.2 rfl, fun p hp => hperm.mem_iff.2 hp⟩
    rw [Prog.bind_assoc]
    refine Meets.bind ((meets_askEach types [] true hinvt' rfl hrunning
      (fun _ p hp => absurd hp not_mem_nil)).mono (fun r v _ hv => ?_))
    obtain ⟨allYes, rfl, hrunningv, hyes⟩ := hv
    refine perform_within (fun v' hvv' hinvv' c r u hr _ => ?_)
    cases hr
    have hrunning' := hrunningv.moves hvv'.1 hvv'.2
    refine ⟨keeps_endPrepare hinvv' hrunning'.1 (fun hall p hp => ?_), fun _ _ _ => trivial⟩
    exact hvv'.1.yes p (hyes hall p (hrunning'.2 p hp))

theorem meets_program (call : Call) : KeepsOrder i (call.program registered maxRetries) w := by
  cases call with
  | begin => exact meets_begin
  | enlist p => exact meets_enlist p
  | prepare => exact meets_prepare
  | commit => exact meets_commit
  | abort => exact meets_abort

end Calls

/-! ## One decision -/

theorem inv_fresh : Inv (fresh : World ι) where
  orderly := rfl
  sent s hs := absurd hs not_mem_nil
  agreed _ p hp := absurd hp not_mem_nil
  idle _ := .inl ⟨rfl, .inl rfl⟩
  running i hi := by cases hi

/-- In every run whose calls come in order: commit goes to a participant only when everyone enlisted
    at that moment has voted yes, all that is sent is one decision, and a transaction that is
    committed or aborted stays so. -/
theorem one_decision [DecidableEq ι] {registered : ParticipantType → Bool} {maxRetries : Nat}
    {calls : ι → Call} {p q : TpcPool ι}
    (hp : ReachesWithin (tpcSystem ι) (fun w => w.orderly = true)
      (tasks registered maxRetries calls) p)
    (hq : ReachesWithin (tpcSystem ι) (fun w => w.orderly = true) p q) :
    (∀ s ∈ p.shared.sent, s.decision = .commit → ∀ r ∈ s.enlisted, r ∈ s.yes) ∧
    (∀ s ∈ p.shared.sent, ∀ s' ∈ p.shared.sent, s.decision = s'.decision) ∧
    (∀ state, p.shared.state = some state → state.isTerminal = true →
      q.shared.state = some state) := by
  have hdrift : (order ι).AllowsDrift (orderlySystem ι) := by
    intro s c s' _ hs
    cases (System.drift_within.1 hs).1
  obtain ⟨hinv, -, hmeets⟩ := hp.reaches.meets hdrift inv_fresh
    (fun i => meets_program (i := i) (calls i))
  obtain ⟨-, hmoves, -⟩ := hq.reaches.meets hdrift hinv hmeets
  refine ⟨fun s hs => (hinv.sent s hs).2, fun s hs s' hs' => ?_, hmoves.terminal⟩
  exact (hinv.sent s hs).1.eq (hinv.sent s' hs').1

/-! ## Runs that are played out -/

/-- Task `n` makes the `n`-th call. -/
def listed (calls : List Call) (n : Nat) : Call := calls.getD n .begin

/-- The steps of task `i`, answered by the given replies. -/
def turns (i : Nat) (replies : List Reply) : List (Turn Nat Reply) := replies.map (Turn.act i)

/-- A call that takes one step, whatever the reply. -/
def oneStep (i : Nat) : List (Turn Nat Reply) := turns i [.order []]

/-- The five steps of a prepare call on the one participant, and of a commit or abort call. -/
def votes (i : Nat) (vote : PrepareResult) : List (Turn Nat Reply) :=
  turns i [.order [], .order [.vector], .vote vote, .order [], .order []]

def tells (i : Nat) : List (Turn Nat Reply) :=
  turns i [.order [], .order [.vector], .result .success, .order [], .order []]

/-- One participant votes yes and commits; an abort comes too late. -/
theorem one_decision_committed : ∃ p q : TpcPool Nat,
      ReachesWithin (tpcSystem Nat) (fun w => w.orderly = true)
        (tasks (fun _ => true) 3 (listed [.begin, .enlist .vector, .prepare, .commit, .abort])) p ∧
      ReachesWithin (tpcSystem Nat) (fun w => w.orderly = true) p q ∧
      p.shared.state = some .committed ∧
      p.shared.sent = [⟨.commit, .vector, [.vector], [.vector]⟩] ∧
      q.shared.state = some .committed := by
  have hrun : ((playWithin (tpcSystem Nat) (fun w => w.orderly)
      (tasks (fun _ => true) 3 (listed [.begin, .enlist .vector, .prepare, .commit, .abort]))
      (oneStep 0 ++ oneStep 1 ++ votes 2 .yes ++ tells 3)).bind (fun p =>
        (playWithin (tpcSystem Nat) (fun w => w.orderly) p (oneStep 4)).map (fun _ =>
          (p.shared.state, p.shared.sent)))) =
      some (some .committed, [⟨.commit, .vector, [.vector], [.vector]⟩]) := by rfl
  obtain ⟨p, hp, hrun⟩ := bind_eq_some_iff.1 hrun
  obtain ⟨q, hq, hview⟩ := map_eq_some_iff.1 hrun
  simp only [Prod.mk.injEq] at hview
  have hp : ReachesWithin (tpcSystem Nat) (fun w => w.orderly = true) _ p :=
    reachesWithin_of_playWithin (fun _ h => h) hp
  have hq : ReachesWithin (tpcSystem Nat) (fun w => w.orderly = true) p q :=
    reachesWithin_of_playWithin (fun _ h => h) hq
  exact ⟨p, q, hp, hq, hview.1, hview.2, (one_decision hp hq).2.2 .committed hview.1 rfl⟩

/-- A second prepare call takes a committed transaction back: its state changes, and the participant
    that was told to commit is told to abort. And a participant that joins between the prepare and
    the commit call is told to commit without having voted. -/
theorem late_calls_mix_decisions : (∃ p q : TpcPool Nat,
      Reaches (tpcSystem Nat) (tasks (fun _ => true) 3
        (listed [.begin, .enlist .vector, .prepare, .commit, .prepare, .abort])) p ∧
      Reaches (tpcSystem Nat) p q ∧ p.shared.state = some .committed ∧
      q.shared.state = some .aborted ∧
      q.shared.sent.map (fun s => (s.decision, s.recipient)) =
        [(.abort, .vector), (.commit, .vector)]) ∧
    (∃ p : TpcPool Nat,
      Reaches (tpcSystem Nat) (tasks (fun _ => true) 3
        (listed [.begin, .enlist .vector, .prepare, .enlist .document, .commit])) p ∧
      p.shared.sent = [⟨.commit, .document, [.document, .vector], [.vector]⟩]) := by
  constructor
  · have hrun : ((play (tpcSystem Nat) (tasks (fun _ => true) 3
        (listed [.begin, .enlist .vector, .prepare, .commit, .prepare, .abort]))
        (oneStep 0 ++ oneStep 1 ++ votes 2 .yes ++ tells 3)).bind (fun p =>
          (play (tpcSystem Nat) p (votes 4 .timeout ++ tells 5)).map (fun q =>
            (p.shared.state, q.shared.state,
              q.shared.sent.map (fun s => (s.decision, s.recipient)))))) =
        some (some .committed, some .aborted, [(.abort, .vector), (.commit, .vector)]) := by
      rfl
    obtain ⟨p, hp, hrun⟩ := bind_eq_some_iff.1 hrun
    obtain ⟨q, hq, hview⟩ := map_eq_some_iff.1 hrun
    simp only [Prod.mk.injEq] at hview
    exact ⟨p, q, reaches_of_play hp, reaches_of_play hq, hview⟩
  · have hrun : (play (tpcSystem Nat) (tasks (fun _ => true) 3
        (listed [.begin, .enlist .vector, .prepare, .enlist .document, .commit]))
        (oneStep 0 ++ oneStep 1 ++ votes 2 .yes ++ oneStep 3 ++
          turns 4 [.order [], .order [.document, .vector], .result .success])).map
          (fun p => p.shared.sent) =
        some [⟨.commit, .document, [.document, .vector], [.vector]⟩] := by rfl
    obtain ⟨p, hp, hview⟩ := map_eq_some_iff.1 hrun
    exact ⟨p, reaches_of_play hp, hview⟩

end ProximaDb.MultiModel
