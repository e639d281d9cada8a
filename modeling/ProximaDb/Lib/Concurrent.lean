/-
  ProximaDb.Lib.Concurrent

  Programs that share a state and run interleaved. A program (`Prog`) is a tree: it ends with a
  result or an error, or it asks for one operation and goes on with the answer. Where a program
  owns parts of the state, they stay as they are while others run.
-/
import Mathlib

namespace ProximaDb.Lib

open Relation.ReflTransGen Function Option

/-- A program over operations `Op` whose answers are `Res`. -/
inductive Prog (Op : Type) (Res : Op → Type) (ε α : Type) : Type
  | ret (a : α)
  | fail (e : ε)
  | act (o : Op) (k : Res o → Prog Op Res ε α)

namespace Prog

variable {Op : Type} {Res : Op → Type} {ε ε' α β : Type}

def bind : Prog Op Res ε α → (α → Prog Op Res ε β) → Prog Op Res ε β
  | ret a, f => f a
  | fail e, _ => fail e
  | act o k, f => act o (fun r => (k r).bind f)

instance : Monad (Prog Op Res ε) where
  pure := ret
  bind := bind

theorem bind_assoc {γ : Type} (p : Prog Op Res ε α) (f : α → Prog Op Res ε β)
    (g : β → Prog Op Res ε γ) : p >>= f >>= g = p >>= fun a => f a >>= g := by
  induction p with
  | ret | fail => rfl
  | act o k ih => exact congrArg (act o) (funext ih)

theorem bind_ret (p : Prog Op Res ε α) : p >>= Prog.ret = p := by
  induction p with
  | ret | fail => rfl
  | act o k ih => exact congrArg (act o) (funext ih)

def perform (o : Op) : Prog Op Res ε (Res o) := act o ret

def ofExcept : Except ε α → Prog Op Res ε α
  | .ok a => ret a
  | .error e => fail e

/-- Run a program and hand its result or its error on as a value. -/
def attempt : Prog Op Res ε α → Prog Op Res ε' (Except ε α)
  | ret a => ret (.ok a)
  | fail e => ret (.error e)
  | act o k => act o (fun r => (k r).attempt)

/-- Give the error of a program another form. -/
def mapError (f : ε → ε') : Prog Op Res ε α → Prog Op Res ε' α
  | ret a => ret a
  | fail e => fail (f e)
  | act o k => act o (fun r => (k r).mapError f)

/-- A program over a part of a system's operations, as one over all of them. -/
def lift {Op' : Type} {Res' : Op' → Type} (into : Op → Op') (back : ∀ o, Res' (into o) → Res o) :
    Prog Op Res ε α → Prog Op' Res' ε α
  | ret a => ret a
  | fail e => fail e
  | act o k => act (into o) (fun r => (k (back o r)).lift into back)

def outcome : Prog Op Res ε α → Option (Except ε α)
  | ret a => some (.ok a)
  | fail e => some (.error e)
  | act _ _ => none

end Prog

/-! ## Systems and pools -/

/-- What the shared state answers to an operation of a program, and how it moves by itself; `χ`
    holds the choices left open. -/
structure System (ι σ Op : Type) (Res : Op → Type) (χ : Type) where
  respond : ι → σ → (o : Op) → χ → Option (Res o × σ)
  drift : σ → χ → Option σ

/-- The runs of a system that stay among states with a property. -/
noncomputable def System.within {ι σ Op χ : Type} {Res : Op → Type} (S : System ι σ Op Res χ)
    (Good : σ → Prop) : System ι σ Op Res χ :=
  open Classical in
  { respond := fun i s o c => (S.respond i s o c).filter (fun a => decide (Good a.2))
    drift := fun s c => (S.drift s c).filter (fun s' => decide (Good s')) }

variable {ι σ Op χ : Type} {Res : Op → Type} {s u : σ}

theorem System.respond_within {S : System ι σ Op Res χ}
    {Good : σ → Prop} {i : ι} {o : Op} {c : χ} {r : Res o} :
    (S.within Good).respond i s o c = some (r, u) ↔ S.respond i s o c = some (r, u) ∧ Good u := by
  simp [System.within, filter_eq_some_iff]

theorem System.drift_within {S : System ι σ Op Res χ} {Good : σ → Prop} {c : χ} :
    (S.within Good).drift s c = some u ↔ S.drift s c = some u ∧ Good u := by
  simp [System.within, filter_eq_some_iff]

/-- A program run by itself, the same choice made for every operation. -/
def Prog.alone {ι σ Op χ ε α : Type} {Res : Op → Type} (S : System ι σ Op Res χ) (i : ι) (c : χ) :
    Prog Op Res ε α → σ → Option (Except ε α × σ)
  | .ret a, s => some (.ok a, s)
  | .fail e, s => some (.error e, s)
  | .act o k, s => (S.respond i s o c).bind (fun x => (k x.1).alone S i c x.2)

/-- A shared state and the programs that run on it. -/
structure Pool (ι σ Op : Type) (Res : Op → Type) (ε α : Type) where
  shared : σ
  procs : ι → Prog Op Res ε α

section Pools

variable {ι σ Op χ ε α : Type} {Res : Op → Type} [DecidableEq ι]

/-- One operation of one program is answered, or the shared state drifts. -/
inductive Pool.Step (S : System ι σ Op Res χ) :
    Pool ι σ Op Res ε α → Pool ι σ Op Res ε α → Prop
  | act {p : Pool ι σ Op Res ε α} {i : ι} {o : Op} {k : Res o → Prog Op Res ε α} {c : χ}
      {r : Res o} {s' : σ} (hi : p.procs i = .act o k) (hr : S.respond i p.shared o c = some (r, s')) :
      Pool.Step S p ⟨s', Function.update p.procs i (k r)⟩
  | drift {p : Pool ι σ Op Res ε α} {c : χ} {s' : σ} (hd : S.drift p.shared c = some s') :
      Pool.Step S p ⟨s', p.procs⟩

/-- Any number of steps, of any programs in any order. -/
def Reaches (S : System ι σ Op Res χ) : Pool ι σ Op Res ε α → Pool ι σ Op Res ε α → Prop :=
  Relation.ReflTransGen (Pool.Step S)

/-- Any number of steps that all lead to states with a property. -/
def ReachesWithin (S : System ι σ Op Res χ) (Good : σ → Prop) :
    Pool ι σ Op Res ε α → Pool ι σ Op Res ε α → Prop :=
  Relation.ReflTransGen (fun p q => Pool.Step S p q ∧ Good q.shared)

variable {S : System ι σ Op Res χ} {p q : Pool ι σ Op Res ε α}

theorem ReachesWithin.reaches {Good : σ → Prop}
    (h : ReachesWithin S Good p q) : Reaches (S.within Good) p q := by
  induction h with
  | refl => exact refl
  | tail _ hstep ih =>
    refine ih.tail ?_
    obtain ⟨hstep, hgood⟩ := hstep
    cases hstep with
    | act hi hr => exact .act hi (System.respond_within.2 ⟨hr, hgood⟩)
    | drift hd => exact .drift (System.drift_within.2 ⟨hd, hgood⟩)

theorem Reaches.outcome_eq (h : Reaches S p q) {i : ι} {r : Except ε α}
    (hi : (p.procs i).outcome = some r) : (q.procs i).outcome = some r := by
  induction h with
  | refl => exact hi
  | @tail p' _ _ hstep ih =>
    cases hstep with
    | drift hd => exact ih
    | @act j o k c r' s' hj hr =>
      by_cases hij : i = j
      · subst hij
        rw [hj] at ih
        cases ih
      · show (update p'.procs j (k r') i).outcome = some r
        rw [update_of_ne hij]
        exact ih

/-- One entry of a schedule: a program's next operation or a drift, with the open choice. -/
inductive Turn (ι χ : Type)
  | act (i : ι) (c : χ)
  | drift (c : χ)

namespace Pool

/-- The pool after one turn, if the turn is possible. -/
def turn (S : System ι σ Op Res χ) (p : Pool ι σ Op Res ε α) : Turn ι χ → Option (Pool ι σ Op Res ε α)
  | .act i c =>
    match p.procs i with
    | .act o k =>
      (S.respond i p.shared o c).map (fun a => ⟨a.2, Function.update p.procs i (k a.1)⟩)
    | _ => none
  | .drift c => (S.drift p.shared c).map (fun s' => ⟨s', p.procs⟩)

def play (S : System ι σ Op Res χ) (p : Pool ι σ Op Res ε α) :
    List (Turn ι χ) → Option (Pool ι σ Op Res ε α)
  | [] => some p
  | t :: ts => (turn S p t).bind (fun q => play S q ts)

theorem step_of_turn {t : Turn ι χ} (h : turn S p t = some q) : Step S p q := by
  cases t with
  | drift c =>
    obtain ⟨s', hs, rfl⟩ := map_eq_some_iff.1 h
    exact .drift hs
  | act i c =>
    cases hi : p.procs i with
    | act o k =>
      simp only [turn, hi] at h
      obtain ⟨⟨r, s'⟩, hr, rfl⟩ := map_eq_some_iff.1 h
      exact .act hi hr
    | ret | fail => simp [turn, hi] at h

theorem reaches_of_play {ts : List (Turn ι χ)} (h : play S p ts = some q) : Reaches S p q := by
  induction ts generalizing p with
  | nil =>
    cases h
    exact refl
  | cons t ts ih =>
    obtain ⟨q', hq', hrest⟩ := bind_eq_some_iff.1 h
    exact head (step_of_turn hq') (ih hrest)

/-- The pool after a schedule whose states all pass a test. -/
def playWithin (S : System ι σ Op Res χ) (test : σ → Bool) (p : Pool ι σ Op Res ε α) :
    List (Turn ι χ) → Option (Pool ι σ Op Res ε α)
  | [] => some p
  | t :: ts =>
    ((turn S p t).filter (fun q => test q.shared)).bind (fun q => playWithin S test q ts)

theorem reachesWithin_of_playWithin {test : σ → Bool} {Good : σ → Prop}
    (hgood : ∀ s, test s = true → Good s) {ts : List (Turn ι χ)}
    (h : playWithin S test p ts = some q) : ReachesWithin S Good p q := by
  induction ts generalizing p with
  | nil =>
    cases h
    exact refl
  | cons t ts ih =>
    obtain ⟨q', hq', hrest⟩ := bind_eq_some_iff.1 h
    obtain ⟨hturn, htest⟩ := filter_eq_some_iff.1 hq'
    exact head ⟨step_of_turn hturn, hgood _ htest⟩ (ih hrest)

end Pool

end Pools

/-! ## Reasoning about one program at a time -/

/-- An invariant of the shared state, how every step moves it, and what a step of another program
    leaves of program `i`'s own. -/
structure Discipline (ι σ : Type) where
  inv : σ → Prop
  moves : σ → σ → Prop
  own : ι → σ → σ → Prop
  moves_refl : ∀ s, moves s s
  moves_trans : ∀ {s t u}, moves s t → moves t u → moves s u
  own_refl : ∀ i s, own i s s
  own_trans : ∀ i {s t u}, own i s t → own i t u → own i s u

namespace Discipline

variable {ι σ : Type} (D : Discipline ι σ)

/-- What a program relies on while others run. -/
def rely (i : ι) (s t : σ) : Prop := D.moves s t ∧ D.own i s t

/-- A drift keeps what every program relies on. -/
def AllowsDrift {Op χ : Type} {Res : Op → Type} (S : System ι σ Op Res χ) : Prop :=
  ∀ s c s', D.inv s → S.drift s c = some s' → D.inv s' ∧ D.moves s s' ∧ ∀ j, D.own j s s'

def Keeps (i : ι) (s t : σ) : Prop := D.inv t ∧ D.moves s t ∧ ∀ j, j ≠ i → D.own j s t

variable {D : Discipline ι σ}

theorem rely.refl {i : ι} {s : σ} : D.rely i s s :=
  ⟨D.moves_refl s, D.own_refl i s⟩

theorem rely.trans {i : ι} {s t u : σ} (h : D.rely i s t) (h' : D.rely i t u) : D.rely i s u :=
  ⟨D.moves_trans h.1 h'.1, D.own_trans i h.2 h'.2⟩

theorem Keeps.refl {i : ι} {s : σ} (h : D.inv s) : D.Keeps i s s :=
  ⟨h, D.moves_refl s, fun j _ => D.own_refl j s⟩

end Discipline

section Meets

variable {ι σ Op χ ε ε' α β : Type} {Res : Op → Type}
variable (S : System ι σ Op Res χ) (D : Discipline ι σ) (i : ι)

/-- From `s` on, under what others do within the discipline, every operation of the program keeps
    the invariant and what the others rely on, and the program ends as `Q` says. -/
def Meets (Q : Except ε α → σ → Prop) : Prog Op Res ε α → σ → Prop
  | .ret a, s => ∀ t, D.rely i s t → D.inv t → Q (.ok a) t
  | .fail e, s => ∀ t, D.rely i s t → D.inv t → Q (.error e) t
  | .act o k, s => ∀ t, D.rely i s t → D.inv t → ∀ c r u, S.respond i t o c = some (r, u) →
      D.Keeps i t u ∧ Meets Q (k r) u

variable {S D i} {Q Q' : Except ε α → σ → Prop} {s t : σ} {p : Prog Op Res ε α}
  {f : α → Prog Op Res ε β}

theorem Meets.stable (h : Meets S D i Q p s) (hst : D.rely i s t) : Meets S D i Q p t := by
  cases p with
  | ret | fail | act => exact fun u hu => h u (hst.trans hu)

/-- What a program meets after any move of the others, it meets. -/
theorem Meets.start (h : ∀ t, D.rely i s t → D.inv t → Meets S D i Q p t) : Meets S D i Q p s := by
  cases p <;> exact fun t ht hinv => h t ht hinv t .refl hinv

theorem Meets.act {o : Op} {k : Res o → Prog Op Res ε α} {k' : Res o → Prog Op Res ε' β}
    {Q' : Except ε' β → σ → Prop} (h : Meets S D i Q (.act o k) s)
    (hk : ∀ r t, Meets S D i Q (k r) t → Meets S D i Q' (k' r) t) : Meets S D i Q' (.act o k') s :=
  fun t ht hinv c r u hr => (h t ht hinv c r u hr).imp_right (hk r u)

theorem Meets.mono (h : Meets S D i Q p s)
    (hQ : ∀ r t, D.inv t → Q r t → Q' r t) : Meets S D i Q' p s := by
  induction p generalizing s with
  | ret | fail => exact fun t ht hinv => hQ _ t hinv (h t ht hinv)
  | act o k ih => exact h.act fun r _ => ih r

/-- What is left after the first part of a program. -/
def Meets.After (S : System ι σ Op Res χ) (D : Discipline ι σ) (i : ι)
    (f : α → Prog Op Res ε β) (Q : Except ε β → σ → Prop) : Except ε α → σ → Prop
  | .ok a, s => Meets S D i Q (f a) s
  | .error e, s => Q (.error e) s

theorem Meets.bind {Q : Except ε β → σ → Prop}
    (h : Meets S D i (Meets.After S D i f Q) p s) : Meets S D i Q (p >>= f) s := by
  induction p generalizing s with
  | ret a => exact Meets.start h
  | fail e => exact h
  | act o k ih => exact h.act fun r _ => ih r

theorem Meets.attempt {Q : Except ε' (Except ε α) → σ → Prop}
    (h : Meets S D i (fun r t => Q (.ok r) t) p s) : Meets S D i Q p.attempt s := by
  induction p generalizing s with
  | ret | fail => exact h
  | act o k ih => exact h.act fun r _ => ih r

theorem Meets.map {f : α → β} {Q : Except ε β → σ → Prop}
    (h : Meets S D i (fun r t => Q (r.map f) t) p s) :
    Meets S D i Q (p >>= fun a => Prog.ret (f a)) s := by
  induction p generalizing s with
  | ret | fail => exact h
  | act o k ih => exact h.act fun r _ => ih r

theorem Meets.perform {o : Op} {f : Res o → Prog Op Res ε α}
    (h : ∀ t, D.rely i s t → D.inv t → ∀ c r u, S.respond i t o c = some (r, u) →
      D.Keeps i t u ∧ Meets S D i Q (f r) u) :
    Meets S D i Q (Prog.perform o >>= f) s := h

theorem Meets.perform_within {Good : σ → Prop} {o : Op} {f : Res o → Prog Op Res ε α}
    (h : ∀ t, D.rely i s t → D.inv t → ∀ c r u, S.respond i t o c = some (r, u) → Good u →
      D.Keeps i t u ∧ Meets (S.within Good) D i Q (f r) u) :
    Meets (S.within Good) D i Q (Prog.perform o >>= f) s :=
  Meets.perform fun t ht hinv c r u hr =>
    h t ht hinv c r u (System.respond_within.1 hr).1 (System.respond_within.1 hr).2

/-- A program that only does what it may rely on itself, and whose result is as `P` says. -/
def Gives (D : Discipline ι σ) (i : ι) (s : σ) (P : α → σ → Prop) : Except ε α → σ → Prop
  | .ok a, t => D.rely i s t ∧ P a t
  | .error _, t => D.rely i s t

variable {P : α → σ → Prop}

theorem Meets.seq {Q : Except ε β → σ → Prop} (h : Meets S D i (Gives D i s P) p s)
    (hok : ∀ t a, D.rely i s t → D.inv t → P a t → Meets S D i Q (f a) t)
    (herr : ∀ t e, D.rely i s t → D.inv t → Q (.error e) t) : Meets S D i Q (p >>= f) s := by
  refine Meets.bind (h.mono (fun r t hinv hr => ?_))
  cases r with
  | ok a => exact hok t a hr.1 hinv hr.2
  | error e => exact herr t e hr hinv

theorem Meets.ret_gives {a : α} (hst : D.rely i s t)
    (h : ∀ u, D.rely i s u → D.inv u → D.rely i t u → P a u) :
    Meets S D i (Gives D i s P) (Prog.ret a : Prog Op Res ε α) t :=
  fun u htu hinv => ⟨hst.trans htu, h u (hst.trans htu) hinv htu⟩

theorem Meets.done {a : α} :
    Meets S D i (Gives D i s (fun _ _ => True)) (Prog.ret a : Prog Op Res ε α) s :=
  Meets.ret_gives .refl (fun _ _ _ _ => trivial)

theorem Meets.fail_gives {e : ε} (hst : D.rely i s t) :
    Meets S D i (Gives D i s P) (Prog.fail e : Prog Op Res ε α) t :=
  fun _ htu _ => hst.trans htu

theorem Meets.ofExcept_gives {x : Except ε α} (hst : D.rely i s t)
    (h : ∀ a u, x = .ok a → D.rely i s u → D.inv u → D.rely i t u → P a u) :
    Meets S D i (Gives D i s P) (Prog.ofExcept x : Prog Op Res ε α) t := by
  cases x with
  | ok a => exact Meets.ret_gives hst (fun u => h a u rfl)
  | error e => exact Meets.fail_gives hst

theorem Meets.mapError_gives {f : ε → ε'}
    (h : Meets S D i (Gives D i s P) p t) : Meets S D i (Gives D i s P) (p.mapError f) t := by
  induction p generalizing t with
  | ret | fail => exact h
  | act o k ih => exact h.act fun r _ => ih r

theorem Meets.attempt_gives (h : Meets S D i (Gives D i s P) p t) :
    Meets S D i (Gives D i s (fun r u => ∀ a, r = .ok a → P a u))
      (p.attempt : Prog Op Res ε' (Except ε α)) t := by
  refine Meets.attempt (h.mono (fun r u _ hr => ?_))
  cases r with
  | ok a =>
    refine ⟨hr.1, fun b hb => ?_⟩
    cases hb
    exact hr.2
  | error e => exact ⟨hr, nofun⟩

theorem Meets.gives_from (hst : D.rely i s t)
    (h : Meets S D i (Gives D i t P) p t) : Meets S D i (Gives D i s P) p t := by
  refine h.mono (fun r u _ hr => ?_)
  cases r with
  | ok a => exact ⟨hst.trans hr.1, hr.2⟩
  | error e => exact hst.trans hr

theorem Meets.gives_seq {R : β → σ → Prop} (h : Meets S D i (Gives D i s P) p s)
    (hf : ∀ t a, D.rely i s t → D.inv t → P a t → Meets S D i (Gives D i t R) (f a) t) :
    Meets S D i (Gives D i s R) (p >>= f) s :=
  Meets.seq h (fun t a hst hinv ha => Meets.gives_from hst (hf t a hst hinv ha))
    (fun _ _ hst _ => hst)

/-- A program that meets its specification in a part of the state meets it in the whole, as long as
    what the whole adds (`Local`) is kept. -/
theorem Meets.lift {ι' σ' Op' χ' : Type} {Res' : Op' → Type} {S' : System ι' σ' Op' Res' χ'}
    {D' : Discipline ι' σ'} {i' : ι'} {into : Op → Op'} {back : ∀ o, Res' (into o) → Res o}
    {view : σ' → σ} {Local : σ' → Prop}
    (hrely : ∀ s t, Local s → D'.rely i' s t → Local t ∧ D.rely i (view s) (view t))
    (hinv : ∀ s, D'.inv s → D.inv (view s))
    (hstep : ∀ s o c r u, Local s → D'.inv s → S'.respond i' s (into o) c = some (r, u) →
      ∃ c', S.respond i (view s) o c' = some (back o r, view u) ∧
        (D.Keeps i (view s) (view u) → D'.Keeps i' s u ∧ Local u))
    {s : σ'} (hlocal : Local s) (h : Meets S D i Q p (view s)) :
    Meets S' D' i' (fun r t => Local t ∧ Q r (view t)) (p.lift into back) s := by
  induction p generalizing s with
  | ret | fail =>
    intro t ht hinvt
    obtain ⟨hlocalt, hview⟩ := hrely s t hlocal ht
    exact ⟨hlocalt, h (view t) hview (hinv t hinvt)⟩
  | act o k ih =>
    intro t ht hinvt c r u hr
    obtain ⟨hlocalt, hview⟩ := hrely s t hlocal ht
    obtain ⟨c', hr', hkeep⟩ := hstep t o c r u hlocalt hinvt hr
    obtain ⟨hkeeps, hnext⟩ := h (view t) hview (hinv t hinvt) c' _ _ hr'
    obtain ⟨hkeeps', hlocalu⟩ := hkeep hkeeps
    exact ⟨hkeeps', ih _ hlocalu hnext⟩

end Meets

section PoolRule

variable {ι σ Op χ ε α : Type} {Res : Op → Type} [DecidableEq ι]
variable {S : System ι σ Op Res χ} {D : Discipline ι σ} {Q : ι → Except ε α → σ → Prop}
  {p q : Pool ι σ Op Res ε α}

theorem Reaches.meets (h : Reaches S p q) (hdrift : D.AllowsDrift S) (hinv : D.inv p.shared)
    (hmeets : ∀ i, Meets S D i (Q i) (p.procs i) p.shared) :
    D.inv q.shared ∧ D.moves p.shared q.shared ∧
      ∀ i, Meets S D i (Q i) (q.procs i) q.shared := by
  induction h with
  | refl => exact ⟨hinv, D.moves_refl _, hmeets⟩
  | @tail p' _ _ hstep ih =>
    obtain ⟨hinv', hmoves, hmeets'⟩ := ih
    cases hstep with
    | drift hd =>
      obtain ⟨hkeep, hmove, hown⟩ := hdrift _ _ _ hinv' hd
      exact ⟨hkeep, D.moves_trans hmoves hmove, fun j => (hmeets' j).stable ⟨hmove, hown j⟩⟩
    | @act i o k c r s' hi hr =>
      have hmi := hmeets' i
      rw [hi] at hmi
      obtain ⟨⟨hkeep, hmove, hown⟩, hnext⟩ := hmi _ .refl hinv' c r s' hr
      refine ⟨hkeep, D.moves_trans hmoves hmove, fun j => ?_⟩
      by_cases hj : j = i
      · subst hj
        show Meets S D j (Q j) (update p'.procs j (k r) j) s'
        rw [update_self]
        exact hnext
      · show Meets S D j (Q j) (update p'.procs i (k r) j) s'
        rw [update_of_ne hj]
        exact (hmeets' j).stable ⟨hmove, hown j hj⟩

theorem Reaches.outcome (h : Reaches S p q) (hdrift : D.AllowsDrift S) (hinv : D.inv p.shared)
    (hmeets : ∀ i, Meets S D i (Q i) (p.procs i) p.shared)
    {i : ι} {r : Except ε α} (hi : (q.procs i).outcome = some r) : Q i r q.shared := by
  obtain ⟨hinv', -, hmeets'⟩ := h.meets hdrift hinv hmeets
  have hmi := hmeets' i
  cases hproc : q.procs i with
  | ret | fail =>
    rw [hproc] at hi hmi
    cases hi
    exact hmi _ .refl hinv'
  | act o k =>
    rw [hproc] at hi
    cases hi

end PoolRule

structure Parts (ι σ κ ν : Type) where
  view : σ → κ → ν
  owner : σ → κ → Option ι

namespace Parts

variable {ι σ κ ν : Type} (P : Parts ι σ κ ν)

/-- Program `i` owns what it owned, and finds it unchanged. -/
def Stable (i : ι) (s t : σ) : Prop :=
  ∀ k, (P.owner t k = some i ↔ P.owner s k = some i) ∧
    (P.owner s k = some i → P.view t k = P.view s k)

/-- Program `i` owns what it owned, and at most the part `k` of it has changed. -/
def Frame (i : ι) (k : κ) (s t : σ) : Prop :=
  ∀ k', (P.owner t k' = some i ↔ P.owner s k' = some i) ∧
    (P.owner s k' = some i → k' ≠ k → P.view t k' = P.view s k')

/-- A step that changes one part and no owner. -/
structure Touches (k : κ) (s u : σ) : Prop where
  owner : P.owner u = P.owner s
  view : ∀ k', k' ≠ k → P.view u k' = P.view s k'

variable {P} {i : ι} {k : κ} {s t u : σ}

theorem Stable.refl (i : ι) (s : σ) : P.Stable i s s := fun _ => ⟨Iff.rfl, fun _ => rfl⟩

theorem Stable.trans (h : P.Stable i s t) (h' : P.Stable i t u) : P.Stable i s u := fun k =>
  ⟨(h' k).1.trans (h k).1, fun hk => ((h' k).2 ((h k).1.2 hk)).trans ((h k).2 hk)⟩

theorem Stable.frame (h : P.Stable i s t) : P.Frame i k s t := fun k' =>
  ⟨(h k').1, fun hk' _ => (h k').2 hk'⟩

theorem Frame.trans (h : P.Frame i k s t) (h' : P.Frame i k t u) : P.Frame i k s u := fun k' =>
  ⟨(h' k').1.trans (h k').1,
    fun hk' hne => ((h' k').2 ((h k').1.2 hk') hne).trans ((h k').2 hk' hne)⟩

theorem Touches.frame (h : P.Touches k s u) : P.Frame i k s u := fun k' =>
  ⟨by rw [h.owner], fun _ hne => h.view k' hne⟩

theorem Touches.stable (h : P.Touches k s u) {j : ι} (hk : P.owner s k = some i) (hj : j ≠ i) :
    P.Stable j s u := fun k' => by
  refine ⟨by rw [h.owner], fun hk' => h.view k' ?_⟩
  rintro rfl
  rw [hk] at hk'
  exact hj (some.inj hk').symm

/-! ## Disciplines -/

/-- Programs that run together, each on its own parts. -/
def shared (P : Parts ι σ κ ν) (inv : σ → Prop) : Discipline ι σ where
  inv := inv
  moves _ _ := True
  own i s t := P.Stable i s t
  moves_refl _ := trivial
  moves_trans _ _ := trivial
  own_refl i s := .refl i s
  own_trans _ _ _ _ h h' := h.trans h'

def alone (σ : Type) (inv : σ → Prop) : Discipline Unit σ where
  inv := inv
  moves _ _ := True
  own _ s t := t = s
  moves_refl _ := trivial
  moves_trans _ _ := trivial
  own_refl _ _ := rfl
  own_trans _ _ _ _ h h' := h'.trans h

/-- A discipline under which a program's parts are stable and are its own to change. -/
structure Governs (P : Parts ι σ κ ν) (D : Discipline ι σ) : Prop where
  stable : ∀ {i s t}, D.rely i s t → P.Stable i s t
  keeps : ∀ {i k s u}, P.owner s k = some i → P.Touches k s u → D.inv u → D.Keeps i s u

theorem governs_shared (P : Parts ι σ κ ν) (inv : σ → Prop) : P.Governs (P.shared inv) where
  stable h := h.2
  keeps hk htouches hinv := ⟨hinv, trivial, fun _ hj => htouches.stable hk hj⟩

theorem governs_alone (P : Parts Unit σ κ ν) (inv : σ → Prop) : P.Governs (alone σ inv) where
  stable := by
    rintro i s t ⟨-, rfl⟩
    exact .refl i t
  keeps _ _ hinv := ⟨hinv, trivial, fun j hj => absurd (Subsingleton.elim j _) hj⟩

/-! ## Triples -/

section Triples

variable {Op χ ε ε' α β : Type} {Res : Op → Type} {S : System ι σ Op Res χ} {D : Discipline ι σ}

/-- On a part of program `i`, from `Pre` to `Post`. -/
def Triple (P : Parts ι σ κ ν) (S : System ι σ Op Res χ) (D : Discipline ι σ) (i : ι) (k : κ)
    (Pre : ν → Prop) (p : Prog Op Res ε α) (Post : Except ε α → ν → Prop) : Prop :=
  ∀ s, D.inv s → P.owner s k = some i → Pre (P.view s k) →
    Meets S D i (fun r t => P.Frame i k s t ∧ Post r (P.view t k)) p s

variable {Pre Pre' : ν → Prop} {Post Post' : Except ε α → ν → Prop} {p : Prog Op Res ε α}

theorem Triple.mono (h : P.Triple S D i k Pre p Post)
    (hpre : ∀ v, Pre' v → Pre v) (hpost : ∀ r v, Post r v → Post' r v) :
    P.Triple S D i k Pre' p Post' := fun s hinv hk hv =>
  (h s hinv hk (hpre _ hv)).mono (fun r _ _ ht => ⟨ht.1, hpost r _ ht.2⟩)

theorem Triple.pre (h : P.Triple S D i k Pre p Post)
    (hpre : ∀ v, Pre' v → Pre v) : P.Triple S D i k Pre' p Post := h.mono hpre (fun _ _ h => h)

theorem Triple.ret (hD : P.Governs D) {a : α} (h : ∀ v, Pre v → Post (.ok a) v) :
    P.Triple S D i k Pre (.ret a) Post := by
  intro s _ hk hv t hst _
  have hstable := hD.stable hst
  exact ⟨hstable.frame, h _ (by rw [(hstable k).2 hk]; exact hv)⟩

theorem Triple.fail (hD : P.Governs D) {e : ε} (h : ∀ v, Pre v → Post (.error e) v) :
    P.Triple S D i k Pre (.fail e) Post := by
  intro s _ hk hv t hst _
  have hstable := hD.stable hst
  exact ⟨hstable.frame, h _ (by rw [(hstable k).2 hk]; exact hv)⟩

theorem Triple.bind {f : α → Prog Op Res ε β}
    {Post : Except ε β → ν → Prop} (Mid : Except ε α → ν → Prop)
    (h : P.Triple S D i k Pre p Mid)
    (hok : ∀ a, P.Triple S D i k (fun v => Mid (.ok a) v) (f a) Post)
    (herr : ∀ e v, Mid (.error e) v → Post (.error e) v) : P.Triple S D i k Pre (p >>= f) Post := by
  intro s hinv hk hv
  refine Meets.bind ((h s hinv hk hv).mono (fun r t hinvt ht => ?_))
  cases r with
  | ok a =>
    exact (hok a t hinvt ((ht.1 k).1.2 hk) ht.2).mono (fun _ _ _ hu => ⟨ht.1.trans hu.1, hu.2⟩)
  | error e => exact ⟨ht.1, herr e _ ht.2⟩

theorem Triple.bind_attempt {f : Except ε α → Prog Op Res ε' β}
    {Post : Except ε' β → ν → Prop} (Mid : Except ε α → ν → Prop)
    (h : P.Triple S D i k Pre p Mid) (hf : ∀ r, P.Triple S D i k (Mid r) (f r) Post) :
    P.Triple S D i k Pre (p.attempt >>= f) Post := by
  intro s hinv hk hv
  refine Meets.bind (Meets.attempt ((h s hinv hk hv).mono (fun r t hinvt ht => ?_)))
  exact (hf r t hinvt ((ht.1 k).1.2 hk) ht.2).mono (fun _ _ _ hu => ⟨ht.1.trans hu.1, hu.2⟩)

theorem Triple.perform (hD : P.Governs D) {o : Op} {Post : Except ε (Res o) → ν → Prop}
    (h : ∀ s c r u, D.inv s → P.owner s k = some i → Pre (P.view s k) →
      S.respond i s o c = some (r, u) → P.Touches k s u ∧ D.inv u ∧ Post (.ok r) (P.view u k)) :
    P.Triple S D i k Pre (Prog.perform o : Prog Op Res ε (Res o)) Post := by
  intro s _ hk hv t hst hinv c r u hr
  have hstable := hD.stable hst
  have hkt := (hstable k).1.2 hk
  obtain ⟨htouches, hinvu, hpost⟩ :=
    h t c r u hinv hkt (by rw [(hstable k).2 hk]; exact hv) hr
  refine ⟨hD.keeps hkt htouches hinvu, fun w huw _ => ?_⟩
  have hstable' := hD.stable huw
  refine ⟨(hstable.frame.trans htouches.frame).trans hstable'.frame, ?_⟩
  rw [(hstable' k).2 (by rw [htouches.owner]; exact hkt)]
  exact hpost

end Triples

end Parts

end ProximaDb.Lib
