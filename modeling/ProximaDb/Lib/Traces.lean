/-
  ProximaDb.Lib.Traces

  Runs of a machine whose steps may be impossible. `play` runs a list of events from a state;
  `guarded` leaves only the steps that meet a condition. `play_invariant` and `play_induction` are
  the rules for what holds in every state that is reached.
-/
import Mathlib

namespace ProximaDb.Lib

open List

section Plans

variable {σ α : Type} {step : σ → α → σ} {P : σ → Prop} {s : σ}

/-- `P` holds after every number of actions of the plan. -/
def Along (step : σ → α → σ) (P : σ → Prop) (s : σ) (plan : List α) : Prop :=
  ∀ n, P ((plan.take n).foldl step s)

variable {plan : List α}

theorem Along.first (h : Along step P s plan) : P s := h 0

theorem Along.last (h : Along step P s plan) : P (plan.foldl step s) := by
  have := h plan.length
  rwa [take_length] at this

theorem along_nil (h : P s) : Along step P s [] := by
  intro n
  rw [take_nil]
  exact h

theorem along_cons {a : α} (h : P s) (hrest : Along step P (step s a) plan) :
    Along step P s (a :: plan) := by
  intro n
  cases n with
  | zero => exact h
  | succ n => exact hrest n

theorem along_append {p q : List α} (hp : Along step P s p)
    (hq : Along step P (p.foldl step s) q) : Along step P s (p ++ q) := by
  induction p generalizing s with
  | nil => exact hq
  | cons a p ih =>
    refine along_cons hp.first (ih (fun n => ?_) hq)
    exact hp (n + 1)

theorem along_of_preserves (hs : P s)
    (hstep : ∀ a ∈ plan, ∀ t, P t → P (step t a)) : Along step P s plan :=
  fun n => (plan.take n).foldlRecOn step hs (fun t ht a ha => hstep a (mem_of_mem_take ha) t ht)

end Plans

variable {σ ε : Type} {s t : σ}

/-- The state after a list of events, if every step is possible. -/
def play (step : σ → ε → Option σ) : σ → List ε → Option σ
  | s, [] => some s
  | s, e :: es => (step s e).bind (fun t => play step t es)

def guarded (ok : σ → ε → Prop) [∀ s e, Decidable (ok s e)] (step : σ → ε → Option σ) (s : σ)
    (e : ε) : Option σ :=
  if ok s e then step s e else none

theorem guarded_eq_some {ok : σ → ε → Prop} [∀ s e, Decidable (ok s e)]
    {step : σ → ε → Option σ} {e : ε} :
    guarded ok step s e = some t ↔ ok s e ∧ step s e = some t := by
  unfold guarded
  split_ifs with h
  · exact ⟨fun hstep => ⟨h, hstep⟩, And.right⟩
  · exact ⟨nofun, fun hok => absurd hok.1 h⟩

variable {step : σ → ε → Option σ} {es : List ε}

theorem play_append (s : σ) (es es' : List ε) :
    play step s (es ++ es') = (play step s es).bind (fun t => play step t es') := by
  induction es generalizing s with
  | nil => rfl
  | cons e es ih =>
    show (step s e).bind _ = ((step s e).bind _).bind _
    rw [Option.bind_assoc]
    exact congrArg _ (funext ih)

theorem play_concat (s : σ) (es : List ε) (e : ε) :
    play step s (es ++ [e]) = (play step s es).bind (fun t => step t e) := by
  rw [play_append]
  refine congrArg _ (funext fun t => ?_)
  show (step t e).bind some = step t e
  cases step t e <;> rfl

theorem play_induction {P : List ε → σ → Prop} {s : σ} (hstart : P [] s)
    (hstep : ∀ es e t u, play step s es = some t → P es t → step t e = some u → P (es ++ [e]) u)
    {t : σ} (h : play step s es = some t) : P es t := by
  induction es using List.reverseRecOn generalizing t with
  | nil =>
    cases h
    exact hstart
  | append_singleton es e ih =>
    rw [play_concat] at h
    obtain ⟨u, hu, ht⟩ := Option.bind_eq_some_iff.1 h
    exact hstep es e u t hu (ih hu) ht

theorem play_invariant {P : σ → Prop} (hstep : ∀ s e t, P s → step s e = some t → P t)
    (hs : P s) (h : play step s es = some t) : P t :=
  play_induction (P := fun _ t => P t) hs (fun _ e t u _ ht hu => hstep t e u ht hu) h

/-! ## Loops that may fail -/

section Loops

variable {α β ω : Type} {f : β → α → Except ω β} {P : List α → β → Prop}

theorem exists_of_bind_ok {γ : Type} {r : Except ω α} {g : α → Except ω γ} {c : γ}
    (h : r >>= g = .ok c) : ∃ a, r = .ok a ∧ g a = .ok c := by
  cases r with
  | error e => cases h
  | ok a => exact ⟨a, rfl, h⟩

theorem forall₂_of_mapM_ok {γ : Type} {g : α → Except ω γ} {l : List α} {l' : List γ}
    (h : l.mapM g = .ok l') : List.Forall₂ (fun a c => g a = .ok c) l l' := by
  induction l generalizing l' with
  | nil =>
    cases h
    exact .nil
  | cons a l ih =>
    rw [mapM_cons] at h
    obtain ⟨c, hfirst, h⟩ := exists_of_bind_ok h
    obtain ⟨rest, hrest, h⟩ := exists_of_bind_ok h
    cases h
    exact .cons hfirst (ih hrest)

theorem exists_of_mem_left {γ : Type} {R : α → γ → Prop} {l : List α} {l' : List γ} {a : α}
    (h : List.Forall₂ R l l') (ha : a ∈ l) : ∃ c ∈ l', R a c := by
  induction h with
  | nil => exact absurd ha not_mem_nil
  | cons hfirst _ ih =>
    rcases mem_cons.1 ha with rfl | ha
    · exact ⟨_, mem_cons_self, hfirst⟩
    · obtain ⟨c, hc, hr⟩ := ih ha
      exact ⟨c, mem_cons_of_mem _ hc, hr⟩

theorem exists_of_mem_right {γ : Type} {R : α → γ → Prop} {l : List α} {l' : List γ} {c : γ}
    (h : List.Forall₂ R l l') (hc : c ∈ l') : ∃ a ∈ l, R a c :=
  exists_of_mem_left h.flip hc

theorem foldlM_ok_induction {l : List α} {b b' : β} (h : l.foldlM f b = .ok b') (hstart : P [] b)
    (hstep : ∀ done a c c', P done c → f c a = .ok c' → P (done ++ [a]) c') : P l b' := by
  induction l using List.reverseRecOn generalizing b' with
  | nil =>
    cases h
    exact hstart
  | append_singleton l a ih =>
    rw [foldlM_append] at h
    simp only [foldlM_cons, foldlM_nil, bind_pure] at h
    obtain ⟨c, hloop, h⟩ := exists_of_bind_ok h
    exact hstep l a c b' (ih hloop) h

/-- A loop goes through if every round does, as long as what the rounds keep holds. -/
theorem foldlM_ok_of_step {l : List α} {b : β} (hstart : P [] b)
    (hstep : ∀ done a rest c, l = done ++ a :: rest → P done c →
      ∃ c', f c a = .ok c' ∧ P (done ++ [a]) c') :
    ∃ b', l.foldlM f b = .ok b' ∧ P l b' := by
  induction l using List.reverseRecOn with
  | nil => exact ⟨b, rfl, hstart⟩
  | append_singleton l a ih =>
    obtain ⟨c, hloop, hc⟩ := ih (fun done a' rest c hl =>
      hstep done a' (rest ++ [a]) c (by rw [hl, append_assoc]; rfl))
    obtain ⟨c', hround, hc'⟩ := hstep l a [] c rfl hc
    refine ⟨c', ?_, hc'⟩
    rw [foldlM_append, hloop]
    simp only [foldlM_cons, foldlM_nil, bind_pure]
    exact hround

end Loops

theorem mapM_map_eq_self {α β : Type} {f : α → Option β} {g : β → α} {l : List β}
    (h : ∀ b ∈ l, f (g b) = some b) : (l.map g).mapM f = some l := by
  induction l with
  | nil => rfl
  | cons b l ih =>
    rw [map_cons, mapM_cons, h b mem_cons_self, ih (fun b hb => h b (mem_cons_of_mem _ hb))]
    rfl

end ProximaDb.Lib
