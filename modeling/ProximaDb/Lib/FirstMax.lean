/-
  ProximaDb.Lib.FirstMax

  Winner folds. A winner fold walks a list and replaces its current winner only by a strictly
  better candidate, so among equally good candidates the first one seen stays. A forgetful one
  drops its winner when a better candidate says the entry is gone, and keeps no trace of that
  candidate.
-/
import Mathlib

namespace ProximaDb.Lib

open List Option

variable {α κ : Type*} [LinearOrder κ] {β : Type*} {l : List α} {x : α} {items : β → List α}
  {E : List β}

/-- One step of a winner fold: keep the current winner unless the candidate is strictly better. -/
def keepNewer (newer : α → α → Bool) : Option α → α → Option α
  | none, c => some c
  | some cur, c => if newer c cur then some c else some cur

/-- The winner of a list: the first element no later one is strictly better than. -/
def newest (newer : α → α → Bool) (l : List α) : Option α :=
  l.foldl (keepNewer newer) none

theorem newest_map (newer : β → β → Bool) (f : α → β) (l : List α) :
    newest newer (l.map f) = (newest (fun a b => newer (f a) (f b)) l).map f := by
  have hstep : ∀ (cur : Option α) (a : α), keepNewer newer (cur.map f) (f a) =
      (keepNewer (fun a b => newer (f a) (f b)) cur a).map f := by
    intro cur a
    cases cur with
    | none => rfl
    | some c =>
      simp only [map_some, keepNewer]
      split_ifs <;> rfl
  rw [newest, foldl_map]
  exact @List.foldl_hom _ _ _ (Option.map f) _ (fun cur a => keepNewer newer cur (f a)) l none
    hstep

variable {key : α → κ}

theorem newest_eq_argmax {newer : α → α → Bool}
    (h : ∀ a b, newer a b = true ↔ key b < key a) (l : List α) : newest newer l = l.argmax key := by
  unfold newest List.argmax List.argAux
  congr 1
  funext cur c
  cases cur with
  | none => rfl
  | some x =>
    simp only [keepNewer]
    by_cases hx : key x < key c
    · simp [hx, (h c x).mpr hx]
    · have : newer c x = false := by
        rw [← Bool.not_eq_true, h]
        exact hx
      simp [hx, this]

theorem argmax_congr {κ' : Type*} [LinearOrder κ'] {f : α → κ} {g : α → κ'}
    (h : ∀ a b, f b < f a ↔ g b < g a) (l : List α) : l.argmax f = l.argmax g := by
  rw [← newest_eq_argmax (fun a b => decide_eq_true_iff (p := f b < f a)) l]
  exact newest_eq_argmax (fun a b => decide_eq_true_iff.trans (h a b)) l

/-- `x` wins `l` under `key`: everything before it is strictly worse, nothing after it is better. -/
def IsFirstMax (key : α → κ) (l : List α) (x : α) : Prop :=
  ∃ pre post, l = pre ++ x :: post ∧ (∀ y ∈ pre, key y < key x) ∧ ∀ y ∈ post, key y ≤ key x

theorem isFirstMax_cons {a : α} : IsFirstMax key (a :: l) x ↔
    (a = x ∧ ∀ y ∈ l, key y ≤ key a) ∨ (key a < key x ∧ IsFirstMax key l x) := by
  constructor
  · rintro ⟨pre, post, heq, hpre, hpost⟩
    cases pre with
    | nil =>
      cases heq
      exact .inl ⟨rfl, hpost⟩
    | cons b pre =>
      cases heq
      obtain ⟨hb, hpre⟩ := forall_mem_cons.1 hpre
      exact .inr ⟨hb, pre, post, rfl, hpre, hpost⟩
  · rintro (⟨rfl, hle⟩ | ⟨hlt, pre, post, rfl, hpre, hpost⟩)
    · exact ⟨[], l, rfl, by simp, hle⟩
    · exact ⟨a :: pre, post, rfl, forall_mem_cons.2 ⟨hlt, hpre⟩, hpost⟩

theorem argmax_eq_some_iff_isFirstMax (key : α → κ) (l : List α) (x : α) :
    l.argmax key = some x ↔ IsFirstMax key l x := by
  induction l with
  | nil => simp [IsFirstMax]
  | cons a l ih =>
    rw [isFirstMax_cons, ← ih, argmax_cons]
    cases hm : l.argmax key with
    | none =>
      rw [argmax_eq_none.1 hm]
      simp
    | some c =>
      dsimp only
      split_ifs with hlt
      · refine ⟨fun heq => .inr ⟨some.inj heq ▸ hlt, heq⟩, ?_⟩
        rintro (⟨-, hle⟩ | ⟨-, heq⟩)
        · exact absurd hlt (not_lt.2 (hle c (argmax_mem hm)))
        · exact heq
      · have hle : ∀ y ∈ l, key y ≤ key a :=
          fun y hy => (le_of_mem_argmax hy hm).trans (not_lt.1 hlt)
        refine ⟨fun heq => .inl ⟨some.inj heq, hle⟩, ?_⟩
        rintro (⟨heq, -⟩ | ⟨hbetter, heq⟩)
        · rw [heq]
        · cases heq
          exact absurd hbetter hlt

/-! ## Maxima in any order -/

/-- `x` is a maximum of `l`. -/
def IsMaxOf (key : α → κ) (l : List α) (x : α) : Prop :=
  x ∈ l ∧ ∀ y ∈ l, key y ≤ key x

theorem isMaxOf_of_argmax (h : l.argmax key = some x) : IsMaxOf key l x :=
  ⟨argmax_mem h, fun _ hy => le_of_mem_argmax hy h⟩

theorem IsMaxOf.perm {l' : List α} (h : IsMaxOf key l x) (hp : l.Perm l') : IsMaxOf key l' x :=
  ⟨hp.mem_iff.mp h.1, fun y hy => h.2 y (hp.mem_iff.mpr hy)⟩

theorem argmax_cons_of_isMaxOf (h : ∀ y ∈ l, key y ≤ key x) : (x :: l).argmax key = some x := by
  rw [argmax_eq_some_iff_isFirstMax]
  exact ⟨[], l, rfl, by simp, h⟩

theorem argmax_map (key : β → κ) (f : α → β) (l : List α) :
    (l.map f).argmax key = (l.argmax (key ∘ f)).map f := by
  rw [← newest_eq_argmax (fun a b => decide_eq_true_iff (p := key b < key a)), newest_map]
  congr 1
  exact newest_eq_argmax (fun a b => decide_eq_true_iff) l

/-! ## Independence of the order of groups -/

theorem flatMap_eq_append_cons {pre post : List α} (h : E.flatMap items = pre ++ x :: post) :
    ∃ E₁ e E₂ p q, E = E₁ ++ e :: E₂ ∧ items e = p ++ x :: q ∧
      pre = E₁.flatMap items ++ p ∧ post = q ++ E₂.flatMap items := by
  induction E generalizing pre with
  | nil => simp at h
  | cons e E ih =>
    rw [flatMap_cons, append_eq_append_iff] at h
    rcases h with ⟨p, rfl, htail⟩ | ⟨q, hitems, hpost⟩
    · obtain ⟨E₁, e', E₂, p', q', rfl, hitems, rfl, rfl⟩ := ih htail
      exact ⟨e :: E₁, e', E₂, p', q', rfl, hitems, by simp, rfl⟩
    · cases q with
      | nil =>
        -- `x` is the head of a later group
        have hnext : E.flatMap items = [] ++ x :: post := hpost.symm
        obtain ⟨E₁, e', E₂, p', q', rfl, hitems', hpre, rfl⟩ := ih hnext
        refine ⟨e :: E₁, e', E₂, p', q', rfl, hitems', ?_, rfl⟩
        rw [flatMap_cons, append_assoc, ← hpre]
        simpa using hitems.symm
      | cons y q =>
        obtain ⟨rfl, rfl⟩ := List.cons.inj hpost
        exact ⟨[], e, E, pre, q, rfl, hitems, by simp, rfl⟩

theorem exists_argmax_of_argmax_flatMap (hx : (E.flatMap items).argmax key = some x) :
    ∃ e ∈ E, (items e).argmax key = some x := by
  rw [argmax_eq_some_iff_isFirstMax] at hx
  obtain ⟨pre, post, heq, hpre, hpost⟩ := hx
  obtain ⟨E₁, e, E₂, p, q, rfl, hitems, rfl, rfl⟩ := flatMap_eq_append_cons heq
  refine ⟨e, by simp, ?_⟩
  rw [argmax_eq_some_iff_isFirstMax]
  exact ⟨p, q, hitems, fun y hy => hpre y (by simp [hy]), fun y hy => hpost y (by simp [hy])⟩

theorem argmax_flatMap_cons {e : β} (hx : (items e).argmax key = some x)
    (hle : ∀ e' ∈ E, ∀ y ∈ items e', key y ≤ key x) :
    ((e :: E).flatMap items).argmax key = some x := by
  rw [argmax_eq_some_iff_isFirstMax] at hx ⊢
  obtain ⟨pre, post, heq, hpre, hpost⟩ := hx
  refine ⟨pre, post ++ E.flatMap items, by simp [heq], hpre, ?_⟩
  intro y hy
  rcases mem_append.mp hy with hy | hy
  · exact hpost y hy
  · obtain ⟨e', he', hye⟩ := mem_flatMap.mp hy
    exact hle e' he' y hye

/-- If equal keys only occur within one group, the winner over the concatenation of the groups does
    not depend on their order. -/
theorem argmax_flatMap_perm {E' : List β} (hnd : E.Nodup) (hperm : E.Perm E')
    (hkey : ∀ e ∈ E, ∀ e' ∈ E, ∀ a ∈ items e, ∀ b ∈ items e', key a = key b → e = e') :
    (E.flatMap items).argmax key = (E'.flatMap items).argmax key := by
  have hitemsPerm := hperm.flatMap_right items
  cases hm : (E.flatMap items).argmax key with
  | none =>
    rw [argmax_eq_none.1 hm] at hitemsPerm
    rw [hitemsPerm.symm.eq_nil]
    rfl
  | some x =>
    obtain ⟨pre, post, heq, hpre, -⟩ := (argmax_eq_some_iff_isFirstMax _ _ _).1 hm
    obtain ⟨E₁, e, E₂, p, q, hE, hitems, rfl, rfl⟩ := flatMap_eq_append_cons heq
    have he : e ∈ E := by simp [hE]
    have hx : x ∈ items e := by simp [hitems]
    obtain ⟨F₁, F₂, rfl⟩ := append_of_mem (hperm.mem_iff.1 he)
    have hne := (nodup_append.1 (hperm.nodup_iff.1 hnd)).2.2
    have hle : ∀ y ∈ (F₁ ++ e :: F₂).flatMap items, key y ≤ key x :=
      fun y hy => le_of_mem_argmax (hitemsPerm.mem_iff.2 hy) hm
    rw [flatMap_append, flatMap_cons, hitems] at hle
    refine ((argmax_eq_some_iff_isFirstMax _ _ _).2 ⟨F₁.flatMap items ++ p,
      q ++ F₂.flatMap items, by simp [hitems], fun y hy => ?_, fun y hy => ?_⟩).symm
    · rcases mem_append.1 hy with hy | hy
      · -- a key of another group is not the winner's
        obtain ⟨e', he', hye⟩ := mem_flatMap.1 hy
        refine lt_of_le_of_ne (hle y (mem_append_left _ hy)) (fun hsame => ?_)
        exact hne e' he' e mem_cons_self
          (hkey e' (hperm.mem_iff.2 (mem_append_left _ he')) e he y hye x hx hsame)
      · exact hpre y (mem_append_right _ hy)
    · refine hle y (mem_append_right _ ?_)
      rw [append_assoc, cons_append]
      exact mem_append_right _ (mem_cons_of_mem _ hy)

variable {newer : α → α → Bool} {gone : α → Bool} {key : α → κ} {c : α}

/-- One step: a strictly better candidate replaces the current winner, or removes it if the
    candidate says the entry is gone. -/
def keepOrForget (newer : α → α → Bool) (gone : α → Bool) : Option α → α → Option α
  | none, c => if gone c then none else some c
  | some cur, c => if newer c cur then (if gone c then none else some c) else some cur

theorem keepOrForget_none_of_present (hc : gone c = false) :
    keepOrForget newer gone none c = some c := by
  simp [keepOrForget, hc]

variable (h : ∀ a b, newer a b = true ↔ key b < key a) {cur : Option α}

include h

theorem exists_le_keepOrForget (cur : Option α) (hc : gone c = false) :
    ∃ x, keepOrForget newer gone cur c = some x ∧ key c ≤ key x := by
  cases cur with
  | none => exact ⟨c, keepOrForget_none_of_present hc, le_refl _⟩
  | some d =>
    by_cases hd : newer c d = true
    · exact ⟨c, by simp [keepOrForget, hd, hc], le_refl _⟩
    · refine ⟨d, by simp [keepOrForget, hd], ?_⟩
      rw [h] at hd
      exact not_lt.mp hd

theorem exists_le_keepOrForget_some {d c : α} (hc : gone c = true → key c ≤ key d) :
    ∃ x, keepOrForget newer gone (some d) c = some x ∧ key d ≤ key x := by
  by_cases hd : newer c d = true
  · have hlt := (h c d).mp hd
    have hg : gone c = false := by
      rw [← Bool.not_eq_true]
      intro hg
      exact absurd hlt (not_lt.mpr (hc hg))
    exact ⟨c, by simp [keepOrForget, hd, hg], hlt.le⟩
  · exact ⟨d, by simp [keepOrForget, hd], le_refl _⟩

theorem exists_le_foldl_keepOrForget {d : α}
    (l : List α) (hl : ∀ t ∈ l, gone t = true → key t ≤ key d) :
    ∃ x, l.foldl (keepOrForget newer gone) (some d) = some x ∧ key d ≤ key x := by
  refine l.foldlRecOn _ (motive := fun cur => ∃ x, cur = some x ∧ key d ≤ key x)
    ⟨d, rfl, le_refl _⟩ ?_
  rintro _ ⟨x, rfl, hdx⟩ c hc
  -- the winner only improves, so what it survived before it still survives
  obtain ⟨y, hy, hxy⟩ := exists_le_keepOrForget_some h (fun hg => (hl c hc hg).trans hdx)
  exact ⟨y, hy, hdx.trans hxy⟩

theorem keepOrForget_eq_some (hx : keepOrForget newer gone cur c = some x) :
    (cur = some x ∧ key c ≤ key x) ∨ (c = x ∧ gone c = false) := by
  cases cur with
  | none =>
    simp only [keepOrForget, ite_none_left_eq_some, Bool.not_eq_true, some.injEq] at hx
    exact .inr ⟨hx.2, hx.1⟩
  | some d =>
    by_cases hd : newer c d = true
    · simp only [keepOrForget, hd, if_true, ite_none_left_eq_some, Bool.not_eq_true,
        some.injEq] at hx
      exact .inr ⟨hx.2, hx.1⟩
    · simp only [keepOrForget, hd] at hx
      cases hx
      rw [h] at hd
      exact .inl ⟨rfl, not_lt.mp hd⟩

theorem foldl_keepOrForget_eq_some_or (hx : l.foldl (keepOrForget newer gone) cur = some x) :
    (cur = some x ∧ ∀ y ∈ l, key y ≤ key x) ∨
      ∃ pre post, l = pre ++ x :: post ∧ gone x = false ∧ ∀ y ∈ post, key y ≤ key x := by
  induction l generalizing cur with
  | nil => exact .inl ⟨hx, by simp⟩
  | cons c l ih =>
    rcases ih hx with ⟨hcur, hle⟩ | ⟨pre, post, rfl, hg, hpost⟩
    · rcases keepOrForget_eq_some h hcur with ⟨rfl, hc⟩ | ⟨rfl, hg⟩
      · exact .inl ⟨rfl, forall_mem_cons.2 ⟨hc, hle⟩⟩
      · exact .inr ⟨[], l, rfl, hg, hle⟩
    · exact .inr ⟨c :: pre, post, rfl, hg, hpost⟩

theorem foldl_keepOrForget_eq_some (hx : l.foldl (keepOrForget newer gone) none = some x) :
    ∃ pre post, l = pre ++ x :: post ∧ gone x = false ∧ ∀ y ∈ post, key y ≤ key x := by
  rcases foldl_keepOrForget_eq_some_or h hx with ⟨hnone, -⟩ | hsplit
  · cases hnone
  · exact hsplit

/-- The fold ends empty exactly if every candidate that was present is followed by a better one that
    is gone. -/
theorem foldl_keepOrForget_eq_none_iff (l : List α) :
    l.foldl (keepOrForget newer gone) none = none ↔
      ∀ pre x post, l = pre ++ x :: post → gone x = false →
        ∃ t ∈ post, gone t = true ∧ key x < key t := by
  constructor
  · rintro hnone pre x post rfl hx
    by_contra hcon
    push Not at hcon
    rw [foldl_append, foldl_cons] at hnone
    obtain ⟨d, hd, hxd⟩ := exists_le_keepOrForget h (pre.foldl (keepOrForget newer gone) none) hx
    rw [hd] at hnone
    obtain ⟨e, he, -⟩ :=
      exists_le_foldl_keepOrForget h post (fun t ht hg => (hcon t ht hg).trans hxd)
    rw [he] at hnone
    cases hnone
  · intro hall
    cases hl : l.foldl (keepOrForget newer gone) none with
    | none => rfl
    | some x =>
      obtain ⟨pre, post, hdec, hx, hpost⟩ := foldl_keepOrForget_eq_some h hl
      obtain ⟨t, ht, -, hlt⟩ := hall pre x post hdec hx
      exact absurd hlt (not_lt.mpr (hpost t ht))

theorem foldl_keepOrForget_of_le {w : α} (l : List α) (hl : ∀ y ∈ l, key y ≤ key w) :
    l.foldl (keepOrForget newer gone) (some w) = some w := by
  refine l.foldlRecOn _ (motive := (· = some w)) rfl (fun acc hacc y hy => ?_)
  have hnewer : newer y w = false := by
    rw [← Bool.not_eq_true, h]
    exact not_lt.mpr (hl y hy)
  rw [hacc]
  simp [keepOrForget, hnewer]

theorem foldl_keepOrForget_of_isFirstMax {w : α} (hw : IsFirstMax key l w) (hg : gone w = false) :
    l.foldl (keepOrForget newer gone) none = some w := by
  obtain ⟨pre, post, rfl, hpre, hpost⟩ := hw
  have hstep : keepOrForget newer gone (pre.foldl (keepOrForget newer gone) none) w = some w := by
    cases hc : pre.foldl (keepOrForget newer gone) none with
    | none => exact keepOrForget_none_of_present hg
    | some c =>
      -- whatever won so far came before `w`, so it is strictly worse
      obtain ⟨s, t, rfl, -, -⟩ := foldl_keepOrForget_eq_some h hc
      have hn : newer w c = true := (h w c).mpr (hpre c (by simp))
      simp [keepOrForget, hn, hg]
  rw [foldl_append, foldl_cons, hstep]
  exact foldl_keepOrForget_of_le h post hpost

end ProximaDb.Lib
