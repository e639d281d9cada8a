/-
  ProximaDb.Lib.Grouping

  Hash grouping as an association list. `groupInto key l` files every element of `l` under its
  key, in arrival order, exactly as a map from keys to vectors does; the order of the entries
  themselves carries no meaning, so users quantify over it.
-/
import Mathlib

namespace ProximaDb.Lib

open List Prod

/-- `k` is the end of the gap-free chain of `V` that starts at `1`. -/
def ChainTop (V : Set ℕ) (k : ℕ) : Prop :=
  (∀ i, 1 ≤ i → i ≤ k → i ∈ V) ∧ k + 1 ∉ V

namespace ChainTop

variable {V W : Set ℕ} {k l : ℕ}

theorem unique (hk : ChainTop V k) (hl : ChainTop V l) : k = l := by
  rcases Nat.lt_trichotomy k l with h | h | h
  · exact absurd (hl.1 (k + 1) (by omega) h) hk.2
  · exact h
  · exact absurd (hk.1 (l + 1) (by omega) h) hl.2

theorem zero_iff : ChainTop V 0 ↔ 1 ∉ V := by
  constructor
  · exact fun h => h.2
  · exact fun h => ⟨fun i h1 h0 => absurd h1 (by omega), h⟩

theorem mem (hk : ChainTop V k) (h : 1 ≤ k) : k ∈ V :=
  hk.1 k h le_rfl

theorem one_mem (hk : ChainTop V k) (h : 1 ≤ k) : 1 ∈ V :=
  hk.1 1 le_rfl h

theorem pos_iff (hk : ChainTop V k) : 1 ≤ k ↔ 1 ∈ V := by
  constructor
  · exact hk.one_mem
  · intro h
    rcases Nat.eq_zero_or_pos k with rfl | hpos
    · exact absurd h hk.2
    · exact hpos

theorem singleton_iff {a : ℕ} : ChainTop {a} k ↔ (a = 1 ∧ k = 1) ∨ (a ≠ 1 ∧ k = 0) := by
  have hone : ChainTop ({1} : Set ℕ) 1 := ⟨fun i h1 h2 => le_antisymm h2 h1, by simp⟩
  have hzero : a ≠ 1 → ChainTop {a} 0 := fun ha => zero_iff.mpr (by simpa using Ne.symm ha)
  constructor
  · intro hk
    by_cases ha : a = 1
    · subst ha
      exact Or.inl ⟨rfl, hk.unique hone⟩
    · exact Or.inr ⟨ha, hk.unique (hzero ha)⟩
  · rintro (⟨rfl, rfl⟩ | ⟨ha, rfl⟩)
    · exact hone
    · exact hzero ha

end ChainTop

theorem exists_chainTop {V : Set ℕ} (hV : V.Finite) : ∃ k, ChainTop V k := by
  classical
  obtain ⟨b, hb⟩ := hV.bddAbove
  have hex : ∃ k, k + 1 ∉ V := ⟨b, fun h => absurd (hb h) (by omega)⟩
  refine ⟨Nat.find hex, ?_, Nat.find_spec hex⟩
  intro i h1 hi
  have := Nat.find_min hex (m := i - 1) (by omega)
  rw [not_not, Nat.sub_add_cancel h1] at this
  exact this

variable {α κ : Type*} [DecidableEq κ]

/-- File one element under its key (`entry(key).or_default().push(x)`). -/
def pushGroup (key : α → κ) (x : α) : List (κ × List α) → List (κ × List α)
  | [] => [(key x, [x])]
  | (k, g) :: rest => if k = key x then (k, g ++ [x]) :: rest else (k, g) :: pushGroup key x rest

def groupInto (key : α → κ) (l : List α) : List (κ × List α) :=
  l.foldl (fun groups x => pushGroup key x groups) []

variable {key : α → κ} {entries : List (κ × List α)} {gs : List (κ × List α)} {f : List α → List α}
  {g : List α} {x : α} {k : κ}

theorem mem_keys_pushGroup (gs : List (κ × List α)) :
    k ∈ (pushGroup key x gs).map fst ↔ k = key x ∨ k ∈ gs.map fst := by
  fun_induction pushGroup key x gs with
  | case1 => simp
  | case2 => simp
  | case3 k' g rest h ih =>
    simp only [map_cons, mem_cons, ih]
    tauto

theorem nodup_keys_pushGroup (h : (gs.map fst).Nodup) : ((pushGroup key x gs).map fst).Nodup := by
  fun_induction pushGroup key x gs with
  | case1 => simp
  | case2 => exact h
  | case3 k' g rest hk ih =>
    have h' := nodup_cons.mp h
    refine nodup_cons.mpr ⟨?_, ih h'.2⟩
    rw [mem_keys_pushGroup]
    rintro (rfl | hmem)
    · exact hk rfl
    · exact h'.1 hmem

theorem mem_pushGroup (hnd : (gs.map fst).Nodup) : (k, g) ∈ pushGroup key x gs ↔
      (k ≠ key x ∧ (k, g) ∈ gs) ∨
      (k = key x ∧ ((∃ g', (k, g') ∈ gs ∧ g = g' ++ [x]) ∨
        (k ∉ gs.map fst ∧ g = [x]))) := by
  fun_induction pushGroup key x gs with
  | case1 => simp
  | case2 g' rest =>
    have hrest : ∀ g'', (key x, g'') ∉ rest := fun g'' hm =>
      (nodup_cons.mp hnd).1 (mem_map.mpr ⟨(key x, g''), hm, rfl⟩)
    by_cases hk : k = key x
    · subst hk
      simp only [mem_cons, mk.injEq, true_and, ne_eq,
        not_true_eq_false, false_and, false_or, map_cons, true_or, or_false]
      constructor
      · rintro (rfl | hm)
        · exact ⟨g', Or.inl rfl, rfl⟩
        · exact absurd hm (hrest g)
      · rintro ⟨g'', rfl | hm, rfl⟩
        · exact Or.inl rfl
        · exact absurd hm (hrest g'')
    · simp [hk]
  | case3 k' g' rest hk' ih =>
    simp only [mem_cons, mk.injEq, ih (nodup_cons.mp hnd).2]
    by_cases hk : k = key x
    · subst hk
      simp [Ne.symm hk']
    · simp [hk]

/-- What grouping a list yields: distinct keys, and under each key its elements in arrival order. -/
theorem groupInto_spec (key : α → κ) (l : List α) : ((groupInto key l).map fst).Nodup ∧
      ∀ k g, (k, g) ∈ groupInto key l ↔ g = l.filter (fun x => decide (key x = k)) ∧ g ≠ [] := by
  induction l using List.reverseRecOn with
  | nil => simp [groupInto]
  | append_singleton l x ih =>
    have hstep : groupInto key (l ++ [x]) = pushGroup key x (groupInto key l) := by
      simp [groupInto]
    rw [hstep]
    refine ⟨nodup_keys_pushGroup ih.1, ?_⟩
    intro k g
    rw [mem_pushGroup ih.1, filter_append]
    by_cases hk : k = key x
    · subst hk
      have hkeys : key x ∉ (groupInto key l).map fst ↔
          l.filter (fun y => decide (key y = key x)) = [] := by
        constructor
        · intro h
          by_contra hne
          exact h (mem_map.mpr ⟨_, (ih.2 _ _).mpr ⟨rfl, hne⟩, rfl⟩)
        · intro h hm
          obtain ⟨⟨k', g'⟩, hmem, hk'⟩ := mem_map.mp hm
          subst hk'
          exact ((ih.2 _ _).mp hmem).2 (((ih.2 _ _).mp hmem).1.trans h)
      simp only [ne_eq, not_true_eq_false, false_and, true_and, false_or, hkeys]
      constructor
      · rintro (⟨g', hg', rfl⟩ | ⟨hnil, rfl⟩)
        · exact ⟨by simp [((ih.2 _ _).mp hg').1], by simp⟩
        · exact ⟨by simp [hnil], by simp⟩
      · rintro ⟨rfl, -⟩
        by_cases hnil : l.filter (fun y => decide (key y = key x)) = []
        · exact Or.inr ⟨hnil, by simp [hnil]⟩
        · exact Or.inl ⟨_, (ih.2 _ _).mpr ⟨rfl, hnil⟩, by simp⟩
    · have hx : [x].filter (fun y => decide (key y = k)) = [] := by simp [Ne.symm hk]
      simp [hk, ih.2, hx]

/-- Two lists are rearrangements of each other once they are so within every key. -/
theorem perm_of_filter_perm (key : α → κ) {l m : List α}
    (h : ∀ k, (l.filter (fun x => decide (key x = k))).Perm
      (m.filter (fun x => decide (key x = k)))) : l.Perm m := by
  classical
  rw [perm_iff_count]
  intro a
  have hc := (h (key a)).count_eq a
  rw [count_filter (by simp), count_filter (by simp)] at hc
  exact hc

theorem filter_flatMap_other
    (hkey : ∀ e ∈ entries, ∀ x ∈ f e.2, key x = e.1) (hk : k ∉ entries.map fst) :
    (entries.flatMap (fun e => f e.2)).filter (fun x => decide (key x = k)) = [] := by
  refine filter_eq_nil_iff.mpr (fun x hx hxk => hk ?_)
  obtain ⟨e, he, hxe⟩ := mem_flatMap.mp hx
  rw [← of_decide_eq_true hxk, hkey e he x hxe]
  exact mem_map_of_mem he

theorem filter_flatMap_key (hnd : (entries.map fst).Nodup)
    (hkey : ∀ e ∈ entries, ∀ x ∈ f e.2, key x = e.1)
    (hmem : (k, g) ∈ entries) :
    (entries.flatMap (fun e => f e.2)).filter (fun x => decide (key x = k)) = f g := by
  have hself : (f g).filter (fun x => decide (key x = k)) = f g :=
    filter_eq_self.mpr (fun x hx => decide_eq_true (hkey (k, g) hmem x hx))
  obtain ⟨s, t, rfl⟩ := append_of_mem hmem
  rw [map_append, map_cons, nodup_append, nodup_cons] at hnd
  obtain ⟨-, ⟨ht, -⟩, hs⟩ := hnd
  obtain ⟨hkeyS, hkeyT⟩ := forall_mem_append.mp hkey
  rw [flatMap_append, flatMap_cons, filter_append, filter_append, hself,
    filter_flatMap_other hkeyS (fun hk => hs k hk k mem_cons_self rfl),
    filter_flatMap_other (forall_mem_cons.mp hkeyT).2 ht, nil_append, append_nil]

end ProximaDb.Lib
