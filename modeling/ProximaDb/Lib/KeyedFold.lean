/-
  ProximaDb.Lib.KeyedFold

  Folding a stream into a map. Each element updates the entry under its own key from that entry's
  current value, so the final entry of a key is the fold of the key's own elements:
  `lookup_foldl_keyedStep`.
-/
import Mathlib

namespace ProximaDb.Lib

open List AList

variable {α κ ν : Type} [DecidableEq κ] (keep : κ → ν → Bool) (key : α → κ)

/-- A map from `κ` to `ν`. -/
abbrev KeyMap (κ ν : Type) := AList (fun _ : κ => ν)

/-- The map with every value replaced by its image. -/
def mapValues {μ : Type} (f : ν → μ) (m : KeyMap κ ν) : KeyMap κ μ where
  entries := m.entries.map (fun e => ⟨e.1, f e.2⟩)
  nodupKeys := by
    have h := m.nodupKeys
    rw [nodupKeys_iff_pairwise] at h
    simp only [nodupKeys_iff_pairwise, pairwise_map]
    exact h

theorem lookup_mapValues {μ : Type} (f : ν → μ) (m : KeyMap κ ν) (k : κ) :
    (mapValues f m).lookup k = (m.lookup k).map f :=
  dlookup_map₂ (f := fun _ => f) k

theorem lookup_insert_eq (m : KeyMap κ ν) (k k' : κ) (v : ν) :
    (m.insert k v).lookup k' = if k' = k then some v else m.lookup k' := by
  split_ifs with h
  · rw [h, lookup_insert]
  · exact lookup_insert_ne h

theorem lookup_erase_eq (m : KeyMap κ ν) (k k' : κ) :
    (m.erase k).lookup k' = if k' = k then none else m.lookup k' := by
  split_ifs with h
  · rw [h, lookup_erase]
  · exact lookup_erase_ne h

/-! ## Sums over the values -/

section Total

variable {f : ν → Nat} {m : KeyMap κ ν} {k : κ} {v : ν}

def total (f : ν → Nat) (m : KeyMap κ ν) : Nat := (m.entries.map (fun e => f e.2)).sum

theorem perm_cons_erase (h : m.lookup k = some v) :
    m.entries.Perm (⟨k, v⟩ :: (m.erase k).entries) := by
  have hmem : k ∈ m.entries.keys := lookup_isSome.1 (by rw [h]; rfl)
  obtain ⟨v', before, after, -, hsplit, herase⟩ := exists_of_kerase hmem
  have hv : m.lookup k = some v' := by
    refine mem_lookup_iff.2 ?_
    rw [hsplit]
    simp
  rw [h, Option.some.injEq] at hv
  subst hv
  show m.entries.Perm (_ :: m.entries.kerase k)
  rw [herase, hsplit]
  exact perm_middle

theorem total_erase (h : m.lookup k = some v) : total f m = f v + total f (m.erase k) := by
  have := ((perm_cons_erase h).map (fun e => f e.2)).sum_nat
  simpa [total] using this

theorem total_insert (h : m.lookup k = none) : total f (m.insert k v) = f v + total f m := by
  rw [total, entries_insert_of_notMem (lookup_eq_none.1 h)]
  simp [total]

theorem total_congr {m' : KeyMap κ ν} (h : ∀ k, m.lookup k = m'.lookup k) :
    total f m = total f m' := by
  have hperm : m.entries.Perm m'.entries :=
    lookup_ext m.nodupKeys m'.nodupKeys (fun k v => by rw [show m.entries.dlookup k = _ from h k]; rfl)
  exact (hperm.map _).sum_nat

end Total

/-- Update the entry of `a`'s key; `none` removes it. -/
def keyedStep (key : α → κ) (update : Option ν → α → Option ν) (m : KeyMap κ ν) (a : α) :
    KeyMap κ ν :=
  match update (m.lookup (key a)) a with
  | some v => m.insert (key a) v
  | none => m.erase (key a)

theorem lookup_keyedStep (update : Option ν → α → Option ν) (m : KeyMap κ ν) (a : α) (k : κ) :
    (keyedStep key update m a).lookup k =
      if key a = k then update (m.lookup k) a else m.lookup k := by
  unfold keyedStep
  by_cases hk : key a = k
  · subst hk
    rw [if_pos rfl]
    cases update (m.lookup (key a)) a with
    | none => exact lookup_erase _ _
    | some v => exact lookup_insert _
  · rw [if_neg hk]
    cases update (m.lookup (key a)) a with
    | none => exact lookup_erase_ne (Ne.symm hk)
    | some v => exact lookup_insert_ne (Ne.symm hk)

theorem lookup_foldl_keyedStep (update : Option ν → α → Option ν) (l : List α)
    (m : KeyMap κ ν) (k : κ) : (l.foldl (keyedStep key update) m).lookup k =
      (l.filter (fun a => decide (key a = k))).foldl update (m.lookup k) := by
  induction l generalizing m with
  | nil => rfl
  | cons a l ih =>
    rw [foldl_cons, ih, lookup_keyedStep]
    by_cases hk : key a = k
    · rw [if_pos hk, filter_cons_of_pos (by simpa using hk), foldl_cons]
    · rw [if_neg hk, filter_cons_of_neg (by simpa using hk)]

/-! ## Filling in absent entries -/

/-- Add an entry unless its key is taken or it is not wanted. -/
def fillAbsent (keep : κ → ν → Bool) (m : KeyMap κ ν) (e : Sigma (fun _ : κ => ν)) : KeyMap κ ν :=
  if (m.lookup e.1).isSome then m else if keep e.1 e.2 then m.insert e.1 e.2 else m

theorem lookup_fillAbsent (m : KeyMap κ ν) (e : Sigma (fun _ : κ => ν)) (k : κ) :
    (fillAbsent keep m e).lookup k =
      if e.1 = k then (m.lookup k).or (if keep e.1 e.2 then some e.2 else none)
      else m.lookup k := by
  unfold fillAbsent
  by_cases hk : e.1 = k
  · subst hk
    rw [if_pos rfl]
    cases hm : m.lookup e.1 with
    | some v => simp [hm]
    | none => split_ifs <;> simp_all
  · rw [if_neg hk]
    split_ifs
    · rfl
    · exact lookup_insert_ne (Ne.symm hk)
    · rfl

/-- Filling a map from another one keeps its own entries and adds the wanted ones. -/
theorem lookup_foldl_fillAbsent (m m' : KeyMap κ ν) (k : κ) :
    (m'.entries.foldl (fillAbsent keep) m).lookup k =
      (m.lookup k).or ((m'.lookup k).filter (keep k)) := by
  have hfold : ∀ (l : List (Sigma (fun _ : κ => ν))) (m : KeyMap κ ν), l.NodupKeys →
      (l.foldl (fillAbsent keep) m).lookup k = (m.lookup k).or ((l.dlookup k).filter (keep k)) := by
    intro l
    induction l with
    | nil => intro m _; simp
    | cons e l ih =>
      intro m hnd
      rw [nodupKeys_cons] at hnd
      rw [foldl_cons, ih _ hnd.2, lookup_fillAbsent]
      by_cases hk : e.1 = k
      · -- the key does not occur again
        subst hk
        have hnone : l.dlookup e.1 = none := dlookup_eq_none.mpr hnd.1
        rw [if_pos rfl, hnone, dlookup_cons_eq]
        cases hkeep : keep e.1 e.2 <;> simp [Option.filter_some, hkeep]
      · rw [if_neg hk, dlookup_cons_ne _ _ (Ne.symm hk)]
  exact hfold m'.entries m m'.nodupKeys

end ProximaDb.Lib
