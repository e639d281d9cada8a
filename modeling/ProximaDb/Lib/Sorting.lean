/-
  ProximaDb.Lib.Sorting

  Sorting by a key, and scanning the groups of a sorted list.

  `SortOf key l s` is the contract of an unstable sort: `s` is some ordering of `l` that is
  non-decreasing in `key`; nothing is said about elements with equal keys.
-/
import Mathlib

namespace ProximaDb.Lib

open List

variable {α κ : Type*} [LinearOrder κ]

/-! ## Unstable and stable sorting by a key -/

/-- `s` is a possible result of an unstable sort of `l` by `key`. -/
structure SortOf (key : α → κ) (l s : List α) : Prop where
  perm : s.Perm l
  sorted : s.Pairwise (fun a b => key a ≤ key b)

/-- The stable sort by `key`. -/
def sortBy (key : α → κ) (l : List α) : List α :=
  l.insertionSort (fun a b => key a ≤ key b)

instance keyLe_isTrans (key : α → κ) : IsTrans α (fun a b => key a ≤ key b) :=
  ⟨fun _ _ _ hab hbc => le_trans hab hbc⟩

instance keyLe_total (key : α → κ) : Std.Total (fun a b : α => key a ≤ key b) :=
  ⟨fun a b => le_total (key a) (key b)⟩

theorem sortOf_sortBy (key : α → κ) (l : List α) : SortOf key l (sortBy key l) where
  perm := perm_insertionSort _ l
  sorted := pairwise_insertionSort _ l

theorem filter_sortBy (key : α → κ) (l : List α) (k : κ) :
    (sortBy key l).filter (fun a => decide (key a = k)) =
      l.filter (fun a => decide (key a = k)) := by
  have hperm : (sortBy key l).Perm l := (sortOf_sortBy key l).perm
  have hclass : (l.filter (fun a => decide (key a = k))).Pairwise (fun a b => key a ≤ key b) := by
    refine pairwise_of_forall_mem_list ?_
    intro a ha b hb
    have hka : key a = k := by simpa using (mem_filter.mp ha).2
    have hkb : key b = k := by simpa using (mem_filter.mp hb).2
    rw [hka, hkb]
  have hsub : l.filter (fun a => decide (key a = k)) <+ sortBy key l :=
    sublist_insertionSort hclass filter_sublist
  have hsub' := hsub.filter (fun a => decide (key a = k))
  rw [filter_filter] at hsub'
  simp only [Bool.and_self] at hsub'
  exact (hsub'.eq_of_length (hperm.filter _).length_eq.symm).symm

variable {key : α → κ}

theorem SortOf.unique {l s t : List α} (hinj : ∀ a ∈ l, ∀ b ∈ l, key a = key b → a = b)
    (hs : SortOf key l s) (ht : SortOf key l t) : s = t := by
  refine List.Perm.eq_of_pairwise ?_ hs.sorted ht.sorted (hs.perm.trans ht.perm.symm)
  intro a b ha hb hab hba
  exact hinj a (hs.perm.mem_iff.mp ha) b (ht.perm.mem_iff.mp hb) (le_antisymm hab hba)

theorem SortOf.of_perm {l l' s : List α} (h : SortOf key l s) (hl : l.Perm l') : SortOf key l' s :=
  ⟨h.perm.trans hl, h.sorted⟩

/-! ## Runs of equal keys -/

/-- In a list whose keys are non-decreasing and at least `a`, the leading run with key `a` holds all
    of them. -/
theorem leading_run_eq_filter (key : α → κ) {a : κ} {l : List α}
    (hs : l.Pairwise (fun x y => key x ≤ key y)) (ha : ∀ x ∈ l, a ≤ key x) :
    l.takeWhile (fun x => decide (key x = a)) = l.filter (fun x => decide (key x = a)) ∧
      l.dropWhile (fun x => decide (key x = a)) = l.filter (fun x => decide (key x ≠ a)) := by
  induction l with
  | nil => exact ⟨rfl, rfl⟩
  | cons x xs ih =>
    obtain ⟨hx, hxs⟩ := pairwise_cons.mp hs
    obtain ⟨hax, haxs⟩ := forall_mem_cons.mp ha
    by_cases hk : key x = a
    · obtain ⟨htake, hdrop⟩ := ih hxs haxs
      simp [hk, htake, hdrop]
    · have hlt : a < key x := lt_of_le_of_ne hax (Ne.symm hk)
      have hne : ∀ y ∈ x :: xs, key y ≠ a :=
        forall_mem_cons.mpr ⟨hk, fun y hy => (lt_of_lt_of_le hlt (hx y hy)).ne'⟩
      rw [filter_eq_nil_iff.mpr (by simpa using hne), filter_eq_self.mpr (by simpa using hne)]
      simp [hk]

/-! ## Scanning groups -/

/-- Apply `f` to each maximal run of equal group keys, left to right. `fuel` bounds the number of
    groups; the length of the list is enough. -/
def groupScan (key : α → κ) (f : List α → List α) : Nat → List α → List α
  | 0, _ => []
  | _ + 1, [] => []
  | fuel + 1, x :: xs =>
    f (x :: xs.takeWhile (fun y => decide (key y = key x))) ++
      groupScan key f fuel (xs.dropWhile (fun y => decide (key y = key x)))

/-- What a scan needs of its group function: it only selects from its group. -/
structure Selects (f : List α → List α) : Prop where
  nil : f [] = []
  sublist : ∀ g, f g <+ g

variable {f : List α → List α}

/-- Restricted to one group key, the scan of a sorted list is the group function on that key's
    elements. -/
theorem filter_groupScan (hf : Selects f) (k : κ) (fuel : Nat) (l : List α)
    (hlen : l.length ≤ fuel) (hs : l.Pairwise (fun x y => key x ≤ key y)) :
    (groupScan key f fuel l).filter (fun x => decide (key x = k)) =
      f (l.filter (fun x => decide (key x = k))) := by
  fun_induction groupScan key f fuel l with
  | case1 l =>
    rw [length_eq_zero_iff.mp (Nat.le_zero.mp hlen)]
    exact hf.nil.symm
  | case2 => exact hf.nil.symm
  | case3 fuel x xs ih =>
    obtain ⟨hx, hxs⟩ := pairwise_cons.mp hs
    obtain ⟨htake, hdrop⟩ := leading_run_eq_filter key hxs hx
    have hlen' : (xs.dropWhile (fun y => decide (key y = key x))).length ≤ fuel :=
      (dropWhile_sublist _).length_le.trans (Nat.le_of_succ_le_succ hlen)
    rw [filter_append, ih hlen' (hxs.sublist (dropWhile_sublist _)), hdrop, htake, filter_filter]
    by_cases hk : key x = k
    · -- the leading run is the whole group; the rest holds none of it
      subst hk
      have hrest : xs.filter (fun y => decide (key y = key x) && decide (key y ≠ key x)) = [] :=
        filter_eq_nil_iff.mpr (fun y _ => by simp)
      rw [hrest, hf.nil, append_nil, filter_cons_of_pos (by simp), filter_eq_self]
      intro y hy
      rcases mem_cons.mp ((hf.sublist _).subset hy) with rfl | hy
      · simp
      · exact (mem_filter.mp hy).2
    · have hrun : (f (x :: xs.filter (fun y => decide (key y = key x)))).filter
          (fun y => decide (key y = k)) = [] := by
        rw [filter_eq_nil_iff]
        intro y hy
        rcases mem_cons.mp ((hf.sublist _).subset hy) with rfl | hy
        · simpa using hk
        · rw [of_decide_eq_true (mem_filter.mp hy).2]
          simpa using hk
      rw [hrun, nil_append, filter_cons_of_neg (by simpa using hk)]
      congr 1
      refine filter_congr (fun y _ => ?_)
      by_cases hyk : key y = k
      · simp [hyk, Ne.symm hk]
      · simp [hyk]

end ProximaDb.Lib
