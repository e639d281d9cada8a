/-
  ProximaDb.Lib.Pages

  Reading a sorted list page by page, each page starting after the key of the last element of the
  page before. Elements whose key equals the cursor are skipped, so the pages make up the list
  exactly if no page ends between two elements of one key.
-/
import Mathlib

namespace ProximaDb.Lib

open List

variable {α κ : Type} [LinearOrder κ]

/-- The elements with a key after the cursor. -/
def following (key : α → κ) (l : List α) (after : Option κ) : List α :=
  l.filter (fun a => after.all (fun c => decide (c < key a)))

/-- Fetch pages until one is empty; `none` when the fuel does not last. -/
def readPages (key : α → κ) (fetch : Option κ → List α) : Nat → Option κ → Option (List (List α))
  | 0, _ => none
  | fuel + 1, after =>
    match (fetch after).getLast? with
    | none => some []
    | some a => (readPages key fetch fuel (some (key a))).map (fun rest => fetch after :: rest)

/-- No page of `limit` elements ends between two elements of one key. -/
def CutsBetweenKeys (key : α → κ) (limit : Nat) (l : List α) : Prop :=
  ∀ k a b, l[(k + 1) * limit - 1]? = some a → l[(k + 1) * limit]? = some b → key a < key b

variable {key : α → κ} {limit : Nat} {l : List α} {last : α}

theorem following_none (key : α → κ) (l : List α) : following key l none = l := by
  simp [following]

theorem cutsBetweenKeys_of_length_le (h : l.length ≤ limit) : CutsBetweenKeys key limit l := by
  intro k a b _ hb
  obtain ⟨hlt, -⟩ := List.getElem?_eq_some_iff.1 hb
  have : limit ≤ (k + 1) * limit := Nat.le_mul_of_pos_left _ (Nat.succ_pos k)
  omega

/-- The cuts of a list are its first cut and the cuts of what follows the first page. -/
theorem cutsBetweenKeys_iff (hlimit : 0 < limit) : CutsBetweenKeys key limit l ↔
      (∀ a b, l[limit - 1]? = some a → l[limit]? = some b → key a < key b) ∧
        CutsBetweenKeys key limit (l.drop limit) := by
  have hnext : ∀ k, (k + 1 + 1) * limit - 1 = limit + ((k + 1) * limit - 1) ∧
      (k + 1 + 1) * limit = limit + (k + 1) * limit := by
    intro k
    have : limit ≤ (k + 1) * limit := Nat.le_mul_of_pos_left _ (Nat.succ_pos k)
    have hsucc : (k + 1 + 1) * limit = (k + 1) * limit + limit := Nat.succ_mul _ _
    omega
  constructor
  · intro h
    refine ⟨fun a b ha hb => h 0 a b (by simpa using ha) (by simpa using hb), fun k a b ha hb => ?_⟩
    rw [List.getElem?_drop] at ha hb
    exact h (k + 1) a b (by rw [(hnext k).1]; exact ha) (by rw [(hnext k).2]; exact hb)
  · rintro ⟨hfirst, hrest⟩ k a b ha hb
    cases k with
    | zero => exact hfirst a b (by simpa using ha) (by simpa using hb)
    | succ k =>
      rw [(hnext k).1] at ha
      rw [(hnext k).2] at hb
      refine hrest k a b ?_ ?_
      · rw [List.getElem?_drop]
        exact ha
      · rw [List.getElem?_drop]
        exact hb

/-! ## One page -/

theorem filter_lt_last (hsorted : l.Pairwise (fun a b => key a ≤ key b))
    (hlast : (l.take limit).getLast? = some last) : l.filter (fun a => decide (key last < key a)) =
      (l.drop limit).filter (fun a => decide (key last < key a)) := by
  have hnone : (l.take limit).filter (fun a => decide (key last < key a)) = [] := by
    refine filter_eq_nil_iff.2 (fun a ha => ?_)
    obtain ⟨front, hfront⟩ := List.getLast?_eq_some_iff.1 hlast
    have hpage := hsorted.sublist (take_sublist limit l)
    rw [hfront] at ha hpage
    rcases mem_append.1 ha with ha | ha
    · have := (pairwise_append.1 hpage).2.2 a ha last (by simp)
      simpa using this
    · simp [mem_singleton.1 ha]
  nth_rewrite 1 [← take_append_drop limit l]
  rw [filter_append, hnone, nil_append]

theorem filter_drop_eq_iff (hlimit : 0 < limit) (hsorted : l.Pairwise (fun a b => key a ≤ key b))
    (hlast : (l.take limit).getLast? = some last) :
    (l.drop limit).filter (fun a => decide (key last < key a)) = l.drop limit ↔
      ∀ a b, l[limit - 1]? = some a → l[limit]? = some b → key a < key b := by
  rw [filter_eq_self]
  rcases Nat.lt_or_ge limit l.length with hlen | hlen
  · -- a further element: the last one of the page is the one before it
    have hat : l[limit - 1]? = some last := by
      rw [List.getLast?_eq_getElem?, length_take, Nat.min_eq_left (by omega),
        List.getElem?_take, if_pos (by omega)] at hlast
      exact hlast
    have hdrop : l.drop limit = l[limit] :: l.drop (limit + 1) := drop_eq_getElem_cons hlen
    constructor
    · intro hall a b ha hb
      rw [hat] at ha
      cases ha
      have hmem : b ∈ l.drop limit := by
        rw [List.getElem?_eq_getElem hlen] at hb
        cases hb
        rw [hdrop]
        exact mem_cons_self
      simpa using hall b hmem
    · intro hcut a ha
      have hnext := hcut last l[limit] hat (List.getElem?_eq_getElem hlen)
      have htail := hsorted.sublist (drop_sublist limit l)
      rw [hdrop] at ha htail
      rcases mem_cons.1 ha with rfl | ha
      · simpa using hnext
      · have := rel_of_pairwise_cons htail ha
        simpa using hnext.trans_le this
  · have hnil : l.drop limit = [] := drop_eq_nil_of_le hlen
    constructor
    · intro _ a b _ hb
      rw [List.getElem?_eq_none hlen] at hb
      cases hb
    · intro _ a ha
      rw [hnil] at ha
      cases ha

/-! ## All pages -/

section Reading

variable {fetch : Option κ → List α}
  (hfetch : ∀ after, fetch after = (following key l after).take limit)
  (hsorted : l.Pairwise (fun a b => key a ≤ key b)) (hlimit : 0 < limit)
include hfetch hsorted hlimit

variable {after : Option κ} {fuel : Nat}

omit hfetch hlimit in
theorem following_last (hlast : ((following key l after).take limit).getLast? = some last) :
    following key l (some (key last)) =
      ((following key l after).drop limit).filter (fun a => decide (key last < key a)) := by
  have hmem : last ∈ following key l after := mem_of_mem_take (mem_of_getLast? hlast)
  have hafter := (mem_filter.1 hmem).2
  have hrest : following key l (some (key last)) =
      (following key l after).filter (fun a => decide (key last < key a)) := by
    unfold following
    rw [filter_filter]
    refine filter_congr (fun a _ => ?_)
    cases after with
    | none => simp
    | some c =>
      simp only [Option.all_some, decide_eq_true_eq] at hafter
      by_cases ha : key last < key a
      · simp [ha, hafter.trans ha]
      · simp [ha]
  rw [hrest]
  exact filter_lt_last (hsorted.sublist filter_sublist) hlast

theorem exists_readPages (hfuel : (following key l after).length < fuel) :
    ∃ pages, readPages key fetch fuel after = some pages := by
  fun_induction readPages key fetch fuel after with
  | case1 => omega
  | case2 => exact ⟨[], rfl⟩
  | case3 fuel after last hlast ih =>
    rw [hfetch] at hlast
    have hpos : 0 < (following key l after).length :=
      length_pos_of_mem (mem_of_mem_take (mem_of_getLast? hlast))
    have hshort : (following key l (some (key last))).length < fuel := by
      rw [following_last hsorted hlast]
      have hle := length_filter_le (fun a => decide (key last < key a))
        ((following key l after).drop limit)
      rw [length_drop] at hle
      omega
    obtain ⟨rest, hrest⟩ := ih hshort
    exact ⟨fetch after :: rest, by simp only [hrest, Option.map_some]⟩

/-- What the pages contain: a part of what follows the cursor, and all of it exactly if every cut is
    between two keys. -/
theorem flatten_readPages {pages : List (List α)}
    (h : readPages key fetch fuel after = some pages) :
    pages.flatten.Sublist (following key l after) ∧
      (pages.flatten = following key l after ↔
        CutsBetweenKeys key limit (following key l after)) := by
  fun_induction readPages key fetch fuel after generalizing pages with
  | case1 => cases h
  | case2 fuel after hlast =>
    -- an empty page, and the limit is positive: nothing follows
    cases h
    rw [List.getLast?_eq_none_iff, hfetch, take_eq_nil_iff] at hlast
    have hnil : following key l after = [] := hlast.resolve_left (by omega)
    rw [hnil]
    refine ⟨List.Sublist.refl _, iff_of_true rfl ?_⟩
    exact cutsBetweenKeys_of_length_le (Nat.zero_le _)
  | case3 fuel after last hlast ih =>
    obtain ⟨rest, hrest, rfl⟩ := Option.map_eq_some_iff.1 h
    rw [hfetch] at hlast ⊢
    obtain ⟨hsub, hiff⟩ := ih hrest
    have hstand := following_last hsorted hlast
    have hfollow : (following key l after).Pairwise (fun a b => key a ≤ key b) :=
      hsorted.sublist filter_sublist
    have hskip := filter_drop_eq_iff hlimit hfollow hlast
    rw [hstand] at hsub hiff
    have hdrop := hsub.trans filter_sublist
    have hall : (List.take limit (following key l after) :: rest).flatten =
        (following key l after).take limit ++ rest.flatten := rfl
    rw [hall]
    have hsplit := take_append_drop limit (following key l after)
    constructor
    · conv_rhs => rw [← hsplit]
      exact List.Sublist.append (List.Sublist.refl _) hdrop
    · rw [cutsBetweenKeys_iff hlimit, ← hskip]
      constructor
      · intro heq
        have hrestEq : rest.flatten = (following key l after).drop limit := by
          conv_rhs at heq => rw [← hsplit]
          exact append_cancel_left heq
        have hfull : ((following key l after).drop limit).filter
            (fun a => decide (key last < key a)) = (following key l after).drop limit := by
          have hlen := hsub.length_le
          rw [hrestEq] at hlen
          exact filter_sublist.eq_of_length_le hlen
        rw [hfull] at hiff
        exact ⟨hfull, hiff.1 hrestEq⟩
      · rintro ⟨hfull, hcuts⟩
        rw [hfull] at hiff
        rw [hiff.2 hcuts, hsplit]

end Reading

end ProximaDb.Lib
