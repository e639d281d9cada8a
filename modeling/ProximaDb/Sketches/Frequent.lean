/-
  ProximaDb.Sketches.Frequent

  The sketch of the heavy hitters. It tracks a bounded number of items; a new one takes the place
  of one with the least count, which becomes its error. A merge replays the counts of the other
  sketch without their errors.
-/
import Mathlib

namespace ProximaDb.Sketches

open List

structure FrequentItem where
  item : String
  count : Nat
  error : Nat
deriving DecidableEq

/-- The sketch, with the entries of its map in the order of an iteration. -/
structure FrequentItems where
  capacity : Nat
  counts : List FrequentItem

namespace FrequentItems

def new (capacity : Nat) : FrequentItems := ⟨max capacity 1, []⟩

def saturatingAdd (count weight : Nat) : Nat := min (count + weight) (2 ^ 64 - 1)

def add (s : FrequentItems) (item : String) (weight : Nat) : FrequentItems :=
  if weight = 0 then s
  else match s.counts.find? (fun f => f.item = item) with
    | some f =>
      { s with counts := { f with count := saturatingAdd f.count weight } :: s.counts.erase f }
    | none =>
      if s.counts.length < s.capacity then { s with counts := ⟨item, weight, 0⟩ :: s.counts }
      else match s.counts.argmin FrequentItem.count with
        | some f => { s with
            counts := ⟨item, saturatingAdd f.count weight, f.count⟩ :: s.counts.erase f }
        | none => s

structure Bounds (s : FrequentItems) (l : Multiset String) : Prop where
  length : s.counts.length ≤ s.capacity
  occurs : ∀ f ∈ s.counts, f.count - f.error ≤ l.count f.item ∧ l.count f.item ≤ f.count
  heavy : ∀ x, l.card / s.capacity < l.count x → ∃ f ∈ s.counts, f.item = x

/-- The occurrences that a list of counts stands for. -/
def listed (items : List (String × Nat)) : Multiset String :=
  (items.map (fun p => Multiset.replicate p.2 p.1)).sum

/-- The invariant: an item that is not tracked gave its place to others with counts at least as high
    as its own. -/
structure Tracks (s : FrequentItems) (l : Multiset String) : Prop where
  positive : 0 < s.capacity
  nodup : (s.counts.map FrequentItem.item).Nodup
  length : s.counts.length ≤ s.capacity
  total : (s.counts.map FrequentItem.count).sum = l.card
  entry : ∀ f ∈ s.counts, l.count f.item ≤ f.count ∧ f.count ≤ l.count f.item + f.error
  untracked : ∀ x ∈ l, x ∉ s.counts.map FrequentItem.item →
    s.counts.length = s.capacity ∧ ∀ f ∈ s.counts, l.count x ≤ f.count

variable {s t : FrequentItems} {l : Multiset String} {item : String} {c e weight cap : Nat}
  {rest counts : List FrequentItem}

theorem Tracks.perm (h : Tracks s l) (hperm : s.counts ~ counts) :
    Tracks ⟨s.capacity, counts⟩ l where
  positive := h.positive
  nodup := (hperm.map _).nodup_iff.1 h.nodup
  length := hperm.length_eq ▸ h.length
  total := (hperm.map _).sum_eq.symm.trans h.total
  entry f hf := h.entry f (hperm.mem_iff.2 hf)
  untracked x hx hnot := by
    obtain ⟨hfull, hle⟩ := h.untracked x hx (fun hmem => hnot ((hperm.map _).mem_iff.1 hmem))
    exact ⟨hperm.length_eq ▸ hfull, fun f hf => hle f (hperm.mem_iff.2 hf)⟩

/-- The item moves to a place whose last count is `c`, its own or that of the item it replaces. -/
theorem tracks_cons (hnodup : (item :: rest.map FrequentItem.item).Nodup)
    (hlength : rest.length < cap) (htotal : c + (rest.map FrequentItem.count).sum = l.card)
    (hrest : ∀ f ∈ rest, l.count f.item ≤ f.count ∧ f.count ≤ l.count f.item + f.error)
    (hitem : l.count item ≤ c ∧ c ≤ l.count item + e)
    (huntracked : ∀ x ∈ l, x ≠ item → x ∉ rest.map FrequentItem.item →
      rest.length + 1 = cap ∧ l.count x ≤ c ∧ ∀ f ∈ rest, l.count x ≤ f.count)
    (hbound : l.card + weight < 2 ^ 64) :
    Tracks ⟨cap, ⟨item, saturatingAdd c weight, e⟩ :: rest⟩
      (l + Multiset.replicate weight item) := by
  have hsum : saturatingAdd c weight = c + weight := min_eq_left (by omega)
  have hcount : ∀ x ≠ item, (l + Multiset.replicate weight item).count x = l.count x := by
    intro x hx
    simp [Multiset.count_replicate, Ne.symm hx]
  rw [hsum]
  refine ⟨Nat.zero_lt_of_lt hlength, hnodup, hlength, ?_, ?_, ?_⟩
  · simp only [map_cons, sum_cons, Multiset.card_add, Multiset.card_replicate]
    omega
  · intro f hf
    rcases mem_cons.1 hf with rfl | hf
    · simp only [Multiset.count_add, Multiset.count_replicate_self]
      omega
    · have hne : f.item ≠ item := fun heq =>
        (nodup_cons.1 hnodup).1 (heq ▸ mem_map_of_mem hf)
      rw [hcount _ hne]
      exact hrest f hf
  · intro x hx hnot
    obtain ⟨hne, hnot⟩ := not_or.1 (mem_cons.not.1 hnot)
    have hmem : x ∈ l := (Multiset.mem_add.1 hx).resolve_right
      (fun h => hne (Multiset.eq_of_mem_replicate h))
    obtain ⟨hfull, hle, hall⟩ := huntracked x hmem hne hnot
    rw [hcount x hne]
    refine ⟨hfull, fun f hf => ?_⟩
    rcases mem_cons.1 hf with rfl | hf
    · exact Nat.le_add_right_of_le hle
    · exact hall f hf

section Add

variable {f : FrequentItem} (h : Tracks s l) (hbound : l.card + weight < 2 ^ 64)

include h hbound

theorem Tracks.raise (hf : f ∈ s.counts) :
    Tracks ⟨s.capacity, ⟨f.item, saturatingAdd f.count weight, f.error⟩ :: s.counts.erase f⟩
      (l + Multiset.replicate weight f.item) := by
  have h' := h.perm (perm_cons_erase hf)
  refine tracks_cons h'.nodup h'.length (by simpa using h'.total)
    (fun g hg => h'.entry g (mem_cons_of_mem _ hg)) (h'.entry f mem_cons_self) ?_ hbound
  intro x hx hne hnot
  obtain ⟨hfull, hle⟩ := h'.untracked x hx (not_mem_cons_of_ne_of_not_mem hne hnot)
  exact ⟨hfull, forall_mem_cons.1 hle⟩

variable (hnew : item ∉ s.counts.map FrequentItem.item)

include hnew

/-- As long as there is room, every item that occurred is tracked. -/
theorem Tracks.newItem (hroom : s.counts.length < s.capacity) :
    Tracks ⟨s.capacity, ⟨item, weight, 0⟩ :: s.counts⟩ (l + Multiset.replicate weight item) := by
  have hall : ∀ x ∈ l, x ∈ s.counts.map FrequentItem.item := by
    intro x hx
    by_contra hnot
    exact absurd (h.untracked x hx hnot).1 hroom.ne
  have hzero : l.count item = 0 := Multiset.count_eq_zero.2 (fun hmem => hnew (hall item hmem))
  have h0 := @tracks_cons l item 0 0 weight s.capacity s.counts (nodup_cons.2 ⟨hnew, h.nodup⟩)
    hroom (by simpa using h.total) h.entry (by omega)
    (fun x hx _ hnot => absurd (hall x hx) hnot) hbound
  rwa [saturatingAdd, Nat.zero_add, min_eq_left (by omega)] at h0

/-- The item with the least count gives its place, and its count is the error of the new one. -/
theorem Tracks.replace (hfull : s.counts.length = s.capacity)
    (hf : f ∈ s.counts.argmin FrequentItem.count) :
    Tracks ⟨s.capacity, ⟨item, saturatingAdd f.count weight, f.count⟩ :: s.counts.erase f⟩
      (l + Multiset.replicate weight item) := by
  have hperm := perm_cons_erase (argmin_mem hf)
  have h' := h.perm hperm
  have hmin : ∀ g ∈ s.counts.erase f, f.count ≤ g.count :=
    fun g hg => le_of_mem_argmin (mem_of_mem_erase hg) hf
  have hle : l.count item ≤ f.count := by
    by_cases hmem : item ∈ l
    · exact (h.untracked item hmem hnew).2 f (argmin_mem hf)
    · simp [Multiset.count_eq_zero.2 hmem]
  refine tracks_cons (nodup_cons.2 ⟨?_, (nodup_cons.1 h'.nodup).2⟩) h'.length
    (by simpa using h'.total) (fun g hg => h'.entry g (mem_cons_of_mem _ hg))
    ⟨hle, Nat.le_add_left ..⟩ (fun x hx _ hnot => ?_) hbound
  · exact fun hmem => hnew ((hperm.map _).mem_iff.2 (mem_cons_of_mem _ hmem))
  · refine ⟨hperm.length_eq.symm.trans hfull, ?_⟩
    by_cases hx' : x = f.item
    · have hcount : l.count x ≤ f.count := hx' ▸ (h'.entry f mem_cons_self).1
      exact ⟨hcount, fun g hg => hcount.trans (hmin g hg)⟩
    · exact forall_mem_cons.1 (h'.untracked x hx (not_mem_cons_of_ne_of_not_mem hx' hnot)).2

end Add

theorem Tracks.add (h : Tracks s l) (hbound : l.card + weight < 2 ^ 64) :
    Tracks (s.add item weight) (l + Multiset.replicate weight item) := by
  unfold FrequentItems.add
  by_cases hw : weight = 0
  · simpa [hw] using h
  rw [if_neg hw]
  split
  case h_1 f hf =>
    obtain rfl : f.item = item := by simpa using find?_some hf
    exact h.raise hbound (mem_of_find?_eq_some hf)
  case h_2 hf =>
    have hnew : item ∉ s.counts.map FrequentItem.item := by simpa using hf
    split_ifs with hroom
    · exact h.newItem hbound hnew hroom
    · have hfull : s.counts.length = s.capacity := le_antisymm h.length (not_lt.1 hroom)
      split
      case h_1 f hf => exact h.replace hbound hnew hfull hf
      case h_2 hf =>
        rw [argmin_eq_none.1 hf] at hfull
        exact absurd h.positive hfull.not_lt

theorem Tracks.bounds (h : Tracks s l) : Bounds s l where
  length := h.length
  occurs f hf := ⟨Nat.sub_le_iff_le_add.2 (h.entry f hf).2, (h.entry f hf).1⟩
  heavy x hx := by
    by_contra hnot
    obtain ⟨hfull, hle⟩ := h.untracked x (Multiset.count_pos.1 (Nat.zero_lt_of_lt hx))
      (by simpa using hnot)
    -- all the counts are at least that of the item, and they add up to the occurrences
    have hsum := card_nsmul_le_sum (s.counts.map FrequentItem.count) (l.count x) (by simpa using hle)
    rw [length_map, hfull, h.total, smul_eq_mul] at hsum
    exact absurd ((Nat.div_lt_iff_lt_mul h.positive).1 hx) (by rw [mul_comm]; exact hsum.not_gt)

end FrequentItems

end ProximaDb.Sketches
