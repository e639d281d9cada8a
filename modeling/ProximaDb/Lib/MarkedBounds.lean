/-
  ProximaDb.Lib.MarkedBounds

  The smallest and the largest of a list, kept up value by value, when the pair of one value `z`
  with itself stands for bounds that are not set.
-/
import Mathlib

namespace ProximaDb.Lib

open List

variable {α : Type} [LinearOrder α]

def extendBounds (z : α) (bounds : α × α) (v : α) : α × α :=
  if bounds.1 = z ∧ bounds.2 = z then (v, v) else (min bounds.1 v, max bounds.2 v)

def markedBounds (z : α) (values : List α) : α × α := values.foldl (extendBounds z) (z, z)

/-- The values behind the copies of the mark at the front. -/
def afterMarks (z : α) (values : List α) : List α := values.dropWhile (fun v => decide (v = z))

/-- What bounds say of the values they were taken over. -/
structure Spans (bounds : α × α) (values : List α) : Prop where
  lower : ∀ v ∈ values, bounds.1 ≤ v
  upper : ∀ v ∈ values, v ≤ bounds.2
  lower_mem : bounds.1 ∈ values
  upper_mem : bounds.2 ∈ values

variable {z : α} {bounds : α × α} {values : List α}

theorem Spans.singleton (v : α) : Spans (v, v) [v] where
  lower x hx := by rw [mem_singleton.1 hx]
  upper x hx := by rw [mem_singleton.1 hx]
  lower_mem := mem_singleton_self v
  upper_mem := mem_singleton_self v

theorem Spans.concat (h : Spans bounds values) (v : α) :
    Spans (min bounds.1 v, max bounds.2 v) (values ++ [v]) where
  lower x hx := by
    rcases mem_append.1 hx with hx | hx
    · exact le_trans (min_le_left _ _) (h.lower x hx)
    · rw [mem_singleton.1 hx]
      exact min_le_right _ _
  upper x hx := by
    rcases mem_append.1 hx with hx | hx
    · exact le_trans (h.upper x hx) (le_max_left _ _)
    · rw [mem_singleton.1 hx]
      exact le_max_right _ _
  lower_mem := by
    rcases min_choice bounds.1 v with hmin | hmin <;> rw [hmin]
    · exact mem_append_left _ h.lower_mem
    · exact mem_append_right _ (mem_singleton_self v)
  upper_mem := by
    rcases max_choice bounds.2 v with hmax | hmax <;> rw [hmax]
    · exact mem_append_left _ h.upper_mem
    · exact mem_append_right _ (mem_singleton_self v)

theorem Spans.ne_mark (h : Spans bounds values) (hz : ∃ v ∈ values, v ≠ z) :
    ¬(bounds.1 = z ∧ bounds.2 = z) := by
  rintro ⟨hlow, hhigh⟩
  obtain ⟨v, hv, hne⟩ := hz
  exact hne (le_antisymm (hhigh ▸ h.upper v hv) (hlow ▸ h.lower v hv))

theorem Spans.foldl (h : Spans bounds values) (hz : ∃ v ∈ values, v ≠ z) (rest : List α) :
    Spans (rest.foldl (extendBounds z) bounds) (values ++ rest) := by
  induction rest generalizing bounds values with
  | nil =>
    rw [append_nil]
    exact h
  | cons v rest ih =>
    have hstep : extendBounds z bounds v = (min bounds.1 v, max bounds.2 v) := if_neg (h.ne_mark hz)
    obtain ⟨x, hx, hne⟩ := hz
    rw [foldl_cons, hstep, append_cons]
    exact ih (h.concat v) ⟨x, mem_append_left _ hx, hne⟩

theorem markedBounds_afterMarks (z : α) (values : List α) :
    markedBounds z (afterMarks z values) = markedBounds z values := by
  induction values with
  | nil => rfl
  | cons v rest ih =>
    by_cases hv : v = z
    · subst hv
      have hskip : afterMarks v (v :: rest) = afterMarks v rest := by simp [afterMarks]
      rw [hskip, ih, markedBounds, markedBounds, foldl_cons, extendBounds, if_pos ⟨rfl, rfl⟩]
    · simp [afterMarks, hv]

theorem spans_markedBounds (h : afterMarks z values ≠ []) :
    Spans (markedBounds z values) (afterMarks z values) := by
  rw [← markedBounds_afterMarks]
  have hhead := List.head?_dropWhile_not (fun v => decide (v = z)) values
  cases hrest : afterMarks z values with
  | nil => exact absurd hrest h
  | cons v rest =>
    rw [afterMarks] at hrest
    rw [hrest] at hhead
    have hv : v ≠ z := by simpa using hhead
    have hfirst : extendBounds z (z, z) v = (v, v) := if_pos ⟨rfl, rfl⟩
    rw [markedBounds, foldl_cons, hfirst]
    exact (Spans.singleton v).foldl ⟨v, mem_singleton_self v, hv⟩ rest

theorem mem_afterMarks {v : α} (hv : v ∈ values) (hne : v ≠ z) : v ∈ afterMarks z values := by
  have hsplit := takeWhile_append_dropWhile (p := fun v => decide (v = z)) (l := values)
  rw [← hsplit] at hv
  rcases mem_append.1 hv with hv | hv
  · have hmark := mem_takeWhile_imp hv
    exact absurd (of_decide_eq_true hmark) hne
  · exact hv

theorem mem_of_mem_afterMarks {v : α} (hv : v ∈ afterMarks z values) : v ∈ values :=
  (dropWhile_sublist _).subset hv

theorem markedBounds_of_afterMarks_eq_nil (h : afterMarks z values = []) :
    markedBounds z values = (z, z) := by
  rw [← markedBounds_afterMarks, h]
  rfl

theorem within_markedBounds {v : α} (hv : v ∈ values) (hne : v ≠ z) :
    (markedBounds z values).1 ≤ v ∧ v ≤ (markedBounds z values).2 := by
  have hmem := mem_afterMarks hv hne
  have hspans := spans_markedBounds (ne_nil_of_mem hmem)
  exact ⟨hspans.lower v hmem, hspans.upper v hmem⟩

/-- When the mark itself is: nothing else came, or it is between two values that did. -/
theorem mark_within_markedBounds_iff :
    (markedBounds z values).1 ≤ z ∧ z ≤ (markedBounds z values).2 ↔
      afterMarks z values = [] ∨
        (∃ v ∈ afterMarks z values, v ≤ z) ∧ ∃ v ∈ afterMarks z values, z ≤ v := by
  by_cases hnil : afterMarks z values = []
  · simp [markedBounds_of_afterMarks_eq_nil hnil, hnil]
  · have hspans := spans_markedBounds hnil
    constructor
    · rintro ⟨hlow, hhigh⟩
      exact Or.inr ⟨⟨_, hspans.lower_mem, hlow⟩, ⟨_, hspans.upper_mem, hhigh⟩⟩
    · rintro (h | ⟨⟨v, hv, hlow⟩, ⟨w, hw, hhigh⟩⟩)
      · exact absurd h hnil
      · exact ⟨le_trans (hspans.lower v hv) hlow, le_trans hhigh (hspans.upper w hw)⟩

/-- All values are within the bounds, unless the mark is in front and the rest on one side. -/
theorem forall_within_markedBounds_iff :
    (∀ v ∈ values, (markedBounds z values).1 ≤ v ∧ v ≤ (markedBounds z values).2) ↔
      (values.head? = some z → afterMarks z values = [] ∨
        (∃ v ∈ afterMarks z values, v ≤ z) ∧ ∃ v ∈ afterMarks z values, z ≤ v) := by
  constructor
  · intro h hhead
    exact mark_within_markedBounds_iff.1 (h z (mem_of_mem_head? hhead))
  · intro h v hv
    by_cases hne : v = z
    · subst hne
      by_cases hafter : v ∈ afterMarks v values
      · exact mark_within_markedBounds_iff.2 (Or.inr ⟨⟨v, hafter, le_rfl⟩, ⟨v, hafter, le_rfl⟩⟩)
      · refine mark_within_markedBounds_iff.2 (h ?_)
        cases values with
        | nil => exact absurd hv not_mem_nil
        | cons first rest =>
          by_cases hfirst : first = v
          · rw [hfirst]
            rfl
          · have hkeep : afterMarks v (first :: rest) = first :: rest := by
              simp [afterMarks, hfirst]
            rw [hkeep] at hafter
            exact absurd hv hafter
    · exact within_markedBounds hv hne

theorem snd_markedBounds_mem (h : (markedBounds z values).2 ≠ z) :
    (markedBounds z values).2 ∈ values := by
  by_cases hnil : afterMarks z values = []
  · exact absurd (by rw [markedBounds_of_afterMarks_eq_nil hnil]) h
  · exact mem_of_mem_afterMarks (spans_markedBounds hnil).upper_mem

theorem fst_markedBounds_mem (h : (markedBounds z values).1 ≠ z) :
    (markedBounds z values).1 ∈ values := by
  by_cases hnil : afterMarks z values = []
  · exact absurd (by rw [markedBounds_of_afterMarks_eq_nil hnil]) h
  · exact mem_of_mem_afterMarks (spans_markedBounds hnil).lower_mem

end ProximaDb.Lib
