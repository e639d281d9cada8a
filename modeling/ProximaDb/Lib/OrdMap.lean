/-
  ProximaDb.Lib.OrdMap

  Maps kept as their entries in key order (`BTreeMap`). The order is a field of the map, so every
  traversal is one in ascending keys; membership of an entry says everything about a lookup
  (`get?_eq_some`), and `mem_insert` and `mem_erase` are the rules for updates.
-/
import Mathlib

namespace ProximaDb.Lib

open List

structure OrdMap (κ ν : Type) [LinearOrder κ] where
  entries : List (κ × ν)
  sorted : entries.Pairwise (fun a b => a.1 < b.1)

namespace OrdMap

variable {κ ν μ : Type} [LinearOrder κ]

instance : EmptyCollection (OrdMap κ ν) := ⟨⟨[], List.Pairwise.nil⟩⟩

def get? (m : OrdMap κ ν) (k : κ) : Option ν :=
  (m.entries.find? (fun e => decide (e.1 = k))).map Prod.snd

/-! ## Insertion -/

/-- Put an entry in its place, over one with the same key. -/
def insertEntry (k : κ) (v : ν) : List (κ × ν) → List (κ × ν)
  | [] => [(k, v)]
  | e :: rest =>
    if k < e.1 then (k, v) :: e :: rest
    else if k = e.1 then (k, v) :: rest
    else e :: insertEntry k v rest

variable {k : κ} {l : List (κ × ν)} {e : κ × ν} {v : ν}

theorem mem_insertEntry (hl : l.Pairwise (fun a b => a.1 < b.1)) :
    e ∈ insertEntry k v l ↔ e = (k, v) ∨ (e ∈ l ∧ e.1 ≠ k) := by
  fun_induction insertEntry k v l with
  | case1 => simp
  | case2 d rest hlt =>
    -- everything in the list is above the key
    have hne : ∀ a ∈ d :: rest, a.1 ≠ k := forall_mem_cons.2
      ⟨ne_of_gt hlt, fun a ha => ne_of_gt (lt_trans hlt ((pairwise_cons.1 hl).1 a ha))⟩
    rw [mem_cons]
    exact or_congr_right ⟨fun h => ⟨h, hne e h⟩, And.left⟩
  | case3 d rest _ heq =>
    have hne : ∀ a ∈ rest, a.1 ≠ k := fun a ha => heq ▸ ne_of_gt ((pairwise_cons.1 hl).1 a ha)
    rw [mem_cons, mem_cons]
    refine or_congr_right ⟨fun h => ⟨.inr h, hne e h⟩, ?_⟩
    rintro ⟨rfl | hmem, hek⟩
    · exact absurd heq.symm hek
    · exact hmem
  | case4 d rest _ heq ih =>
    rw [mem_cons, ih (pairwise_cons.1 hl).2, mem_cons]
    constructor
    · rintro (rfl | rfl | ⟨hmem, hek⟩)
      · exact .inr ⟨.inl rfl, Ne.symm heq⟩
      · exact .inl rfl
      · exact .inr ⟨.inr hmem, hek⟩
    · rintro (rfl | ⟨rfl | hmem, hek⟩)
      · exact .inr (.inl rfl)
      · exact .inl rfl
      · exact .inr (.inr ⟨hmem, hek⟩)

theorem sorted_insertEntry (k : κ) (v : ν) (h : l.Pairwise (fun a b => a.1 < b.1)) :
    (insertEntry k v l).Pairwise (fun a b => a.1 < b.1) := by
  fun_induction insertEntry k v l with
  | case1 => exact pairwise_singleton _ _
  | case2 d rest hlt =>
    exact pairwise_cons.2 ⟨forall_mem_cons.2
      ⟨hlt, fun e he => lt_trans hlt ((pairwise_cons.1 h).1 e he)⟩, h⟩
  | case3 d rest _ heq => exact heq ▸ pairwise_cons.2 (pairwise_cons.1 h)
  | case4 d rest hlt heq ih =>
    obtain ⟨hd, hrest⟩ := pairwise_cons.1 h
    refine pairwise_cons.2 ⟨fun e he => ?_, ih hrest⟩
    rcases (mem_insertEntry hrest).1 he with rfl | ⟨hmem, -⟩
    · exact lt_of_le_of_ne (not_lt.1 hlt) (Ne.symm heq)
    · exact hd e hmem

theorem length_insertEntry (v : ν) (h : ∀ e ∈ l, e.1 ≠ k) :
    (insertEntry k v l).length = l.length + 1 := by
  fun_induction insertEntry k v l with
  | case1 | case2 => rfl
  | case3 d rest _ heq => exact absurd heq.symm (h d mem_cons_self)
  | case4 d rest _ _ ih =>
    rw [length_cons, length_cons, ih (fun e he => h e (mem_cons_of_mem _ he))]

def insert (m : OrdMap κ ν) (k : κ) (v : ν) : OrdMap κ ν :=
  ⟨insertEntry k v m.entries, sorted_insertEntry k v m.sorted⟩

def erase (m : OrdMap κ ν) (k : κ) : OrdMap κ ν :=
  ⟨m.entries.filter (fun e => decide (e.1 ≠ k)), m.sorted.filter _⟩

def map (f : κ → ν → μ) (m : OrdMap κ ν) : OrdMap κ μ :=
  ⟨m.entries.map (fun e => (e.1, f e.1 e.2)), List.pairwise_map.2 m.sorted⟩

/-! ## Entries and lookups -/

variable {m : OrdMap κ ν}

theorem mem_unique {v v' : ν} (h : (k, v) ∈ m.entries) (h' : (k, v') ∈ m.entries) : v = v' := by
  by_contra hne
  have hpair : (k, v) ≠ (k, v') := fun heq => hne (Prod.mk.inj heq).2
  have hkeys : m.entries.Pairwise (fun a b => a.1 ≠ b.1) := m.sorted.imp (fun hab => ne_of_lt hab)
  have : Std.Symm (fun a b : κ × ν => a.1 ≠ b.1) := ⟨fun _ _ hab => hab.symm⟩
  exact hkeys.forall h h' hpair rfl

theorem get?_eq_some : m.get? k = some v ↔ (k, v) ∈ m.entries := by
  unfold get?
  constructor
  · intro h
    obtain ⟨⟨k', v'⟩, hfind, hv⟩ := Option.map_eq_some_iff.1 h
    have hkey : k' = k := by simpa using find?_some hfind
    subst hkey hv
    exact mem_of_find?_eq_some hfind
  · intro h
    cases hfind : m.entries.find? (fun e => decide (e.1 = k)) with
    | none =>
      have := find?_eq_none.1 hfind _ h
      simp at this
    | some e =>
      obtain ⟨k', v'⟩ := e
      have hkey : k' = k := by simpa using find?_some hfind
      subst hkey
      have hv := mem_unique h (mem_of_find?_eq_some hfind)
      rw [hv]
      rfl

theorem mem_insert : e ∈ (m.insert k v).entries ↔ e = (k, v) ∨ (e ∈ m.entries ∧ e.1 ≠ k) :=
  mem_insertEntry m.sorted

theorem get?_insert (m : OrdMap κ ν) (k : κ) (v : ν) (k' : κ) :
    (m.insert k v).get? k' = if k' = k then some v else m.get? k' := by
  split_ifs with hk
  · exact get?_eq_some.2 (mem_insert.2 (.inl (by rw [hk])))
  · refine Option.ext (fun u => ?_)
    rw [get?_eq_some, get?_eq_some, mem_insert]
    constructor
    · rintro (heq | ⟨hmem, -⟩)
      · exact absurd (Prod.mk.inj heq).1 hk
      · exact hmem
    · exact fun hmem => .inr ⟨hmem, hk⟩

theorem mem_erase : e ∈ (m.erase k).entries ↔ e ∈ m.entries ∧ e.1 ≠ k := by
  simp [erase]

theorem get?_erase (m : OrdMap κ ν) (k k' : κ) :
    (m.erase k).get? k' = if k' = k then none else m.get? k' := by
  refine Option.ext (fun u => ?_)
  split_ifs with hk
  · rw [get?_eq_some, mem_erase]
    exact ⟨fun h => absurd hk h.2, nofun⟩
  · rw [get?_eq_some, get?_eq_some, mem_erase]
    exact ⟨And.left, fun h => ⟨h, hk⟩⟩

theorem mem_map {f : κ → ν → μ} {u : μ} :
    (k, u) ∈ (m.map f).entries ↔ ∃ v, (k, v) ∈ m.entries ∧ f k v = u := by
  simp only [map, List.mem_map, Prod.mk.injEq]
  constructor
  · rintro ⟨⟨k', v⟩, hmem, rfl, rfl⟩
    exact ⟨v, hmem, rfl⟩
  · rintro ⟨v, hmem, rfl⟩
    exact ⟨(k, v), hmem, rfl, rfl⟩

theorem get?_map (f : κ → ν → μ) (m : OrdMap κ ν) (k : κ) :
    (m.map f).get? k = (m.get? k).map (f k) := by
  refine Option.ext (fun u => ?_)
  rw [get?_eq_some, mem_map, Option.map_eq_some_iff]
  simp only [get?_eq_some]

theorem length_insert_le (m : OrdMap κ ν) (k : κ) (v : ν) :
    (m.insert k v).entries.length ≤ m.entries.length + 1 := by
  show (insertEntry k v m.entries).length ≤ _
  fun_induction insertEntry k v m.entries with
  | case1 | case2 => exact Nat.le_refl _
  | case3 => exact Nat.le_succ _
  | case4 _ _ _ _ ih => exact Nat.succ_le_succ ih

/-! ## The last entry -/

theorem le_last {e d : κ × ν} (h : m.entries.getLast? = some e) (hd : d ∈ m.entries) :
    d.1 ≤ e.1 := by
  obtain ⟨front, hfront⟩ := getLast?_eq_some_iff.1 h
  have hsorted := m.sorted
  rw [hfront, pairwise_append] at hsorted
  rw [hfront] at hd
  rcases mem_append.1 hd with hmem | hmem
  · exact le_of_lt (hsorted.2.2 d hmem e (mem_singleton_self e))
  · rw [mem_singleton.1 hmem]

/-! ## Two maps side by side -/

/-- The keys of two maps with what each has under them. -/
def beside (m : OrdMap κ ν) (m' : OrdMap κ μ) : OrdMap κ (Option ν × Option μ) :=
  m'.entries.foldl (fun acc e => acc.insert e.1 ((acc.get? e.1).bind Prod.fst, some e.2))
    (m.map (fun _ v => (some v, none)))

theorem get?_beside (m : OrdMap κ ν) (m' : OrdMap κ μ) (k : κ) : (m.beside m').get? k =
      if (m.get? k).isNone ∧ (m'.get? k).isNone then none else some (m.get? k, m'.get? k) := by
  -- what the fold has gathered under a key, over the entries that are still to come
  have hfold : ∀ (l : List (κ × μ)) (acc : OrdMap κ (Option ν × Option μ)),
      l.Pairwise (fun a b => a.1 < b.1) →
      (l.foldl (fun acc e => acc.insert e.1 ((acc.get? e.1).bind Prod.fst, some e.2)) acc).get? k =
        match l.find? (fun e => decide (e.1 = k)) with
        | none => acc.get? k
        | some e => some ((acc.get? k).bind Prod.fst, some e.2) := by
    intro l
    induction l with
    | nil => exact fun acc _ => rfl
    | cons d rest ih =>
      intro acc hl
      obtain ⟨hd, hrest⟩ := pairwise_cons.1 hl
      rw [foldl_cons, ih _ hrest, get?_insert]
      by_cases hk : d.1 = k
      · subst hk
        have hnone : rest.find? (fun e => decide (e.1 = d.1)) = none :=
          find?_eq_none.2 (fun e he => by simpa using ne_of_gt (hd e he))
        simp [hnone]
      · rw [find?_cons_of_neg (by simpa using hk), if_neg (Ne.symm hk)]
  rw [beside, hfold _ _ m'.sorted, get?_map]
  unfold get?
  cases m'.entries.find? (fun e => decide (e.1 = k)) <;>
    cases m.entries.find? (fun e => decide (e.1 = k)) <;> rfl

end OrdMap

end ProximaDb.Lib
