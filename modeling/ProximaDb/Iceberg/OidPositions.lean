/-
  ProximaDb.Iceberg.OidPositions

  Where the rows of deleted object ids lie in the published data files. A deletion vector names
  rows by their index in the file, a delete names them by oid, and two mappings lead from the one
  to the other over the hidden oid column.
-/
import ProximaDb.Lib.Sorting

namespace ProximaDb.Iceberg

open List ProximaDb.Lib

/-- A data file with its oid column; another writer may leave a cell null. -/
structure DataFile where
  file : String
  cells : List (Option String)

/-- Every row with its position, null cells counted. -/
def scanOidColumn (f : DataFile) : List (Option String × Nat) := f.cells.zipIdx

/-- Every row of an asked oid. -/
def exactIn (asked : List String) (f : DataFile) : List Nat :=
  ((scanOidColumn f).filter (fun x => x.1.any (· ∈ asked))).map Prod.snd

def oidPositionsExact (files : List DataFile) (oids : List String) : List (String × List Nat) :=
  let asked := oids.dedup
  files.filterMap (fun f =>
    let positions := exactIn asked f
    if positions = [] then none else some (f.file, positions))

/-- `from_stream_order` and `position_of`: the first row of an oid, numbered in a `u32`. -/
def positionOf (rows : List String) (oid : String) : Option Nat :=
  (rows.idxOf? oid).map (· % 2 ^ 32)

structure PublishedPositions where
  file : String
  positions : List Nat
  oidsFound : List String
  deriving DecidableEq

structure PublishedOidPositions where
  perFile : List PublishedPositions
  oidsMissing : List String
  deriving DecidableEq

def foundIn (asked : List String) (f : DataFile) : List (String × Nat) :=
  -- null cells are skipped before the rows are numbered
  let rows := (scanOidColumn f).filterMap Prod.fst
  asked.filterMap (fun oid => (positionOf rows oid).map (oid, ·))

def positionsIn (asked : List String) (f : DataFile) : Option PublishedPositions :=
  let found := foundIn asked f
  if found = [] then none
  else some ⟨f.file, (sortBy id (found.map Prod.snd)).dedup, sortBy id (found.map Prod.fst)⟩

def publishedPositionsOf (files : List DataFile) (oids : List String) : PublishedOidPositions :=
  let asked := oids.dedup
  let perFile := files.filterMap (positionsIn asked)
  ⟨perFile, sortBy id (asked.filter (fun oid => perFile.all (oid ∉ ·.oidsFound)))⟩

/-! ## One file -/

/-- No null cell stands in front of the first row of an asked oid, and its index is a `u32`. -/
def Aligned (oids : List String) (f : DataFile) : Prop :=
  ∀ oid ∈ oids, ∀ n, f.cells.idxOf? (some oid) = some n → none ∉ f.cells.take n ∧ n < 2 ^ 32

variable {oids : List String} {oid : String} {f : DataFile} {files : List DataFile} {n : Nat}

/-- Without the null cells a row moves up by those in front of it. -/
theorem idxOf?_reduceOption {a : String} {l : List (Option String)}
    (h : l.idxOf? (some a) = some n) :
    l.reduceOption.idxOf? a = some (l.take n).reduceOption.length := by
  induction l generalizing n with
  | nil => cases h
  | cons c l ih =>
    rw [idxOf?_cons] at h
    split_ifs at h with hc
    · cases h
      rw [beq_iff_eq.1 hc, reduceOption_cons_of_some, idxOf?_cons, if_pos (beq_self_eq_true a)]
      rfl
    · obtain ⟨m, hm, rfl⟩ := Option.map_eq_some_iff.1 h
      cases c with
      | none => exact ih hm
      | some b =>
        rw [reduceOption_cons_of_some, idxOf?_cons, if_neg (by simpa using hc), ih hm]
        simp

theorem length_reduceOption_take {c : Option String} {l : List (Option String)}
    (h : l.idxOf? c = some n) : (l.take n).reduceOption.length ≤ n ∧
      ((l.take n).reduceOption.length = n ↔ none ∉ l.take n) := by
  have hlen : (l.take n).length = n := length_take_of_le (idxOf?_eq_some_iff.1 h).1.le
  have hle := reduceOption_length_le (l.take n)
  have heq := reduceOption_length_eq_iff (l := l.take n)
  rw [hlen] at hle heq
  refine ⟨hle, heq.trans ⟨fun hall hnone => Bool.noConfusion (hall none hnone), fun hnot x hx => ?_⟩⟩
  exact Option.isSome_iff_ne_none.2 (fun hx' => hnot (hx' ▸ hx))

theorem positionOf_rows (h : Aligned oids f) (hoid : oid ∈ oids) :
    positionOf f.cells.reduceOption oid = f.cells.idxOf? (some oid) := by
  unfold positionOf
  cases hn : f.cells.idxOf? (some oid) with
  | none =>
    rw [idxOf?_eq_none_iff] at hn
    rw [idxOf?_eq_none_iff.2 (fun hmem => hn (reduceOption_mem_iff.1 hmem))]
    rfl
  | some n =>
    obtain ⟨hfront, hlt⟩ := h oid hoid n hn
    have hlen := length_reduceOption_take hn
    rw [idxOf?_reduceOption hn, Option.map_some, hlen.2.2 hfront, Nat.mod_eq_of_lt hlt]

theorem isSome_positionOf : (positionOf f.cells.reduceOption oid).isSome ↔ some oid ∈ f.cells := by
  rw [positionOf, Option.isSome_map, isSome_idxOf?, reduceOption_mem_iff]

theorem mem_foundIn : (oid, n) ∈ foundIn oids f ↔
    oid ∈ oids ∧ positionOf f.cells.reduceOption oid = some n := by
  have hrows : (scanOidColumn f).filterMap Prod.fst = f.cells.reduceOption := by
    conv_rhs => rw [← zipIdx_map_fst 0 f.cells, reduceOption, filterMap_map]
    rfl
  simp [foundIn, hrows]

theorem positionsIn_eq_some_iff {p : PublishedPositions} : positionsIn oids f = some p ↔
    foundIn oids f ≠ [] ∧ ⟨f.file, (sortBy id ((foundIn oids f).map Prod.snd)).dedup,
      sortBy id ((foundIn oids f).map Prod.fst)⟩ = p := by
  simp [positionsIn]

theorem mem_oidsFound {p : PublishedPositions} (h : positionsIn oids f = some p) :
    oid ∈ p.oidsFound ↔ oid ∈ oids ∧ some oid ∈ f.cells := by
  obtain ⟨-, rfl⟩ := positionsIn_eq_some_iff.1 h
  rw [(sortOf_sortBy _ _).perm.mem_iff, mem_map, ← isSome_positionOf, Option.isSome_iff_exists]
  simp [mem_foundIn]

theorem exists_positionsIn (hoid : oid ∈ oids) (h : some oid ∈ f.cells) :
    ∃ p, positionsIn oids f = some p := by
  obtain ⟨n, hn⟩ := Option.isSome_iff_exists.1 (isSome_positionOf.2 h)
  exact ⟨_, positionsIn_eq_some_iff.2 ⟨ne_nil_of_mem (mem_foundIn.2 ⟨hoid, hn⟩), rfl⟩⟩

theorem mem_positions {p : PublishedPositions} (h : positionsIn oids f = some p) :
    n ∈ p.positions ↔ ∃ oid ∈ oids, positionOf f.cells.reduceOption oid = some n := by
  obtain ⟨-, rfl⟩ := positionsIn_eq_some_iff.1 h
  rw [mem_dedup, (sortOf_sortBy _ _).perm.mem_iff, mem_map]
  constructor
  · rintro ⟨⟨oid, n⟩, hmem, rfl⟩
    exact ⟨oid, mem_foundIn.1 hmem⟩
  · rintro ⟨oid, hfound⟩
    exact ⟨(oid, n), mem_foundIn.2 hfound, rfl⟩

/-- The positions of an aligned file are the first rows of the asked oids. -/
theorem mem_positions_iff (ha : Aligned oids f) {p : PublishedPositions}
    (h : positionsIn oids f = some p) :
    n ∈ p.positions ↔ ∃ oid ∈ oids, f.cells.idxOf? (some oid) = some n := by
  rw [mem_positions h]
  exact exists_congr (fun oid => and_congr_right (fun hoid => by rw [positionOf_rows ha hoid]))

theorem pairwise_positions {p : PublishedPositions} (h : positionsIn oids f = some p) :
    p.positions.Pairwise (· < ·) := by
  obtain ⟨-, rfl⟩ := positionsIn_eq_some_iff.1 h
  have hsorted := (sortOf_sortBy id ((foundIn oids f).map Prod.snd)).sorted
  exact ((hsorted.sublist (dedup_sublist _)).and (nodup_dedup _)).imp
    (fun hxy => lt_of_le_of_ne hxy.1 hxy.2)

theorem getElem?_of_idxOf? {c : Option String} {l : List (Option String)}
    (h : l.idxOf? c = some n) : l[n]? = some c := by
  obtain ⟨hlt, hn, -⟩ := idxOf?_eq_some_iff.1 h
  rw [getElem?_eq_getElem hlt, hn]

/-! ## The exact positions -/

theorem mem_exactIn : n ∈ exactIn oids f ↔ ∃ oid ∈ oids, f.cells[n]? = some (some oid) := by
  simp only [exactIn, mem_map, mem_filter, scanOidColumn, mem_zipIdx_iff_getElem?,
    Option.any_eq_true, decide_eq_true_eq]
  constructor
  · rintro ⟨x, ⟨hx, oid, hoid, hmem⟩, rfl⟩
    exact ⟨oid, hmem, hoid ▸ hx⟩
  · rintro ⟨oid, hmem, hn⟩
    exact ⟨(some oid, n), ⟨hn, oid, rfl, hmem⟩, rfl⟩

theorem pairwise_exactIn : (exactIn oids f).Pairwise (· < ·) := by
  refine Pairwise.sublist (filter_sublist.map Prod.snd) ?_
  rw [scanOidColumn, zipIdx_map_snd]
  exact pairwise_lt_range'

/-- Without an oid on two rows a file has the same positions by both mappings. -/
theorem positions_eq_exact (ha : Aligned oids f)
    (hone : ∀ (i j : Nat) oid, f.cells[i]? = some (some oid) → f.cells[j]? = some (some oid) → i = j) :
    (positionsIn oids f).map (fun p => (p.file, p.positions)) =
      if exactIn oids f = [] then none else some (f.file, exactIn oids f) := by
  cases hp : positionsIn oids f with
  | none =>
    rw [if_pos]
    · rfl
    refine eq_nil_iff_forall_not_mem.2 (fun n hn => ?_)
    obtain ⟨oid, hoid, hcell⟩ := mem_exactIn.1 hn
    obtain ⟨p, hsome⟩ := exists_positionsIn hoid (mem_of_getElem? hcell)
    rw [hp] at hsome
    cases hsome
  | some p =>
    have heq : p.positions = exactIn oids f := by
      refine (pairwise_positions hp).eq_of_mem_iff pairwise_exactIn (fun n => ?_)
      rw [mem_positions_iff ha hp, mem_exactIn]
      refine exists_congr (fun oid => and_congr_right (fun _ => ⟨getElem?_of_idxOf?, fun hn => ?_⟩))
      obtain ⟨m, hm⟩ := Option.isSome_iff_exists.1 (isSome_idxOf?.2 (mem_of_getElem? hn))
      rw [hm, hone m n oid (getElem?_of_idxOf? hm) hn]
    obtain ⟨hfound, rfl⟩ := positionsIn_eq_some_iff.1 hp
    rw [← heq, if_neg]
    · rfl
    obtain ⟨x, hx⟩ := exists_mem_of_ne_nil _ hfound
    exact ne_nil_of_mem (mem_dedup.2 ((sortOf_sortBy _ _).perm.mem_iff.2 (mem_map_of_mem hx)))

/-! ## All files -/

/-- What a delete of `oids` is to mark: rows of theirs and no others, one at least in every file,
    all where none is repeated; and the oids that no file holds are missing. -/
structure MarksRows (files : List DataFile) (oids : List String) : Prop where
  rows : ∀ p ∈ (publishedPositionsOf files oids).perFile, ∃ f ∈ files, p.file = f.file ∧
    ∀ n ∈ p.positions, ∃ oid ∈ oids, f.cells[n]? = some (some oid)
  marked : ∀ f ∈ files, ∀ oid ∈ oids, some oid ∈ f.cells →
    ∃ p ∈ (publishedPositionsOf files oids).perFile, p.file = f.file ∧
      ∃ n ∈ p.positions, f.cells[n]? = some (some oid)
  missing : ∀ oid, oid ∈ (publishedPositionsOf files oids).oidsMissing ↔
    oid ∈ oids ∧ ∀ f ∈ files, some oid ∉ f.cells
  exact : (∀ f ∈ files, ∀ (i j : Nat) oid, f.cells[i]? = some (some oid) →
      f.cells[j]? = some (some oid) → i = j) →
    (publishedPositionsOf files oids).perFile.map (fun p => (p.file, p.positions)) =
      oidPositionsExact files oids

theorem marksRows_of_aligned (h : ∀ f ∈ files, Aligned oids f) : MarksRows files oids := by
  have ha : ∀ f ∈ files, Aligned oids.dedup f := fun f hf oid hoid =>
    h f hf oid (mem_dedup.1 hoid)
  refine ⟨fun p hp => ?_, fun f hf oid hoid hmem => ?_, fun oid => ?_, fun hone => ?_⟩
  · obtain ⟨f, hf, hp⟩ := mem_filterMap.1 hp
    obtain ⟨-, hfile⟩ := positionsIn_eq_some_iff.1 hp
    refine ⟨f, hf, by rw [← hfile], fun n hn => ?_⟩
    obtain ⟨oid, hoid, hidx⟩ := (mem_positions_iff (ha f hf) hp).1 hn
    exact ⟨oid, mem_dedup.1 hoid, getElem?_of_idxOf? hidx⟩
  · rw [← mem_dedup] at hoid
    obtain ⟨p, hp⟩ := exists_positionsIn hoid hmem
    obtain ⟨-, hfile⟩ := positionsIn_eq_some_iff.1 hp
    obtain ⟨n, hn⟩ := Option.isSome_iff_exists.1 (isSome_idxOf?.2 hmem)
    exact ⟨p, mem_filterMap.2 ⟨f, hf, hp⟩, by rw [← hfile], n,
      (mem_positions_iff (ha f hf) hp).2 ⟨oid, hoid, hn⟩, getElem?_of_idxOf? hn⟩
  · rw [publishedPositionsOf, (sortOf_sortBy _ _).perm.mem_iff, mem_filter, mem_dedup]
    simp only [all_eq_true, decide_eq_true_eq]
    refine and_congr_right (fun hoid => ⟨fun hall f hf hmem => ?_, fun hall p hp hfound => ?_⟩)
    · obtain ⟨p, hp⟩ := exists_positionsIn (mem_dedup.2 hoid) hmem
      exact hall p (mem_filterMap.2 ⟨f, hf, hp⟩) ((mem_oidsFound hp).2 ⟨mem_dedup.2 hoid, hmem⟩)
    · obtain ⟨f, hf, hp⟩ := mem_filterMap.1 hp
      exact hall f hf ((mem_oidsFound hp).1 hfound).2
  · rw [publishedPositionsOf, oidPositionsExact, map_filterMap]
    exact filterMap_congr (fun f hf => positions_eq_exact (ha f hf) (hone f hf))

/-- The last of the first rows is marked only if the rows up to it are numbered as they are. -/
theorem aligned_of_marked (hmarked : ∀ oid ∈ oids, some oid ∈ f.cells →
      ∃ p, positionsIn oids.dedup f = some p ∧ ∃ n ∈ p.positions, f.cells[n]? = some (some oid)) :
    Aligned oids f := by
  intro oid hoid n hn
  obtain ⟨last, hlast, hmax⟩ := Finset.exists_max_image
    (oids.filter (fun oid => decide (some oid ∈ f.cells))).toFinset
    (fun oid => (f.cells.idxOf? (some oid)).getD 0)
    ⟨oid, by simpa using ⟨hoid, mem_of_getElem? (getElem?_of_idxOf? hn)⟩⟩
  simp only [mem_toFinset, mem_filter, decide_eq_true_eq] at hlast hmax
  obtain ⟨m, hm⟩ := Option.isSome_iff_exists.1 (isSome_idxOf?.2 hlast.2)
  have hle : ∀ oid ∈ oids, ∀ k, f.cells.idxOf? (some oid) = some k → k ≤ m := by
    intro oid hoid k hk
    have hle := hmax oid ⟨hoid, mem_of_getElem? (getElem?_of_idxOf? hk)⟩
    rwa [hk, hm] at hle
  obtain ⟨p, hp, r, hr, hrow⟩ := hmarked last hlast.1 hlast.2
  have hfirst : m ≤ r := by
    by_contra! hlt
    obtain ⟨hlen, -, hbefore⟩ := idxOf?_eq_some_iff.1 hm
    rw [getElem?_eq_getElem (hlt.trans hlen), Option.some_inj] at hrow
    exact hbefore r hlt hrow
  -- the position that is reported is that of an oid in front of it, or its own
  obtain ⟨oid', hoid', hpos⟩ := (mem_positions hp).1 hr
  obtain ⟨k, hk⟩ := Option.isSome_iff_exists.1 (isSome_idxOf?.2
    (isSome_positionOf.1 (Option.isSome_iff_exists.2 ⟨r, hpos⟩)))
  obtain ⟨hshift, hnone⟩ := length_reduceOption_take hk
  rw [positionOf, idxOf?_reduceOption hk, Option.map_some, Option.some_inj] at hpos
  have hkm := hle oid' (mem_dedup.1 hoid') k hk
  have hmod := Nat.mod_le (f.cells.take k).reduceOption.length (2 ^ 32)
  obtain rfl : k = m := by omega
  have hnm := hle oid hoid n hn
  refine ⟨fun hmem => hnone.1 (by omega) (take_subset_take_left _ hnm hmem), ?_⟩
  have hlt := Nat.mod_lt (f.cells.take k).reduceOption.length (Nat.two_pow_pos 32)
  omega

/-- The asked oids are marked on their own rows if no null cell stands in front of their first ones,
    and for files with names of their own only then. -/
theorem deletes_mark_their_rows :
    ((∀ f ∈ files, Aligned oids f) → MarksRows files oids) ∧
      ((files.map DataFile.file).Nodup → MarksRows files oids → ∀ f ∈ files, Aligned oids f) := by
  refine ⟨marksRows_of_aligned, fun hnames h f hf => aligned_of_marked (fun oid hoid hmem => ?_)⟩
  obtain ⟨p, hp, hfile, hn⟩ := h.marked f hf oid hoid hmem
  obtain ⟨f', hf', hp⟩ := mem_filterMap.1 hp
  obtain ⟨-, rfl⟩ := positionsIn_eq_some_iff.1 hp
  obtain rfl := inj_on_of_nodup_map hnames hf' hf hfile
  exact ⟨_, hp, hn⟩

theorem deletes_mark_their_rows_null_behind :
    (publishedPositionsOf [⟨"f", [some "a", none]⟩] ["a"]).perFile.map
      (fun p => (p.file, p.positions)) = oidPositionsExact [⟨"f", [some "a", none]⟩] ["a"] := by
  refine (deletes_mark_their_rows.1 ?_).exact ?_
  · intro f hf oid hoid n hn
    obtain rfl := mem_singleton.1 hf
    obtain rfl := mem_singleton.1 hoid
    obtain rfl : 0 = n := Option.some.inj hn
    decide
  · intro f hf i j oid hi hj
    obtain rfl := mem_singleton.1 hf
    have hzero : ∀ i : Nat, [some "a", none][i]? = some (some oid) → i = 0 := by
      intro i hi
      match i with
      | 0 => rfl
      | 1 | _ + 2 => cases hi
    exact (hzero i hi).trans (hzero j hj).symm

/-- A null cell in front of a row shifts its position by one. -/
theorem null_cell_shifts_position :
    publishedPositionsOf [⟨"f", [none, some "a"]⟩] ["a"] = ⟨[⟨"f", [0], ["a"]⟩], []⟩ ∧
      oidPositionsExact [⟨"f", [none, some "a"]⟩] ["a"] = [("f", [1])] := by
  decide

end ProximaDb.Iceberg
