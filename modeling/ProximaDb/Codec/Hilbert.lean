/-
  ProximaDb.Codec.Hilbert

  The Hilbert index of a point of the plane. The scalar encoder walks the bits from the highest
  down; with eight bits a table of nibbles is used, which turns the orientation and the
  coordinates both.
-/
import ProximaDb.Lib.Format

namespace ProximaDb.Codec

/-- The coordinates for the next level: a lower quadrant is swapped, the right one flipped first. -/
def turned (s rx ry x y : Nat) : Nat × Nat :=
  if ry = 0 then
    if rx = 1 then (y ^^^ (2 ^ s - 1), x ^^^ (2 ^ s - 1)) else (y, x)
  else (x, y)

/-- The levels below `s` of `encode_2d_scalar`, with `d` for the levels above. -/
def encode2dScalar : Nat → Nat → Nat → Nat → Nat
  | 0, d, _, _ => d
  | s + 1, d, x, y =>
    let rx := (x.testBit s).toNat
    let ry := (y.testBit s).toNat
    let p := turned s rx ry x y
    encode2dScalar s (d <<< 2 ||| (3 * rx ^^^ ry)) p.1 p.2

def quadrant : Nat → Nat → Nat → Nat
  | 0, rx, ry => ry <<< 1 ||| (rx ^^^ ry)
  | 1, rx, ry => (1 - rx) <<< 1 ||| (rx ^^^ ry)
  | 2, rx, ry => (1 - ry) <<< 1 ||| (rx ^^^ ry)
  | _, rx, ry => rx <<< 1 ||| (rx ^^^ ry)

def newOrient : Nat → Nat → Nat → Nat
  | 0, 0, 0 => 1
  | 0, 1, 1 => 3
  | 1, 0, 0 => 0
  | 1, 1, 1 => 2
  | 2, 0, 0 => 3
  | 2, 1, 1 => 1
  | 3, 0, 0 => 2
  | 3, 1, 1 => 0
  | orient, _, _ => orient

/-- The levels below `s` of `compute_4bit_hilbert`. -/
def compute4bitHilbert : Nat → Nat → Nat → Nat → Nat → Nat × Nat
  | 0, index, orient, _, _ => (index, orient)
  | s + 1, index, orient, cx, cy =>
    let rx := (cx.testBit s).toNat
    let ry := (cy.testBit s).toNat
    let p := turned s rx ry cx cy
    compute4bitHilbert s (index <<< 2 ||| quadrant orient rx ry) (newOrient orient rx ry) p.1 p.2

def encode2dLut (x y : Nat) : Nat :=
  let high := compute4bitHilbert 4 0 0 (x >>> 4 &&& 15) (y >>> 4 &&& 15)
  high.1 <<< 8 ||| (compute4bitHilbert 4 0 high.2 (x &&& 15) (y &&& 15)).1

/-- `HilbertCurve::new(2, bits).encode`. -/
def encode2d (bits x y : Nat) : Nat :=
  if bits = 8 then encode2dLut (x % 256) (y % 256) else encode2dScalar bits 0 x y

/-! ## The curve -/

/-- One step to a neighbour: by one, in one coordinate. -/
def Adjacent (p q : Nat × Nat) : Prop :=
  p.1 = q.1 ∧ (p.2 + 1 = q.2 ∨ q.2 + 1 = p.2) ∨ p.2 = q.2 ∧ (p.1 + 1 = q.1 ∨ q.1 + 1 = p.1)

def grid (bits : Nat) : Set (Nat × Nat) := {p | p.1 < 2 ^ bits ∧ p.2 < 2 ^ bits}

/-- The indices number the grid, and the numbering is a path through it. -/
structure NumbersPath (bits : Nat) (index : Nat × Nat → Nat) : Prop where
  bijOn : (grid bits).BijOn index (Set.Iio (4 ^ bits))
  adjacent : ∀ p ∈ grid bits, ∀ q ∈ grid bits, index q = index p + 1 → Adjacent p q

/-- Where a quadrant has the points of the curve below, two of them turned. -/
def placed (s : Nat) : Nat → Nat × Nat → Nat × Nat
  | 0, p => (p.2, p.1)
  | 1, p => (p.1, 2 ^ s + p.2)
  | 2, p => (2 ^ s + p.1, 2 ^ s + p.2)
  | _, p => (2 ^ s + (2 ^ s - 1 - p.2), 2 ^ s - 1 - p.1)

/-- The point with a given index. -/
def point : Nat → Nat → Nat × Nat
  | 0, _ => (0, 0)
  | s + 1, d => placed s (d / 4 ^ s) (point s (d % 4 ^ s))

theorem point_mem_grid (s d : Nat) : point s d ∈ grid s := by
  induction s generalizing d with
  | zero => simp [point, grid]
  | succ s ih =>
    obtain ⟨hx, hy⟩ := ih (d % 4 ^ s)
    have : 2 ^ (s + 1) = 2 ^ s * 2 := pow_succ 2 s
    rw [point]
    unfold placed
    split <;> constructor <;> dsimp only <;> omega

theorem point_succ {s r : Nat} (q : Nat) (hr : r < 4 ^ s) :
    point (s + 1) (4 ^ s * q + r) = placed s q (point s r) := by
  rw [point, Nat.mul_add_mod, Nat.mod_eq_of_lt hr,
    Nat.mul_add_div (by positivity), Nat.div_eq_of_lt hr, add_zero]

/-- The quadrant of an index and the index inside it. -/
theorem exists_quadrant {s d : Nat} (hd : d < 4 ^ (s + 1)) :
    ∃ q r, q < 4 ∧ r < 4 ^ s ∧ d = 4 ^ s * q + r :=
  ⟨d / 4 ^ s, d % 4 ^ s, Nat.div_lt_of_lt_mul hd, Nat.mod_lt _ (by positivity),
    (Nat.div_add_mod ..).symm⟩

theorem point_zero (s : Nat) : point s 0 = (0, 0) := by
  induction s with
  | zero => rfl
  | succ s ih => simp [point, ih, placed]

theorem point_last (s : Nat) : point s (4 ^ s - 1) = (2 ^ s - 1, 0) := by
  induction s with
  | zero => rfl
  | succ s ih =>
    have h : 0 < 4 ^ s := by positivity
    have h' : 0 < 2 ^ s := by positivity
    rw [show 4 ^ (s + 1) - 1 = 4 ^ s * 3 + (4 ^ s - 1) by omega, point_succ 3 (by omega), ih]
    simp only [placed, Prod.mk.injEq]
    omega

/-- Inside a quadrant the curve below is followed; between quadrants its ends meet. -/
theorem adjacent_point {s d : Nat} (hd : d + 1 < 4 ^ s) :
    Adjacent (point s d) (point s (d + 1)) := by
  induction s generalizing d with
  | zero => simp at hd
  | succ s ih =>
    have h : 0 < 4 ^ s := by positivity
    obtain ⟨q, r, hq, hr, rfl⟩ := exists_quadrant (Nat.lt_of_succ_lt hd)
    by_cases hr' : r + 1 < 4 ^ s
    · obtain ⟨hx, hy⟩ := point_mem_grid s r
      obtain ⟨hx', hy'⟩ := point_mem_grid s (r + 1)
      have hadj := ih hr'
      rw [add_assoc, point_succ q hr, point_succ q hr']
      unfold Adjacent at hadj ⊢
      interval_cases q <;> simp only [placed] <;> omega
    · obtain rfl : r = 4 ^ s - 1 := by omega
      rw [show 4 ^ s * q + (4 ^ s - 1) + 1 = 4 ^ s * (q + 1) + 0 by rw [mul_add]; omega,
        point_succ q hr, point_succ (q + 1) h, point_last, point_zero]
      have : 0 < 2 ^ s := by positivity
      unfold Adjacent
      interval_cases q <;> simp only [placed, Nat.reduceAdd, true_and] <;> omega

/-! ## The scalar encoder -/

theorem xor_mask_mod (x s : Nat) : (x ^^^ (2 ^ s - 1)) % 2 ^ s = 2 ^ s - 1 - x % 2 ^ s := by
  have h := BitVec.toNat_not (x := BitVec.ofNat s x)
  rw [← BitVec.xor_allOnes, BitVec.toNat_xor, BitVec.toNat_allOnes, BitVec.toNat_ofNat] at h
  rw [Nat.xor_mod_two_pow, Nat.mod_eq_of_lt (Nat.sub_lt s.two_pow_pos one_pos), h]

/-- The bits of a point that the levels below `s` read. -/
def low (s : Nat) (p : Nat × Nat) : Nat × Nat := (p.1 % 2 ^ s, p.2 % 2 ^ s)

/-- A level undoes the placement: the bits give the quadrant, the turn the point inside it. -/
theorem low_turned {s q x y : Nat} {p : Nat × Nat} (hq : q < 4) (hp : p ∈ grid s)
    (h : low (s + 1) (x, y) = placed s q p) : 3 * (x / 2 ^ s % 2) ^^^ (y / 2 ^ s % 2) = q ∧
      low s (turned s (x / 2 ^ s % 2) (y / 2 ^ s % 2) x y) = p := by
  obtain ⟨hx, hy⟩ := hp
  have hx' := Nat.mod_lt x s.two_pow_pos
  have hy' := Nat.mod_lt y s.two_pow_pos
  rw [low, Nat.mod_pow_succ, Nat.mod_pow_succ] at h
  rcases Nat.mod_two_eq_zero_or_one (x / 2 ^ s) with hb | hb <;>
    rcases Nat.mod_two_eq_zero_or_one (y / 2 ^ s) with hb' | hb' <;>
    interval_cases q <;>
    simp only [placed, hb, hb', Prod.mk.injEq, mul_one, mul_zero] at h <;>
    first
    | omega
    | simp [hb, hb', turned, low, Prod.ext_iff, xor_mask_mod]
      omega

theorem encode2dScalar_point {s d : Nat} {p : Nat × Nat} (hd : d < 4 ^ s)
    (h : low s p = point s d) (e : Nat) : encode2dScalar s e p.1 p.2 = e * 4 ^ s + d := by
  induction s generalizing d e p with
  | zero => simp_all [encode2dScalar]
  | succ s ih =>
    obtain ⟨q, r, hq, hr, rfl⟩ := exists_quadrant hd
    rw [point_succ q hr] at h
    obtain ⟨rfl, hp⟩ := low_turned hq (point_mem_grid s r) h
    rw [encode2dScalar, Nat.toNat_testBit, Nat.toNat_testBit, ih hr hp,
      ← Nat.shiftLeft_add_eq_or_of_lt hq, Nat.shiftLeft_eq, pow_succ]
    ring

theorem encode2dScalar_of_point {s d : Nat} (hd : d < 4 ^ s) :
    encode2dScalar s 0 (point s d).1 (point s d).2 = d := by
  obtain ⟨hx, hy⟩ := point_mem_grid s d
  have h : low s (point s d) = point s d := by rw [low, Nat.mod_eq_of_lt hx, Nat.mod_eq_of_lt hy]
  rw [encode2dScalar_point hd h 0, zero_mul, zero_add]

/-- The curve reaches every point: it repeats none and has as many as the grid. -/
theorem exists_point {s : Nat} {p : Nat × Nat} (hp : p ∈ grid s) : ∃ d < 4 ^ s, point s d = p := by
  have hsurj := Finset.surjOn_of_injOn_of_card_le (point s) (s := Finset.range (4 ^ s))
    (t := Finset.range (2 ^ s) ×ˢ Finset.range (2 ^ s)) ?_ ?_ ?_
  · simpa using hsurj (a := p) (by simpa [grid] using hp)
  · intro d _
    simpa [grid] using point_mem_grid s d
  · intro d hd d' hd' heq
    rw [← encode2dScalar_of_point (Finset.mem_range.mp hd), heq,
      encode2dScalar_of_point (Finset.mem_range.mp hd')]
  · simp [← mul_pow]

theorem encode2d_jumps : encode2d 8 124 124 = encode2d 8 125 126 + 1 := by decide

theorem numbersPath_of_ne {bits : Nat} (h : bits ≠ 8) :
    NumbersPath bits (fun p => encode2d bits p.1 p.2) := by
  simp only [encode2d, if_neg h]
  have hinv : ∀ p ∈ grid bits, ∃ d < 4 ^ bits, p = point bits d ∧
      encode2dScalar bits 0 p.1 p.2 = d := by
    intro p hp
    obtain ⟨d, hd, rfl⟩ := exists_point hp
    exact ⟨d, hd, rfl, encode2dScalar_of_point hd⟩
  refine ⟨⟨fun p hp => ?_, fun p hp q hq heq => ?_, fun d hd => ?_⟩, fun p hp q hq heq => ?_⟩
  · obtain ⟨d, hd, -, he⟩ := hinv p hp
    exact lt_of_eq_of_lt he hd
  · obtain ⟨d, -, rfl, hd⟩ := hinv p hp
    obtain ⟨e, -, rfl, he⟩ := hinv q hq
    rw [← hd, ← he]
    exact congrArg (point bits) heq
  · exact ⟨point bits d, point_mem_grid bits d, encode2dScalar_of_point hd⟩
  · obtain ⟨d, -, rfl, hd⟩ := hinv p hp
    obtain ⟨e, he', rfl, he⟩ := hinv q hq
    obtain rfl : e = d + 1 := by rw [← he, heq, hd]
    exact adjacent_point he'

theorem not_numbersPath_eight : ¬ NumbersPath 8 (fun p => encode2d 8 p.1 p.2) := by
  intro h
  have hadj := h.adjacent (125, 126) ⟨by decide, by decide⟩ (124, 124) ⟨by decide, by decide⟩
    encode2d_jumps
  unfold Adjacent at hadj
  omega

/-- The indices number the grid along a path at every order but the one with a table. -/
theorem encode2d_numbersPath (bits : Nat) :
    NumbersPath bits (fun p => encode2d bits p.1 p.2) ↔ bits ≠ 8 := by
  refine ⟨?_, numbersPath_of_ne⟩
  rintro h rfl
  exact not_numbersPath_eight h

theorem eight_bits_jump : ¬ NumbersPath 8 (fun p => encode2d 8 p.1 p.2) ∧
    encode2d 8 124 124 = encode2d 8 125 126 + 1 :=
  ⟨not_numbersPath_eight, encode2d_jumps⟩

end ProximaDb.Codec
