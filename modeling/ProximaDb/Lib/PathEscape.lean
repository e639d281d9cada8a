/-
  ProximaDb.Lib.PathEscape

  Percent escaping of the components of a path, byte by byte, and joining components with a
  separator that escaping removes. Escaping is a homomorphism that is undone by `unescape`; a
  joined list of components without the separator is split again.
-/
import ProximaDb.Lib.Bytes

namespace ProximaDb.Lib

open List

/-! ## One byte -/

/-- Letters, digits and `-`, `_`, `.`, `~`. -/
def isUnreserved (b : UInt8) : Bool :=
  decide (0x41 ≤ b ∧ b ≤ 0x5A) || decide (0x61 ≤ b ∧ b ≤ 0x7A) || decide (0x30 ≤ b ∧ b ≤ 0x39) ||
    b == 0x2D || b == 0x5F || b == 0x2E || b == 0x7E

def hexDigit (n : Nat) : UInt8 := UInt8.ofNat (if n < 10 then 0x30 + n else 0x41 + (n - 10))

def escapeByte (b : UInt8) : Bytes :=
  if isUnreserved b then [b] else [0x25, hexDigit (b.toNat / 16), hexDigit (b.toNat % 16)]

def hexValue (b : UInt8) : Option Nat :=
  if 0x30 ≤ b ∧ b ≤ 0x39 then some (b.toNat - 0x30)
  else if 0x41 ≤ b ∧ b ≤ 0x46 then some (b.toNat - 0x41 + 10)
  else if 0x61 ≤ b ∧ b ≤ 0x66 then some (b.toNat - 0x61 + 10)
  else none

/-- Two hexadecimal digits, or a plus sign and one (`u8::from_str_radix`). -/
def parseHex (hi lo : UInt8) : Option UInt8 :=
  if hi = 0x2B then (hexValue lo).map UInt8.ofNat
  else (hexValue hi).bind (fun h => (hexValue lo).map (fun l => UInt8.ofNat (16 * h + l)))

theorem hexValue_hexDigit {n : Nat} (h : n < 16) : hexValue (hexDigit n) = some n := by
  have hall : ∀ k : Fin 16, hexValue (hexDigit k) = some k.val := by decide
  exact hall ⟨n, h⟩

theorem hexDigit_unreserved {n : Nat} (h : n < 16) : isUnreserved (hexDigit n) = true := by
  have hall : ∀ k : Fin 16, isUnreserved (hexDigit k) = true := by decide
  exact hall ⟨n, h⟩

theorem parseHex_hexDigit (b : UInt8) :
    parseHex (hexDigit (b.toNat / 16)) (hexDigit (b.toNat % 16)) = some b := by
  have hb : b.toNat < 256 := b.toNat_lt
  have hhi : b.toNat / 16 < 16 := by omega
  have hlo : b.toNat % 16 < 16 := by omega
  have hplus : hexDigit (b.toNat / 16) ≠ 0x2B := by
    intro heq
    have := hexDigit_unreserved hhi
    rw [heq] at this
    exact absurd this (by decide)
  have hval : 16 * (b.toNat / 16) + b.toNat % 16 = b.toNat := by omega
  rw [parseHex, if_neg hplus, hexValue_hexDigit hhi, hexValue_hexDigit hlo]
  show some (UInt8.ofNat (16 * (b.toNat / 16) + b.toNat % 16)) = some b
  rw [hval, UInt8.ofNat_toNat]

/-! ## Byte strings -/

def escape (bs : Bytes) : Bytes := bs.flatMap escapeByte

/-- Undo the escaping; `none` for an escape that is cut off or is not hexadecimal. -/
def unescape : Bytes → Option Bytes
  | [] => some []
  | b :: rest =>
    if b = 0x25 then
      match rest with
      | hi :: lo :: rest => (parseHex hi lo).bind (fun x => (unescape rest).map (fun xs => x :: xs))
      | _ => none
    else (unescape rest).map (fun xs => b :: xs)

theorem escape_append (xs ys : Bytes) : escape (xs ++ ys) = escape xs ++ escape ys :=
  flatMap_append

theorem unescape_escapeByte (b : UInt8) (rest : Bytes) :
    unescape (escapeByte b ++ rest) = (unescape rest).map (fun xs => b :: xs) := by
  unfold escapeByte
  by_cases hb : isUnreserved b = true
  · have hne : b ≠ 0x25 := by
      intro heq
      rw [heq] at hb
      exact absurd hb (by decide)
    rw [if_pos hb, singleton_append, unescape.eq_def]
    simp [hne]
  · rw [if_neg hb]
    rw [unescape.eq_def]
    simp [parseHex_hexDigit]

theorem unescape_escape (bs : Bytes) : unescape (escape bs) = some bs := by
  induction bs with
  | nil => rfl
  | cons b bs ih =>
    show unescape (escapeByte b ++ escape bs) = some (b :: bs)
    rw [unescape_escapeByte, ih, Option.map_some]

theorem escape_injective : Function.Injective escape := by
  intro xs ys h
  have := congrArg unescape h
  rwa [unescape_escape, unescape_escape, Option.some.injEq] at this

theorem mem_escape {b : UInt8} {bs : Bytes} (h : b ∈ escape bs) :
    isUnreserved b = true ∨ b = 0x25 := by
  obtain ⟨c, -, hb⟩ := mem_flatMap.1 h
  unfold escapeByte at hb
  have hc : c.toNat < 256 := c.toNat_lt
  split_ifs at hb with hun
  · rw [mem_singleton.1 hb]
    exact .inl hun
  · simp only [mem_cons, not_mem_nil, or_false] at hb
    rcases hb with rfl | rfl | rfl
    · exact .inr rfl
    · exact .inl (hexDigit_unreserved (by omega))
    · exact .inl (hexDigit_unreserved (by omega))

/-! ## Joining -/

section Join

variable {α : Type} {sep : α}

theorem intercalate_inj [DecidableEq α] {ls ms : List (List α)} (hl : ∀ l ∈ ls, sep ∉ l)
    (hm : ∀ m ∈ ms, sep ∉ m)
    (hls : ls ≠ []) (hms : ms ≠ []) : [sep].intercalate ls = [sep].intercalate ms ↔ ls = ms := by
  constructor
  · intro h
    have := congrArg (fun xs => xs.splitOn sep) h
    rwa [splitOn_intercalate sep hl hls, splitOn_intercalate sep hm hms] at this
  · exact fun h => by rw [h]

theorem intercalate_cons (x : List α) {rest : List (List α)} (h : rest ≠ []) :
    [sep].intercalate (x :: rest) = x ++ sep :: [sep].intercalate rest := by
  obtain ⟨y, zs, rfl⟩ := exists_cons_of_ne_nil h
  simp [intercalate]

theorem intercalate_concat {front : List (List α)} (x : List α) (h : front ≠ []) :
    [sep].intercalate (front ++ [x]) = [sep].intercalate front ++ sep :: x := by
  induction front with
  | nil => exact absurd rfl h
  | cons y front ih =>
    by_cases hfront : front = []
    · subst hfront
      simp [intercalate]
    · rw [cons_append, intercalate_cons _ (by simp), ih hfront, intercalate_cons _ hfront,
        append_assoc, cons_append]

theorem concat_inj {xs ys x y : List α} (hx : sep ∉ x) (hy : sep ∉ y) :
    xs ++ sep :: x = ys ++ sep :: y ↔ xs = ys ∧ x = y := by
  classical
  have hlast : ∀ {zs z : List α}, sep ∉ z →
      (zs ++ sep :: z).rtakeWhile (fun b => decide (b ≠ sep)) = z := by
    intro zs z hz
    rw [rtakeWhile, reverse_append, reverse_cons, append_assoc,
      takeWhile_append_of_pos (fun b hb => ?_)]
    · simp
    · rw [mem_reverse] at hb
      exact decide_eq_true (fun heq => hz (heq ▸ hb))
  constructor
  · intro h
    have hsame : x = y := by rw [← hlast hx, h, hlast hy]
    rw [hsame] at h
    exact ⟨append_cancel_right h, hsame⟩
  · rintro ⟨rfl, rfl⟩
    rfl

theorem rdropWhile_append {p : α → Bool} {xs ys : List α} (h : ys.rdropWhile p ≠ []) :
    (xs ++ ys).rdropWhile p = xs ++ ys.rdropWhile p := by
  have hrev : ys.reverse.dropWhile p ≠ [] := by
    simpa [rdropWhile] using h
  unfold rdropWhile
  rw [reverse_append, dropWhile_append]
  simp only [List.isEmpty_iff, hrev, if_false]
  rw [reverse_append, reverse_reverse]

theorem rdropWhile_intercalate [DecidableEq α] {parts : List (List α)}
    (hsep : ∀ part ∈ parts, sep ∉ part) (h : parts.rdropWhile isEmpty ≠ []) :
    ([sep].intercalate parts).rdropWhile (fun b => b == sep) =
      [sep].intercalate (parts.rdropWhile isEmpty) := by
  induction parts using reverseRecOn with
  | nil => exact absurd rfl h
  | append_singleton front last ih =>
    have hfrontSep : ∀ part ∈ front, sep ∉ part := fun part hpart => hsep part (by simp [hpart])
    rcases eq_nil_or_concat' last with rfl | ⟨init, b, rfl⟩
    · rw [rdropWhile_concat_pos _ _ _ (by simp)] at h ⊢
      have hfront : front ≠ [] := by
        rintro rfl
        exact h rfl
      rw [intercalate_concat _ hfront, rdropWhile_concat_pos _ _ _ (by simp)]
      exact ih hfrontSep h
    · rw [rdropWhile_concat_neg isEmpty _ _ (by simp)]
      have hb : b ≠ sep := by
        rintro rfl
        exact hsep (init ++ [b]) (by simp) (by simp)
      have hlast : (init ++ [b]).rdropWhile (fun b => b == sep) = init ++ [b] :=
        rdropWhile_concat_neg _ _ _ (by simpa using hb)
      by_cases hfront : front = []
      · subst hfront
        simpa [intercalate] using hlast
      · have hassoc : [sep].intercalate front ++ sep :: (init ++ [b]) =
            ([sep].intercalate front ++ sep :: init) ++ [b] := by simp
        rw [intercalate_concat _ hfront, hassoc, rdropWhile_concat_neg _ _ _ (by simpa using hb)]

end Join

end ProximaDb.Lib
