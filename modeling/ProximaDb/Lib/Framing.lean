/-
  ProximaDb.Lib.Framing

  Files of frames (a big-endian length of four bytes, a tag of eight, and the payload) and streams
  of self-delimiting records. A reader takes whole pieces from the front and stops where the bytes
  hold none, so a file splits into its frames (`frames`) and what is left (`tailOf`).
-/
import ProximaDb.Lib.Bytes

namespace ProximaDb.Lib

open List

/-! ## Big-endian integers -/

variable {n : Nat} {rest bs : Bytes} {f : Nat × Bytes} {width : Nat} {a b : Bytes} {got : Bytes}

/-- The low `width` bytes of `n`, most significant first (`to_be_bytes`). -/
def beBytes (width n : Nat) : Bytes := (leBytes width n).reverse

/-- The value of a big-endian byte string (`from_be_bytes`). -/
def beNat (bs : Bytes) : Nat := leNat bs.reverse

@[simp] theorem length_beBytes (width n : Nat) : (beBytes width n).length = width := by
  simp [beBytes]

theorem beNat_beBytes (h : n < 256 ^ width) : beNat (beBytes width n) = n := by
  rw [beNat, beBytes, reverse_reverse, leNat_leBytes h]

/-! ## Frames -/

def frame (tag : Nat) (payload : Bytes) : Bytes :=
  beBytes 4 payload.length ++ beBytes 8 tag ++ payload

def FrameFits (tag : Nat) (payload : Bytes) : Prop := tag < 2 ^ 64 ∧ payload.length < 2 ^ 32

instance (tag : Nat) (payload : Bytes) : Decidable (FrameFits tag payload) :=
  inferInstanceAs (Decidable (_ ∧ _))

theorem length_frame (tag : Nat) (payload : Bytes) :
    (frame tag payload).length = 12 + payload.length := by
  simp only [frame, length_append, length_beBytes]

def splitFrame (bs : Bytes) : Option ((Nat × Bytes) × Bytes) := do
  let (len, bs) ← takeExact 4 bs
  let (tag, bs) ← takeExact 8 bs
  let (payload, bs) ← takeExact (beNat len) bs
  some ((beNat tag, payload), bs)

theorem takeExact_append_right (h : takeExact n a = some (got, rest)) :
    takeExact n (a ++ b) = some (got, rest ++ b) := by
  unfold takeExact at h
  split_ifs at h with hn
  cases h
  rw [takeExact, if_pos (by rw [length_append]; omega), take_append_of_le_length hn,
    drop_append_of_le_length hn]

theorem length_of_takeExact (h : takeExact n bs = some (got, rest)) :
    rest.length + n = bs.length := by
  unfold takeExact at h
  split_ifs at h with hn
  cases h
  rw [length_drop]
  omega

theorem splitFrame_eq_some :
    splitFrame bs = some (f, rest) ↔ ∃ len bs₁ tag bs₂ payload, takeExact 4 bs = some (len, bs₁) ∧
      takeExact 8 bs₁ = some (tag, bs₂) ∧ takeExact (beNat len) bs₂ = some (payload, rest) ∧
      f = (beNat tag, payload) := by
  unfold splitFrame
  constructor
  · intro h
    obtain ⟨⟨len, bs₁⟩, h₁, h⟩ := Option.bind_eq_some_iff.1 h
    obtain ⟨⟨tag, bs₂⟩, h₂, h⟩ := Option.bind_eq_some_iff.1 h
    obtain ⟨⟨payload, bs₃⟩, h₃, h⟩ := Option.bind_eq_some_iff.1 h
    cases h
    exact ⟨len, bs₁, tag, bs₂, payload, h₁, h₂, h₃, rfl⟩
  · rintro ⟨len, bs₁, tag, bs₂, payload, h₁, h₂, h₃, rfl⟩
    simp [h₁, h₂, h₃]

theorem splitFrame_append (h : splitFrame a = some (f, rest)) :
    splitFrame (a ++ b) = some (f, rest ++ b) := by
  obtain ⟨len, bs₁, tag, bs₂, payload, h₁, h₂, h₃, rfl⟩ := splitFrame_eq_some.1 h
  exact splitFrame_eq_some.2 ⟨len, _, tag, _, payload, takeExact_append_right h₁,
    takeExact_append_right h₂, takeExact_append_right h₃, rfl⟩

theorem length_of_splitFrame (h : splitFrame bs = some (f, rest)) : rest.length < bs.length := by
  obtain ⟨len, bs₁, tag, bs₂, payload, h₁, h₂, h₃, -⟩ := splitFrame_eq_some.1 h
  have := length_of_takeExact h₁
  have := length_of_takeExact h₂
  have := length_of_takeExact h₃
  omega

variable {payload : Bytes} {tag : Nat}

theorem splitFrame_frame (h : FrameFits tag payload) (rest : Bytes) :
    splitFrame (frame tag payload ++ rest) = some ((tag, payload), rest) := by
  have htag : beNat (beBytes 8 tag) = tag := beNat_beBytes h.1
  have hlen : beNat (beBytes 4 payload.length) = payload.length := beNat_beBytes h.2
  refine splitFrame_eq_some.2 ⟨beBytes 4 payload.length, beBytes 8 tag ++ payload ++ rest,
    beBytes 8 tag, payload ++ rest, payload, ?_, ?_, ?_, by rw [htag]⟩
  · exact takeExact_append (length_beBytes _ _) _
  · rw [append_assoc]
    exact takeExact_append (length_beBytes _ _) _
  · rw [hlen]
    exact takeExact_append rfl _

/-! ## Files of frames -/

/-- Take frames until there is none; every frame uses up bytes, so as many rounds as there are bytes
    are enough. -/
def scanFrames : Nat → Bytes → List (Nat × Bytes) × Bytes
  | 0, bs => ([], bs)
  | fuel + 1, bs =>
    match splitFrame bs with
    | none => ([], bs)
    | some (f, rest) => (f :: (scanFrames fuel rest).1, (scanFrames fuel rest).2)

def frames (bs : Bytes) : List (Nat × Bytes) := (scanFrames bs.length bs).1

def tailOf (bs : Bytes) : Bytes := (scanFrames bs.length bs).2

theorem frames_induction {P : Bytes → Prop} (hnone : ∀ bs, splitFrame bs = none → P bs)
    (hsome : ∀ bs f rest, splitFrame bs = some (f, rest) → P rest → P bs) (bs : Bytes) : P bs := by
  cases hs : splitFrame bs with
  | none => exact hnone bs hs
  | some x =>
    have := length_of_splitFrame hs
    exact hsome bs x.1 x.2 hs (frames_induction hnone hsome x.2)
termination_by bs.length

theorem scanFrames_congr {n m : Nat} (hn : bs.length ≤ n) (hm : bs.length ≤ m) :
    scanFrames n bs = scanFrames m bs := by
  induction bs using frames_induction generalizing n m with
  | hnone bs h => cases n <;> cases m <;> simp [scanFrames, h]
  | hsome bs f rest h ih =>
    have hshort := length_of_splitFrame h
    cases n with
    | zero => omega
    | succ n =>
      cases m with
      | zero => omega
      | succ m =>
        simp only [scanFrames, h]
        rw [@ih n m (by omega) (by omega)]

theorem frames_of_none (h : splitFrame bs = none) : frames bs = [] ∧ tailOf bs = bs := by
  unfold frames tailOf
  cases hlen : bs.length with
  | zero => exact ⟨rfl, rfl⟩
  | succ n => simp [scanFrames, h]

theorem frames_of_some (h : splitFrame bs = some (f, rest)) :
    frames bs = f :: frames rest ∧ tailOf bs = tailOf rest := by
  have hshort := length_of_splitFrame h
  obtain ⟨n, hn⟩ : ∃ n, bs.length = n + 1 := ⟨bs.length - 1, by omega⟩
  have hscan : scanFrames bs.length bs = (f :: frames rest, tailOf rest) := by
    rw [hn]
    simp only [scanFrames, h]
    rw [scanFrames_congr (show rest.length ≤ n by omega) le_rfl]
    rfl
  rw [frames, tailOf, hscan]
  exact ⟨rfl, rfl⟩

theorem frames_prefix (a b : Bytes) : frames a <+: frames (a ++ b) := by
  induction a using frames_induction with
  | hnone a h =>
    rw [(frames_of_none h).1]
    exact nil_prefix
  | hsome a f rest h ih =>
    rw [(frames_of_some h).1, (frames_of_some (splitFrame_append h)).1]
    exact cons_prefix_cons.2 ⟨rfl, ih⟩

theorem frames_append (h : tailOf a = []) (b : Bytes) :
    frames (a ++ b) = frames a ++ frames b ∧ tailOf (a ++ b) = tailOf b := by
  induction a using frames_induction with
  | hnone a hnone =>
    rw [(frames_of_none hnone).2] at h
    subst h
    exact ⟨rfl, rfl⟩
  | hsome a f rest hsome ih =>
    rw [(frames_of_some hsome).2] at h
    obtain ⟨hframes, htail⟩ := ih h
    rw [(frames_of_some hsome).1, (frames_of_some (splitFrame_append hsome)).1,
      (frames_of_some (splitFrame_append hsome)).2, hframes, htail]
    exact ⟨rfl, rfl⟩

theorem frames_frame (h : FrameFits tag payload) :
    frames (frame tag payload) = [(tag, payload)] ∧ tailOf (frame tag payload) = [] := by
  have hsplit := splitFrame_frame h []
  rw [append_nil] at hsplit
  exact frames_of_some hsplit

theorem frames_append_frame (ha : tailOf a = [])
    (h : FrameFits tag payload) : frames (a ++ frame tag payload) = frames a ++ [(tag, payload)] ∧
      tailOf (a ++ frame tag payload) = [] := by
  obtain ⟨hframes, htail⟩ := frames_append ha (frame tag payload)
  rw [hframes, htail, (frames_frame h).1, (frames_frame h).2]
  exact ⟨rfl, rfl⟩

inductive Read (α : Type)
  | value (a : α) (rest : Bytes)
  | eof
  | invalid
  deriving DecidableEq

abbrev Reader (α : Type) := Bytes → Read α

namespace Reader

variable {α β : Type}

def ret (a : α) : Reader α := fun bs => .value a bs

def invalid : Reader α := fun _ => .invalid

def bind (get : Reader α) (f : α → Reader β) : Reader β := fun bs =>
  match get bs with
  | .value a rest => f a rest
  | .eof => .eof
  | .invalid => .invalid

/-- Exactly `n` bytes. -/
def take (n : Nat) : Reader Bytes := fun bs =>
  if n ≤ bs.length then .value (bs.take n) (bs.drop n) else .eof

/-- A little-endian integer of `width` bytes. -/
def nat (width : Nat) : Reader Nat := (take width).bind (fun bs => ret (leNat bs))

/-! ## Reading back -/

/-- The bytes are read as `a`, whatever follows them, and no cut of them is a value. -/
structure Reads (get : Reader α) (bytes : Bytes) (a : α) : Prop where
  whole : ∀ rest, get (bytes ++ rest) = .value a rest
  torn : ∀ k, k < bytes.length → get (bytes.take k) = .eof

theorem reads_ret (a : α) : Reads (ret a) [] a := ⟨fun _ => rfl, fun _ h => absurd h (Nat.not_lt_zero _)⟩

theorem reads_take (bytes : Bytes) : Reads (take bytes.length) bytes bytes := by
  refine ⟨fun rest => ?_, fun k hk => ?_⟩
  · rw [take, if_pos (by simp), take_left, drop_left]
  · rw [take, if_neg (by rw [length_take]; omega)]

variable {get : Reader α} {m : Nat}

theorem Reads.bind {f : α → Reader β} {bytes bytes' : Bytes} {a : α} {b : β}
    (h : Reads get bytes a) (h' : Reads (f a) bytes' b) :
    Reads (get.bind f) (bytes ++ bytes') b := by
  refine ⟨fun rest => ?_, fun k hk => ?_⟩
  · rw [Reader.bind, append_assoc, h.whole]
    exact h'.whole rest
  · rw [Reader.bind, take_append]
    by_cases hcut : k < bytes.length
    · -- the cut is inside the first value
      rw [Nat.sub_eq_zero_of_le hcut.le, take_zero, append_nil, h.torn k hcut]
    · rw [length_append] at hk
      rw [take_of_length_le (Nat.le_of_not_lt hcut), h.whole]
      exact h'.torn _ (by omega)

theorem reads_nat (h : n < 256 ^ width) : Reads (nat width) (leBytes width n) n := by
  have htake : Reads (take width) (leBytes width n) (leBytes width n) := by
    have hreads := reads_take (leBytes width n)
    rwa [length_leBytes] at hreads
  have hret : Reads (ret (leNat (leBytes width n))) [] n := by
    rw [leNat_leBytes h]
    exact reads_ret n
  have hbind := htake.bind (f := fun bs => ret (leNat bs)) hret
  rwa [append_nil] at hbind

/-! ## What is consumed -/

/-- A reader leaves at least `n` bytes fewer than it was given. -/
def Consumes (n : Nat) (get : Reader α) : Prop :=
  ∀ bs a rest, get bs = .value a rest → rest.length + n ≤ bs.length

theorem consumes_ret (a : α) : Consumes 0 (ret a) := by
  intro bs b rest h
  cases h
  exact le_rfl

theorem consumes_invalid (n : Nat) : Consumes n (invalid : Reader α) := by
  intro bs b rest h
  cases h

theorem consumes_take (n : Nat) : Consumes n (take n) := by
  intro bs b rest h
  unfold take at h
  split_ifs at h with hle
  cases h
  rw [length_drop]
  omega

theorem Consumes.bind {f : α → Reader β} (h : Consumes m get)
    (h' : ∀ a, Consumes n (f a)) : Consumes (m + n) (get.bind f) := by
  intro bs b rest hb
  unfold Reader.bind at hb
  cases hget : get bs with
  | value a mid =>
    rw [hget] at hb
    have hfirst := h bs a mid hget
    have hsecond := h' a mid b rest hb
    omega
  | eof | invalid =>
    rw [hget] at hb
    cases hb

theorem consumes_nat (width : Nat) : Consumes width (nat width) :=
  (consumes_take width).bind (fun _ => consumes_ret _)

theorem Consumes.mono (h : Consumes n get) (hle : m ≤ n) : Consumes m get := by
  intro bs a rest hb
  have := h bs a rest hb
  omega

end Reader

end ProximaDb.Lib
