/-
  ProximaDb.Codec.Repeats

  The codecs for repeated values (runs, and a dictionary with a variable-length code for each
  value) and for columns that are mostly zero (coordinate pairs, or a bitmap of the other places).
  Counts and run lengths are stored in four bytes, so they are stated for fewer than 2 ^ 32
  values, which is what a block holds.
-/
import ProximaDb.Codec.Packing
import ProximaDb.Lib.Traces

namespace ProximaDb.Codec

open ProximaDb.Lib Format List Option

variable {values : List Word}

theorem toNat_ofNat_of_lt {n : Nat} (h : n < 2 ^ 32) : (BitVec.ofNat 32 n).toNat = n := by
  rw [BitVec.toNat_ofNat, Nat.mod_eq_of_lt h]

/-- As many entries are read as a header of 32 bits says. -/
theorem getMany_take {α : Type} (f : Format α) (entries : List α) (rest : Bytes) {k : Nat}
    (hk : k = entries.length % 2 ^ 32) :
    getMany f (BitVec.ofNat 32 entries.length).toNat (entries.flatMap f.put ++ rest) =
      some (entries.take k, (entries.drop k).flatMap f.put ++ rest) := by
  have hlen : (entries.take k).length = k := length_take_of_le (hk ▸ Nat.mod_le _ _)
  have h := getMany_flatMap_put f (entries.take k) ((entries.drop k).flatMap f.put ++ rest)
  rw [hlen, ← append_assoc, ← flatMap_append, take_append_drop] at h
  rw [BitVec.toNat_ofNat, ← hk, h]

/-- The runs of a list behind a run of `len` times `current`. -/
def runsFrom (current : Word) (len : BitVec 32) : List Word → List (BitVec 32 × Word)
  | [] => [(len, current)]
  | v :: rest =>
    if v = current then runsFrom current (len + 1) rest
    else (len, current) :: runsFrom v 1 rest

def run : Format (BitVec 32 × Word) := pair word32 word64

/-- `[number of runs]([run length][value])*` -/
def encodeRleWire : List Word → Bytes
  | [] => []
  | v :: rest =>
    let runs := runsFrom v 1 rest
    word32.put (BitVec.ofNat 32 runs.length) ++ runs.flatMap run.put

def expand (runs : List (BitVec 32 × Word)) : List Word :=
  runs.flatMap (fun r => List.replicate r.1.toNat r.2)

def decodeRleWire (data : Bytes) : Option (List Word) :=
  if data = [] then some []
  else
    (word32.get data).bind (fun p =>
      (getMany run p.1.toNat p.2).map (fun runs => expand runs.1))

/-- The distinct values in the order they are first seen. -/
def dictionaryOf (values : List Word) : List Word :=
  values.foldl (fun dict v => if v ∈ dict then dict else dict ++ [v]) []

def codeOf (dict : List Word) (v : Word) : Word := (BitVec.ofNat 32 (dict.idxOf v)).setWidth 64

/-- `[number of values][values][codes]` -/
def encodeDictionaryWire (values : List Word) : Bytes :=
  if values = [] then []
  else
    let dict := dictionaryOf values
    word32.put (BitVec.ofNat 32 dict.length) ++
      (dict.flatMap word64.put ++ (values.map (codeOf dict)).flatMap varint.put)

def decodeDictionaryWire (data : Bytes) (count : Nat) : Option (List Word) :=
  if count = 0 then some []
  else
    (word32.get data).bind (fun p =>
      (getMany word64 p.1.toNat p.2).bind (fun dict =>
        (getMany varint count dict.2).bind (fun codes =>
          codes.1.mapM (fun code => dict.1[code.toNat]?))))

def encodeVbyteWire (values : List Word) : Bytes := values.flatMap varint.put

def decodeVbyteWire (data : Bytes) (count : Nat) : Option (List Word) :=
  (getMany varint count data).map Prod.fst

/-- The values that are not zero with their places, counted from `k`. -/
def nonzeroFrom (k : Nat) : List Word → List (Nat × Word)
  | [] => []
  | v :: rest => if v = 0 then nonzeroFrom (k + 1) rest else (k, v) :: nonzeroFrom (k + 1) rest

def coordinates (values : List Word) : List (BitVec 32 × Word) :=
  (nonzeroFrom 0 values).map (fun p => (BitVec.ofNat 32 p.1, p.2))

/-- `[number of values]([place][value])*` -/
def encodeSparseCooWire (values : List Word) : Bytes :=
  if values = [] then []
  else
    word32.put (BitVec.ofNat 32 (coordinates values).length) ++ (coordinates values).flatMap run.put

def placeAll (start : List Word) (coords : List (BitVec 32 × Word)) : List Word :=
  coords.foldl (fun result c => result.set c.1.toNat c.2) start

def decodeSparseCooWire (data : Bytes) (count : Nat) : Option (List Word) :=
  if count = 0 then some []
  else
    (word32.get data).bind (fun p =>
      (getMany run p.1.toNat p.2).map (fun coords => placeAll (List.replicate count 0) coords.1))

theorem getElem?_placeAll {start : List Word} {coords : List (BitVec 32 × Word)} {i : Nat}
    (h : ∀ c ∈ coords, c.1.toNat ≠ i) : (placeAll start coords)[i]? = start[i]? := by
  induction coords generalizing start with
  | nil => rfl
  | cons c coords ih =>
    rw [placeAll, foldl_cons, ← placeAll, ih (fun c hc => h c (mem_cons_of_mem _ hc)),
      getElem?_set_ne (h c mem_cons_self)]

/-- Values that were left out put back in their places, if these have 32 bits. -/
theorem placeAll_left_out (p : Word → Bool) (f : Word → Word) (front : List Word)
    (h : ∀ q ∈ values.zipIdx front.length, p q.1 = true → q.2 < 2 ^ 32) :
    placeAll (front ++ values.map (fun v => if p v then 0 else f v))
      (((values.zipIdx front.length).filter (fun q => p q.1)).map
        (fun q => (BitVec.ofNat 32 q.2, q.1))) =
      front ++ values.map (fun v => if p v then v else f v) := by
  induction values generalizing front with
  | nil => simp [placeAll]
  | cons v rest ih =>
    rw [zipIdx_cons, forall_mem_cons] at h
    have hnext : ∀ w, _ := fun w =>
      ih (front ++ [w]) (by rw [length_append, length_singleton]; exact h.2)
    simp only [length_append, length_singleton, append_assoc, singleton_append] at hnext
    rw [zipIdx_cons, map_cons, map_cons]
    cases hp : p v with
    | false =>
      rw [filter_cons_of_neg (by simp [hp])]
      exact hnext (f v)
    | true =>
      rw [filter_cons_of_pos (by simp [hp]), map_cons, placeAll, foldl_cons,
        toNat_ofNat_of_lt (h.1 hp), set_append_right _ _ le_rfl, Nat.sub_self]
      exact hnext v

def nonzeroBitmap (values : List Word) : Bytes :=
  setBits (List.replicate ((values.length + 7) / 8) 0) ((nonzeroFrom 0 values).map Prod.fst)

/-- `[number of values][bitmap][values]` -/
def encodeSparseBitmapWire (values : List Word) : Bytes :=
  if values = [] then []
  else
    let present := (nonzeroFrom 0 values).map Prod.snd
    word32.put (BitVec.ofNat 32 present.length) ++
      (nonzeroBitmap values ++ present.flatMap word64.put)

/-- The next value wherever the bitmap says so, as long as there are any. -/
def fillFrom (bitmap : Bytes) : Nat → Nat → List Word → List Word
  | _, 0, _ => []
  | k, n + 1, [] => 0 :: fillFrom bitmap (k + 1) n []
  | k, n + 1, v :: rest =>
    if getBit bitmap k then v :: fillFrom bitmap (k + 1) n rest
    else 0 :: fillFrom bitmap (k + 1) n (v :: rest)

def decodeSparseBitmapWire (data : Bytes) (count : Nat) : Option (List Word) :=
  if count = 0 then some []
  else
    (word32.get data).bind (fun p =>
      (takeExact ((count + 7) / 8) p.2).bind (fun q =>
        (getMany word64 p.1.toNat q.2).map (fun values => fillFrom q.1 0 count values.1)))

end ProximaDb.Codec
