/-
  ProximaDb.Pax.Stripe

  The stripes of a block: a column of values encoded, with the metadata it is skipped by (bounds,
  and hash bounds and a Bloom filter of a string column). The other integer codecs with their
  selection, LZ4 and MessagePack are a parameter. The data of double columns is left out.
-/
import ProximaDb.Lib.BitArray
import ProximaDb.Lib.MarkedBounds
import ProximaDb.Pax.Value

namespace ProximaDb.Pax

open ProximaDb.Lib List

/-! ## Hashes and the Bloom filter -/

def fnv1aHash (s : String) : UInt64 :=
  (utf8 s).foldl (fun h b => (h ^^^ b.toUInt64) * 0x100000001b3) 0xcbf29ce484222325

def mixHash64 (value : UInt64) : UInt64 :=
  let value := value ^^^ (value >>> 30)
  let value := value * 0xbf58476d1ce4e5b9
  let value := value ^^^ (value >>> 27)
  let value := value * 0x94d049bb133111eb
  value ^^^ (value >>> 31)

def bloomSalts : List UInt64 := [0x9e3779b97f4a7c15, 0xbf58476d1ce4e5b9, 0x94d049bb133111eb]

/-- The bits of a hash in a filter of `len` bytes. -/
def bloomBits (len : Nat) (hash : UInt64) : List Nat :=
  bloomSalts.map (fun salt => (mixHash64 (hash ^^^ salt)).toNat % (len * 8))

def bloomInsertHash (bloom : Bytes) (hash : UInt64) : Bytes :=
  if bloom.isEmpty then bloom else setBits bloom (bloomBits bloom.length hash)

def bloomMayContainHash (bloom : Bytes) (hash : UInt64) : Bool :=
  bloom.isEmpty || (bloomBits bloom.length hash).all (getBit bloom)

theorem length_bloomInsertHash (bloom : Bytes) (hash : UInt64) :
    (bloomInsertHash bloom hash).length = bloom.length := by
  unfold bloomInsertHash
  split
  · rfl
  · exact length_setBits _ _

theorem bloomMayContainHash_insert_self (bloom : Bytes) (hash : UInt64) :
    bloomMayContainHash (bloomInsertHash bloom hash) hash = true := by
  unfold bloomMayContainHash
  rw [length_bloomInsertHash]
  cases hempty : bloom.isEmpty with
  | true => simp [bloomInsertHash, hempty]
  | false =>
    rw [Bool.or_eq_true, all_eq_true]
    refine Or.inr (fun i hi => ?_)
    rw [bloomInsertHash, hempty, if_neg Bool.false_ne_true]
    have hpos : 0 < bloom.length := length_pos_iff.2 (by simpa using hempty)
    have hlt : i < bloom.length * 8 := by
      obtain ⟨salt, -, rfl⟩ := mem_map.1 hi
      exact Nat.mod_lt _ (by omega)
    rw [getBit_setBits, decide_eq_true ⟨hi, hlt⟩, Bool.true_or]

theorem bloomMayContainHash_insert {bloom : Bytes} {hash : UInt64}
    (h : bloomMayContainHash bloom hash = true) (other : UInt64) :
    bloomMayContainHash (bloomInsertHash bloom other) hash = true := by
  unfold bloomMayContainHash at h ⊢
  rw [length_bloomInsertHash]
  cases hempty : bloom.isEmpty with
  | true => simp [bloomInsertHash, hempty]
  | false =>
    rw [hempty, Bool.false_or, all_eq_true] at h
    rw [Bool.or_eq_true, all_eq_true]
    refine Or.inr (fun i hi => ?_)
    rw [bloomInsertHash, hempty, if_neg Bool.false_ne_true]
    rw [getBit_setBits, h i hi, Bool.or_true]

/-! ## Column metadata -/

/-- The type of a column and its bounds (`data_type_id`, `min_val`, `max_val`). -/
inductive ColumnStats
  | i64 (min max : Int)
  | f64 (min max : F64)
  /-- strings by their hashes, and byte columns, which have no bounds -/
  | hash (min max : Nat)
  | vector

/-- The metadata of a column; where its bytes are is left out. -/
structure ColumnMeta where
  columnId : Int
  stats : ColumnStats
  encodingId : UInt8
  isLz4Compressed : Bool
  stripeLen : Nat
  nullCount : Nat
  distinctHint : Nat

namespace ColumnMeta

/-- `i64_in_range`, asked of integer columns. -/
def i64InRange (m : ColumnMeta) (value : Int) : Bool :=
  match m.stats with
  | .i64 min max => m.distinctHint == 0 || (decide (min ≤ value) && decide (value ≤ max))
  | _ => true

/-- `i64_range_overlaps`, asked of integer columns. -/
def i64RangeOverlaps (m : ColumnMeta) (lo hi : Int) : Bool :=
  match m.stats with
  | .i64 min max =>
    decide (lo ≤ hi) && (m.distinctHint == 0 || (decide (lo ≤ max) && decide (min ≤ hi)))
  | _ => true

/-- `f64_range_overlaps`, asked of double columns. -/
def f64RangeOverlaps (m : ColumnMeta) (lo hi : F64) : Bool :=
  match m.stats with
  | .f64 min max =>
    !hi.lt lo && (m.distinctHint == 0 || decide (min = .nan) || decide (max = .nan) ||
      (lo.le max && min.le hi))
  | _ => true

/-- `hash64_in_range`, asked of string columns. -/
def hash64InRange (m : ColumnMeta) (hash : Nat) : Bool :=
  match m.stats with
  | .hash min max =>
    m.distinctHint == 0 || (min == 0 && max == 0) || (decide (min ≤ hash) && decide (hash ≤ max))
  | _ => true

end ColumnMeta

/-- A column of a block: metadata, encoded data, and the Bloom filter if it has one. -/
structure ColumnStripe where
  info : ColumnMeta
  data : Bytes
  bloom : Bytes

/-! ## Statistics -/

def updateI64Bounds (bounds : Int × Int) (value : Int) : Int × Int := extendBounds 0 bounds value

def i64Bounds (values : List Int) : Int × Int := values.foldl updateI64Bounds (0, 0)

theorem i64Bounds_eq (values : List Int) : i64Bounds values = markedBounds 0 values := rfl

/-- The bounds of the doubles that are numbers. -/
def f64Bounds (values : List F64) : F64 × F64 :=
  match values.filter (fun v => decide (v ≠ .nan)) with
  | [] => (.finite 0, .finite 0)
  | first :: rest => rest.foldl (fun b v => (b.1.min v, b.2.max v)) (first, first)

/-- The number of distinct values, up to the largest `u32`. -/
def distinctCount {α : Type} [DecidableEq α] (values : List α) : Nat :=
  min values.dedup.length (2 ^ 32 - 1)

theorem distinctCount_eq_zero {α : Type} [DecidableEq α] {values : List α} :
    distinctCount values = 0 ↔ values = [] := by
  rw [distinctCount, Nat.min_eq_zero_iff, length_eq_zero_iff, dedup_eq_nil]
  exact or_iff_left (by decide)

structure StringStats where
  distinctHint : Nat
  minHash : Nat
  maxHash : Nat
  bloom : Bytes

def stringBloomBytes : Nat := 32

/-- The smallest and largest hash and the Bloom filter, value by value. -/
def hashStep (acc : Nat × Nat × Bytes) (value : String) : Nat × Nat × Bytes :=
  let hash := fnv1aHash value
  (min acc.1 hash.toNat, max acc.2.1 hash.toNat, bloomInsertHash acc.2.2 hash)

def stringStats (values : List (Option String)) : StringStats :=
  match values.reduceOption with
  | [] => ⟨0, 0, 0, []⟩
  | present =>
    let acc := present.foldl hashStep (2 ^ 64 - 1, 0, List.replicate stringBloomBytes 0)
    ⟨distinctCount present, acc.1, acc.2.1, acc.2.2⟩

/-- What the hash statistics say of a string they were taken over. -/
structure Hashed (acc : Nat × Nat × Bytes) (s : String) : Prop where
  lower : acc.1 ≤ (fnv1aHash s).toNat
  upper : (fnv1aHash s).toNat ≤ acc.2.1
  bloom : bloomMayContainHash acc.2.2 (fnv1aHash s) = true

theorem hashed_hashStep_self (acc : Nat × Nat × Bytes) (s : String) : Hashed (hashStep acc s) s :=
  ⟨min_le_right _ _, le_max_right _ _, bloomMayContainHash_insert_self _ _⟩

variable {s : String} {acc : Nat × Nat × Bytes}

theorem Hashed.hashStep (h : Hashed acc s) (t : String) : Hashed (hashStep acc t) s :=
  ⟨le_trans (min_le_left _ _) h.lower, le_trans h.upper (le_max_left _ _),
    bloomMayContainHash_insert h.bloom _⟩

theorem Hashed.foldl (h : Hashed acc s)
    (values : List String) : Hashed (values.foldl Pax.hashStep acc) s :=
  values.foldlRecOn Pax.hashStep (motive := (Hashed · s)) h (fun _ h t _ => h.hashStep t)

theorem hashed_of_mem {values : List String} (hs : s ∈ values)
    (acc : Nat × Nat × Bytes) : Hashed (values.foldl hashStep acc) s := by
  obtain ⟨before, after, rfl⟩ := append_of_mem hs
  rw [foldl_append, foldl_cons]
  exact (hashed_hashStep_self _ s).foldl after

theorem hashed_stringStats {values : List (Option String)} (hs : some s ∈ values) :
    Hashed ((stringStats values).minHash, (stringStats values).maxHash, (stringStats values).bloom)
      s := by
  have hmem : s ∈ values.reduceOption := reduceOption_mem_iff.2 hs
  unfold stringStats
  cases hpresent : values.reduceOption with
  | nil =>
    rw [hpresent] at hmem
    exact absurd hmem not_mem_nil
  | cons first rest =>
    rw [hpresent] at hmem
    exact hashed_of_mem hmem _

/-! ## Codecs -/

/-- The codecs a block is written and read with. Integer schemes other than the raw one are `Coded`;
    strings are raw or by dictionary. -/
structure Codecs where
  Coded : Type
  /-- the byte a scheme is stored as; 0, 1 and 3 are read as raw -/
  marker : Coded → UInt8
  marker_ne_raw : ∀ s, marker s ≠ 0 ∧ marker s ≠ 1 ∧ marker s ≠ 3
  /-- `select_i64_scheme` for a user column; `none` is raw -/
  selectI64 : List (Option Int) → Option Coded
  encodeCoded : Coded → List Int → Option Bytes
  decodeCoded : Bytes → UInt8 → Nat → Option (List Int)
  /-- `select_str_scheme` for a user column -/
  strByDictionary : List (Option String) → Bool
  /-- `compress_lz4_if_smaller` -/
  compressLz4 : Bytes → Option Bytes
  decompressLz4 : Bytes → Option Bytes
  packTree : ProximaTree → Option Bytes
  unpackTree : Bytes → Option ProximaTree
  packDirectory : List ShredColumn → Option Bytes
  unpackDirectory : Bytes → Option (List ShredColumn)

inductive PaxError
  | codec
  | messagePack

/-- The little-endian bytes of an `i64`. -/
def i64Bytes (x : Int) : Bytes := leBytes 8 (x % 2 ^ 64).toNat

def i64OfBytes (bs : Bytes) : Int :=
  if leNat bs < 2 ^ 63 then leNat bs else leNat bs - 2 ^ 64

def rawEncodeI64 (values : List Int) : Bytes := values.flatMap i64Bytes

/-- As many chunks of eight bytes as there are. -/
def rawChunks : Nat → Bytes → List Int
  | 0, _ => []
  | n + 1, bs => i64OfBytes (bs.take 8) :: rawChunks n (bs.drop 8)

def rawDecodeI64 (data : Bytes) : Option (List Int) :=
  if data.length % 8 = 0 then some (rawChunks (data.length / 8) data) else none

def rawMarker : UInt8 := 1

def dictionaryMarker : UInt8 := 0x60

namespace Codecs

variable (c : Codecs)

def markerOf : Option c.Coded → UInt8
  | none => rawMarker
  | some s => c.marker s

def encodeI64WithScheme (values : List Int) : Option c.Coded → Except PaxError Bytes
  | none => .ok (rawEncodeI64 values)
  | some s =>
    match c.encodeCoded s values with
    | some data => .ok data
    | none => .error .codec

def decodeI64WithEncoding (data : Bytes) (encodingId : UInt8) (count : Nat) : Option (List Int) :=
  if encodingId = 0 ∨ encodingId = 1 ∨ encodingId = 3 then rawDecodeI64 data
  else c.decodeCoded data encodingId count

/-- A page of nothing but nulls needs no bytes; others are compressed where that pays. -/
def encodeLosslessScalar (enabled : Bool) (data : Bytes) (nullCount rowCount : Nat) :
    Bytes × Bool :=
  if !enabled then (data, false)
  else if 0 < rowCount ∧ nullCount = rowCount then ([], false)
  else
    match c.compressLz4 data with
    | some compressed => (compressed, true)
    | none => (data, false)

end Codecs

def rawCodecs : Codecs where
  Coded := Empty
  marker := nofun
  marker_ne_raw := nofun
  selectI64 _ := none
  encodeCoded := nofun
  decodeCoded _ _ _ := none
  strByDictionary _ := false
  compressLz4 _ := none
  decompressLz4 _ := none
  packTree _ := some [0]
  unpackTree _ := none
  packDirectory _ := some [0]
  unpackDirectory _ := none

/-! ## Strings -/

/-- The length in four bytes and the bytes of a string. -/
def strBytes (s : String) : Bytes := leBytes 4 (utf8 s).length ++ utf8 s

def nullBytes : Bytes := leBytes 4 (2 ^ 32 - 1)

def encodeStrCol (values : List (Option String)) : Bytes :=
  values.flatMap (fun v => v.elim nullBytes strBytes)

/-- The strings of a column in the order they first occur. -/
def dictionaryOf (values : List (Option String)) : List String :=
  values.reduceOption.reverse.dedup.reverse

def encodeStrDictionaryCol (values : List (Option String)) : Bytes :=
  let dictionary := dictionaryOf values
  leBytes 4 dictionary.length ++ dictionary.flatMap strBytes ++
    values.flatMap (fun v => v.elim nullBytes (fun s => leBytes 4 (dictionary.idxOf s)))

/-! ## Builders -/

/-- `flatten_i64_values`: nulls ride along as the smallest integer. -/
def flattenI64 (vals : List (Option Int)) : List Int := vals.map (fun v => v.getD i64Min)

/-- The scheme and the bytes of an integer column: with nulls in it, the selected scheme is only
    used if it decodes back, and raw otherwise. -/
def encodeI64Column (c : Codecs) (vals : List (Option Int)) :
    Except PaxError (Option c.Coded × Bytes) :=
  let raw := flattenI64 vals
  let nulls := vals.count none
  let scheme := c.selectI64 vals
  match c.encodeI64WithScheme raw scheme with
  | .ok data =>
    if nulls = 0 ∨ c.decodeI64WithEncoding data (c.markerOf scheme) raw.length = some raw then
      .ok (scheme, data)
    else .ok (none, rawEncodeI64 raw)
  | .error e => if nulls = 0 then .error e else .ok (none, rawEncodeI64 raw)

def buildI64Stripe (c : Codecs) (lossless : Bool) (id : Int) (vals : List (Option Int)) :
    Except PaxError ColumnStripe := do
  let (scheme, data) ← encodeI64Column c vals
  let (data, isLz4) := c.encodeLosslessScalar lossless data (vals.count none) vals.length
  let present := vals.reduceOption
  let (min, max) := i64Bounds present
  let info : ColumnMeta := {
    columnId := id
    stats := .i64 min max
    encodingId := c.markerOf scheme
    isLz4Compressed := isLz4
    stripeLen := data.length
    nullCount := vals.count none
    distinctHint := distinctCount present }
  .ok ⟨info, data, []⟩

def buildF64Stripe (id : Int) (vals : List (Option F64)) : ColumnStripe :=
  let present := vals.reduceOption
  let (min, max) := f64Bounds present
  let info : ColumnMeta := {
    columnId := id
    stats := .f64 min max
    encodingId := rawMarker
    isLz4Compressed := false
    stripeLen := 0
    nullCount := vals.count none
    distinctHint := distinctCount present }
  ⟨info, [], []⟩

def buildStrStripe (c : Codecs) (lossless : Bool) (id : Int) (vals : List (Option String)) :
    ColumnStripe :=
  let byDictionary := c.strByDictionary vals
  let data := if byDictionary then encodeStrDictionaryCol vals else encodeStrCol vals
  let (data, isLz4) := c.encodeLosslessScalar lossless data (vals.count none) vals.length
  let stats := stringStats vals
  let info : ColumnMeta := {
    columnId := id
    stats := .hash stats.minHash stats.maxHash
    encodingId := if byDictionary then dictionaryMarker else rawMarker
    isLz4Compressed := isLz4
    stripeLen := data.length
    nullCount := vals.count none
    distinctHint := stats.distinctHint }
  ⟨info, data, stats.bloom⟩

/-- The typed stripe of a shredded property; what does not fit its class is null there. -/
def buildShredStripe (c : Codecs) (lossless : Bool) (id : Int)
    (vals : List (Option ProximaValue)) (declared : Option ProximaType) :
    Except PaxError ColumnStripe :=
  match columnClass declared vals with
  | some .int => buildI64Stripe c lossless id (vals.map (fun v => v.bind pvToI64))
  | some .float => .ok (buildF64Stripe id (vals.map (fun v => v.bind pvToF64)))
  | _ => .ok (buildStrStripe c lossless id (vals.map (fun v => v.bind pvToStr)))

end ProximaDb.Pax
