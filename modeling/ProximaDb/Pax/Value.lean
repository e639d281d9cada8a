/-
  ProximaDb.Pax.Value

  Property values, their declared types, property trees, the JSON literals that filters see them
  as, and the columns they are shredded into. The integers of a property keep their width; where
  one is an `i64` in between it is an `Int`.
-/
import ProximaDb.Lib.Rounding
import ProximaDb.Lib.Bytes

namespace ProximaDb.Pax

open ProximaDb.Lib

/-! ## Doubles -/

inductive F64
  | nan
  | negInf
  | posInf
  | finite (x : ℚ)
  deriving DecidableEq

namespace F64

/-- The value of a binary float with the given widths of exponent and mantissa. -/
def ofBits (expBits manBits bits : Nat) : F64 :=
  let man := bits % 2 ^ manBits
  let exp := bits / 2 ^ manBits % 2 ^ expBits
  let neg := bits / 2 ^ (manBits + expBits) % 2 == 1
  let bias : Int := 2 ^ (expBits - 1) - 1
  if exp = 2 ^ expBits - 1 then
    if man = 0 then (if neg then .negInf else .posInf) else .nan
  else
    -- an exponent field of zero is that of the subnormal numbers
    let abs : ℚ :=
      if exp = 0 then man * (2 : ℚ) ^ (1 - bias - manBits)
      else ((2 ^ manBits + man : Nat) : ℚ) * (2 : ℚ) ^ ((exp : Int) - bias - manBits)
    .finite (if neg then -abs else abs)

def ofF32 (bits : BitVec 32) : F64 := ofBits 8 23 bits.toNat

def ofF64 (bits : BitVec 64) : F64 := ofBits 11 52 bits.toNat

/-- `a < b`, false on NaN. -/
def lt : F64 → F64 → Bool
  | .nan, _ => false
  | _, .nan => false
  | .negInf, b => decide (b ≠ .negInf)
  | _, .negInf => false
  | .finite x, .finite y => decide (x < y)
  | .finite _, .posInf => true
  | .posInf, _ => false

/-- `a <= b`, false on NaN. -/
def le (a b : F64) : Bool := a.lt b || (decide (a = b) && decide (a ≠ .nan))

def min (a b : F64) : F64 := if b.lt a then b else a

def max (a b : F64) : F64 := if a.lt b then b else a

end F64

/-! ## Conversions -/

def i64Min : Int := -2 ^ 63

def i64Max : Int := 2 ^ 63 - 1

/-- Rounding to the 53 bits of a double, on numbers that are in its range. -/
def roundF64 (q : ℚ) : ℚ := if 0 ≤ q then roundSig 53 q else -roundSig 53 (-q)

/-- `f as i64`: cut off behind the point and kept within `i64`. -/
def f64AsI64 (q : ℚ) : Int :=
  let cut : Int := if 0 ≤ q then ⌊q⌋ else ⌈q⌉
  max i64Min (min i64Max cut)

/-! ## JSON -/

/-- A number as `serde_json` keeps it: an integer of `i64` or `u64`, or a finite double. -/
inductive Number
  | int (n : Int) (h : -2 ^ 63 ≤ n ∧ n < 2 ^ 64)
  | float (x : ℚ)

namespace Number

def ofI64 (x : Int64) : Number :=
  .int x.toInt ⟨x.le_toInt, lt_trans x.toInt_lt (by norm_num)⟩

def ofU64 (x : UInt64) : Number :=
  .int x.toNat ⟨by omega, by exact_mod_cast x.toNat_lt⟩

def asI64 : Number → Option Int
  | .int n _ => if n ≤ i64Max then some n else none
  | .float _ => none

def asU64 : Number → Option Nat
  | .int n _ => if 0 ≤ n then some n.toNat else none
  | .float _ => none

def asF64 : Number → ℚ
  | .int n _ => roundF64 n
  | .float x => x

/-- `Number::from_f64`: only finite doubles are numbers. -/
def fromF64 : F64 → Option Number
  | .finite x => some (.float x)
  | _ => none

end Number

/-- Objects are maps; the order of their fields means nothing. -/
inductive Json
  | null
  | bool (b : Bool)
  | num (n : Number)
  | str (s : String)
  | array (items : List Json)
  | object (fields : List (String × Json))

namespace Json

def isNull : Json → Bool
  | null => true
  | _ => false

def asArray : Json → Option (List Json)
  | array items => some items
  | _ => none

def asStr : Json → Option String
  | str s => some s
  | _ => none

def ofF64 (x : F64) : Json :=
  match Number.fromF64 x with
  | some n => .num n
  | none => .null

/-- `json_get_path`. -/
def getPath : Json → List String → Option Json
  | j, [] => some j
  | object fields, segment :: rest => (fields.lookup segment).bind (fun j => j.getPath rest)
  | _, _ :: _ => none

end Json

/-! ## Declared types and values -/

inductive TimeUnit
  | second
  | millisecond
  | microsecond
  | nanosecond
  deriving DecidableEq

inductive VectorElement
  | float16
  | bfloat16
  | float32
  | float64
  | int8
  deriving DecidableEq

inductive ProximaType
  | boolean
  | int8
  | int16
  | int32
  | int64
  | uint8
  | uint16
  | uint32
  | uint64
  | float16
  | float32
  | float64
  | decimal (precision scale : UInt8)
  | string
  | symbol
  | binary
  | date
  | time (unit : TimeUnit)
  | timestamp (unit : TimeUnit)
  | timestampTz (unit : TimeUnit)
  | interval (unit : TimeUnit)
  | duration (unit : TimeUnit)
  | uuid
  | ulid
  | json
  | jsonb
  | array (element : ProximaType)
  | map (key value : ProximaType)
  | struct (fields : List (String × ProximaType))
  | denseVector (element : VectorElement) (dim : Nat)
  | sparseVector (element : VectorElement)
  | binaryVector (dim : Nat)
  | point
  | geographyPoint
  | null

/-- Floats by their bits; `Float16` is an `f32` in memory. -/
inductive ProximaValue
  | boolean (b : Bool)
  | int8 (x : Int8)
  | int16 (x : Int16)
  | int32 (x : Int32)
  | int64 (x : Int64)
  | uint8 (x : UInt8)
  | uint16 (x : UInt16)
  | uint32 (x : UInt32)
  | uint64 (x : UInt64)
  | float16 (x : BitVec 32)
  | float32 (x : BitVec 32)
  | float64 (x : BitVec 64)
  | decimal (s : String)
  | string (s : String)
  | symbol (s : String)
  | binary (bytes : Bytes)
  | date (days : Int32)
  | time (t : Int64) (unit : TimeUnit)
  | timestamp (t : Int64) (unit : TimeUnit)
  | timestampTz (t : Int64) (unit : TimeUnit)
  | uuid (bytes : Bytes)
  | ulid (bytes : Bytes)
  | json (v : Json)
  | jsonb (v : Json)
  | array (items : List ProximaValue)
  | map (fields : List (String × ProximaValue))
  | struct (fields : List (String × ProximaValue))
  | denseVector (xs : List (BitVec 32))
  | sparseVector (indices : List UInt32) (values : List (BitVec 32))
  | binaryVector (bytes : Bytes)
  | null

inductive ProximaTreeNode
  | value (v : ProximaValue)
  | object (subtree : List (String × ProximaTreeNode))

abbrev ProximaTree := List (String × ProximaTreeNode)

/-! ## Filter literals -/

def hexDigit (n : Nat) : Char := "0123456789abcdef".toList.getD n '0'

def hexLower (bytes : Bytes) : String :=
  .ofList (bytes.flatMap (fun b => [hexDigit (b.toNat / 16), hexDigit (b.toNat % 16)]))

/-- Groups of 4, 2, 2, 2 and 6 bytes with hyphens between. -/
def hyphenated (bytes : Bytes) : String :=
  let group (i n : Nat) := hexLower ((bytes.drop i).take n)
  String.intercalate "-" [group 0 4, group 4 2, group 6 2, group 8 2, group 10 6]

mutual

/-- `proxima_value_to_filter_literal`. -/
def ProximaValue.toFilterLiteral : ProximaValue → Json
  | .null => .null
  | .boolean b => .bool b
  | .int8 x => .num (.ofI64 x.toInt64)
  | .int16 x => .num (.ofI64 x.toInt64)
  | .int32 x => .num (.ofI64 x.toInt64)
  | .int64 x => .num (.ofI64 x)
  | .uint8 x => .num (.ofU64 x.toUInt64)
  | .uint16 x => .num (.ofU64 x.toUInt64)
  | .uint32 x => .num (.ofU64 x.toUInt64)
  | .uint64 x => .num (.ofU64 x)
  | .float16 x => .ofF64 (.ofF32 x)
  | .float32 x => .ofF64 (.ofF32 x)
  | .float64 x => .ofF64 (.ofF64 x)
  | .string s => .str s
  | .symbol s => .str s
  | .decimal s => .str s
  | .json v => v
  | .jsonb v => v
  | .array items => .array (toFilterLiterals items)
  | .map fields => .object (toFilterFields fields)
  | .struct fields => .object (toFilterFields fields)
  | .timestamp t _ => .num (.ofI64 t)
  | .timestampTz t _ => .num (.ofI64 t)
  | .date d => .num (.ofI64 d.toInt64)
  | .time t _ => .num (.ofI64 t)
  | .uuid bytes => .str (hyphenated bytes)
  | .ulid bytes => .str (hexLower bytes)
  | .binary bytes => .array (bytes.map (fun b => .num (.ofU64 b.toUInt64)))
  | .binaryVector bytes => .array (bytes.map (fun b => .num (.ofU64 b.toUInt64)))
  | .denseVector xs => .array (xs.map (fun x => .ofF64 (.ofF32 x)))
  | .sparseVector indices values =>
    .object [("indices", .array (indices.map (fun i => .num (.ofU64 i.toUInt64)))),
      ("values", .array (values.map (fun x => .ofF64 (.ofF32 x))))]

def toFilterLiterals : List ProximaValue → List Json
  | [] => []
  | v :: rest => v.toFilterLiteral :: toFilterLiterals rest

def toFilterFields : List (String × ProximaValue) → List (String × Json)
  | [] => []
  | (k, v) :: rest => (k, v.toFilterLiteral) :: toFilterFields rest

end

mutual

/-- What a value inside a JSON document is as a literal: `json_to_proxima` keeps a number that is
    not an `i64` as a double. -/
def Json.toFilterLiteral : Json → Json
  | .null => .null
  | .bool b => .bool b
  | .num n =>
    match n.asI64 with
    | some _ => .num n
    | none => .num (.float n.asF64)
  | .str s => .str s
  | .array items => .array (jsonFilterLiterals items)
  | .object fields => .object (jsonFilterFields fields)

def jsonFilterLiterals : List Json → List Json
  | [] => []
  | j :: rest => j.toFilterLiteral :: jsonFilterLiterals rest

def jsonFilterFields : List (String × Json) → List (String × Json)
  | [] => []
  | (k, j) :: rest => (k, j.toFilterLiteral) :: jsonFilterFields rest

end

/-! ## Fields -/

/-- The segments of a field between its dots. -/
def segments (field : String) : List String := (field.toList.splitOn '.').map String.ofList

theorem segments_of_no_dot {field : String} (h : '.' ∉ field.toList) : segments field = [field] := by
  rw [segments, List.splitOn_eq_singleton h, List.map_singleton, String.ofList_toList]

/-- `tree_get`, on the segments of the path. -/
def treeGet : ProximaTree → List String → Option ProximaValue
  | _, [] => none
  | tree, [head] =>
    match tree.lookup head with
    | some (.value v) => some v
    | _ => none
  | tree, head :: next :: rest =>
    match tree.lookup head with
    | some (.object subtree) => treeGet subtree (next :: rest)
    | _ => none

/-- `resolve_filter_literal`: a path through nested properties, or from a JSON property on into the
    document. -/
def resolveFilterLiteral (props : ProximaTree) (field : String) : Option Json :=
  match treeGet props (segments field) with
  | some v => some v.toFilterLiteral
  | none =>
    match segments field with
    | head :: next :: rest =>
      match props.lookup head with
      | some (.value (.json root)) => (root.getPath (next :: rest)).map Json.toFilterLiteral
      | some (.value (.jsonb root)) => (root.getPath (next :: rest)).map Json.toFilterLiteral
      | _ => none
    | _ => none

inductive ShredClass
  | int
  | float
  | str
  deriving DecidableEq

def shredClass : ProximaValue → ShredClass
  | .boolean _ | .int8 _ | .int16 _ | .int32 _ | .int64 _ => .int
  | .uint8 _ | .uint16 _ | .uint32 _ | .uint64 _ => .int
  | .date _ | .time _ _ | .timestamp _ _ | .timestampTz _ _ => .int
  | .float16 _ | .float32 _ | .float64 _ => .float
  | _ => .str

def declaredShredClass : ProximaType → Option ShredClass
  | .boolean | .int8 | .int16 | .int32 | .int64 => some .int
  | .uint8 | .uint16 | .uint32 | .uint64 => some .int
  | .date | .time _ | .timestamp _ | .timestampTz _ => some .int
  | .float16 | .float32 | .float64 => some .float
  | .string | .symbol => some .str
  | _ => none

/-- A value as an `i64`, if it is one of the integer or temporal kinds and fits. -/
def pvToI64 : ProximaValue → Option Int
  | .boolean b => some (if b then 1 else 0)
  | .int8 x => some x.toInt
  | .int16 x => some x.toInt
  | .int32 x => some x.toInt
  | .int64 x => some x.toInt
  | .uint8 x => some x.toNat
  | .uint16 x => some x.toNat
  | .uint32 x => some x.toNat
  | .uint64 x => if (x.toNat : Int) ≤ i64Max then some x.toNat else none
  | .date d => some d.toInt
  | .time t _ => some t.toInt
  | .timestamp t _ => some t.toInt
  | .timestampTz t _ => some t.toInt
  | _ => none

def pvToF64 : ProximaValue → Option F64
  | .float16 x => some (.ofF32 x)
  | .float32 x => some (.ofF32 x)
  | .float64 x => some (.ofF64 x)
  | _ => none

def pvToStr : ProximaValue → Option String
  | .string s => some s
  | .symbol s => some s
  | .decimal s => some s
  | _ => none

/-- The property that a record gives to the column of a key; nested objects are none. -/
def shredValue (props : ProximaTree) (key : String) : Option ProximaValue :=
  match props.lookup key with
  | some (.value v) => some v
  | _ => none

theorem resolveFilterLiteral_eq_shredValue {props : ProximaTree} {key : String}
    (h : '.' ∉ key.toList) :
    resolveFilterLiteral props key = (shredValue props key).map ProximaValue.toFilterLiteral := by
  rw [resolveFilterLiteral, segments_of_no_dot h, treeGet, shredValue]
  cases props.lookup key with
  | none => rfl
  | some node => cases node <;> rfl

structure ShredColumn where
  key : String
  columnId : Int
  declaredType : Option ProximaType

/-- The class of a column: the declared one, or that of the first value there is. -/
def columnClass (declared : Option ProximaType) (vals : List (Option ProximaValue)) :
    Option ShredClass :=
  match declared.bind declaredShredClass with
  | some c => some c
  | none => vals.reduceOption.head?.map shredClass

/-! ## Back from a column -/

/-- `i8::try_from` and its like: an integer that fits the width. -/
def signedFit (bits : Nat) (x : Int) : Bool :=
  decide (-2 ^ (bits - 1) ≤ x) && decide (x < 2 ^ (bits - 1))

def unsignedFit (bits : Nat) (x : Int) : Bool := decide (0 ≤ x) && decide (x < 2 ^ bits)

/-- The value of the declared type that a column keeps as an integer. -/
def i64ToDeclared (x : Int) : ProximaType → Option ProximaValue
  | .boolean =>
    if x = 0 then some (.boolean false) else if x = 1 then some (.boolean true) else none
  | .int8 => if signedFit 8 x then some (.int8 (.ofInt x)) else none
  | .int16 => if signedFit 16 x then some (.int16 (.ofInt x)) else none
  | .int32 => if signedFit 32 x then some (.int32 (.ofInt x)) else none
  | .int64 => some (.int64 (.ofInt x))
  | .uint8 => if unsignedFit 8 x then some (.uint8 (.ofNat x.toNat)) else none
  | .uint16 => if unsignedFit 16 x then some (.uint16 (.ofNat x.toNat)) else none
  | .uint32 => if unsignedFit 32 x then some (.uint32 (.ofNat x.toNat)) else none
  | .uint64 => if unsignedFit 64 x then some (.uint64 (.ofNat x.toNat)) else none
  | .date => if signedFit 32 x then some (.date (.ofInt x)) else none
  | .time unit => some (.time (.ofInt x) unit)
  | .timestamp unit => some (.timestamp (.ofInt x) unit)
  | .timestampTz unit => some (.timestampTz (.ofInt x) unit)
  | _ => none

def strToDeclared (s : String) : ProximaType → Option ProximaValue
  | .string => some (.string s)
  | .symbol => some (.symbol s)
  | _ => none

/-- A float comes back from a double column if it is of the declared width and a number. -/
def floatShredsLosslessly : ProximaValue → ProximaType → Bool
  | .float16 x, .float16 => decide (F64.ofF32 x ≠ .nan)
  | .float32 x, .float32 => decide (F64.ofF32 x ≠ .nan)
  | .float64 x, .float64 => decide (F64.ofF64 x ≠ .nan)
  | _, _ => false

/-- Equality on the values that a column can give back. -/
def sameScalar : ProximaValue → ProximaValue → Bool
  | .boolean a, .boolean b => decide (a = b)
  | .int8 a, .int8 b => decide (a = b)
  | .int16 a, .int16 b => decide (a = b)
  | .int32 a, .int32 b => decide (a = b)
  | .int64 a, .int64 b => decide (a = b)
  | .uint8 a, .uint8 b => decide (a = b)
  | .uint16 a, .uint16 b => decide (a = b)
  | .uint32 a, .uint32 b => decide (a = b)
  | .uint64 a, .uint64 b => decide (a = b)
  | .date a, .date b => decide (a = b)
  | .time a u, .time b w => decide (a = b) && decide (u = w)
  | .timestamp a u, .timestamp b w => decide (a = b) && decide (u = w)
  | .timestampTz a u, .timestampTz b w => decide (a = b) && decide (u = w)
  | .string a, .string b => decide (a = b)
  | .symbol a, .symbol b => decide (a = b)
  | _, _ => false

/-- The column of the declared type gives the value back exactly. -/
def shredsLosslessly (v : ProximaValue) (t : ProximaType) : Bool :=
  match declaredShredClass t with
  | none => false
  | some .int => ((pvToI64 v).bind (fun x => i64ToDeclared x t)).any (fun w => sameScalar w v)
  | some .float => floatShredsLosslessly v t
  | some .str => ((pvToStr v).bind (fun s => strToDeclared s t)).any (fun w => sameScalar w v)

/-- A literal that is an integer of `i64`. -/
def IsI64 (j : Json) (x : Int) : Prop :=
  ∃ h, j = .num (.int x h) ∧ i64Min ≤ x ∧ x ≤ i64Max

theorem isI64_ofI64 {y : Int64} {x : Int} (h : y.toInt = x) : IsI64 (.num (.ofI64 y)) x := by
  subst h
  exact ⟨_, rfl, y.le_toInt, Int.le_sub_one_of_lt y.toInt_lt⟩

theorem isI64_ofU64 {y : UInt64} {x : Nat} (h : y.toNat = x) (hle : (x : Int) ≤ i64Max) :
    IsI64 (.num (.ofU64 y)) x := by
  subst h
  exact ⟨_, rfl, le_trans (by decide) (Int.natCast_nonneg _), hle⟩

theorem natCast_le_i64Max {n : Nat} (h : n < 2 ^ 32) : (n : Int) ≤ i64Max := by
  unfold i64Max
  omega

/-- What fits an integer column is an integer to a filter, too, unless it is a boolean. -/
theorem isI64_of_pvToI64 {v : ProximaValue} {x : Int} (h : pvToI64 v = some x)
    (hbool : ∀ b, v ≠ .boolean b) : IsI64 v.toFilterLiteral x := by
  cases v with
  | boolean b => exact absurd rfl (hbool b)
  | int8 y =>
    cases h
    exact isI64_ofI64 y.toInt_toInt64
  | int16 y =>
    cases h
    exact isI64_ofI64 y.toInt_toInt64
  | int32 y =>
    cases h
    exact isI64_ofI64 y.toInt_toInt64
  | int64 y =>
    cases h
    exact isI64_ofI64 rfl
  | uint8 y =>
    cases h
    exact isI64_ofU64 y.toNat_toUInt64 (natCast_le_i64Max (lt_trans y.toNat_lt (by decide)))
  | uint16 y =>
    cases h
    exact isI64_ofU64 y.toNat_toUInt64 (natCast_le_i64Max (lt_trans y.toNat_lt (by decide)))
  | uint32 y =>
    cases h
    exact isI64_ofU64 y.toNat_toUInt64 (natCast_le_i64Max y.toNat_lt)
  | uint64 y =>
    obtain ⟨hle, hx⟩ := Option.ite_none_right_eq_some.1 h
    cases hx
    exact isI64_ofU64 rfl hle
  | date y =>
    cases h
    exact isI64_ofI64 y.toInt_toInt64
  | time | timestamp | timestampTz =>
    cases h
    exact isI64_ofI64 rfl
  | _ => cases h

end ProximaDb.Pax
