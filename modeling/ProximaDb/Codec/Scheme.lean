/-
  ProximaDb.Codec.Scheme

  How a scheme is chosen for a column of integers, the byte it is stored as, and the encoder and
  decoder it stands for. Arithmetic wraps, as in a release build; ratios are doubles. The byte
  forgets the parameters of the scheme; no decoder needs them.
-/
import ProximaDb.Lib.Rounding
import ProximaDb.Codec.Simple8b

namespace ProximaDb.Codec

open ProximaDb.Lib

/-- The schemes a column of integers is written in, other than raw. -/
inductive ProximaScheme
  | runLength
  | sparseCoo
  | sparseBitmap
  | dictionary
  | doubleDelta (firstValue firstDelta : Word)
  | simple8b
  | vByte
  | frameOfReference (reference : Word) (bits : Nat)
  | delta (base : Word)
  deriving DecidableEq

inductive ColumnRole
  | identity
  | tenant
  | timestamp
  | temporal
  | props
  | vector
  | edge
  | userDefined
  | provenance
  deriving DecidableEq

/-! ## Analysis -/

/-- `a as f64 / b as f64` -/
def ratio (a b : Nat) : ℚ := roundSig 53 ((a : ℚ) / b)

/-- The double a number of hundredths is written as. -/
def hundredths (n : Nat) : ℚ := roundSig 53 ((n : ℚ) / 100)

structure DataAnalysis where
  zeroRatio : ℚ
  uniqueRatio : ℚ
  sequentialScore : ℚ
  /-- the distance of the largest from the smallest value, as `u64` -/
  range : Nat
  maxBits : Nat
  constant : Bool
  minValue : Option Word

def minWord : List Word → Option Word
  | [] => none
  | v :: rest => some (rest.foldl (fun m w => if w.slt m then w else m) v)

def maxWord : List Word → Option Word
  | [] => none
  | v :: rest => some (rest.foldl (fun m w => if m.slt w then w else m) v)

/-- A step of at most two; the absolute value of the least integer wraps to itself. -/
def isSmallStep (diff : Word) : Bool := decide (diff.abs.toInt ≤ 2)

def fromI64Values (values : List Word) : DataAnalysis :=
  let steps := differences values
  let range := ((maxWord values).getD 0 - (minWord values).getD 0).toNat
  { zeroRatio := ratio (values.count 0) values.length
    uniqueRatio := ratio values.dedup.length values.length
    sequentialScore := if 1 < values.length then ratio (steps.countP isSmallStep) steps.length else 0
    range := range
    maxBits := if range = 0 then 1 else range.size
    constant := decide (values.dedup.length = 1)
    minValue := minWord values }

namespace DataAnalysis

variable (a : DataAnalysis)

def isVerySparse : Bool := decide (hundredths 95 < a.zeroRatio)

def isSparse : Bool := decide (hundredths 70 < a.zeroRatio)

def isSequential : Bool := decide (hundredths 80 < a.sequentialScore)

def isLowCardinality : Bool := decide (a.uniqueRatio < hundredths 10)

def base : Word := a.minValue.getD 0

end DataAnalysis

/-! ## Strategies -/

/-- `IntegerAnalysisStrategy::select` -/
def integerAnalysisSelect (a : DataAnalysis) : ProximaScheme :=
  if a.constant then .runLength
  else if a.isVerySparse then .sparseCoo
  else if a.isSparse then .sparseBitmap
  else if a.isLowCardinality then .dictionary
  else if a.isSequential then .doubleDelta a.base 1
  else if a.maxBits ≤ 20 ∧ a.range < 1000000 then .simple8b
  else if a.maxBits ≤ 14 then .vByte
  else if a.range < 2 ^ 32 then .frameOfReference a.base a.maxBits
  else .delta 0

/-- `TimeSeriesStrategy::select` -/
def timeSeriesSelect (a : DataAnalysis) (sorted : Bool) : ProximaScheme :=
  if a.isSequential || sorted then .doubleDelta a.base 1 else .delta 0

def orderingPreferredScheme (a : DataAnalysis) (sorted : Bool) : Option ProximaScheme :=
  if sorted then some (if a.isSequential then .doubleDelta a.base 1 else .delta a.base) else none

/-- A frame of reference of less than 64 bits counts as lossy, though the codec stores as many bits
    as it needs. -/
def isLossy : ProximaScheme → Bool
  | .frameOfReference _ bits => decide (bits < 64)
  | _ => false

def losslessFallbackFor (a : DataAnalysis) (sorted : Bool) : Option ProximaScheme :=
  if sorted || a.isSequential then some (.delta a.base)
  else if 0 < a.range ∧ a.range < 2 ^ 32 then some (.frameOfReference a.base (max a.maxBits 1))
  else none

/-- `select_decision` for a column of a warm block that has to be exact; `none` is raw. -/
def selectDecision (a : DataAnalysis) (timeSeries sorted : Bool) : Option ProximaScheme :=
  let scheme := if timeSeries then timeSeriesSelect a sorted else integerAnalysisSelect a
  let scheme := if a.constant then scheme else (orderingPreferredScheme a sorted).getD scheme
  if isLossy scheme then losslessFallbackFor a sorted else some scheme

def isI64Sorted : List Word → Bool
  | [] => true
  | [_] => true
  | v :: w :: rest => !w.slt v && isI64Sorted (w :: rest)

def ColumnRole.isTimeSeries (role : ColumnRole) : Bool :=
  decide (role = .timestamp ∨ role = .temporal)

/-- Nullability only hints at where a dictionary is kept, which no scheme depends on. -/
def selectI64Scheme (role : ColumnRole) (_nullable : Bool) (values : List (Option Word)) :
    Option ProximaScheme :=
  let present := values.reduceOption
  if present = [] then none
  else selectDecision (fromI64Values present) role.isTimeSeries (isI64Sorted present)

def toMarker : ProximaScheme → UInt8
  | .delta _ => 0x20
  | .doubleDelta _ _ => 0x28
  | .frameOfReference _ _ => 0x30
  | .simple8b => 0x45
  | .vByte => 0x55
  | .sparseBitmap => 0x15
  | .sparseCoo => 0x18
  | .dictionary => 0x60
  | .runLength => 0x62

theorem toMarker_ne_raw (scheme : ProximaScheme) :
    toMarker scheme ≠ 0 ∧ toMarker scheme ≠ 1 ∧ toMarker scheme ≠ 3 := by
  cases scheme <;> simp [toMarker]

/-- The scheme of a marker, with default parameters; other markers are not for schemes that integers
    are written in. -/
def fromMarker (marker : UInt8) : Option ProximaScheme :=
  if marker = 0x20 then some (.delta 0)
  else if marker = 0x28 then some (.doubleDelta 0 1)
  else if marker = 0x30 then some (.frameOfReference 0 16)
  else if marker = 0x45 then some .simple8b
  else if marker = 0x55 then some .vByte
  else if marker = 0x15 then some .sparseBitmap
  else if marker = 0x18 then some .sparseCoo
  else if marker = 0x60 then some .dictionary
  else if marker = 0x62 then some .runLength
  else none

def encodeI64WithScheme (values : List Word) : ProximaScheme → Option Bytes
  | .delta base => encodeDeltaWire values base
  | .frameOfReference reference _ => encodeFrameOfRefWire values reference
  | .simple8b => encodeSimple8bWire values
  | .vByte => some (encodeVbyteWire values)
  | .doubleDelta _ _ => encodeDoubleDeltaWire values
  | .sparseBitmap => some (encodeSparseBitmapWire values)
  | .sparseCoo => some (encodeSparseCooWire values)
  | .dictionary => some (encodeDictionaryWire values)
  | .runLength => some (encodeRleWire values)

def decodeI64WithScheme (data : Bytes) (count : Nat) : ProximaScheme → Option (List Word)
  | .delta _ => decodeDeltaWire data count
  | .frameOfReference _ _ => decodeFrameOfRefWire data count
  | .simple8b => decodeSimple8bWire data count
  | .vByte => decodeVbyteWire data count
  | .doubleDelta _ _ => decodeDoubleDeltaWire data count
  | .sparseBitmap => decodeSparseBitmapWire data count
  | .sparseCoo => decodeSparseCooWire data count
  | .dictionary => decodeDictionaryWire data count
  -- runs are the only data that say how many values there are
  | .runLength => (decodeRleWire data).filter (fun values => values.length = count)

/-- Every scheme encodes every list, apart from the one for small unsigned numbers. -/
theorem encodeI64WithScheme_isSome_iff (scheme : ProximaScheme) (values : List Word) :
    (encodeI64WithScheme values scheme).isSome = true ↔
      (scheme = .simple8b → ∀ v ∈ values, v.toNat < 2 ^ 60) := by
  cases scheme with
  | simple8b =>
    show (encodeSimple8bWire values).isSome = true ↔ _
    simpa using encodeSimple8bWire_isSome_iff values
  | delta | frameOfReference =>
    show (encodeOffsets values _).isSome = true ↔ _
    simp [encodeOffsets_isSome]
  | doubleDelta firstValue firstDelta =>
    show (encodeDoubleDeltaWire values).isSome = true ↔ _
    simp [encodeDoubleDeltaWire_isSome]
  | vByte | sparseBitmap | sparseCoo | dictionary | runLength => simp [encodeI64WithScheme]

end ProximaDb.Codec
