/-
  ProximaDb.CanonicalWal.Frame

  Frames of the canonical write-ahead log:

  magic "PXWAL001" ‖ version u16 ‖ codec u8 ‖ flags u8 ‖ sequence u64 ‖ payload_len u32 ‖
  payload_crc32 u32 ‖ payload

  all little-endian. Version 1 carries one entry, version 2 an all-or-nothing group.
  `scanWalBytes` reads frames up to the first incomplete one; `scanWalBytes_frames` says what it
  returns on a file of whole frames with anything after them.
-/
import ProximaDb.Lib.Bytes

namespace ProximaDb.CanonicalWal

open ProximaDb.Lib List

/-! ## Entries -/

/-- What an entry does. `carried` stands for the parts of a record, of its projections and of a
    delete that the log does not look into. -/
inductive CanonicalOperation where
  | recordUpsert (collectionId : String) (branchId : Option String) (carried : Bytes)
  | recordDelete (collectionId oid : String) (carried : Bytes)
  | recordPartitionDrop (collectionId : String)
  | checkpoint (manifest : Bytes)
  | cdcBarrier (barrierSequence : Nat) (events : Bytes)
  | catalogMutation (key : String) (bytes : Bytes)
deriving DecidableEq

/-- The collection an operation targets, if any. -/
def collectionIdOf : CanonicalOperation → Option String
  | .recordUpsert c _ _ => some c
  | .recordDelete c _ _ => some c
  | .recordPartitionDrop c => some c
  | _ => none

structure CanonicalWalEntry where
  sequenceNumber : Nat
  timestampMs : Nat
  operation : CanonicalOperation
  tenantId : Option String
deriving DecidableEq

/-- The payload encoding of entries (`rmp_serde`) and the checksum (`crc32`). Decoding inverts
    encoding; of the checksum only its width is used. -/
structure FrameCodec where
  encodeEntry : CanonicalWalEntry → Bytes
  decodeEntry : Bytes → Option CanonicalWalEntry
  decode_entry : ∀ e, decodeEntry (encodeEntry e) = some e
  encodeGroup : List CanonicalWalEntry → Bytes
  decodeGroup : Bytes → Option (List CanonicalWalEntry)
  decode_group : ∀ es, decodeGroup (encodeGroup es) = some es
  crc32 : Bytes → Nat
  crc32_lt : ∀ bs, crc32 bs < 2 ^ 32

/-! ## Encoding -/

/-- `"PXWAL001"`. -/
def frameMagic : Bytes := [0x50, 0x58, 0x57, 0x41, 0x4C, 0x30, 0x30, 0x31]

def frameVersion : Nat := 1

def frameVersionGroup : Nat := 2

def codecMsgpackNamed : UInt8 := 1

def frameHeaderLen : Nat := 28

def frameHeader (version sequence payloadLen crc : Nat) : Bytes :=
  frameMagic ++ leBytes 2 version ++ [codecMsgpackNamed, 0] ++ leBytes 8 sequence ++
    leBytes 4 payloadLen ++ leBytes 4 crc

@[simp] theorem length_frameHeader (version sequence payloadLen crc : Nat) :
    (frameHeader version sequence payloadLen crc).length = frameHeaderLen := by
  simp [frameHeader, frameMagic, frameHeaderLen]

variable (C : FrameCodec)

/-- Frame a payload, unless its length does not fit the header. -/
def encodePayload (version sequence : Nat) (payload : Bytes) : Option Bytes :=
  if payload.length < 2 ^ 32 then
    some (frameHeader version sequence payload.length (C.crc32 payload) ++ payload)
  else none

/-- `encode_frame`; `none` is "canonical WAL payload exceeds u32 frame size". -/
def encodeFrame (entry : CanonicalWalEntry) : Option Bytes :=
  encodePayload C frameVersion entry.sequenceNumber (C.encodeEntry entry)

/-- `encode_group_frame`; a group has at least one entry. -/
def encodeGroupFrame (entries : List CanonicalWalEntry) : Option Bytes :=
  match entries with
  | [] => none
  | first :: _ => encodePayload C frameVersionGroup first.sequenceNumber (C.encodeGroup entries)

/-! ## Decoding -/

inductive FrameError where
  | invalidMagic
  | unsupportedVersion (version : Nat)
  | unsupportedCodec (codec : UInt8)
  | checksumMismatch
  | deserializeGroup
  | emptyGroup (headerSequence : Nat)
  | notContiguous (expected found : Nat)
  | deserializeEntry
  | sequenceMismatch (header payload : Nat)
deriving DecidableEq

/-- The first entry of a group whose sequence is not the next one. -/
def firstGap (expected : Nat) : List CanonicalWalEntry → Option (Nat × Nat)
  | [] => none
  | e :: rest =>
    if e.sequenceNumber ≠ expected then some (expected, e.sequenceNumber)
    else firstGap ((expected + 1) % 2 ^ 64) rest

/-- The entries of a payload, checked against the header. -/
def decodePayload (version headerSequence : Nat) (payload : Bytes) :
    Except FrameError (List CanonicalWalEntry) :=
  if version = frameVersionGroup then
    match C.decodeGroup payload with
    | none => .error .deserializeGroup
    | some [] => .error (.emptyGroup headerSequence)
    | some (e :: rest) =>
      match firstGap headerSequence (e :: rest) with
      | some (expected, found) => .error (.notContiguous expected found)
      | none => .ok (e :: rest)
  else
    match C.decodeEntry payload with
    | none => .error .deserializeEntry
    | some e =>
      if e.sequenceNumber ≠ headerSequence then
        .error (.sequenceMismatch headerSequence e.sequenceNumber)
      else .ok [e]

/-- `decode_frame`: the entries of the first frame and its length; `ok none` is an incomplete
    trailing frame. -/
def decodeFrame (bytes : Bytes) : Except FrameError (Option (List CanonicalWalEntry × Nat)) :=
  if bytes.length < frameHeaderLen then .ok none
  else if bytes.take 8 ≠ frameMagic then .error .invalidMagic
  else
    let version := leNat ((bytes.drop 8).take 2)
    if version ≠ frameVersion ∧ version ≠ frameVersionGroup then
      .error (.unsupportedVersion version)
    else
      let codec := ((bytes.drop 10).head?).getD 0
      if codec ≠ codecMsgpackNamed then .error (.unsupportedCodec codec)
      else
        let headerSequence := leNat ((bytes.drop 12).take 8)
        let payloadLen := leNat ((bytes.drop 20).take 4)
        let expectedCrc := leNat ((bytes.drop 24).take 4)
        let frameLen := frameHeaderLen + payloadLen
        if bytes.length < frameLen then .ok none
        else
          let payload := (bytes.drop frameHeaderLen).take payloadLen
          if C.crc32 payload ≠ expectedCrc then .error .checksumMismatch
          else
            match decodePayload C version headerSequence payload with
            | .error e => .error e
            | .ok entries => .ok (some (entries, frameLen))

/-! ## Scanning a file -/

/-- What a scan found: the entries of the whole frames and the bytes they take. -/
structure WalScan where
  entries : List CanonicalWalEntry
  validLen : Nat
deriving DecidableEq

/-- A frame that does not decode, with its offset in the file. -/
structure ScanError where
  offset : Nat
  cause : FrameError
deriving DecidableEq

/-- The scan loop over the bytes from `offset` on. Every frame has a header, so the length of the
    file bounds the number of frames. -/
def scanFrom : Nat → Nat → Bytes → Except ScanError WalScan
  | 0, _, _ => .ok ⟨[], 0⟩
  | fuel + 1, offset, bytes =>
    if bytes = [] then .ok ⟨[], 0⟩
    else
      match decodeFrame C bytes with
      | .error cause =>
        -- a zero-extended tail is a torn write, anything else is corruption
        if bytes.all (fun b => decide (b = 0)) then .ok ⟨[], 0⟩
        else .error ⟨offset, cause⟩
      | .ok none => .ok ⟨[], 0⟩
      | .ok (some (entries, consumed)) =>
        match scanFrom fuel (offset + consumed) (bytes.drop consumed) with
        | .error e => .error e
        | .ok rest => .ok ⟨entries ++ rest.entries, consumed + rest.validLen⟩

def scanWalBytes (bytes : Bytes) : Except ScanError WalScan :=
  scanFrom C bytes.length 0 bytes

/-! ## Whole frames -/

inductive Frame where
  | single (entry : CanonicalWalEntry)
  | group (first : CanonicalWalEntry) (rest : List CanonicalWalEntry)
deriving DecidableEq

namespace Frame

def entries : Frame → List CanonicalWalEntry
  | single e => [e]
  | group first rest => first :: rest

def version : Frame → Nat
  | single _ => frameVersion
  | group _ _ => frameVersionGroup

def sequence : Frame → Nat
  | single e => e.sequenceNumber
  | group first _ => first.sequenceNumber

def payload (f : Frame) : Bytes :=
  match f with
  | single e => C.encodeEntry e
  | group first rest => C.encodeGroup (first :: rest)

def bytes (f : Frame) : Bytes :=
  frameHeader f.version f.sequence (f.payload C).length (C.crc32 (f.payload C)) ++ f.payload C

/-- The frame fits its header, and the sequences of a group are consecutive. -/
structure Valid (f : Frame) : Prop where
  fits : (f.payload C).length < 2 ^ 32
  bounded : f.sequence < 2 ^ 64
  contiguous : firstGap f.sequence f.entries = none

theorem entries_ne_nil (f : Frame) : f.entries ≠ [] := by
  cases f <;> simp [entries]

theorem length_bytes (f : Frame) : (f.bytes C).length = frameHeaderLen + (f.payload C).length := by
  rw [bytes, length_append, length_frameHeader]

end Frame

variable {C}

/-- The header is read back, whatever follows it: decoding then only depends on how much of the
    payload is there. -/
theorem decodeFrame_header {version sequence len crc : Nat} (x : Bytes)
    (hv : version = frameVersion ∨ version = frameVersionGroup) (hs : sequence < 2 ^ 64)
    (hl : len < 2 ^ 32) (hc : crc < 2 ^ 32) :
    decodeFrame C (frameHeader version sequence len crc ++ x) = if x.length < len then .ok none
      else if C.crc32 (x.take len) ≠ crc then .error .checksumMismatch
      else
        match decodePayload C version sequence (x.take len) with
        | .error e => .error e
        | .ok entries => .ok (some (entries, frameHeaderLen + len)) := by
  set frame := frameHeader version sequence len crc ++ x with hframe
  have hlen : frame.length = frameHeaderLen + x.length := by
    rw [hframe, length_append, length_frameHeader]
  have hfield : ∀ (n : Nat) {v : Nat}, v < 256 ^ n → ∀ {bytes : Bytes}, bytes = leBytes n v →
      leNat bytes = v := fun _ _ hlt _ heq => heq ▸ leNat_leBytes hlt
  have hversion : leNat ((frame.drop 8).take 2) = version :=
    hfield 2 (by rcases hv with rfl | rfl <;> decide) rfl
  have hseq : leNat ((frame.drop 12).take 8) = sequence := hfield 8 (by omega) rfl
  have hplen : leNat ((frame.drop 20).take 4) = len := hfield 4 (by omega) rfl
  have hcrc : leNat ((frame.drop 24).take 4) = crc := hfield 4 (by omega) rfl
  have hdrop : frame.drop frameHeaderLen = x := rfl
  have hmagic : frame.take 8 = frameMagic := rfl
  have hcodec : ((frame.drop 10).head?).getD 0 = codecMsgpackNamed := rfl
  have hknown : ¬ (version ≠ frameVersion ∧ version ≠ frameVersionGroup) := by
    rcases hv with h | h <;> simp [h]
  unfold decodeFrame
  rw [if_neg (by rw [hlen]; omega), if_neg (by rw [hmagic]; simp)]
  simp only [hversion, hcodec, hseq, hplen, hcrc, hdrop, hlen]
  rw [if_neg hknown, if_neg (by simp)]
  by_cases hx : x.length < len
  · rw [if_pos (by omega), if_pos hx]
  · rw [if_neg (by omega), if_neg hx]

namespace Frame

theorem decodePayload_payload {f : Frame} (h : f.Valid C) :
    decodePayload C f.version f.sequence (f.payload C) = .ok f.entries := by
  cases f with
  | single e =>
    simp [decodePayload, version, payload, sequence, entries, C.decode_entry, frameVersion,
      frameVersionGroup]
  | group first rest =>
    have hgap : firstGap first.sequenceNumber (first :: rest) = none := h.contiguous
    simp [decodePayload, version, payload, sequence, entries, C.decode_group, hgap]

theorem version_known (f : Frame) : f.version = frameVersion ∨ f.version = frameVersionGroup := by
  cases f <;> simp [version]

theorem decodeFrame_bytes {f : Frame} (h : f.Valid C) (rest : Bytes) :
    decodeFrame C (f.bytes C ++ rest) = .ok (some (f.entries, (f.bytes C).length)) := by
  have htake : (f.payload C ++ rest).take (f.payload C).length = f.payload C := take_left
  rw [bytes, append_assoc, decodeFrame_header _ f.version_known h.bounded h.fits (C.crc32_lt _),
    if_neg (by simp), htake, if_neg (by simp), decodePayload_payload h]
  simp [length_append]

theorem decodeFrame_take {f : Frame} (h : f.Valid C) {n : Nat} (hn : n < (f.bytes C).length) :
    decodeFrame C ((f.bytes C).take n) = .ok none := by
  by_cases hshort : n < frameHeaderLen
  · rw [decodeFrame, if_pos (by simp; omega)]
  · -- the header is complete, the payload is not
    rw [length_bytes] at hn
    have htake : (f.bytes C).take n =
        frameHeader f.version f.sequence (f.payload C).length (C.crc32 (f.payload C)) ++
          (f.payload C).take (n - frameHeaderLen) := by
      rw [bytes, take_append, length_frameHeader, take_of_length_le (by simp; omega)]
    rw [htake, decodeFrame_header _ f.version_known h.bounded h.fits (C.crc32_lt _), if_pos]
    rw [length_take]
    omega

end Frame

/-! ## Files of frames -/

variable (C) in
/-- The bytes of frames written one after the other. -/
def framesBytes (fs : List Frame) : Bytes := fs.flatMap (Frame.bytes C)

def framesEntries (fs : List Frame) : List CanonicalWalEntry := fs.flatMap Frame.entries

@[simp] theorem framesBytes_nil : framesBytes C [] = [] := rfl

@[simp] theorem framesEntries_nil : framesEntries [] = [] := rfl

theorem framesBytes_append (fs gs : List Frame) :
    framesBytes C (fs ++ gs) = framesBytes C fs ++ framesBytes C gs :=
  flatMap_append

theorem framesEntries_append (fs gs : List Frame) :
    framesEntries (fs ++ gs) = framesEntries fs ++ framesEntries gs :=
  flatMap_append

variable {fs : List Frame}

theorem framesEntries_eq_nil_iff : framesEntries fs = [] ↔ fs = [] := by
  rw [framesEntries, flatMap_eq_nil_iff]
  constructor
  · intro h
    cases fs with
    | nil => rfl
    | cons f fs => exact absurd (h f (by simp)) f.entries_ne_nil
  · rintro rfl
    simp

variable (C) in
/-- Bytes at which a scan stops without an error. -/
def Stops (tail : Bytes) : Prop :=
  tail = [] ∨ decodeFrame C tail = .ok none

theorem stops_nil : Stops C [] := Or.inl rfl

variable {tail : Bytes}

theorem stops_of_short (h : tail.length < frameHeaderLen) : Stops C tail :=
  Or.inr (by rw [decodeFrame, if_pos h])

theorem Stops.take (h : Stops C tail) (n : Nat) : Stops C (tail.take n) := by
  by_cases hshort : (tail.take n).length < frameHeaderLen
  · exact stops_of_short hshort
  · right
    rcases h with rfl | h
    · rw [take_nil] at hshort
      exact absurd (by decide) hshort
    · rw [length_take] at hshort
      unfold frameHeaderLen at hshort
      -- the header is the same, and fewer bytes follow it
      have hfield : ∀ i w, i + w ≤ 28 → ((tail.take n).drop i).take w = (tail.drop i).take w := by
        intro i w hiw
        rw [drop_take, take_take, min_eq_left (by omega)]
      have hhead : ((tail.take n).drop 10).head? = (tail.drop 10).head? := by
        rw [drop_take, List.head?_take, if_neg (by omega)]
      have hmagic : (tail.take n).take 8 = tail.take 8 := hfield 0 8 (by omega)
      unfold decodeFrame at h ⊢
      rw [if_neg (by rw [length_take]; unfold frameHeaderLen; omega)]
      rw [if_neg (by unfold frameHeaderLen; omega)] at h
      simp only [hfield 8 2 (by omega), hfield 12 8 (by omega), hfield 20 4 (by omega),
        hfield 24 4 (by omega), hhead, hmagic]
      dsimp only at h
      split_ifs at h with h1 h2 h3 h4
      · rw [if_neg h1, if_neg h2, if_neg h3, if_pos]
        rw [length_take]
        omega
      · split at h <;> cases h

theorem scanFrom_of_stops (h : Stops C tail) (fuel offset : Nat) :
    scanFrom C fuel offset tail = .ok ⟨[], 0⟩ := by
  cases fuel with
  | zero => rfl
  | succ fuel =>
    rcases h with rfl | h
    · rfl
    · rw [scanFrom, h]
      split_ifs <;> rfl

theorem scanFrom_frames (hv : ∀ f ∈ fs, f.Valid C)
    (ht : Stops C tail) {fuel offset : Nat} (hfuel : (framesBytes C fs ++ tail).length ≤ fuel) :
    scanFrom C fuel offset (framesBytes C fs ++ tail) =
      .ok ⟨framesEntries fs, (framesBytes C fs).length⟩ := by
  induction fs generalizing fuel offset with
  | nil =>
    rw [framesBytes_nil, nil_append, scanFrom_of_stops ht]
    rfl
  | cons f fs ih =>
    have hbytes : framesBytes C (f :: fs) ++ tail = f.bytes C ++ (framesBytes C fs ++ tail) := by
      rw [framesBytes, flatMap_cons, append_assoc]
      rfl
    have hpos : 0 < (f.bytes C).length := by
      rw [Frame.length_bytes]
      unfold frameHeaderLen
      omega
    rw [hbytes, length_append] at hfuel
    obtain ⟨fuel, rfl⟩ : ∃ k, fuel = k + 1 := ⟨fuel - 1, by omega⟩
    have hne : f.bytes C ++ (framesBytes C fs ++ tail) ≠ [] := by
      intro h
      have := congrArg List.length h
      rw [length_append] at this
      simp only [length_nil] at this
      omega
    rw [hbytes, scanFrom, if_neg hne, Frame.decodeFrame_bytes (hv f (by simp))]
    simp only [drop_left]
    rw [ih (fun g hg => hv g (by simp [hg])) (by omega)]
    simp [framesEntries, framesBytes]

theorem scanWalBytes_frames (hv : ∀ f ∈ fs, f.Valid C) (ht : Stops C tail) :
    scanWalBytes C (framesBytes C fs ++ tail) = .ok ⟨framesEntries fs, (framesBytes C fs).length⟩ :=
  scanFrom_frames hv ht le_rfl

/-- However a run of frames is cut, what is left is whole frames and a tail the scan stops at: a
    group is there whole or not at all. -/
theorem exists_frames_of_take (hv : ∀ f ∈ fs, f.Valid C) (n : Nat) :
    ∃ k tail, (framesBytes C fs).take n = framesBytes C (fs.take k) ++ tail ∧ Stops C tail := by
  induction fs generalizing n with
  | nil => exact ⟨0, [], by simp, stops_nil⟩
  | cons f fs ih =>
    by_cases hn : n < (f.bytes C).length
    · refine ⟨0, (f.bytes C).take n, ?_, Or.inr (Frame.decodeFrame_take (hv f (by simp)) hn)⟩
      rw [framesBytes, flatMap_cons, take_append_of_le_length (by omega)]
      rfl
    · -- the first frame is whole; the cut falls into the rest
      obtain ⟨k, tail, heq, ht⟩ := ih (fun g hg => hv g (by simp [hg])) (n - (f.bytes C).length)
      refine ⟨k + 1, tail, ?_, ht⟩
      have hsplit : (framesBytes C (f :: fs)).take n =
          f.bytes C ++ (framesBytes C fs).take (n - (f.bytes C).length) := by
        rw [framesBytes, flatMap_cons, take_append, take_of_length_le (by omega)]
        rfl
      rw [hsplit, heq, take_succ_cons, framesBytes, framesBytes, flatMap_cons, append_assoc]

end ProximaDb.CanonicalWal
