/-
  ProximaDb.CanonicalWal.Disk

  The files of one log: the active file, the sealed segments next to it, each with a summary
  section at its end that is located from the last bytes of the file, and the floor marker. An
  operation changes them by a list of actions, so that a crash is a prefix of the list, with any
  part of what was not yet synced lost.
-/
import ProximaDb.CanonicalWal.Summary

namespace ProximaDb.CanonicalWal

open ProximaDb.Lib List

variable {bytes : Bytes} {summary : SegmentSummary}

/-- The codec of frames with the encoding of summaries (`rmp_serde`). -/
structure WalCodec extends FrameCodec where
  encodeSummary : SummaryData → Bytes
  decodeSummary : Bytes → Option SummaryData
  decode_summary : ∀ s, decodeSummary (encodeSummary s) = some s

instance : Coe WalCodec FrameCodec := ⟨WalCodec.toFrameCodec⟩

/-- `"PXWSTL01"`. -/
def summaryTrailerMagic : Bytes := [0x50, 0x58, 0x57, 0x53, 0x54, 0x4C, 0x30, 0x31]

def summaryTrailerMaxPayload : Nat := 4 * 1024 * 1024

variable (C : WalCodec)

def encodeSummaryTrailer (summary : SegmentSummary) : Bytes :=
  let payload := C.encodeSummary summary.toSummaryData
  payload ++ leBytes 4 (C.crc32 payload) ++ leBytes 4 payload.length ++ summaryTrailerMagic

/-- The payload length of the section a file of at least `least` bytes ends with. -/
def locateSection (least : Nat) (bytes : Bytes) : Option Nat :=
  if bytes.length < least then none
  else
    let tail := bytes.drop (bytes.length - 12)
    if tail.drop 4 ≠ summaryTrailerMagic then none
    else
      let payloadLen := leNat (tail.take 4)
      if summaryTrailerMaxPayload < payloadLen ∨ bytes.length < 16 + payloadLen then none
      else some payloadLen

/-- `split_summary_trailer`: the frames in front of a section, and its summary where the payload is
    intact; `none` is a file without a section. -/
def splitSummaryTrailer (bytes : Bytes) : Option (Bytes × Option SummaryData) :=
  match locateSection 16 bytes with
  | none => none
  | some payloadLen =>
    let payloadEnd := bytes.length - 16
    let payloadStart := payloadEnd - payloadLen
    let payload := (bytes.drop payloadStart).take payloadLen
    -- the frames end here even when the payload is not to be trusted
    if C.crc32 payload ≠ leNat ((bytes.drop payloadEnd).take 4) then
      some (bytes.take payloadStart, none)
    else some (bytes.take payloadStart, C.decodeSummary payload)

/-- `read_summary_section`: the summary from one read of the end of the file. -/
def readSummarySection (firstSeq : Nat) (bytes : Bytes) : Option SegmentSummary :=
  match locateSection 12 bytes with
  | none => none
  | some payloadLen =>
    match splitSummaryTrailer C (bytes.drop (bytes.length - (16 + payloadLen))) with
    | some (_, some data) => some { data with path := .segment firstSeq }
    | _ => none

def trimSummarySection (bytes : Bytes) : Bytes :=
  match splitSummaryTrailer C bytes with
  | some (frames, _) => frames
  | none => bytes

/-- What a read or an open of the log fails with. -/
inductive WalError where
  | decoding (path : WalPath) (e : ScanError)
  | segmentCorrupt (path : WalPath) (validLen len : Nat)
  | missingSegment (firstSeq : Nat)
  | floorMarker
  | truncating
deriving DecidableEq

/-- `read_sealed_segment`: anything short of a clean parse is corruption. -/
def readSealedSegment (firstSeq : Nat) (bytes : Bytes) :
    Except WalError (List CanonicalWalEntry) :=
  match scanWalBytes C.toFrameCodec (trimSummarySection C bytes) with
  | .error e => .error (.decoding (.segment firstSeq) e)
  | .ok scan =>
    if scan.validLen ≠ (trimSummarySection C bytes).length then
      .error (.segmentCorrupt (.segment firstSeq) scan.validLen (trimSummarySection C bytes).length)
    else .ok scan.entries

/-- `read_active_file`; a missing file reads as empty. -/
def readActiveFile (active : Option Bytes) : Except WalError (List CanonicalWalEntry) :=
  match active with
  | none => .ok []
  | some bytes =>
    match scanWalBytes C.toFrameCodec (trimSummarySection C bytes) with
    | .error e => .error (.decoding .active e)
    | .ok scan => .ok scan.entries

/-! ## A section reads back -/

variable {C}

/-- The section's payload is small enough to be found again. -/
def SectionFits (C : WalCodec) (summary : SegmentSummary) : Prop :=
  (C.encodeSummary summary.toSummaryData).length ≤ summaryTrailerMaxPayload

instance (summary : SegmentSummary) : Decidable (SectionFits C summary) := by
  unfold SectionFits
  infer_instance

theorem length_encodeSummaryTrailer (summary : SegmentSummary) :
    (encodeSummaryTrailer C summary).length =
      (C.encodeSummary summary.toSummaryData).length + 16 := by
  simp [encodeSummaryTrailer, summaryTrailerMagic]

/-- The end of a file with a section: the fixed fields and the payload they delimit. -/
theorem locateSection_fields (x payload crc : Bytes) (hcrc : crc.length = 4)
    (hfits : payload.length ≤ summaryTrailerMaxPayload) :
    locateSection 16 (x ++ (payload ++ crc ++ leBytes 4 payload.length ++ summaryTrailerMagic)) =
      some payload.length := by
  generalize hb : x ++ (payload ++ crc ++ leBytes 4 payload.length ++ summaryTrailerMagic) = bytes
  set trailer := leBytes 4 payload.length ++ summaryTrailerMagic with htrailer
  have hlen : bytes.length = x.length + payload.length + 16 := by
    rw [← hb]
    simp [summaryTrailerMagic, hcrc]
    omega
  have htail : bytes.drop (bytes.length - 12) = trailer := by
    have hpre : bytes = (x ++ payload ++ crc) ++ trailer := by
      rw [← hb]
      simp only [htrailer, append_assoc]
    rw [hlen, hpre]
    exact drop_left' (by simp [hcrc]; omega)
  have hmagic : trailer.drop 4 = summaryTrailerMagic := drop_left' (by simp)
  have hfront : trailer.take 4 = leBytes 4 payload.length := take_left' (by simp)
  have hpl : leNat (leBytes 4 payload.length) = payload.length :=
    leNat_leBytes (by unfold summaryTrailerMaxPayload at hfits; omega)
  unfold locateSection
  rw [if_neg (by omega)]
  simp only [htail, hmagic, hfront, hpl]
  rw [if_neg (by simp), if_neg (by omega)]

theorem locateSection_twelve (bytes : Bytes) : locateSection 12 bytes = locateSection 16 bytes := by
  unfold locateSection
  by_cases h12 : bytes.length < 12
  · rw [if_pos h12, if_pos (by omega)]
  · by_cases h16 : bytes.length < 16
    · rw [if_neg h12, if_pos h16]
      dsimp only
      split_ifs with h1 h2
      · rfl
      · rfl
      · omega
    · rw [if_neg h12, if_neg h16]

theorem splitSummaryTrailer_eq_none_iff :
    splitSummaryTrailer C bytes = none ↔ locateSection 16 bytes = none := by
  unfold splitSummaryTrailer
  cases locateSection 16 bytes with
  | none => simp
  | some payloadLen =>
    dsimp only
    split_ifs <;> simp

theorem splitSummaryTrailer_section (x : Bytes) (hfits : SectionFits C summary) :
    splitSummaryTrailer C (x ++ encodeSummaryTrailer C summary) =
      some (x, some summary.toSummaryData) := by
  generalize hp : C.encodeSummary summary.toSummaryData = payload
  have hsection : encodeSummaryTrailer C summary =
      payload ++ leBytes 4 (C.crc32 payload) ++ leBytes 4 payload.length ++ summaryTrailerMagic := by
    rw [encodeSummaryTrailer, hp]
  have hfits' : payload.length ≤ summaryTrailerMaxPayload := hp ▸ hfits
  have hlocate := locateSection_fields x payload (leBytes 4 (C.crc32 payload)) (by simp) hfits'
  rw [← hsection] at hlocate
  have hlen : (x ++ encodeSummaryTrailer C summary).length = x.length + payload.length + 16 := by
    rw [length_append, length_encodeSummaryTrailer, hp]
    omega
  have hcrc : ((x ++ encodeSummaryTrailer C summary).drop (x.length + payload.length)).take 4 =
      leBytes 4 (C.crc32 payload) := by
    have hpre : x ++ encodeSummaryTrailer C summary = (x ++ payload) ++
        (leBytes 4 (C.crc32 payload) ++ (leBytes 4 payload.length ++ summaryTrailerMagic)) := by
      rw [hsection]
      simp only [append_assoc]
    rw [hpre, drop_left' (by simp)]
    exact take_left' (by simp)
  have hpayload : ((x ++ encodeSummaryTrailer C summary).drop x.length).take payload.length =
      payload := by
    rw [drop_left, hsection, append_assoc, append_assoc]
    exact take_left
  have hend : x.length + payload.length + 16 - 16 = x.length + payload.length := by omega
  have hstart : x.length + payload.length - payload.length = x.length := by omega
  have hread : leNat (leBytes 4 (C.crc32 payload)) = C.crc32 payload :=
    leNat_leBytes (by have := C.crc32_lt payload; omega)
  have hdecode : C.decodeSummary payload = some summary.toSummaryData := by
    rw [← hp, C.decode_summary]
  unfold splitSummaryTrailer
  rw [hlocate]
  simp only [hlen, hend, hstart, hcrc, hpayload, hread, take_left, hdecode]
  rw [if_neg (by simp)]

theorem trimSummarySection_of_none (h : splitSummaryTrailer C bytes = none) :
    trimSummarySection C bytes = bytes := by
  rw [trimSummarySection, h]

theorem trimSummarySection_section (x : Bytes) (hfits : SectionFits C summary) :
    trimSummarySection C (x ++ encodeSummaryTrailer C summary) = x := by
  rw [trimSummarySection, splitSummaryTrailer_section x hfits]

theorem readSummarySection_section (x : Bytes) (hfits : SectionFits C summary) (firstSeq : Nat) :
    readSummarySection C firstSeq (x ++ encodeSummaryTrailer C summary) =
      some { summary with path := .segment firstSeq } := by
  have hlocate := locateSection_fields x (C.encodeSummary summary.toSummaryData)
    (leBytes 4 (C.crc32 (C.encodeSummary summary.toSummaryData))) (by simp) hfits
  have hsuffix : (x ++ encodeSummaryTrailer C summary).drop
      ((x ++ encodeSummaryTrailer C summary).length -
        (16 + (C.encodeSummary summary.toSummaryData).length)) = encodeSummaryTrailer C summary := by
    refine drop_left' ?_
    rw [length_append, length_encodeSummaryTrailer]
    omega
  have hsplit := splitSummaryTrailer_section [] hfits
  rw [nil_append] at hsplit
  rw [readSummarySection, locateSection_twelve]
  rw [show locateSection 16 (x ++ encodeSummaryTrailer C summary) =
    some (C.encodeSummary summary.toSummaryData).length from hlocate]
  simp only [hsuffix, hsplit]

/-! ## Files of whole frames -/

theorem readActiveFile_of_trim {fs : List Frame} (hv : ∀ f ∈ fs, f.Valid C)
    {tail : Bytes} (ht : Stops C tail)
    (h : trimSummarySection C bytes = framesBytes C fs ++ tail) :
    readActiveFile C (some bytes) = .ok (framesEntries fs) := by
  rw [readActiveFile, h, scanWalBytes_frames hv ht]

/-- The files.  Bytes of the active file past `synced` may be lost by a crash. -/
structure Disk where
  active : Option Bytes
  synced : Nat
  segments : List (Nat × Bytes)
  floor : Option Bytes
deriving DecidableEq

namespace Disk

def empty : Disk := ⟨none, 0, [], none⟩

/-- The active file's bytes; a missing file reads as empty. -/
def activeBytes (d : Disk) : Bytes := d.active.getD []

/-- Put a file under a segment's name, over any file there; names stay in order. -/
def putSegment (name : Nat) (bytes : Bytes) (segments : List (Nat × Bytes)) : List (Nat × Bytes) :=
  segments.filter (fun s => decide (s.1 < name)) ++
    (name, bytes) :: segments.filter (fun s => decide (name < s.1))

end Disk

/-- One effect on the files. Renames, creations and removals are durable when they are done, as the
    directory is synced; written bytes are once `sync` has run. -/
inductive Action where
  | write (bytes : Bytes)
  | writeSection (bytes : Bytes)
  | sync
  | setLen (len : Nat)
  | rename (firstSeq : Nat)
  | create
  | setFloor (text : Bytes)
  | remove (firstSeq : Nat)
deriving DecidableEq

def Action.apply (d : Disk) : Action → Disk
  | write bytes => { d with active := some (d.activeBytes ++ bytes) }
  | writeSection bytes => { d with active := some (d.activeBytes ++ bytes) }
  | sync => { d with synced := d.activeBytes.length }
  | setLen len =>
    { d with active := d.active.map (fun bytes => bytes.take len), synced := min d.synced len }
  | rename firstSeq =>
    match d.active with
    | none => d
    | some bytes =>
      { d with
        active := none, synced := 0, segments := Disk.putSegment firstSeq bytes d.segments }
  | create => { d with active := some [], synced := 0 }
  | setFloor text => { d with floor := some text }
  | remove firstSeq => { d with segments := d.segments.filter (fun s => decide (s.1 ≠ firstSeq)) }

def Disk.applyAll (d : Disk) (plan : List Action) : Disk := plan.foldl Action.apply d

/-- A crash: the active file keeps what was synced and any part of the rest; what is left is
    durable. -/
def Disk.cut (d : Disk) (len : Nat) : Disk :=
  { d with
    active := d.active.map (fun bytes => bytes.take (max len d.synced))
    synced := (d.activeBytes.take (max len d.synced)).length }

/-! ## Reading the files -/

/-- The text `write_floor_marker` installs. -/
def floorText (through : Nat) : Bytes := utf8 (decimal through)

/-- `read_floor_marker`: the highest truncated sequence, `0` when there is no marker. -/
def readFloorMarker (d : Disk) : Except WalError Nat :=
  match d.floor with
  | none => .ok 0
  | some text =>
    match (ofUtf8 text).bind (fun s => parseU64 (trim s)) with
    | none => .error .floorMarker
    | some floor => .ok floor

variable (C)

def readSegments : List (Nat × Bytes) → Except WalError (List CanonicalWalEntry)
  | [] => .ok []
  | s :: rest =>
    match readSealedSegment C s.1 s.2 with
    | .error e => .error e
    | .ok entries =>
      match readSegments rest with
      | .error e => .error e
      | .ok more => .ok (entries ++ more)

/-- `read_entries`: every complete entry, the sealed segments first. A segment whose delete failed
    after its floor was recorded is no longer history. -/
def readEntries (d : Disk) : Except WalError (List CanonicalWalEntry) :=
  match readFloorMarker d with
  | .error e => .error e
  | .ok truncatedThrough =>
    match readSegments C d.segments with
    | .error e => .error e
    | .ok sealedEntries =>
      match readActiveFile C d.active with
      | .error e => .error e
      | .ok activeEntries =>
        .ok ((sealedEntries ++ activeEntries).filter
          (fun e => decide (truncatedThrough < e.sequenceNumber)))

/-! ## Lemmas -/

@[simp] theorem Disk.applyAll_nil (d : Disk) : d.applyAll [] = d := rfl

@[simp] theorem Disk.applyAll_cons (d : Disk) (a : Action) (plan : List Action) :
    d.applyAll (a :: plan) = (a.apply d).applyAll plan := rfl

theorem Disk.applyAll_append (d : Disk) (p q : List Action) :
    d.applyAll (p ++ q) = (d.applyAll p).applyAll q :=
  foldl_append

theorem readFloorMarker_floorText {d : Disk} {through : Nat} (h : through < 2 ^ 64) :
    readFloorMarker { d with floor := some (floorText through) } = .ok through := by
  simp only [readFloorMarker, floorText, ofUtf8_utf8, Option.bind_some, parseU64_trim_decimal h]

theorem Disk.putSegment_of_lt {name : Nat} {segments : List (Nat × Bytes)} (bytes : Bytes)
    (h : ∀ s ∈ segments, s.1 < name) :
    Disk.putSegment name bytes segments = segments ++ [(name, bytes)] := by
  have hbefore : segments.filter (fun s => decide (s.1 < name)) = segments :=
    filter_eq_self.2 (fun s hs => by simp [h s hs])
  have hafter : segments.filter (fun s => decide (name < s.1)) = [] :=
    filter_eq_nil_iff.2 (fun s hs => by have := h s hs; simp; omega)
  rw [Disk.putSegment, hbefore, hafter]

end ProximaDb.CanonicalWal
