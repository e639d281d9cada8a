/-
  ProximaDb.CanonicalWal.Image

  What the files of a log mean. An image is a history: sealed runs of frames, those at or below
  the floor that are still to be removed, the frames of the active file and what follows them
  there. Sealing, removing a segment and cutting the torn tail off change it as stated here.
-/
import ProximaDb.CanonicalWal.Run

namespace ProximaDb.CanonicalWal

open ProximaDb.Lib List CanonicalWal.Action

variable {C : WalCodec}

/-! ## Sealed runs -/

/-- A sealed file: its frames, and whether its summary was written behind them. -/
structure SealedImage where
  frames : List Frame
  sectioned : Bool

namespace SealedImage

def entries (s : SealedImage) : List CanonicalWalEntry := framesEntries s.frames

/-- The name of the file: the sequence of the first entry. -/
def name (s : SealedImage) : Nat := (s.entries.head?.map (fun e => e.sequenceNumber)).getD 0

def summary (s : SealedImage) : SegmentSummary := summaryOf (.segment s.name) s.entries

variable (C) in
def bytes (s : SealedImage) : Bytes :=
  framesBytes C.toFrameCodec s.frames ++
    if s.sectioned then encodeSummaryTrailer C s.summary else []

variable (C) in
/-- A sealed file holds whole frames, and ends in its section or like none. -/
structure Ok (s : SealedImage) : Prop where
  valid : ∀ f ∈ s.frames, f.Valid C.toFrameCodec
  nonempty : s.frames ≠ []
  sectionFits : s.sectioned = true → SectionFits C s.summary
  plain : s.sectioned = false →
    splitSummaryTrailer C (framesBytes C.toFrameCodec s.frames) = none

variable {s : SealedImage}

theorem entries_ne_nil (h : s.Ok C) : s.entries ≠ [] :=
  fun hnil => h.nonempty (framesEntries_eq_nil_iff.1 hnil)

theorem trim_bytes (h : s.Ok C) : trimSummarySection C (s.bytes C) = framesBytes C s.frames := by
  unfold bytes
  cases hs : s.sectioned with
  | true => exact trimSummarySection_section _ (h.sectionFits hs)
  | false =>
    rw [if_neg (by simp), append_nil]
    exact trimSummarySection_of_none (h.plain hs)

theorem readSealedSegment_bytes (h : s.Ok C) (firstSeq : Nat) :
    readSealedSegment C firstSeq (s.bytes C) = .ok s.entries := by
  have hscan := scanWalBytes_frames h.valid (@stops_nil C)
  rw [append_nil] at hscan
  rw [readSealedSegment, trim_bytes h, hscan]
  simp [entries]

theorem bootSummary_bytes (h : s.Ok C) : bootSummary C (s.name, s.bytes C) = .ok s.summary := by
  unfold bootSummary
  cases hs : s.sectioned with
  | true =>
    have hread : readSummarySection C s.name (s.bytes C) = some s.summary := by
      rw [bytes, hs, if_pos rfl, readSummarySection_section _ (h.sectionFits hs)]
      exact congrArg some (summaryOf_withPath _ _ _)
    rw [hread]
  | false =>
    have hread : readSummarySection C s.name (s.bytes C) = none := by
      rw [bytes, hs, if_neg (by simp), append_nil, readSummarySection, locateSection_twelve,
        splitSummaryTrailer_eq_none_iff.1 (h.plain hs)]
    rw [hread]
    rw [readSealedSegment_bytes h]
    rfl

theorem exists_name (h : s.Ok C) : ∃ e ∈ s.entries, e.sequenceNumber = s.name := by
  cases he : s.entries with
  | nil => exact absurd he (entries_ne_nil h)
  | cons e es =>
    refine ⟨e, by simp, ?_⟩
    rw [name, he]
    rfl

end SealedImage

open SealedImage

/-! ## The active file -/

/-- What follows the frames of the active file: bytes of an incomplete write, or the summary section
    of a seal that was not completed. -/
inductive Tail where
  | torn (bytes : Bytes)
  | summarySection

variable (C) in
def Tail.bytes (frames : List Frame) : Tail → Bytes
  | torn bytes => bytes
  | summarySection => encodeSummaryTrailer C (summaryOf .active (framesEntries frames))

variable (C) in
/-- A torn tail stops the scan and hides no section; a section stands behind frames. -/
def Tail.Ok (frames : List Frame) : Tail → Prop
  | torn bytes =>
    Stops C.toFrameCodec bytes ∧
      splitSummaryTrailer C (framesBytes C.toFrameCodec frames ++ bytes) = none ∧
      splitSummaryTrailer C (framesBytes C.toFrameCodec frames) = none
  | summarySection => frames ≠ [] ∧ SectionFits C (summaryOf .active (framesEntries frames))

/-! ## Images -/

structure Image where
  removed : List SealedImage
  segments : List SealedImage
  active : List Frame
  tail : Tail
  floor : Nat

namespace Image

def removedEntries (img : Image) : List CanonicalWalEntry :=
  img.removed.flatMap SealedImage.entries

def sealedEntries (img : Image) : List CanonicalWalEntry :=
  img.segments.flatMap SealedImage.entries

/-- The entries above the floor, oldest first. -/
def entries (img : Image) : List CanonicalWalEntry :=
  img.sealedEntries ++ framesEntries img.active

theorem history_eq (img : Image) : img.removedEntries ++ img.entries =
    (img.removed ++ img.segments).flatMap SealedImage.entries ++ framesEntries img.active := by
  rw [flatMap_append, append_assoc]
  rfl

variable (C) in
def activeBytes (img : Image) : Bytes :=
  framesBytes C.toFrameCodec img.active ++ img.tail.bytes C img.active

variable (C) in
structure Ok (img : Image) : Prop where
  segmentOk : ∀ s ∈ img.removed ++ img.segments, s.Ok C
  activeValid : ∀ f ∈ img.active, f.Valid C.toFrameCodec
  tailOk : img.tail.Ok C img.active
  order : InOrder (img.removedEntries ++ img.entries)
  positive : ∀ e ∈ img.removedEntries ++ img.entries, 0 < e.sequenceNumber
  below : ∀ e ∈ img.removedEntries, e.sequenceNumber ≤ img.floor
  above : ∀ e ∈ img.entries, img.floor < e.sequenceNumber
  bounded : ∀ e ∈ img.removedEntries ++ img.entries, e.sequenceNumber + 1 < 2 ^ 64
  floorBounded : img.floor + 1 < 2 ^ 64

end Image

variable (C) in
structure Realizes (img : Image) (d : Disk) : Prop where
  segments : d.segments = (img.removed ++ img.segments).map (fun s => (s.name, s.bytes C))
  active : d.activeBytes = img.activeBytes C
  floor : readFloorMarker d = .ok img.floor

/-! ## Reading -/

variable {img : Image}

theorem Image.trim_activeBytes (h : img.tail.Ok C img.active) : ∃ tail, Stops C tail ∧
      trimSummarySection C (img.activeBytes C) = framesBytes C img.active ++ tail := by
  unfold Image.activeBytes
  cases ht : img.tail with
  | torn bytes =>
    rw [ht] at h
    exact ⟨bytes, h.1, trimSummarySection_of_none h.2.1⟩
  | summarySection =>
    rw [ht] at h
    refine ⟨[], stops_nil, ?_⟩
    rw [append_nil]
    exact trimSummarySection_section _ h.2

theorem readActiveFile_eq (active : Option Bytes) :
    readActiveFile C active = readActiveFile C (some (active.getD [])) := by
  cases active with
  | none =>
    have htrim : trimSummarySection C [] = framesBytes C [] ++ [] := trimSummarySection_of_none rfl
    exact (readActiveFile_of_trim (by simp) stops_nil htrim).symm
  | some bytes => rfl

theorem Realizes.readActiveFile {d : Disk} (h : Realizes C img d) (hok : img.Ok C) :
    readActiveFile C d.active = .ok (framesEntries img.active) := by
  obtain ⟨tail, ht, htrim⟩ := Image.trim_activeBytes hok.tailOk
  rw [readActiveFile_eq]
  have hbytes : d.active.getD [] = img.activeBytes C := h.active
  rw [hbytes]
  exact readActiveFile_of_trim hok.activeValid ht htrim

theorem readSegments_map {segs : List SealedImage} (h : ∀ s ∈ segs, s.Ok C) :
    readSegments C (segs.map (fun s => (s.name, s.bytes C))) = .ok (segs.flatMap entries) := by
  induction segs with
  | nil => rfl
  | cons s segs ih =>
    rw [map_cons, readSegments, readSealedSegment_bytes (h s (by simp)),
      ih (fun t ht => h t (by simp [ht]))]
    rfl

theorem Realizes.readEntries {d : Disk} (h : Realizes C img d) (hok : img.Ok C) :
    readEntries C d = .ok img.entries := by
  have hseg := readSegments_map hok.segmentOk
  rw [← h.segments] at hseg
  rw [CanonicalWal.readEntries, h.floor]
  rw [hseg]
  rw [h.readActiveFile hok]
  dsimp only
  rw [← Image.history_eq, filter_append]
  have hbelow : img.removedEntries.filter (fun e => decide (img.floor < e.sequenceNumber)) = [] :=
    filter_eq_nil_iff.2 (fun e he => by have := hok.below e he; simp; omega)
  have habove : img.entries.filter (fun e => decide (img.floor < e.sequenceNumber)) = img.entries :=
    filter_eq_self.2 (fun e he => by simpa using hok.above e he)
  rw [hbelow, habove, nil_append]

theorem Realizes.readable {d : Disk} (h : Realizes C img d) (hok : img.Ok C) :
    readable C d = img.entries := by
  rw [CanonicalWal.readable, h.readEntries hok]

variable {img : Image} {d : Disk}

/-! ## Order -/

theorem InOrder.sublist {xs ys : List CanonicalWalEntry} (h : InOrder ys) (hsub : xs.Sublist ys) :
    InOrder xs :=
  List.Pairwise.sublist hsub h

variable {s : SealedImage}

theorem Image.mem_entries_of_segment (hs : s ∈ img.segments)
    {e : CanonicalWalEntry} (he : e ∈ s.entries) : e ∈ img.entries :=
  mem_append_left _ (mem_flatMap.2 ⟨s, hs, he⟩)

theorem Image.mem_removedEntries (hs : s ∈ img.removed)
    {e : CanonicalWalEntry} (he : e ∈ s.entries) : e ∈ img.removedEntries :=
  mem_flatMap.2 ⟨s, hs, he⟩

theorem Image.Ok.floor_lt_name (h : img.Ok C) (hs : s ∈ img.segments) : img.floor < s.name := by
  obtain ⟨e, he, hname⟩ := exists_name (h.segmentOk s (by simp [hs]))
  rw [← hname]
  exact h.above e (Image.mem_entries_of_segment hs he)

/-! ## Removing a segment below the floor -/

/-- The image without the segments of one name at or below the floor. -/
def Image.remove (img : Image) (firstSeq : Nat) : Image :=
  { img with removed := img.removed.filter (fun s => decide (s.name ≠ firstSeq)) }

theorem Image.removedEntries_remove_sublist (firstSeq : Nat) :
    (img.remove firstSeq).removedEntries.Sublist img.removedEntries :=
  filter_sublist.flatMap _

theorem Image.Ok.remove (h : img.Ok C) (firstSeq : Nat) : (img.remove firstSeq).Ok C := by
  have hsub := (@Image.removedEntries_remove_sublist img firstSeq).append
    (List.Sublist.refl img.entries)
  refine ⟨?_, h.activeValid, h.tailOk, h.order.sublist hsub, ?_, ?_, h.above, ?_, h.floorBounded⟩
  · intro s hs
    refine h.segmentOk s ?_
    rcases mem_append.1 hs with hs | hs
    · exact mem_append_left _ (mem_filter.1 hs).1
    · exact mem_append_right _ hs
  · exact fun e he => h.positive e (hsub.subset he)
  · exact fun e he => h.below e ((Image.removedEntries_remove_sublist firstSeq).subset he)
  · exact fun e he => h.bounded e (hsub.subset he)

theorem Realizes.remove (h : Realizes C img d) (hok : img.Ok C) {firstSeq : Nat}
    (hle : firstSeq ≤ img.floor) :
    Realizes C (img.remove firstSeq) (apply d (.remove firstSeq)) := by
  refine ⟨?_, h.active, h.floor⟩
  show d.segments.filter (fun s => decide (s.1 ≠ firstSeq)) = _
  -- the names of kept segments lie above the floor, so only removed ones can match
  have hkept : img.segments.filter (fun s => decide (s.name ≠ firstSeq)) = img.segments :=
    filter_eq_self.2 (fun s hs => by
      have := hok.floor_lt_name hs
      simp
      omega)
  rw [h.segments, filter_map]
  show List.map _ ((img.removed ++ img.segments).filter (fun s => decide (s.name ≠ firstSeq))) = _
  rw [filter_append, hkept]
  rfl

/-! ## Sealing the active file -/

theorem toSummaryData_summaryOf (p q : WalPath) (entries : List CanonicalWalEntry) :
    (summaryOf p entries).toSummaryData = (summaryOf q entries).toSummaryData := by
  rw [← summaryOf_withPath q p entries]

abbrev Image.activeSummary (img : Image) : SegmentSummary :=
  summaryOf .active (framesEntries img.active)

def Image.sealActive (img : Image) (sectioned : Bool) : Image :=
  { img with
    segments := img.segments ++ [⟨img.active, sectioned⟩]
    active := []
    tail := .torn [] }

@[simp] theorem Image.entries_sealActive (sectioned : Bool) :
    (img.sealActive sectioned).entries = img.entries := by
  simp [Image.entries, Image.sealedEntries, Image.sealActive, SealedImage.entries]

@[simp] theorem Image.removedEntries_sealActive (sectioned : Bool) :
    (img.sealActive sectioned).removedEntries = img.removedEntries := rfl

theorem splitSummaryTrailer_nil : splitSummaryTrailer C [] = none := rfl

variable {frames : List Frame}

theorem Tail.ok_torn_nil
    (h : splitSummaryTrailer C (framesBytes C frames) = none) : (Tail.torn []).Ok C frames :=
  ⟨stops_nil, by rwa [append_nil], h⟩

theorem Image.Ok.sealActive (h : img.Ok C) {sectioned : Bool} (hne : img.active ≠ [])
    (hfits : sectioned = true → SectionFits C img.activeSummary)
    (hplain : sectioned = false → splitSummaryTrailer C (framesBytes C img.active) = none) :
    (img.sealActive sectioned).Ok C := by
  have hsealed : SealedImage.Ok C ⟨img.active, sectioned⟩ := by
    refine ⟨h.activeValid, hne, fun hs => ?_, hplain⟩
    rw [SectionFits, SealedImage.summary, toSummaryData_summaryOf _ .active]
    exact hfits hs
  refine ⟨?_, by simp [Image.sealActive], Tail.ok_torn_nil splitSummaryTrailer_nil, ?_, ?_,
    h.below, ?_, ?_, h.floorBounded⟩
  · intro s hs
    simp only [Image.sealActive, mem_append, mem_singleton] at hs
    rcases hs with hs | hs | rfl
    · exact h.segmentOk s (by simp [hs])
    · exact h.segmentOk s (by simp [hs])
    · exact hsealed
  · simpa using h.order
  · simpa using h.positive
  · show ∀ e ∈ (img.sealActive sectioned).entries, img.floor < e.sequenceNumber
    simpa using h.above
  · simpa using h.bounded

/-- The name of the file the active frames are sealed under. -/
def Image.activeName (img : Image) : Nat := SealedImage.name ⟨img.active, false⟩

theorem Image.Ok.activeEntries_inOrder (h : img.Ok C) : InOrder (framesEntries img.active) :=
  h.order.sublist ((sublist_append_right _ _).trans (sublist_append_right _ _))

theorem Image.Ok.firstSeq_active (h : img.Ok C) (hne : img.active ≠ []) :
    img.activeSummary.firstSeq = some img.activeName := by
  rw [firstSeq_summaryOf _ h.activeEntries_inOrder, Image.activeName, name]
  cases hes : framesEntries img.active with
  | nil => exact absurd (framesEntries_eq_nil_iff.1 hes) hne
  | cons e es => simp [SealedImage.entries, hes]

theorem Image.Ok.name_lt_activeName (h : img.Ok C) (hne : img.active ≠ [])
    (hs : s ∈ img.removed ++ img.segments) : s.name < img.activeName := by
  obtain ⟨e, he, hname⟩ := SealedImage.exists_name (h.segmentOk s hs)
  have hactive : SealedImage.entries ⟨img.active, false⟩ ≠ [] :=
    fun hnil => hne (framesEntries_eq_nil_iff.1 hnil)
  obtain ⟨x, hx, hxname⟩ : ∃ x ∈ framesEntries img.active, x.sequenceNumber = img.activeName := by
    cases hes : framesEntries img.active with
    | nil => exact absurd hes hactive
    | cons x xs => exact ⟨x, by simp, by simp [Image.activeName, SealedImage.name,
        SealedImage.entries, hes]⟩
  have hord := h.order
  rw [Image.history_eq] at hord
  have hlt := (pairwise_append.1 hord).2.2 e (mem_flatMap.2 ⟨s, hs, he⟩) x hx
  omega

theorem length_framesBytes_pos (hne : frames ≠ []) : 0 < (framesBytes C frames).length := by
  cases frames with
  | nil => exact absurd rfl hne
  | cons f fs =>
    rw [framesBytes, flatMap_cons, length_append, Frame.length_bytes]
    unfold frameHeaderLen
    omega

theorem Disk.active_eq_some {d : Disk} (h : d.activeBytes ≠ []) :
    d.active = some d.activeBytes := by
  unfold Disk.activeBytes at *
  cases hd : d.active with
  | none => simp [hd] at h
  | some bytes => rfl

theorem Disk.active_eq_some_of_frames (hne : frames ≠ []) {rest : Bytes}
    (h : d.activeBytes = framesBytes C frames ++ rest) : d.active = some d.activeBytes := by
  refine Disk.active_eq_some (fun hnil => ?_)
  have hpos := @length_framesBytes_pos C _ hne
  rw [h] at hnil
  rw [(append_eq_nil_iff.1 hnil).1] at hpos
  exact absurd hpos (by decide)

theorem Action.apply_rename_of_some {bytes : Bytes} (h : d.active = some bytes) (firstSeq : Nat) :
    apply d (.rename firstSeq) = { d with
        active := none, synced := 0, segments := Disk.putSegment firstSeq bytes d.segments } := by
  simp only [apply, h]

/-- The rename makes the active file, with its section or without, the newest segment. -/
theorem Realizes.rename
    (hseg : d.segments = (img.removed ++ img.segments).map (fun s => (s.name, s.bytes C)))
    (hfloor : readFloorMarker d = .ok img.floor) (hok : img.Ok C) (hne : img.active ≠ [])
    {sectioned : Bool}
    (hactive : d.activeBytes = framesBytes C img.active ++
      if sectioned then encodeSummaryTrailer C img.activeSummary else []) :
    Realizes C (img.sealActive sectioned) (apply d (.rename img.activeName)) := by
  have hput : Disk.putSegment img.activeName d.activeBytes d.segments =
      d.segments ++ [(img.activeName, d.activeBytes)] := by
    refine Disk.putSegment_of_lt _ (fun s hs => ?_)
    rw [hseg] at hs
    obtain ⟨t, ht, rfl⟩ := mem_map.1 hs
    exact hok.name_lt_activeName hne ht
  rw [apply_rename_of_some (Disk.active_eq_some_of_frames hne hactive), hput]
  refine ⟨?_, by simp [Disk.activeBytes, Image.activeBytes, Image.sealActive, Tail.bytes], hfloor⟩
  have hbytes : d.activeBytes = bytes C ⟨img.active, sectioned⟩ := by
    rw [hactive, bytes, summary, encodeSummaryTrailer, encodeSummaryTrailer,
      toSummaryData_summaryOf (.segment _) .active]
    rfl
  rw [hseg, hbytes]
  simp [Image.sealActive, Image.activeName, name, entries]

/-! ## Cutting the tail off -/

def Image.cutTail (img : Image) : Image := { img with tail := .torn [] }

theorem Image.Ok.cutTail (h : img.Ok C)
    (hplain : splitSummaryTrailer C (framesBytes C img.active) = none) : img.cutTail.Ok C :=
  { h with tailOk := Tail.ok_torn_nil hplain }

theorem Realizes.setLen (h : Realizes C img d) : Realizes C img.cutTail
      (apply d (.setLen (framesBytes C img.active).length)) := by
  refine ⟨h.segments, ?_, h.floor⟩
  have hbytes : (apply d (.setLen (framesBytes C img.active).length)).activeBytes
      = d.activeBytes.take (framesBytes C img.active).length := by
    simp only [apply, Disk.activeBytes]
    cases d.active <;> simp
  rw [hbytes, h.active, Image.activeBytes, take_left, Image.activeBytes, Image.cutTail,
    Tail.bytes, append_nil]

theorem Realizes.create (h : Realizes C img d) (hempty : d.activeBytes = []) :
    Realizes C img (apply d .create) :=
  ⟨h.segments, by rw [← h.active, hempty]; rfl, h.floor⟩

end ProximaDb.CanonicalWal
