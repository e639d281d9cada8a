/-
  ProximaDb.CanonicalWal.Rotated

  What a crash leaves of the active file, the entries and frames of one append (consecutive
  sequences after the counter, framed singly or as one group), and the rotation of the active
  file.
-/
import ProximaDb.CanonicalWal.Opened

namespace ProximaDb.CanonicalWal

open ProximaDb.Lib List Image

variable {C : WalCodec} {img : Image} {d : Disk} {entries : List CanonicalWalEntry}
  {frames : List Frame} {now : Nat} {operations : List (CanonicalOperation × Option String)}
  {rest : Bytes}

@[simp] theorem Disk.activeBytes_cut (d : Disk) (len : Nat) :
    (d.cut len).activeBytes = d.activeBytes.take (max len d.synced) := by
  simp only [Disk.cut, Disk.activeBytes]
  cases d.active <;> simp

theorem Disk.synced_cut (d : Disk) (len : Nat) :
    (d.cut len).synced = (d.cut len).activeBytes.length := by
  rw [Disk.activeBytes_cut]
  rfl

theorem Rests.cut (h : Rests C img d) (len : Nat) : Rests C img (d.cut len) := by
  obtain ⟨removed, hok, hreal, hsynced⟩ := h
  refine ⟨removed, hok, ⟨hreal.segments, ?_, hreal.floor⟩, Disk.synced_cut d len⟩
  rw [Disk.activeBytes_cut, take_of_length_le (by omega)]
  exact hreal.active

theorem Holds.cut {floor : Nat} (h : Holds C floor entries d) (len : Nat) :
    Holds C floor entries (d.cut len) := by
  obtain ⟨img, hfloor, hentries, hrests⟩ := h
  exact ⟨img, hfloor, hentries, hrests.cut len⟩

theorem Rests.activeBytes (h : Rests C img d) (ht : img.tail = .torn []) :
    d.activeBytes = framesBytes C img.active := by
  obtain ⟨removed, hok, hreal, hsynced⟩ := h
  rw [hreal.active, Image.activeBytes]
  simp only [ht, Tail.bytes, append_nil]

theorem Rests.plain (h : Rests C img d) (ht : img.tail = .torn []) :
    splitSummaryTrailer C (framesBytes C img.active) = none := by
  obtain ⟨removed, hok, -⟩ := h
  have htail : (Tail.torn []).Ok C img.active := ht ▸ hok.tailOk
  exact htail.2.2

/-! ## More frames in the active file -/

/-- The image with frames written behind the active ones, and a torn rest. -/
def Image.extend (img : Image) (frames : List Frame) (rest : Bytes) : Image :=
  { img with active := img.active ++ frames, tail := .torn rest }

@[simp] theorem Image.entries_extend (frames : List Frame) (rest : Bytes) :
    (img.extend frames rest).entries = img.entries ++ framesEntries frames := by
  rw [Image.entries, Image.entries, Image.extend, framesEntries_append, ← append_assoc]
  rfl

variable (C) in
/-- Frames that continue the image: valid, in order and past everything before. -/
structure Continues (img : Image) (frames : List Frame) : Prop where
  valid : ∀ f ∈ frames, f.Valid C.toFrameCodec
  order : InOrder (framesEntries frames)
  after : ∀ e ∈ framesEntries frames, ∀ x ∈ img.entries, x.sequenceNumber < e.sequenceNumber
  aboveFloor : ∀ e ∈ framesEntries frames, img.floor < e.sequenceNumber
  bounded : ∀ e ∈ framesEntries frames, e.sequenceNumber + 1 < 2 ^ 64

theorem Continues.take (h : Continues C img frames) (k : Nat) :
    Continues C img (frames.take k) := by
  have hsub : (framesEntries (frames.take k)).Sublist (framesEntries frames) :=
    (take_sublist k frames).flatMap _
  exact ⟨fun f hf => h.valid f (mem_of_mem_take hf), h.order.sublist hsub,
    fun e he => h.after e (hsub.subset he), fun e he => h.aboveFloor e (hsub.subset he),
    fun e he => h.bounded e (hsub.subset he)⟩

theorem Image.Ok.extend (hok : img.Ok C) (hc : Continues C img frames) (hrest : Stops C rest)
    (hplain : splitSummaryTrailer C (framesBytes C (img.active ++ frames) ++ rest) = none)
    (hframes : splitSummaryTrailer C (framesBytes C (img.active ++ frames)) = none) :
    (img.extend frames rest).Ok C := by
  have hall : (img.extend frames rest).removedEntries ++ (img.extend frames rest).entries =
      (img.removedEntries ++ img.entries) ++ framesEntries frames := by
    rw [entries_extend, ← append_assoc]
    rfl
  refine ⟨hok.segmentOk, ?_, ⟨hrest, hplain, hframes⟩, ?_, ?_, hok.below, ?_, ?_, hok.floorBounded⟩
  · exact forall_mem_append.2 ⟨hok.activeValid, hc.valid⟩
  · rw [hall]
    refine pairwise_append.2 ⟨hok.order, hc.order, fun x hx e he => ?_⟩
    rcases mem_append.1 hx with hx | hx
    · exact lt_of_le_of_lt (hok.below x hx) (hc.aboveFloor e he)
    · exact hc.after e he x hx
  · rw [hall]
    exact forall_mem_append.2 ⟨hok.positive,
      fun e he => lt_of_le_of_lt (Nat.zero_le _) (hc.aboveFloor e he)⟩
  · rw [entries_extend]
    exact forall_mem_append.2 ⟨hok.above, hc.aboveFloor⟩
  · rw [hall]
    exact forall_mem_append.2 ⟨hok.bounded, hc.bounded⟩

/-! ## A write of frames -/

variable (C) in
/-- The files realize the image but for bytes written behind its frames, of which only the frames
    are durable. -/
structure Pending (img : Image) (removed : List SealedImage) (written : Bytes) (d : Disk) :
    Prop where
  ok : ({ img with removed := removed } : Image).Ok C
  segments : d.segments = (removed ++ img.segments).map (fun s => (s.name, s.bytes C))
  floor : readFloorMarker d = .ok img.floor
  active : d.activeBytes = framesBytes C.toFrameCodec img.active ++ written
  durable : (framesBytes C.toFrameCodec img.active).length ≤ d.synced

variable {removed : List SealedImage} {written : Bytes}

theorem Pending.cut (h : Pending C img removed written d) (len : Nat) :
    ∃ m, (d.cut len).activeBytes = framesBytes C img.active ++ written.take m := by
  have := h.durable
  refine ⟨max len d.synced - (framesBytes C img.active).length, ?_⟩
  rw [Disk.activeBytes_cut, h.active, take_append, take_of_length_le (by omega)]

theorem Pending.rests (h : Pending C img removed written d)
    (hc : Continues C { img with removed := removed } frames) {rest : Bytes}
    (hrest : Stops C rest) {len : Nat}
    (hleft : (d.cut len).activeBytes = framesBytes C (img.active ++ frames) ++ rest)
    (hplain : Plain C (d.cut len).activeBytes) : Rests C (img.extend frames rest) (d.cut len) := by
  have hv : ∀ f ∈ img.active ++ frames, f.Valid C :=
    forall_mem_append.2 ⟨h.ok.activeValid, hc.valid⟩
  rw [hleft] at hplain
  have hframes := hplain.2
  simp only [framesPart, scanWalBytes_frames hv hrest, take_left] at hframes
  exact ⟨removed, h.ok.extend hc hrest hplain.1 hframes,
    ⟨h.segments, hleft, h.floor⟩, Disk.synced_cut d len⟩

/-! ## A summary section -/

theorem continues_nil : Continues C img [] :=
  ⟨by simp, List.Pairwise.nil, by simp, by simp, by simp⟩

def Image.withSection (img : Image) : Image := { img with tail := .summarySection }

theorem Image.Ok.withSection (hok : img.Ok C) (hne : img.active ≠ [])
    (hfits : SectionFits C img.activeSummary) : img.withSection.Ok C :=
  ⟨hok.segmentOk, hok.activeValid, ⟨hne, hfits⟩, hok.order, hok.positive, hok.below, hok.above,
    hok.bounded, hok.floorBounded⟩

theorem Pending.realizes_withSection
    (h : Pending C img removed (encodeSummaryTrailer C img.activeSummary) d) :
    Realizes C { img.withSection with removed := removed } d :=
  ⟨h.segments, h.active, h.floor⟩

variable {a : Appender} {group : Bool}

/-! ## Sequences -/

theorem length_assignSequences (now seq : Nat)
    (operations : List (CanonicalOperation × Option String)) :
    (assignSequences now seq operations).length = operations.length := by
  induction operations generalizing seq with
  | nil => rfl
  | cons op operations ih => rw [assignSequences, length_cons, length_cons, ih]

section Sequences

variable {seq : Nat} (h : seq + operations.length ≤ 2 ^ 64)

include h

theorem map_sequenceNumber_assignSequences :
    (assignSequences now seq operations).map (fun e => e.sequenceNumber) =
      List.range' seq operations.length := by
  induction operations generalizing seq with
  | nil => rfl
  | cons op operations ih =>
    rw [length_cons] at h
    rw [assignSequences, map_cons, ih (by omega), length_cons, List.range'_succ]
    simp only [List.cons.injEq, and_true]
    omega

theorem mem_assignSequences {e : CanonicalWalEntry} (he : e ∈ assignSequences now seq operations) :
    seq ≤ e.sequenceNumber ∧ e.sequenceNumber < seq + operations.length := by
  have hmem : e.sequenceNumber ∈
      (assignSequences now seq operations).map (fun e => e.sequenceNumber) :=
    mem_map.2 ⟨e, he, rfl⟩
  rw [map_sequenceNumber_assignSequences h] at hmem
  exact mem_range'_1.1 hmem

theorem inOrder_assignSequences : InOrder (assignSequences now seq operations) := by
  have hpair : ((assignSequences now seq operations).map (fun e => e.sequenceNumber)).Pairwise
      (fun a b => a < b) := by
    rw [map_sequenceNumber_assignSequences h]
    exact pairwise_lt_range'
  exact pairwise_map.1 hpair

theorem firstGap_assignSequences : firstGap seq (assignSequences now seq operations) = none := by
  induction operations generalizing seq with
  | nil => rfl
  | cons op operations ih =>
    rw [length_cons] at h
    rw [assignSequences, firstGap, if_neg (by simp only [ne_eq, not_not]; omega)]
    cases operations with
    | nil => rfl
    | cons op' operations =>
      -- another entry follows, so the next sequence has not wrapped
      rw [length_cons] at h
      rw [Nat.mod_eq_of_lt (by omega)]
      exact ih (by rw [length_cons]; omega)

end Sequences

/-! ## Frames -/

theorem framesEntries_framesOf (group : Bool) (entries : List CanonicalWalEntry) :
    framesEntries (framesOf group entries) = entries := by
  cases group with
  | true =>
    cases entries with
    | nil => rfl
    | cons e es => simp [framesOf, framesEntries, Frame.entries]
  | false =>
    simp only [framesOf, framesEntries, flatMap_map, Frame.entries]
    exact flatMap_singleton' entries

theorem encodePayload_eq_some {version sequence : Nat} {payload bytes : Bytes}
    (h : encodePayload C version sequence payload = some bytes) : payload.length < 2 ^ 32 ∧
      bytes = frameHeader version sequence payload.length (C.crc32 payload) ++ payload := by
  unfold encodePayload at h
  split_ifs at h with hfits
  cases h
  exact ⟨hfits, rfl⟩

theorem mapM_encodeFrame_eq_some {parts : List Bytes}
    (h : entries.mapM (encodeFrame C) = some parts) :
    parts.flatten = framesBytes C (entries.map .single) ∧
      ∀ e ∈ entries, (C.encodeEntry e).length < 2 ^ 32 := by
  induction entries generalizing parts with
  | nil =>
    cases h
    exact ⟨rfl, by simp⟩
  | cons e entries ih =>
    rw [mapM_cons] at h
    obtain ⟨part, he, h⟩ := Option.bind_eq_some_iff.1 h
    obtain ⟨rest, hr, h⟩ := Option.bind_eq_some_iff.1 h
    cases h
    obtain ⟨hrest, hfits⟩ := ih hr
    obtain ⟨hfit, hpart⟩ := encodePayload_eq_some he
    rw [flatten_cons, hrest, hpart]
    exact ⟨rfl, forall_mem_cons.2 ⟨hfit, hfits⟩⟩

/-- The encoded append is the bytes of its frames, each of which fits its header. -/
theorem encodeFrames_eq_some {bytes : Bytes} (h : encodeFrames C group entries = some bytes) :
    bytes = framesBytes C (framesOf group entries) ∧
      ∀ f ∈ framesOf group entries, (f.payload C).length < 2 ^ 32 := by
  unfold encodeFrames at h
  cases group with
  | true =>
    rw [if_pos rfl] at h
    cases entries with
    | nil => cases h
    | cons e es =>
      obtain ⟨hfits, hbytes⟩ := encodePayload_eq_some h
      refine ⟨?_, ?_⟩
      · rw [hbytes]
        simp [framesOf, framesBytes, Frame.bytes, Frame.version, Frame.sequence, Frame.payload]
      · intro f hf
        rw [framesOf, mem_singleton] at hf
        rw [hf]
        exact hfits
  | false =>
    rw [if_neg (by simp)] at h
    obtain ⟨parts, hparts, rfl⟩ := Option.map_eq_some_iff.1 h
    obtain ⟨hbytes, hfits⟩ := mapM_encodeFrame_eq_some hparts
    refine ⟨hbytes, ?_⟩
    intro f hf
    obtain ⟨e, he, rfl⟩ := mem_map.1 hf
    exact hfits e he

theorem valid_framesOf {seq : Nat} (h : seq + operations.length ≤ 2 ^ 64)
    (hfits : ∀ f ∈ framesOf group (assignSequences now seq operations),
      (f.payload C).length < 2 ^ 32) :
    ∀ f ∈ framesOf group (assignSequences now seq operations), f.Valid C := by
  intro f hf
  refine ⟨hfits f hf, ?_, ?_⟩
  · -- the first sequence of a frame is that of one of its entries
    have hmem : ∃ e ∈ f.entries, e.sequenceNumber = f.sequence := by
      cases f with
      | single | group => exact ⟨_, by simp [Frame.entries], rfl⟩
    obtain ⟨e, he, heq⟩ := hmem
    have hes : e ∈ assignSequences now seq operations := by
      rw [← framesEntries_framesOf group (assignSequences now seq operations)]
      exact mem_flatMap.2 ⟨f, hf, he⟩
    have := mem_assignSequences h hes
    omega
  · cases group with
    | false =>
      obtain ⟨e, -, rfl⟩ := mem_map.1 hf
      simp [Frame.entries, Frame.sequence, firstGap]
    | true =>
      have hgap := @firstGap_assignSequences now operations seq h
      cases operations with
      | nil => simp [assignSequences, framesOf] at hf
      | cons op operations =>
        rw [length_cons] at h
        rw [assignSequences] at hf hgap
        rw [framesOf, mem_singleton] at hf
        rw [hf]
        show firstGap (seq % 2 ^ 64) _ = none
        rw [Nat.mod_eq_of_lt (by omega)]
        rw [Nat.mod_eq_of_lt (by omega)] at hgap
        simpa [Frame.entries] using hgap

theorem Matches.continues (hm : Matches a img)
    (hroom : a.nextSequence + operations.length + 1 < 2 ^ 64) (removed : List SealedImage)
    (hfits : ∀ f ∈ framesOf group (assignSequences now (a.nextSequence + 1) operations),
      (f.payload C).length < 2 ^ 32) :
    Continues C { img with removed := removed }
      (framesOf group (assignSequences now (a.nextSequence + 1) operations)) := by
  have hbound : a.nextSequence + 1 + operations.length ≤ 2 ^ 64 := by omega
  refine ⟨valid_framesOf hbound hfits, ?_, ?_, ?_, ?_⟩
  all_goals rw [framesEntries_framesOf]
  · exact inOrder_assignSequences hbound
  · intro e he x hx
    have hlow := (mem_assignSequences hbound he).1
    have hhigh := hm.counter x hx
    omega
  · intro e he
    have hlow := (mem_assignSequences hbound he).1
    have hhigh := hm.floorLe
    show img.floor < e.sequenceNumber
    omega
  · intro e he
    have := (mem_assignSequences hbound he).2
    omega

/-! ## Serving -/

variable (C) in
/-- The appender serves the image: the files realize it, its frames are durable, and the memory
    matches. -/
structure Serves (a : Appender) (img : Image) (d : Disk) : Prop where
  files : ∃ removed, ({ img with removed := removed } : Image).Ok C ∧
    Realizes C { img with removed := removed } d
  durable : (framesBytes C.toFrameCodec img.active).length ≤ d.synced
  sectionDurable : img.tail = .summarySection → d.activeBytes.length ≤ d.synced
  synced_le : d.synced ≤ d.activeBytes.length
  agrees : Matches a img

theorem Rests.serves (h : Rests C img d) (hm : Matches a img) : Serves C a img d := by
  obtain ⟨removed, hok, hreal, hsynced⟩ := h
  refine ⟨⟨removed, hok, hreal⟩, ?_, fun _ => hsynced.ge, hsynced.le, hm⟩
  rw [hsynced, hreal.active, Image.activeBytes, length_append]
  exact Nat.le_add_right _ _

/-! ## Writing the section -/

/-- A point of a rotation: the history rests, or a part of the section was just written behind
    it. -/
def RotationPoint (C : WalCodec) (img : Image) (taken : List Action) (d : Disk) : Prop :=
  Holds C img.floor img.entries d ∨
    ∃ removed written, taken.getLast? = some (.writeSection written) ∧
      Pending C img removed written d ∧
      d.synced = (framesBytes C.toFrameCodec img.active).length ∧
      SectionFits C (summaryOf .active (framesEntries img.active))

theorem RotationPoint.holds_cut {before taken : List Action} (h : RotationPoint C img taken d)
    (hne : img.active ≠ []) {origin : Bytes} {len : Nat} (hcut : CleanCut C
      (encodeSummaryTrailer C img.activeSummary) origin (before ++ taken) d len) :
    Holds C img.floor img.entries (d.cut len) := by
  rcases h with h | ⟨removed, written, hlast, hpending, hsynced, hfits⟩
  · exact h.cut len
  · have hend : (before ++ taken).getLast? = some (.writeSection written) := by
      rw [List.getLast?_append, hlast]
      rfl
    rw [CleanCut, hend] at hcut
    rcases hcut with ⟨rfl, hleft⟩ | ⟨hplain, hshort⟩
    · refine ⟨img.withSection, rfl, rfl, removed, hpending.ok.withSection hne hfits, ?_,
        Disk.synced_cut d len⟩
      have hreal := hpending.realizes_withSection
      exact ⟨hreal.segments, hleft.trans hreal.active, hreal.floor⟩
    · obtain ⟨m, hleft⟩ := hpending.cut len
      have hstops : Stops C (written.take m) := by
        refine stops_of_short ?_
        rw [hleft, length_append] at hshort
        omega
      refine ⟨img.extend [] (written.take m), rfl, by simp, ?_⟩
      exact hpending.rests continues_nil hstops (by rw [append_nil]; exact hleft) hplain

theorem Rests.rolledBack (h : Rests C img d) (written : Bytes) :
    Rests C img (d.applyAll [.writeSection written, .setLen d.activeBytes.length]) := by
  obtain ⟨removed, hok, hreal, hsynced⟩ := h
  have hbytes : (d.applyAll [.writeSection written, .setLen d.activeBytes.length]).activeBytes =
      d.activeBytes := by
    exact take_left
  refine ⟨removed, hok, ⟨hreal.segments, hbytes.trans hreal.active, hreal.floor⟩, ?_⟩
  rw [hbytes]
  show min d.synced d.activeBytes.length = _
  omega

/-- Every point of a plan is one of a rotation. -/
def RotationPoints (C : WalCodec) (img : Image) (d : Disk) (plan : List Action) : Prop :=
  ∀ n, RotationPoint C img (plan.take n) (d.applyAll (plan.take n))

section Plain

variable (h : Rests C img d) (ht : img.tail = .torn [])

include h ht

theorem Rests.pending (written : Bytes) : ∃ removed, Pending C img removed written
      { d with active := some (d.activeBytes ++ written) } := by
  have hactive := h.activeBytes ht
  obtain ⟨removed, hok, hreal, hsynced⟩ := h
  refine ⟨removed, hok, hreal.segments, hreal.floor, ?_, ?_⟩
  · show d.activeBytes ++ written = _
    rw [hactive]
  · rw [hsynced, hactive]

theorem rotationPoints_two {settle : Action} (hfits : SectionFits C img.activeSummary)
    (hlast : Holds C img.floor img.entries (d.applyAll [.writeSection written, settle])) :
    RotationPoints C img d [.writeSection written, settle] := by
  intro n
  match n with
  | 0 => exact Or.inl h.holds
  | 1 =>
    obtain ⟨removed, hpending⟩ := h.pending ht written
    have hactive := h.activeBytes ht
    obtain ⟨_, _, -, hsynced⟩ := h
    exact Or.inr ⟨removed, written, rfl, hpending, by rw [← hactive]; exact hsynced, hfits⟩
  | n + 2 =>
    rw [take_of_length_le (by simp)]
    exact Or.inl hlast

theorem Rests.writeSection (hne : img.active ≠ []) (hfits : SectionFits C img.activeSummary) :
    Rests C img.withSection
      (d.applyAll [.writeSection (encodeSummaryTrailer C img.activeSummary), .sync]) := by
  obtain ⟨removed, hpending⟩ :=
    h.pending ht (encodeSummaryTrailer C img.activeSummary)
  have hreal := hpending.realizes_withSection
  exact ⟨removed, hpending.ok.withSection hne hfits, { hreal with }, rfl⟩

/-- Writing the section, or failing to: each point is one of a rotation, and the end is the frames
    with the whole section behind them or with nothing. -/
theorem appendSummaryTrailer_spec {io : SectionIo} (hne : img.active ≠ [])
    (hclean : CleanSection C io img.activeSummary) : ∃ sectioned : Bool,
      (sectioned = true → SectionFits C img.activeSummary) ∧
      Rests C (if sectioned then img.withSection else img)
        (d.applyAll (appendSummaryTrailer C io img.activeSummary d.activeBytes.length)) ∧
      RotationPoints C img d
        (appendSummaryTrailer C io img.activeSummary d.activeBytes.length) := by
  have hnone : RotationPoints C img d [] := by
    intro n
    rw [take_nil]
    exact Or.inl h.holds
  cases io with
  | skipped => exact ⟨false, by simp, h, hnone⟩
  | written =>
    have hlast := h.writeSection ht hne hclean
    exact ⟨true, fun _ => hclean, hlast, rotationPoints_two h ht hclean hlast.holds⟩
  | unopened rolledBack =>
    have hno : rolledBack = false := hclean
    subst hno
    exact ⟨false, by simp, h, hnone⟩
  | failed written rolledBack =>
    obtain ⟨hback, hfits⟩ := hclean
    subst hback
    have hlast := h.rolledBack ((encodeSummaryTrailer C img.activeSummary).take written)
    exact ⟨false, by simp, hlast, rotationPoints_two h ht hfits hlast.holds⟩

end Plain

/-! ## The rotation -/

theorem Matches.withSection (hm : Matches a img) : Matches a img.withSection :=
  { hm with tail := fun _ => Or.inr rfl }

theorem Matches.sealActive (hm : Matches a img) (sectioned : Bool) : Matches { a with
      sealedList := a.sealedList ++ [{ a.active with path := .segment img.activeName }]
      active := SegmentSummary.new .active } (img.sealActive sectioned) := by
  refine ⟨?_, rfl, ?_, hm.floorLe, hm.retained, ?_, fun _ => Or.inl rfl⟩
  · show a.sealedList ++ _ = (img.segments ++ [_]).map SealedImage.summary
    rw [map_append, hm.sealedList, hm.active, summaryOf_withPath]
    rfl
  · rw [entries_sealActive]
    exact hm.counter
  · rw [entries_sealActive]
    exact hm.covers

/-- A rotation serves what it leaves, and a crash at any of its points keeps the history. -/
theorem rotateActive_spec {io : RotateIo} (h : Rests C img d) (ht : img.tail = .torn [])
    (hne : img.active ≠ []) (hm : Matches a img)
    (hclean : CleanSection C io.summarySection img.activeSummary) :
    (∃ img' : Image, img'.floor = img.floor ∧ img'.entries = img.entries ∧
        Serves C (rotateActive C io a d.activeBytes.length).2 img'
          (d.applyAll (rotateActive C io a d.activeBytes.length).1)) ∧
      RotationPoints C img d (rotateActive C io a d.activeBytes.length).1 := by
  have hfirst : a.active.firstSeq = some img.activeName := by
    obtain ⟨removed, hok, -⟩ := h
    rw [hm.active]
    exact hok.firstSeq_active hne
  have hplain := h.plain ht
  obtain ⟨sectioned, hfits, hrests, hpoints⟩ := appendSummaryTrailer_spec h ht hne hclean
  unfold rotateActive
  simp only [hfirst]
  rw [hm.active]
  generalize appendSummaryTrailer C io.summarySection img.activeSummary d.activeBytes.length =
    plan at hrests hpoints ⊢
  cases hren : io.renamed with
  | false =>
    refine ⟨?_, hpoints⟩
    cases sectioned with
    | false => exact ⟨img, rfl, rfl, hrests.serves hm⟩
    | true => exact ⟨img.withSection, rfl, rfl, hrests.serves hm.withSection⟩
  | true =>
    have hsealed : Rests C (img.sealActive sectioned)
        (Action.apply (d.applyAll plan) (.rename img.activeName)) := by
      cases sectioned with
      | false =>
        obtain ⟨removed, hok, hreal, -⟩ := hrests
        refine Rests.rename hok hreal.segments hreal.floor hne hfits (fun _ => hplain) ?_
        rw [hreal.active, activeBytes]
        simp only [Bool.false_eq_true, if_false, ht, Tail.bytes]
      | true =>
        obtain ⟨removed, hok, hreal, -⟩ := hrests
        exact @Rests.rename C img.withSection _ removed hok hreal.segments hreal.floor hne true
          hfits (fun hb => Bool.noConfusion hb) hreal.active
    simp only [if_true]
    refine ⟨⟨img.sealActive sectioned, rfl, entries_sealActive _, ?_⟩, fun n => ?_⟩
    · rw [Disk.applyAll_append]
      have := hsealed.serves (hm.sealActive sectioned)
      rwa [hm.active] at this
    · -- before the rename, or after it
      by_cases hn : n ≤ plan.length
      · rw [take_append_of_le_length hn]
        exact hpoints n
      · have hall : (plan ++ [Action.rename img.activeName]).length ≤ n := by
          rw [length_append, length_singleton]
          omega
        rw [take_of_length_le hall, Disk.applyAll_append]
        exact Or.inl ⟨img.sealActive sectioned, rfl, entries_sealActive _, hsealed⟩

end ProximaDb.CanonicalWal
