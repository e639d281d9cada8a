/-
  ProximaDb.CanonicalWal.Opened

  Opening a log whose files realize an image. Every action of the open keeps the history
  (`openWal_spec`), the open succeeds (`openWal_ok`), and the appender it builds matches the files
  (`Matches`).
-/
import ProximaDb.CanonicalWal.Image
import ProximaDb.Lib.Traces

namespace ProximaDb.CanonicalWal

open ProximaDb.Lib List SealedImage CanonicalWal.Action

variable {C : WalCodec} {img : Image} {d : Disk} {io : OpenIo} {s : SealedImage} {bytes : Bytes}
  {floor : Nat}

/-! ## Files at rest -/

variable (C) in
/-- The files realize the image, up to segments still to be removed, and all of the active file is
    durable. -/
def Rests (img : Image) (d : Disk) : Prop :=
  ∃ removed, ({ img with removed := removed } : Image).Ok C ∧
    Realizes C { img with removed := removed } d ∧ d.synced = d.activeBytes.length

variable (C) in
/-- The files hold exactly this history above this floor. -/
def Holds (floor : Nat) (entries : List CanonicalWalEntry) (d : Disk) : Prop :=
  ∃ img : Image, img.floor = floor ∧ img.entries = entries ∧ Rests C img d

theorem Rests.holds (h : Rests C img d) : Holds C img.floor img.entries d := ⟨img, rfl, rfl, h⟩

theorem Rests.remove (h : Rests C img d) {firstSeq : Nat} (hle : firstSeq ≤ img.floor) :
    Rests C img (apply d (.remove firstSeq)) := by
  obtain ⟨removed, hok, hreal, hsynced⟩ := h
  exact ⟨_, hok.remove firstSeq, hreal.remove hok hle, hsynced⟩

/-- Removing segments at or below the floor, in any number, changes nothing readable. -/
theorem Rests.along_remove (h : Rests C img d) {names : List Nat} (hle : ∀ n ∈ names, n ≤ img.floor) :
    Along apply (Rests C img) d (names.map .remove) := by
  refine along_of_preserves h ?_
  intro action haction t ht
  obtain ⟨n, hn, rfl⟩ := mem_map.1 haction
  exact ht.remove (hle n hn)

theorem Rests.rename {removed : List SealedImage}
    (hok : ({ img with removed := removed } : Image).Ok C)
    (hseg : d.segments = (removed ++ img.segments).map (fun s => (s.name, s.bytes C)))
    (hfloor : readFloorMarker d = .ok img.floor) (hne : img.active ≠ []) {sectioned : Bool}
    (hfits : sectioned = true → SectionFits C img.activeSummary)
    (hplain : sectioned = false → splitSummaryTrailer C (framesBytes C img.active) = none)
    (hactive : d.activeBytes = framesBytes C img.active ++
      if sectioned then encodeSummaryTrailer C img.activeSummary else []) :
    Rests C (img.sealActive sectioned) (apply d (.rename img.activeName)) := by
  refine ⟨removed, hok.sealActive hne hfits hplain,
    @Realizes.rename C { img with removed := removed } d hseg hfloor hok hne sectioned hactive, ?_⟩
  rw [apply_rename_of_some (Disk.active_eq_some_of_frames hne hactive)]
  rfl

/-! ## Completing an interrupted seal -/

theorem active_bind_split_of_none (h : splitSummaryTrailer C d.activeBytes = none) :
    d.active.bind (splitSummaryTrailer C) = none := by
  unfold Disk.activeBytes at h
  cases hd : d.active with
  | none => rfl
  | some bytes =>
    rw [hd] at h
    exact h

theorem Realizes.activeBytes_section (hreal : Realizes C img d) (ht : img.tail = .summarySection) :
    d.activeBytes = framesBytes C img.active ++ encodeSummaryTrailer C img.activeSummary := by
  rw [hreal.active, Image.activeBytes, ht]
  rfl

theorem recoverInterruptedSeal_section (hok : img.Ok C) (hreal : Realizes C img d)
    (ht : img.tail = .summarySection) (hrename : io.renames = true) :
    recoverInterruptedSeal C io d =
      .rename img.activeName :: if io.creates then [.create] else [] := by
  have htail := hok.tailOk
  rw [ht] at htail
  have hsplit := splitSummaryTrailer_section (framesBytes C img.active) htail.2
  rw [← hreal.activeBytes_section ht] at hsplit
  have hsome : d.active = some d.activeBytes := by
    refine Disk.active_eq_some (fun hnil => ?_)
    rw [hnil] at hsplit
    cases hsplit
  have hfirst : interruptedFirstSeq C (framesBytes C img.active)
      (some img.activeSummary.toSummaryData) = some img.activeName := by
    have := hok.firstSeq_active htail.1
    simp only [interruptedFirstSeq, Option.bind_some, this]
  have hfree : d.segments.any (fun s => s.1 == img.activeName) = false := by
    rw [hreal.segments, any_eq_false]
    intro s hs
    obtain ⟨t, hmem, rfl⟩ := mem_map.1 hs
    have := hok.name_lt_activeName htail.1 hmem
    simp
    omega
  rw [recoverInterruptedSeal, hsome, Option.bind_some, hsplit]
  simp only [hfirst, hfree, hrename, if_true, Bool.false_eq_true, if_false]

theorem recoverInterruptedSeal_spec (h : Rests C img d)
    (hclean : io.renames = true ∨ splitSummaryTrailer C d.activeBytes = none) :
    ∃ img' : Image, img'.floor = img.floor ∧ img'.entries = img.entries ∧
      (∃ bytes, img'.tail = .torn bytes) ∧
      Along apply (Holds C img.floor img.entries) d (recoverInterruptedSeal C io d) ∧
      Rests C img' (d.applyAll (recoverInterruptedSeal C io d)) := by
  have hfirst := h.holds
  obtain ⟨removed, hok, hreal, hsynced⟩ := h
  cases ht : img.tail with
  | torn bytes =>
    have htail : (Tail.torn bytes).Ok C img.active := ht ▸ hok.tailOk
    have hnone : splitSummaryTrailer C d.activeBytes = none := by
      rw [hreal.active, Image.activeBytes]
      simp only [ht]
      exact htail.2.1
    rw [recoverInterruptedSeal, active_bind_split_of_none hnone]
    exact ⟨img, rfl, rfl, ⟨bytes, ht⟩, along_nil hfirst, removed, hok, hreal, hsynced⟩
  | summarySection =>
    have htail : Tail.summarySection.Ok C img.active := ht ▸ hok.tailOk
    have hbytes := hreal.activeBytes_section ht
    have hrename : io.renames = true := by
      refine hclean.resolve_right (fun hnone => ?_)
      rw [hbytes, splitSummaryTrailer_section _ htail.2] at hnone
      cases hnone
    rw [recoverInterruptedSeal_section hok hreal ht hrename]
    have hseal : Rests C (img.sealActive true) (apply d (.rename img.activeName)) :=
      Rests.rename hok hreal.segments hreal.floor htail.1 (fun _ => htail.2)
        (fun hb => Bool.noConfusion hb) hbytes
    have hholds : ∀ {d'}, Rests C (img.sealActive true) d' → Holds C img.floor img.entries d' :=
      fun h => ⟨img.sealActive true, rfl, Image.entries_sealActive true, h⟩
    refine ⟨img.sealActive true, rfl, Image.entries_sealActive true, ⟨[], rfl⟩, ?_⟩
    cases io.creates with
    | false => exact ⟨along_cons hfirst (along_nil (hholds hseal)), hseal⟩
    | true =>
      -- the created file is as empty as a missing one
      have hcreated : Rests C (img.sealActive true)
          (apply (apply d (.rename img.activeName)) .create) := by
        obtain ⟨removed', hok', hreal', _⟩ := hseal
        exact ⟨removed', hok', hreal'.create hreal'.active, rfl⟩
      exact ⟨along_cons hfirst (along_cons (hholds hseal) (along_nil (hholds hcreated))), hcreated⟩

/-! ## Reading the segments -/

/-- The names of the segments an open deletes. -/
def deletedAtOpen (io : OpenIo) (removed : List SealedImage) : List Nat :=
  (removed.map SealedImage.name).filter io.deletes

theorem bootSegments_kept {segs : List SealedImage} (hok : ∀ s ∈ segs, s.Ok C)
    (habove : ∀ s ∈ segs, floor < s.summary.lastSeq) :
    bootSegments C io floor (segs.map (fun s => (s.name, s.bytes C))) =
      ([], .ok (segs.map summary)) := by
  induction segs with
  | nil => rfl
  | cons s segs ih =>
    have hlt := habove s (by simp)
    rw [map_cons, bootSegments, bootSummary_bytes (hok s (by simp)),
      ih (fun t ht => hok t (by simp [ht])) (fun t ht => habove t (by simp [ht]))]
    dsimp only
    rw [if_neg (by omega)]
    rfl

/-- Segments at or below the floor are removed where they can be, the others are kept. -/
theorem bootSegments_eq {removed segs : List SealedImage} (hok : ∀ s ∈ removed ++ segs, s.Ok C)
    (hbelow : ∀ s ∈ removed, 0 < floor ∧ s.summary.lastSeq ≤ floor)
    (habove : ∀ s ∈ segs, floor < s.summary.lastSeq) :
    bootSegments C io floor ((removed ++ segs).map (fun s => (s.name, s.bytes C))) =
      ((deletedAtOpen io removed).map .remove, .ok (segs.map summary)) := by
  induction removed with
  | nil => exact bootSegments_kept hok habove
  | cons s removed ih =>
    rw [cons_append, map_cons, bootSegments, bootSummary_bytes (hok s (by simp)),
      ih (fun t ht => hok t (by simp only [cons_append, mem_cons, ht, or_true]))
        (fun t ht => hbelow t (by simp [ht]))]
    dsimp only
    rw [if_pos (hbelow s (by simp)), deletedAtOpen, deletedAtOpen, map_cons, filter_cons]
    cases io.deletes s.name <;> rfl

theorem SealedImage.lastSeq_mem (hok : s.Ok C) :
    ∃ e ∈ s.entries, s.summary.lastSeq = e.sequenceNumber :=
  exists_lastSeq_summaryOf _ (entries_ne_nil hok)

theorem Image.Ok.bootSegments (hok : img.Ok C) (hreal : Realizes C img d) :
    bootSegments C io img.floor d.segments =
      ((deletedAtOpen io img.removed).map .remove, .ok (img.segments.map summary)) := by
  rw [hreal.segments]
  refine bootSegments_eq hok.segmentOk (fun s hs => ?_) (fun s hs => ?_)
  · obtain ⟨e, he, hlast⟩ := lastSeq_mem (hok.segmentOk s (by simp [hs]))
    have hmem := Image.mem_removedEntries hs he
    have hpos := hok.positive e (mem_append_left _ hmem)
    have hle := hok.below e hmem
    omega
  · obtain ⟨e, he, hlast⟩ := lastSeq_mem (hok.segmentOk s (by simp [hs]))
    have := hok.above e (Image.mem_entries_of_segment hs he)
    omega

theorem Image.Ok.name_le_floor (hok : img.Ok C) (hs : s ∈ img.removed) : s.name ≤ img.floor := by
  obtain ⟨e, he, hname⟩ := exists_name (hok.segmentOk s (by simp [hs]))
  rw [← hname]
  exact hok.below e (Image.mem_removedEntries hs he)

/-! ## The active file -/

theorem recoverWalState_eq (active : Option Bytes) :
    recoverWalState C active = recoverWalState C (some (active.getD [])) := by
  cases active <;> rfl

theorem Realizes.recoverWalState (hreal : Realizes C img d) (hok : img.Ok C)
    (ht : img.tail = .torn bytes) : recoverWalState C d.active =
      .ok ⟨framesEntries img.active, (framesBytes C img.active).length⟩ := by
  have htail : (Tail.torn bytes).Ok C img.active := ht ▸ hok.tailOk
  have hactive : d.active.getD [] = framesBytes C img.active ++ bytes := by
    have := hreal.active
    rw [Image.activeBytes, ht] at this
    exact this
  rw [recoverWalState_eq, hactive, CanonicalWal.recoverWalState,
    scanWalBytes_frames hok.activeValid htail.1]

theorem Rests.truncateTail (h : Rests C img d) (ht : img.tail = .torn bytes)
    (hio : ¬ ((framesBytes C img.active).length < d.activeBytes.length ∧ ¬ io.truncates)) :
    Along apply (Holds C img.floor img.entries) d
        (truncateTail io d (framesBytes C img.active).length) ∧
      Rests C img.cutTail (d.applyAll (truncateTail io d (framesBytes C img.active).length)) := by
  have hholds := h.holds
  obtain ⟨removed, hok, hreal, hsynced⟩ := h
  have htail : (Tail.torn bytes).Ok C img.active := ht ▸ hok.tailOk
  have hok' : ({ img.cutTail with removed := removed } : Image).Ok C := hok.cutTail htail.2.2
  have hactive : d.activeBytes = framesBytes C img.active ++ bytes := by
    rw [hreal.active, Image.activeBytes]
    simp only [ht]
    rfl
  by_cases hshort : (framesBytes C img.active).length < d.activeBytes.length
  · have htrunc : io.truncates = true := by
      by_contra hno
      exact hio ⟨hshort, hno⟩
    have hlast : Rests C img.cutTail (apply d (.setLen (framesBytes C img.active).length)) := by
      refine ⟨removed, hok', hreal.setLen, ?_⟩
      have hbytes := (Realizes.setLen hreal).active
      rw [hbytes]
      show min d.synced _ = _
      simp only [Image.cutTail, Image.activeBytes, Tail.bytes, append_nil]
      omega
    rw [CanonicalWal.truncateTail, if_pos ⟨hshort, htrunc⟩]
    exact ⟨along_cons hholds (along_nil hlast.holds), hlast⟩
  · -- nothing follows the frames
    have hnil : bytes = [] := by
      rw [hactive, length_append] at hshort
      exact eq_nil_of_length_eq_zero (by omega)
    rw [CanonicalWal.truncateTail, if_neg (fun hc => hshort hc.1)]
    refine ⟨along_nil hholds, removed, hok', ⟨hreal.segments, ?_, hreal.floor⟩, hsynced⟩
    show d.activeBytes = _
    rw [hactive, hnil]
    rfl

/-! ## The open -/

theorem openWal_eq {img' : Image} {removed : List SealedImage}
    (hok : ({ img' with removed := removed } : Image).Ok C)
    (hreal : Realizes C { img' with removed := removed }
      (d.applyAll (recoverInterruptedSeal C io d)))
    {bytes : Bytes} (ht : img'.tail = .torn bytes) : openWal C io d =
      if (framesBytes C img'.active).length <
          (d.applyAll (recoverInterruptedSeal C io d)).activeBytes.length ∧ ¬ io.truncates then
        (recoverInterruptedSeal C io d ++ (deletedAtOpen io removed).map .remove,
          .error .truncating)
      else
        (recoverInterruptedSeal C io d ++ (deletedAtOpen io removed).map .remove ++
            truncateTail io (d.applyAll (recoverInterruptedSeal C io d))
              (framesBytes C img'.active).length,
          .ok (recoveredAppender img'.floor (img'.segments.map summary)
            (framesEntries img'.active))) := by
  have hboot := @Image.Ok.bootSegments C _ _ io hok hreal
  have hstate := hreal.recoverWalState hok ht
  have hfloor := hreal.floor
  unfold openWal
  simp only [hfloor, hboot, hstate]

theorem Disk.active_applyAll_remove (d : Disk) (names : List Nat) :
    (d.applyAll (names.map .remove)).active = d.active := by
  induction names generalizing d with
  | nil => rfl
  | cons n names ih =>
    rw [map_cons, Disk.applyAll_cons, ih]
    rfl

/-- Every point of an open holds the same history, and the open ends in an appender built from the
    files it leaves. -/
theorem openWal_spec (h : Rests C img d)
    (hclean : io.renames = true ∨ splitSummaryTrailer C d.activeBytes = none) :
    Along apply (Holds C img.floor img.entries) d (openWal C io d).1 ∧
      ∀ a, (openWal C io d).2 = .ok a →
        ∃ img' : Image, img'.floor = img.floor ∧ img'.entries = img.entries ∧
          img'.tail = .torn [] ∧ Rests C img' (d.applyAll (openWal C io d).1) ∧
          a = recoveredAppender img'.floor (img'.segments.map summary)
            (framesEntries img'.active) := by
  obtain ⟨img', hfloor, hentries, ⟨bytes, ht⟩, hseal, hrests⟩ := recoverInterruptedSeal_spec h hclean
  have hrests' := hrests
  obtain ⟨removed, hok, hreal, -⟩ := hrests'
  have hnames : ∀ n ∈ deletedAtOpen io removed, n ≤ img'.floor := by
    intro n hn
    obtain ⟨s, hs, rfl⟩ := mem_map.1 (mem_filter.1 hn).1
    exact hok.name_le_floor hs
  have hremove := hrests.along_remove hnames
  have hremoved : Rests C img' ((d.applyAll (recoverInterruptedSeal C io d)).applyAll
      ((deletedAtOpen io removed).map .remove)) := hremove.last
  have hholds : Along apply (Holds C img.floor img.entries) d
      (recoverInterruptedSeal C io d ++ (deletedAtOpen io removed).map .remove) := by
    refine along_append hseal (fun n => ?_)
    rw [← hfloor, ← hentries]
    exact (hremove n).holds
  rw [openWal_eq hok hreal ht]
  split_ifs with hio
  · exact ⟨hholds, nofun⟩
  · -- removals leave the active file alone, so the tail is still where it was
    have hbytes : ((d.applyAll (recoverInterruptedSeal C io d)).applyAll
        ((deletedAtOpen io removed).map .remove)).activeBytes =
        (d.applyAll (recoverInterruptedSeal C io d)).activeBytes := by
      rw [Disk.activeBytes, Disk.active_applyAll_remove]
      rfl
    have htrunc := hremoved.truncateTail ht (by rw [hbytes]; exact hio)
    rw [CanonicalWal.truncateTail, hbytes, ← CanonicalWal.truncateTail, hfloor, hentries] at htrunc
    refine ⟨along_append hholds ?_, ?_⟩
    · have := htrunc.1
      rwa [← Disk.applyAll_append] at this
    · rintro a ha
      cases ha
      refine ⟨img'.cutTail, hfloor, hentries, rfl, ?_, rfl⟩
      rw [Disk.applyAll_append, Disk.applyAll_append]
      exact htrunc.2

theorem openWal_ok (h : Rests C img d) (hrename : io.renames = true)
    (htrunc : io.truncates = true) : ∃ a, (openWal C io d).2 = .ok a := by
  obtain ⟨img', -, -, ⟨bytes, ht⟩, -, removed, hok, hreal, -⟩ :=
    @recoverInterruptedSeal_spec C img d io h (Or.inl hrename)
  rw [openWal_eq hok hreal ht, if_neg (by simp [htrunc])]
  exact ⟨_, rfl⟩

/-! ## The appender and the files -/

/-- What the appender holds in memory agrees with the files. Only a poisoned appender has a torn
    tail behind its frames. -/
structure Matches (a : Appender) (img : Image) : Prop where
  sealedList : a.sealedList = img.segments.map SealedImage.summary
  active : a.active = summaryOf .active (framesEntries img.active)
  counter : ∀ e ∈ img.entries, e.sequenceNumber ≤ a.nextSequence
  floorLe : img.floor ≤ a.nextSequence
  retained : a.retainedFrom = if 0 < img.floor then img.floor + 1 else 0
  covers : Covers a.collectionMax img.entries
  tail : a.poisoned = false → img.tail = .torn [] ∨ img.tail = .summarySection

theorem le_foldl_max (l : List Nat) (start : Nat) :
    start ≤ l.foldl max start ∧ ∀ n ∈ l, n ≤ l.foldl max start :=
  forall_mem_cons.1 (List.max?_eq_some_iff.1 List.max?_cons').2

theorem foldl_max_mem (l : List Nat) (start : Nat) :
    l.foldl max start = start ∨ l.foldl max start ∈ l :=
  mem_cons.1 (List.max?_eq_some_iff.1 List.max?_cons').1

theorem le_getD_max? {l : List Nat} {n : Nat} (h : n ∈ l) : n ≤ l.max?.getD 0 := by
  cases hm : l.max? with
  | none =>
    rw [List.max?_eq_none_iff.1 hm] at h
    simp at h
  | some m => exact (List.max?_eq_some_iff.1 hm).2 n h

theorem covers_kept (segs : List SealedImage) :
    Covers ((segs.map summary).foldl (fun m s => mergeMarks m s.collectionMax) ∅)
      (segs.flatMap entries) := by
  induction segs using List.reverseRecOn with
  | nil => exact covers_nil _
  | append_singleton segs s ih =>
    rw [map_append, foldl_append, flatMap_append]
    refine (ih.mergeMarks _).append ?_
    simp only [flatMap_cons, flatMap_nil, append_nil]
    exact covers_mergeMarks (covers_summaryOf _ _) _

theorem matches_recoveredAppender (hfloor : img.floor + 1 < 2 ^ 64) (ht : img.tail = .torn []) :
    Matches (recoveredAppender img.floor (img.segments.map summary)
      (framesEntries img.active)) img := by
  have hkept := le_foldl_max ((img.segments.map summary).map (fun s => s.lastSeq))
    img.floor
  refine ⟨rfl, rfl, ?_, ?_, ?_, ?_, fun _ => Or.inl ht⟩
  · intro e he
    rcases mem_append.1 he with he | he
    · obtain ⟨s, hs, hes⟩ := mem_flatMap.1 he
      have hlast : e.sequenceNumber ≤ s.summary.lastSeq := le_lastSeq_summaryOf _ hes
      have := hkept.2 s.summary.lastSeq (mem_map.2 ⟨_, mem_map.2 ⟨s, hs, rfl⟩, rfl⟩)
      exact (hlast.trans this).trans (le_max_right _ _)
    · exact (le_getD_max? (mem_map.2 ⟨e, he, rfl⟩)).trans (le_max_left _ _)
  · exact hkept.1.trans (le_max_right _ _)
  · show (if 0 < img.floor then saturatingSucc img.floor else 0) = _
    rw [saturatingSucc, min_eq_left (by omega)]
  · exact (covers_mergeMarks (covers_kept _) _).append (((covers_nil ∅).markEntries _).mergeMarks _)

end ProximaDb.CanonicalWal
