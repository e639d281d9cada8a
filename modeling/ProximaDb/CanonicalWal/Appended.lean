/-
  ProximaDb.CanonicalWal.Appended

  Appending to the files an appender serves. A clean append ends with the appender serving the
  history with the acknowledged entries behind it; a crash at any point of it leaves the history
  with some whole frames of the append behind it.
-/
import ProximaDb.CanonicalWal.Rotated

namespace ProximaDb.CanonicalWal

open ProximaDb.Lib List Image

variable {C : WalCodec} {img : Image} {d : Disk} {a : Appender}

/-! ## A file ready to be appended to -/

variable (C) in
/-- An appender in good order over files at rest, and the frames of an append that continue them. -/
structure Ready (a : Appender) (img : Image) (d : Disk) (frames : List Frame) : Prop where
  rests : Rests C img d
  tail : img.tail = .torn []
  agrees : Matches a img
  sound : a.poisoned = false
  nonempty : frames ≠ []
  continues : ∀ removed, Continues C { img with removed := removed } frames
  room : a.nextSequence + (framesEntries frames).length + 1 < 2 ^ 64
  counted : ∀ e ∈ framesEntries frames,
    e.sequenceNumber ≤ a.nextSequence + (framesEntries frames).length

variable {frames : List Frame}

theorem Rests.sync (h : Rests C img d) : Rests C img (Action.apply d .sync) := by
  obtain ⟨removed, hok, hreal, hsynced⟩ := h
  exact ⟨removed, hok, { hreal with }, rfl⟩

/-- An unpoisoned appender over a file that does not end like a section finds nothing behind the
    frames. -/
theorem Serves.rests (h : Serves C a img d) (hsound : a.poisoned = false)
    (hplain : splitSummaryTrailer C d.activeBytes = none) :
    Rests C img d ∧ img.tail = .torn [] := by
  obtain ⟨removed, hok, hreal⟩ := h.files
  have ht : img.tail = .torn [] := by
    refine (h.agrees.tail hsound).resolve_right (fun hsec => ?_)
    have htail : Tail.summarySection.Ok C img.active := hsec ▸ hok.tailOk
    rw [hreal.active, activeBytes] at hplain
    simp only [hsec, Tail.bytes] at hplain
    rw [splitSummaryTrailer_section _ htail.2] at hplain
    cases hplain
  refine ⟨⟨removed, hok, hreal, le_antisymm h.synced_le ?_⟩, ht⟩
  have hdurable := h.durable
  rw [hreal.active, activeBytes]
  simp only [ht, Tail.bytes, append_nil]
  exact hdurable

/-! ## Acknowledged appends -/

theorem Ready.agrees_acknowledge (h : Ready C a img d frames) :
    Matches (acknowledge a (framesEntries frames)) (img.extend frames []) := by
  have hroom := h.room
  have hnext : (acknowledge a (framesEntries frames)).nextSequence =
      a.nextSequence + (framesEntries frames).length := Nat.mod_eq_of_lt (by omega)
  refine ⟨h.agrees.sealedList, ?_, ?_, ?_, h.agrees.retained, ?_, fun _ => Or.inl rfl⟩
  · show (framesEntries frames).foldl SegmentSummary.observe a.active =
      summaryOf .active (framesEntries (img.active ++ frames))
    rw [framesEntries_append, summaryOf_append, h.agrees.active]
  · intro e he
    rw [hnext]
    rw [entries_extend] at he
    rcases mem_append.1 he with he | he
    · have := h.agrees.counter e he
      omega
    · exact h.counted e he
  · rw [hnext]
    exact h.agrees.floorLe.trans (Nat.le_add_right _ _)
  · rw [entries_extend]
    exact h.agrees.covers.markEntries _

theorem Ready.rests_written (h : Ready C a img d frames)
    (hplain : splitSummaryTrailer C (d.activeBytes ++ framesBytes C frames) = none) :
    Rests C (img.extend frames []) (d.applyAll [.write (framesBytes C frames), .sync]) := by
  rw [h.rests.activeBytes h.tail, ← framesBytes_append] at hplain
  obtain ⟨removed, hpending⟩ :=
    h.rests.pending h.tail (framesBytes C frames)
  have hok := hpending.ok.extend (h.continues removed) stops_nil
    (by rw [append_nil]; exact hplain) hplain
  refine ⟨removed, hok, ⟨hpending.segments, ?_, hpending.floor⟩, rfl⟩
  show d.activeBytes ++ framesBytes C frames = _
  rw [h.rests.activeBytes h.tail, ← framesBytes_append]
  exact (append_nil _).symm

/-! ## Crashes in the write -/

/-- What a crash may leave of an append: the history and some of its frames, whole. -/
def Leaves (C : WalCodec) (img : Image) (frames : List Frame) (d : Disk) : Prop :=
  ∃ k, Holds C img.floor (img.entries ++ framesEntries (frames.take k)) d

theorem Rests.leaves (h : Rests C img d) (frames : List Frame) : Leaves C img frames d :=
  ⟨0, img, rfl, by simp, h⟩

/-- A clean crash behind the actions of a plan leaves the history and whole frames. -/
def CrashLeaves (C : WalCodec) (img : Image) (frames : List Frame) (summarySection : Bytes)
    (d : Disk) (plan : List Action) (len : Nat) : Prop :=
  CleanCut C summarySection d.activeBytes plan (d.applyAll plan) len →
    Leaves C img frames ((d.applyAll plan).cut len)

variable {n len steps : Nat} {summarySection : Bytes}

section

variable (h : Ready C a img d frames)

include h

theorem Ready.leaves_write :
    CrashLeaves C img frames summarySection d [.write ((framesBytes C frames).take n)] len := by
  obtain ⟨removed, hpending⟩ :=
    h.rests.pending h.tail ((framesBytes C frames).take n)
  rintro (hsame | hplain)
  · -- none of them is left
    have hrests : Rests C img ((d.applyAll [.write ((framesBytes C frames).take n)]).cut len) := by
      refine ⟨removed, hpending.ok, ⟨hpending.segments, ?_, hpending.floor⟩, Disk.synced_cut _ _⟩
      rw [hsame, h.rests.activeBytes h.tail, activeBytes]
      simp only [h.tail, Tail.bytes, append_nil]
    exact hrests.leaves frames
  · have hc := h.continues removed
    obtain ⟨m, hleft⟩ := hpending.cut len
    rw [take_take] at hleft
    obtain ⟨k, rest, htake, hrest⟩ := exists_frames_of_take hc.valid (min m n)
    rw [htake, ← append_assoc, ← framesBytes_append] at hleft
    exact ⟨k, img.extend (frames.take k) rest, rfl, entries_extend _ _,
      hpending.rests (hc.take k) hrest hleft hplain⟩

theorem Ready.leaves_rollback {back : RollbackIo} :
    CrashLeaves C img frames summarySection d ((.write ((framesBytes C frames).take n) ::
      rollback d.activeBytes.length back).take steps) len := by
  intro hcut
  have hback : Rests C img (d.applyAll [.write ((framesBytes C frames).take n),
      .setLen d.activeBytes.length]) := h.rests.rolledBack _
  match steps with
  | 0 => exact (h.rests.cut len).leaves frames
  | 1 => exact h.leaves_write hcut
  | steps + 2 =>
    cases back with
    | setLenFails =>
      rw [take_of_length_le (by simp [rollback])] at hcut ⊢
      exact h.leaves_write hcut
    | syncFails =>
      rw [take_of_length_le (by simp [rollback])] at hcut ⊢
      exact (hback.cut len).leaves frames
    | done =>
      cases steps with
      | zero => exact (hback.cut len).leaves frames
      | succ steps =>
        rw [take_of_length_le (by simp [rollback])]
        exact (hback.sync.cut len).leaves frames

/-! ## The append -/

variable {io : AppendIo}

omit h in
theorem Matches.poison (hm : Matches a img) : Matches { a with poisoned := true } img :=
  { hm with tail := fun hb => Bool.noConfusion hb }

theorem Ready.serves_torn (hfirst : ∀ f ∈ frames.head?, n < (f.bytes C).length)
    (hplain : splitSummaryTrailer C (d.activeBytes ++ (framesBytes C frames).take n) = none) :
    Serves C { a with poisoned := true }
      { img with tail := .torn ((framesBytes C frames).take n) }
      (d.applyAll [.write ((framesBytes C frames).take n)]) := by
  obtain ⟨removed, hpending⟩ :=
    h.rests.pending h.tail ((framesBytes C frames).take n)
  have hbytes := h.rests.activeBytes h.tail
  have hstops : Stops C ((framesBytes C frames).take n) := by
    cases hf : frames with
    | nil => exact absurd hf h.nonempty
    | cons f fs =>
      have hlt := hfirst f (by simp [hf])
      have hvalid := (h.continues []).valid f (by simp [hf])
      rw [framesBytes, flatMap_cons, take_append_of_le_length hlt.le]
      exact Or.inr (Frame.decodeFrame_take hvalid hlt)
  have hok := hpending.ok
  have hframes := h.rests.plain h.tail
  rw [hbytes] at hplain
  refine ⟨⟨removed, { hok with tailOk := ⟨hstops, hplain, hframes⟩ },
    ⟨hpending.segments, hpending.active, hpending.floor⟩⟩, hpending.durable, ?_, ?_, ?_⟩
  · intro hsec
    cases hsec
  · obtain ⟨_, _, _, hsynced⟩ := h.rests
    show d.synced ≤ (d.activeBytes ++ _).length
    rw [length_append]
    omega
  · exact { h.agrees with tail := fun hb => Bool.noConfusion hb }

theorem Ready.rests_rollback {written : Bytes} {back : RollbackIo} (hback : back ≠ .setLenFails) :
    Rests C img (d.applyAll (.write written :: rollback d.activeBytes.length back)) := by
  cases back with
  | setLenFails => exact absurd rfl hback
  | syncFails => exact h.rests.rolledBack written
  | done => exact (h.rests.rolledBack written).sync

theorem Ready.extend_ne_nil : (img.extend frames []).active ≠ [] := by
  simp [extend, h.nonempty]

end

theorem length_activeBytes_written (d : Disk) (bytes : Bytes) :
    (d.applyAll [.write bytes, .sync]).activeBytes.length = d.activeBytes.length + bytes.length := by
  show (d.activeBytes ++ bytes).length = _
  rw [length_append]

variable (C io frames a d) in
/-- The write of the frames of an append behind the active file. -/
abbrev writeOf : Outcome (Except AppendError (List CanonicalWalEntry)) :=
  writeFrames C io (framesEntries frames) (framesBytes C frames) a d.activeBytes.length

/-- A clean write ends with the appender serving the acknowledged entries behind the history. -/
theorem Ready.writeFrames_serves (h : Ready C a img d frames) (hclean : CleanWrite C io a d frames) :
    ∃ img' : Image, img'.floor = img.floor ∧
      img'.entries = img.entries ++ ackedBy (writeOf C d a frames io).result ∧
      Serves C (writeOf C d a frames io).appender img' (d.applyAll (writeOf C d a frames io).plan) := by
  unfold writeOf writeFrames
  unfold CleanWrite at hclean
  cases hw : io.write with
  | openFails => exact ⟨img, rfl, (append_nil _).symm, h.rests.serves h.agrees⟩
  | writeFails n back =>
    rw [hw] at hclean
    by_cases hdone : back = .done
    · simp only [hdone, if_true]
      exact ⟨img, rfl, (append_nil _).symm, (h.rests_rollback (by simp)).serves h.agrees⟩
    · cases back with
      | done => exact absurd rfl hdone
      | setLenFails =>
        exact ⟨{ img with tail := .torn ((framesBytes C frames).take n) }, rfl,
          (append_nil _).symm, h.serves_torn hclean.1 hclean.2⟩
      | syncFails =>
        exact ⟨img, rfl, (append_nil _).symm, (h.rests_rollback (by simp)).serves h.agrees.poison⟩
  | syncFails back =>
    rw [hw] at hclean
    cases back with
    | setLenFails => exact absurd hclean (by simp)
    | done | syncFails =>
      exact ⟨img, rfl, (append_nil _).symm, (h.rests_rollback (by simp)).serves h.agrees.poison⟩
  | done =>
    rw [hw] at hclean
    have hrests := h.rests_written hclean.1
    have hm := h.agrees_acknowledge
    split_ifs with hrot
    · have hsec := hclean.2 hrot
      rw [hm.active] at hsec
      obtain ⟨⟨img', hfloor, hentries, hserves⟩, -⟩ :=
        rotateActive_spec hrests rfl h.extend_ne_nil hm hsec
      rw [length_activeBytes_written] at hserves
      refine ⟨img', hfloor, ?_, hserves⟩
      rw [hentries, entries_extend]
      rfl
    · exact ⟨img.extend frames [], rfl, entries_extend _ _, hrests.serves hm⟩

theorem Ready.leaves_done (h : Ready C a img d frames) {more : List Action}
    (hpoints : RotationPoints C (img.extend frames [])
      (d.applyAll [.write (framesBytes C frames), .sync]) more) :
    CrashLeaves C img frames (encodeSummaryTrailer C (img.extend frames []).activeSummary) d
      ((.write (framesBytes C frames) :: .sync :: more).take steps) len := by
  intro hcut
  match steps with
  | 0 => exact (h.rests.cut len).leaves frames
  | 1 =>
    have hfull : (framesBytes C frames).take (framesBytes C frames).length = framesBytes C frames :=
      take_length
    have hwrite := @Ready.leaves_write C img d a frames (framesBytes C frames).length len
      (encodeSummaryTrailer C (img.extend frames []).activeSummary) h
    rw [hfull] at hwrite
    exact hwrite hcut
  | steps + 2 =>
    have hheld := @RotationPoint.holds_cut C (img.extend frames []) _
      [.write (framesBytes C frames), .sync] (more.take steps) (hpoints steps)
      h.extend_ne_nil d.activeBytes len hcut
    rw [entries_extend] at hheld
    exact ⟨frames.length, by rwa [take_length]⟩

theorem Ready.writeFrames_crash (h : Ready C a img d frames) (hclean : CleanWrite C io a d frames) :
    CrashLeaves C img frames
      (encodeSummaryTrailer C (acknowledge a (framesEntries frames)).active) d
      ((writeOf C d a frames io).plan.take steps) len := by
  intro hcut
  have hfull : (framesBytes C frames).take (framesBytes C frames).length =
      framesBytes C frames := take_length
  unfold writeOf writeFrames at hcut ⊢
  unfold CleanWrite at hclean
  cases hw : io.write with
  | openFails =>
    simp only [hw, take_nil] at hcut ⊢
    exact (h.rests.cut len).leaves frames
  | writeFails n back =>
    simp only [hw] at hcut ⊢
    by_cases hdone : back = .done
    · simp only [hdone, if_true] at hcut ⊢
      exact h.leaves_rollback hcut
    · simp only [hdone, if_false] at hcut ⊢
      exact h.leaves_rollback hcut
  | syncFails back =>
    simp only [hw] at hcut ⊢
    rw [← hfull] at hcut ⊢
    exact h.leaves_rollback hcut
  | done =>
    simp only [hw] at hcut hclean ⊢
    have hrests := h.rests_written hclean.1
    have hm := h.agrees_acknowledge
    rw [hm.active] at hcut
    split_ifs at hcut ⊢ with hrot
    · have hsec := hclean.2 hrot
      rw [hm.active] at hsec
      obtain ⟨-, hpoints⟩ := rotateActive_spec hrests rfl h.extend_ne_nil hm hsec
      rw [length_activeBytes_written] at hpoints
      exact h.leaves_done hpoints hcut
    · refine h.leaves_done (fun n => ?_) hcut
      rw [take_nil]
      exact Or.inl hrests.holds

/-! ## `append_entries` -/

variable {now : Nat} {operations : List (CanonicalOperation × Option String)} {group : Bool}

theorem appendEntries_of_plan_nil (h : (appendEntries C io now operations group a d).plan = []) :
    (appendEntries C io now operations group a d).appender = a ∧
      ackedBy (appendEntries C io now operations group a d).result = [] ∧
      (appendEntries C io now operations group a d).result ≠ .error .indeterminate := by
  unfold appendEntries at h ⊢
  split_ifs at h ⊢ with h1 h2 h3
  · exact ⟨rfl, rfl, by simp⟩
  · exact ⟨rfl, rfl, by simp⟩
  · exact ⟨rfl, rfl, by simp⟩
  · dsimp only at h ⊢
    split at h
    · exact ⟨rfl, rfl, by simp⟩
    · -- of the writes, only one that could not open the file takes no action
      unfold writeFrames at h ⊢
      cases hw : io.write with
      | openFails => exact ⟨rfl, rfl, by simp⟩
      | writeFails | done =>
        simp only [hw] at h
        split_ifs at h
      | syncFails back =>
        simp only [hw] at h
        cases h

theorem appendEntries_of_plan_ne_nil (h : (appendEntries C io now operations group a d).plan ≠ []) :
    operations ≠ [] ∧ a.poisoned = false ∧
      ∃ bytes, encodeFrames C group (assignSequences now (a.nextSequence + 1) operations) =
          some bytes ∧
        appendEntries C io now operations group a d =
          writeFrames C io (assignSequences now (a.nextSequence + 1) operations) bytes a
            d.activeBytes.length := by
  unfold appendEntries at h ⊢
  split_ifs at h ⊢ with h1 h2 h3
  · exact absurd rfl h
  · exact absurd rfl h
  · exact absurd rfl h
  · dsimp only at h ⊢
    refine ⟨h1, by simpa using h3, ?_⟩
    cases he : encodeFrames C group (assignSequences now (a.nextSequence + 1) operations) with
    | none =>
      rw [he] at h
      exact absurd rfl h
    | some bytes => exact ⟨bytes, rfl, rfl⟩

variable (h : Serves C a img d)

include h

theorem Serves.ready (hplan : (appendEntries C io now operations group a d).plan ≠ [])
    (hclean : CleanAppend C io now operations group a d) :
    Ready C a img d (framesOf group (assignSequences now (a.nextSequence + 1) operations)) ∧
      appendEntries C io now operations group a d = writeOf C d a
        (framesOf group (assignSequences now (a.nextSequence + 1) operations)) io := by
  obtain ⟨hne, hsound, bytes, hencode, heq⟩ := appendEntries_of_plan_ne_nil hplan
  obtain ⟨hroom, hplain, -⟩ := hclean
  obtain ⟨hbytes, hfits⟩ := encodeFrames_eq_some hencode
  obtain ⟨hrests, htail⟩ := h.rests hsound hplain
  have hentries := framesEntries_framesOf group
    (assignSequences now (a.nextSequence + 1) operations)
  have hlen := length_assignSequences now (a.nextSequence + 1) operations
  refine ⟨⟨hrests, htail, h.agrees, hsound, ?_, ?_, ?_, ?_⟩, ?_⟩
  · intro hnil
    rw [hnil, framesEntries_nil] at hentries
    rw [← hentries, length_nil] at hlen
    exact hne (eq_nil_of_length_eq_zero hlen.symm)
  · exact fun removed => h.agrees.continues hroom removed hfits
  · rw [hentries, hlen]
    exact hroom
  · intro e he
    rw [hentries] at he
    have := (mem_assignSequences (by omega) he).2
    rw [hentries, hlen]
    omega
  · rw [heq, writeOf, hentries, hbytes]

theorem Serves.holds_cut
    (hcut : (d.cut len).activeBytes = d.activeBytes ∨ Plain C (d.cut len).activeBytes) :
    Holds C img.floor img.entries (d.cut len) := by
  obtain ⟨removed, hok, hreal⟩ := h.files
  by_cases hsame : (d.cut len).activeBytes = d.activeBytes
  · exact ⟨img, rfl, rfl, removed, hok, { hreal with active := hsame.trans hreal.active },
      Disk.synced_cut d len⟩
  · have hplain := hcut.resolve_left hsame
    cases ht : img.tail with
    | summarySection =>
      -- the section is durable, so nothing was lost
      have hle := h.sectionDurable ht
      refine absurd ?_ hsame
      rw [Disk.activeBytes_cut, take_of_length_le (by omega)]
    | torn bytes =>
      have htail : (Tail.torn bytes).Ok C img.active := ht ▸ hok.tailOk
      have hpending : Pending C img removed bytes d := by
        refine ⟨hok, hreal.segments, hreal.floor, ?_, h.durable⟩
        rw [hreal.active, activeBytes]
        simp only [ht]
        rfl
      obtain ⟨m, hleft⟩ := hpending.cut len
      refine ⟨img.extend [] (bytes.take m), rfl, by simp, ?_⟩
      exact hpending.rests continues_nil (htail.1.take m) (by rw [append_nil]; exact hleft) hplain

theorem Serves.appendEntries (hclean : (appendEntries C io now operations group a d).plan = [] ∨
      CleanAppend C io now operations group a d) :
    ∃ img' : Image, img'.floor = img.floor ∧
      img'.entries = img.entries ++ ackedBy (appendEntries C io now operations group a d).result ∧
      Serves C (appendEntries C io now operations group a d).appender img'
        (d.applyAll (appendEntries C io now operations group a d).plan) := by
  by_cases hplan : (CanonicalWal.appendEntries C io now operations group a d).plan = []
  · obtain ⟨happ, hacked, -⟩ := appendEntries_of_plan_nil hplan
    refine ⟨img, rfl, ?_, ?_⟩
    · rw [hacked, append_nil]
    · rw [happ, hplan]
      exact h
  · have hclean := hclean.resolve_left hplan
    obtain ⟨hready, heq⟩ := h.ready hplan hclean
    rw [heq]
    exact hready.writeFrames_serves hclean.2.2

/-- A clean crash in an append leaves the history and whole frames of the append. -/
theorem Serves.appendEntries_crash
    (hclean : (CanonicalWal.appendEntries C io now operations group a d).plan = [] ∨
      CleanAppend C io now operations group a d) :
    CrashLeaves C img (framesOf group (assignSequences now (a.nextSequence + 1) operations))
      (encodeSummaryTrailer C
        (acknowledge a (assignSequences now (a.nextSequence + 1) operations)).active) d
      ((CanonicalWal.appendEntries C io now operations group a d).plan.take steps) len := by
  intro hcut
  by_cases hplan : (CanonicalWal.appendEntries C io now operations group a d).plan = []
  · rw [hplan, take_nil] at hcut ⊢
    have hheld := h.holds_cut hcut
    exact ⟨0, by simpa using hheld⟩
  · have hclean := hclean.resolve_left hplan
    obtain ⟨hready, heq⟩ := h.ready hplan hclean
    rw [heq] at hcut ⊢
    refine hready.writeFrames_crash hclean.2.2 ?_
    rwa [framesEntries_framesOf]

end ProximaDb.CanonicalWal
