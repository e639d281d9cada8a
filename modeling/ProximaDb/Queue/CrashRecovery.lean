/-
  ProximaDb.Queue.CrashRecovery

  Crashes and reopenings. A torn frame at the end of a segment is passed over by the replay and
  stays in the file. The writer goes on in a new segment if the newest one yielded a frame;
  otherwise it appends behind the torn bytes, and what it appends there is read wrongly from then
  on.
-/
import ProximaDb.Queue.Sound

namespace ProximaDb.Queue

open ProximaDb.Lib PartitionDir PartitionDiskWriter Queue.Partition

variable {C : MessageCodec} {cfg : TopicConfig}

/-! ## What is on disk -/

/-- The frames on disk are messages that were given their offset, one for each offset; those of
    `Strict` receipts are within the synced bytes. -/
structure Stored (C : MessageCodec) (dir : PartitionDir) (history : History) : Prop where
  unarchived : dir.archive = ∅
  known : ∀ segment f, dir.Holds segment f → f.1 + 1 < 2 ^ 64 ∧
    ∃ m, f.2 = C.serialize m ∧ (f.1, m) ∈ history.given
  unique : ∀ segment f segment' f', dir.Holds segment f → dir.Holds segment' f' → f.1 = f'.1 →
    f.2 = f'.2
  strict : ∀ offset m, (offset, m, true) ∈ history.receipts →
    ∃ segment, dir.Keeps segment (offset, C.serialize m)
  progress : ∀ group c, dir.committed group = some c → c + 1 < 2 ^ 64

def SendStored (C : MessageCodec) (dir : PartitionDir) (offset : Nat) (send : Send) : Prop :=
  match send.stage with
  | .reserved => ∀ segment f, dir.Holds segment f → f.1 ≠ offset
  | .written segment => dir.Holds segment (offset, C.serialize send.message)
  | .enqueued segment => dir.Holds segment (offset, C.serialize send.message)
  | .waiting segment => dir.Holds segment (offset, C.serialize send.message)
  | .synced => ∃ segment, dir.Keeps segment (offset, C.serialize send.message)

/-- A running process whose directory can be recovered at any time. -/
structure Recoverable (C : MessageCodec) (r : Running) : Prop where
  sound : r.Sound
  stored : Stored C r.dir r.history
  below : ∀ segment f, r.dir.Holds segment f → f.1 < r.writer.nextOffset
  sends : ∀ offset send, r.sends offset = some send → SendStored C r.dir offset send

variable {dir dir' : PartitionDir} {history : History} {r r' : Running} {e : SessionEvent}
  {offset : Nat}

theorem Stored.of_holds (h : Stored C dir history) (harchive : dir'.archive = dir.archive)
    (hholds : ∀ segment f, dir'.Holds segment f → dir.Holds segment f)
    (hkeeps : ∀ segment f, dir.Keeps segment f → dir'.Keeps segment f)
    (hgroups : dir'.groups = dir.groups) : Stored C dir' history := by
  refine ⟨harchive.trans h.unarchived, fun segment f hf => h.known segment f (hholds segment f hf),
    fun s f s' f' hf hf' => h.unique s f s' f' (hholds s f hf) (hholds s' f' hf'),
    fun offset m hm => ?_, fun group c hc => h.progress group c ?_⟩
  · obtain ⟨segment, hs⟩ := h.strict offset m hm
    exact ⟨segment, hkeeps _ _ hs⟩
  · unfold committed at hc ⊢
    rw [← hgroups]
    exact hc

theorem Stored.crashed (h : Stored C dir history) (keep : Nat → Nat) :
    Stored C (dir.crashed keep) history :=
  h.of_holds rfl (fun _ _ => holds_of_crashed) (fun _ _ => keeps_crashed) rfl

/-- The frame of a send is where it was while frames stay and no frame of its offset is new. -/
theorem SendStored.mono {send : Send} (h : SendStored C dir offset send)
    (hholds : ∀ segment f, dir.Holds segment f → dir'.Holds segment f)
    (hkeeps : ∀ segment f, dir.Keeps segment f → dir'.Keeps segment f)
    (hnew : ∀ segment f, dir'.Holds segment f → dir.Holds segment f ∨ f.1 ≠ offset) :
    SendStored C dir' offset send := by
  obtain ⟨message, stage⟩ := send
  cases stage with
  | reserved =>
    intro segment f hf
    rcases hnew segment f hf with hold | hne
    · exact h segment f hold
    · exact hne
  | written | enqueued | waiting => exact hholds _ _ h
  | synced =>
    obtain ⟨segment, hs⟩ := h
    exact ⟨segment, hkeeps _ _ hs⟩

/-! ## The steps of a session -/

/-- The condition on a step of a session. A frame is appended behind whole frames only, and its
    length fits its header; nothing is uploaded or reaped. -/
def SessionOk (C : MessageCodec) (r : Running) : SessionEvent → Prop
  | .write offset => ∀ send ∈ r.sends offset, (C.serialize send.message).length < 2 ^ 32 ∧
      tailOf (r.writer.target (frame offset (C.serialize send.message)).length r.dir) = []
  | .upload _ => False
  | .reap _ => False
  | _ => True

/-- The condition on a step. A topic is opened with a replay, and the segment ids and the capacity
    of the memory tier are large enough for it. -/
def RecoveryOk (C : MessageCodec) (cfg : TopicConfig) : Partition → PartitionEvent → Prop
  | .running r, .session e => SessionOk C r e
  | .down dir _, .reopen =>
    (∀ f ∈ dir.replayedFrames cfg.archiveConfigured, f.1 + 1 < 2 ^ 64) ∧
      (dir.replayedFrames cfg.archiveConfigured).length ≤ cfg.memoryCapacity
  | _, .openOnUse => False
  | _, _ => True

instance (C : MessageCodec) (r : Running) (e : SessionEvent) : Decidable (SessionOk C r e) :=
  match e with
  | .write offset => inferInstanceAs (Decidable (∀ send ∈ r.sends offset, _ ∧ _))
  | .upload _ | .reap _ => instDecidableFalse
  | .reserve _ | .abandon _ | .enqueue _ | .waitForFsync _ | .fsync .. | .receipt _
  | .subscribe _ | .poll .. | .ack .. | .nack .. => instDecidableTrue

instance (C : MessageCodec) (cfg : TopicConfig) (s : Partition) (e : PartitionEvent) :
    Decidable (RecoveryOk C cfg s e) :=
  match s, e with
  | .running r, .session e => inferInstanceAs (Decidable (SessionOk C r e))
  | .down .., .reopen => inferInstanceAs (Decidable ((∀ f ∈ _, _) ∧ _))
  | .running _, .openOnUse | .down .., .openOnUse => instDecidableFalse
  | .running _, .crash _ | .running _, .shutdown | .running _, .reopen
  | .down .., .session _ | .down .., .crash _ | .down .., .shutdown => instDecidableTrue

namespace Recoverable

variable (h : Recoverable C r) {message : Message}

include h

theorem of_segments (hsound : r'.Sound)
    (hsegments : r'.dir.segments = r.dir.segments) (harchive : r'.dir.archive = r.dir.archive)
    (hgiven : r'.history.given = r.history.given)
    (hreceipts : r'.history.receipts = r.history.receipts)
    (hnext : r.writer.nextOffset ≤ r'.writer.nextOffset)
    (hsends : ∀ offset send, r'.sends offset = some send → SendStored C r.dir offset send) :
    Recoverable C r' := by
  have hholds : ∀ segment f, r'.dir.Holds segment f ↔ r.dir.Holds segment f := by
    intro segment f
    unfold PartitionDir.Holds
    rw [hsegments]
  have hkeeps : ∀ segment f, r'.dir.Keeps segment f ↔ r.dir.Keeps segment f := by
    intro segment f
    unfold PartitionDir.Keeps
    rw [hsegments]
  refine ⟨hsound, ⟨harchive.trans h.stored.unarchived, ?_, ?_, ?_, fun group c hc => ?_⟩, ?_, ?_⟩
  · simp only [hholds, hgiven]
    exact h.stored.known
  · simp only [hholds]
    exact h.stored.unique
  · simp only [hkeeps, hreceipts]
    exact h.stored.strict
  · exact lt_of_le_of_lt (hsound.groups group c hc) hsound.counter
  · intro segment f hf
    exact lt_of_lt_of_le (h.below segment f ((hholds segment f).1 hf)) hnext
  · intro offset send hsend
    exact (hsends offset send hsend).mono (fun s f hf => (hholds s f).2 hf)
      (fun s f hf => (hkeeps s f).2 hf) (fun s f hf => .inl ((hholds s f).1 hf))

theorem write
    (hsend : r.sends offset = some ⟨message, .reserved⟩) (hsound : (r.written C offset message).Sound)
    (hlength : (C.serialize message).length < 2 ^ 32)
    (hwhole : tailOf (r.writer.target (frame offset (C.serialize message)).length r.dir) = []) :
    Recoverable C (r.written C offset message) := by
  have hlt := h.sound.sends offset _ hsend
  have hcounter := h.sound.counter
  have hfits : FrameFits offset (C.serialize message) := ⟨hlt.trans hcounter, hlength⟩
  have hholds : ∀ segment f, (r.written C offset message).dir.Holds segment f ↔
      r.dir.Holds segment f ∨ (segment = (r.written C offset message).writer.activeSegmentId ∧
        f = (offset, C.serialize message)) := by
    intro segment f
    have happend := @PartitionDir.holds_append_frame _ _ segment f hwhole offset _ hfits
    rw [holds_rotate] at happend
    exact happend
  have hkeeps : ∀ segment f, r.dir.Keeps segment f →
      (r.written C offset message).dir.Keeps segment f :=
    fun segment f hf => PartitionDir.keeps_append _ (keeps_rotate hf)
  have hfree : ∀ segment f, r.dir.Holds segment f → f.1 ≠ offset := h.sends offset _ hsend
  refine ⟨hsound, ⟨?_, ?_, ?_, ?_, fun group c hc => ?_⟩, ?_, ?_⟩
  · exact (archive_writeFrame _ _ _).trans h.stored.unarchived
  · intro segment f hf
    rcases (hholds segment f).1 hf with hold | ⟨-, rfl⟩
    · obtain ⟨hbound, m, hm, hgiven⟩ := h.stored.known segment f hold
      exact ⟨hbound, m, hm, List.mem_append_left _ hgiven⟩
    · exact ⟨lt_of_le_of_lt hlt hcounter, message, rfl, List.mem_append_right _ List.mem_cons_self⟩
  · intro s f s' f' hf hf' heq
    rcases (hholds s f).1 hf with hold | ⟨-, rfl⟩
    · rcases (hholds s' f').1 hf' with hold' | ⟨-, rfl⟩
      · exact h.stored.unique s f s' f' hold hold' heq
      · exact absurd heq (hfree s f hold)
    · rcases (hholds s' f').1 hf' with hold' | ⟨-, rfl⟩
      · exact absurd heq.symm (hfree s' f' hold')
      · rfl
  · intro o m hm
    obtain ⟨segment, hs⟩ := h.stored.strict o m hm
    exact ⟨segment, hkeeps _ _ hs⟩
  · exact lt_of_le_of_lt (hsound.groups group c hc) hsound.counter
  · intro segment f hf
    show f.1 < (r.writer.writeFrame (frame offset (C.serialize message)) r.dir).1.nextOffset
    rw [nextOffset_writeFrame]
    rcases (hholds segment f).1 hf with hold | ⟨-, rfl⟩
    · exact h.below segment f hold
    · exact hlt
  · intro o send hs
    have hs' : (r.setSend offset (some ⟨message, .written
        (r.written C offset message).writer.activeSegmentId⟩)).sends o = some send := hs
    rw [Running.sends_setSend] at hs'
    split_ifs at hs' with heq
    · cases hs'
      subst heq
      exact (hholds _ _).2 (.inr ⟨rfl, rfl⟩)
    · refine (h.sends o send hs').mono (fun s f hf => (hholds s f).2 (.inl hf)) hkeeps
        (fun s f hf => ?_)
      rcases (hholds s f).1 hf with hold | ⟨-, rfl⟩
      · exact .inl hold
      · exact .inr (Ne.symm heq)

theorem fsync (segment : Nat) (answered : List Nat)
    (hsound : (r.synced segment answered).Sound) : Recoverable C (r.synced segment answered) := by
  have hholds : ∀ s f, (r.dir.fsync segment).Holds s f ↔ r.dir.Holds s f := fun s f => holds_fsync
  have hkeeps : ∀ s f, r.dir.Keeps s f → (r.dir.fsync segment).Keeps s f := fun s f => keeps_fsync
  refine ⟨hsound, h.stored.of_holds rfl (fun s f hf => (hholds s f).1 hf) hkeeps rfl,
    fun s f hf => h.below s f ((hholds s f).1 hf), fun offset send hsend => ?_⟩
  have hmono : ∀ send', r.sends offset = some send' →
      SendStored C (r.dir.fsync segment) offset send' := by
    intro send' hsend'
    exact (h.sends offset send' hsend').mono (fun s f hf => (hholds s f).2 hf) hkeeps
      (fun s f hf => .inl ((hholds s f).1 hf))
  unfold Running.synced at hsend
  dsimp only at hsend
  split at hsend
  case h_1 message waited hwaiting =>
    split_ifs at hsend with hanswered
    · cases hsend
      obtain ⟨rfl, -⟩ := hanswered
      have hthere : r.dir.Holds waited (offset, C.serialize message) := h.sends offset _ hwaiting
      exact ⟨waited, keeps_fsync_self hthere⟩
    · cases hsend
      exact hmono _ hwaiting
  case h_2 => exact hmono send hsend

theorem receipted {strict : Bool} (hsound : (r.receipted offset message strict).Sound)
    (hkept : strict = true → ∃ segment, r.dir.Keeps segment (offset, C.serialize message)) :
    Recoverable C (r.receipted offset message strict) := by
  refine ⟨hsound, { h.stored with strict := fun o m hm => ?_ }, h.below, fun o send hsend => ?_⟩
  · rcases List.mem_append.1 hm with hold | hnew
    · exact h.stored.strict o m hold
    · cases List.mem_singleton.1 hnew
      exact hkept rfl
  · have hsend' : (r.setSend offset none).sends o = some send := hsend
    rw [Running.sends_setSend] at hsend'
    split_ifs at hsend' with heq
    exact h.sends o send hsend'

theorem moves (hok : RecoveryOk C cfg (.running r) (.session e))
    (hmoves : r.Moves C cfg e r') : Recoverable C r' := by
  have hsound := h.sound.moves hmoves
  -- a send that goes on or is over; the others stay
  have hset : ∀ offset send, (∀ s, send = some s → SendStored C r.dir offset s) →
      ∀ o s, (r.setSend offset send).sends o = some s → SendStored C r.dir o s := by
    intro offset send hsend o s hs
    rw [Running.sends_setSend] at hs
    split_ifs at hs with heq
    · subst heq
      exact hsend s hs
    · exact h.sends o s hs
  cases hmoves with
  | reserve message hnext =>
    refine h.of_segments hsound rfl rfl rfl rfl (Nat.le_succ _)
      (hset r.writer.nextOffset (some ⟨message, .reserved⟩) (fun s hs => ?_))
    cases hs
    exact fun segment f hf => ne_of_lt (h.below segment f hf)
  | write offset message hsend =>
    obtain ⟨hlength, hwhole⟩ := hok _ hsend
    exact h.write hsend hsound hlength hwhole
  | abandon | full =>
    exact h.of_segments hsound rfl rfl rfl rfl (Nat.le_refl _) (hset _ none nofun)
  | enqueue offset segment message entry memory hsend henqueue =>
    refine h.of_segments hsound rfl rfl rfl rfl (Nat.le_refl _)
      (hset offset (some ⟨message, .enqueued segment⟩) (fun s hs => ?_))
    cases hs
    exact h.sends offset ⟨message, .written segment⟩ hsend
  | wait offset segment message hsend =>
    refine h.of_segments hsound rfl rfl rfl rfl (Nat.le_refl _)
      (hset offset (some ⟨message, .waiting segment⟩) (fun s hs => ?_))
    cases hs
    exact h.sends offset ⟨message, .enqueued segment⟩ hsend
  | fsync segment answered => exact h.fsync segment answered hsound
  | lazyReceipt =>
    exact h.receipted hsound nofun
  | strictReceipt offset message hsend =>
    exact h.receipted hsound (fun _ => h.sends offset _ hsend)
  | subscribe | exhausted | poll | pollFailed | ackBehind | ack | ackLost | nack =>
    exact h.of_segments hsound rfl rfl rfl rfl (Nat.le_refl _) h.sends
  | ackNothing => exact h
  | upload | reap => exact absurd hok id

end Recoverable

/-! ## Reopening -/

theorem PartitionDir.mem_replayedFrames_iff (harchive : dir.archive = ∅) (archiveConfigured : Bool)
    {segment : Nat} {f : Nat × Bytes} :
    (segment, f) ∈ dir.replayedFrames archiveConfigured ↔ dir.Holds segment f := by
  have hnone : (dir.archived archiveConfigured).get? segment = none := by
    unfold archived
    rw [harchive]
    split_ifs <;> rfl
  have hbytes : segmentBytes (dir.segments.get? segment, (dir.archived archiveConfigured).get? segment) =
      dir.bytesOf segment := by
    rw [hnone]
    unfold segmentBytes bytesOf
    cases dir.segments.get? segment with
    | none => rfl
    | some file =>
      simp only [Option.getD_none, Option.getD_some]
      split_ifs with hempty
      · rw [hempty]
      · rfl
  rw [holds_iff, ← hbytes]
  exact ⟨mem_replayedFrames, mem_replayed_of_frame⟩

section

variable (h : Stored C dir history)

include h

theorem Stored.append_nil (id : Nat) : Stored C (dir.append id []) history :=
  h.of_holds rfl (fun _ _ => holds_append_nil.1) (fun _ _ => keeps_append [])
    rfl

theorem Stored.openOn (rotationBytes : Nat) : Stored C (openOn rotationBytes dir).2 history := by
  rcases (openOn_cases rotationBytes dir).2 with ⟨heq, -⟩ | ⟨-, -, heq⟩
  · rw [heq]
    exact h
  · rw [heq]
    exact h.append_nil 0

theorem replayedFrames_openOn (rotationBytes : Nat) (archiveConfigured : Bool) :
    (openOn rotationBytes dir).2.replayedFrames archiveConfigured =
      dir.replayedFrames archiveConfigured := by
  rcases (openOn_cases rotationBytes dir).2 with ⟨heq, -⟩ | ⟨hempty, -, heq⟩
  · rw [heq]
  · have hnone : ∀ segment f, ¬ dir.Holds segment f := by
      rintro segment f ⟨file, hfile, -⟩
      rw [hempty] at hfile
      cases hfile
    have hbefore : dir.replayedFrames archiveConfigured = [] :=
      List.eq_nil_iff_forall_not_mem.2 (fun e he =>
        hnone e.1 e.2 ((mem_replayedFrames_iff h.unarchived archiveConfigured).1 he))
    have hafter : (dir.append 0 []).replayedFrames archiveConfigured = [] :=
      List.eq_nil_iff_forall_not_mem.2 (fun e he => hnone e.1 e.2 (holds_append_nil.1
        ((mem_replayedFrames_iff (h.append_nil 0).unarchived archiveConfigured).1 he)))
    rw [heq, hbefore, hafter]

/-- A directory that stores what it should is replayed: the memory tier then has the messages of its
    frames that some group still needs. -/
theorem Stored.reopen (hok : RecoveryOk C cfg (.down dir history) .reopen) :
    ∃ r, reopenPartition C cfg dir history = .ok r ∧
      (∀ segment f m, dir.Holds segment f → f.2 = C.serialize m →
        (∀ c, dir.minCommitted = some c → c < f.1) →
        (f.1, r.memory.entryOf m f.1) ∈ r.memory.entries.entries) ∧
      ∀ e ∈ r.memory.entries.entries, (e.1, e.2.message) ∈ history.given := by
  obtain ⟨hids, hroom⟩ := hok
  have hopen := h.openOn cfg.rotationBytes
  have hframes := replayedFrames_openOn h cfg.rotationBytes cfg.archiveConfigured
  have hholds : ∀ f ∈ dir.replayedFrames cfg.archiveConfigured, dir.Holds f.1 f.2 := fun f hf =>
    (mem_replayedFrames_iff h.unarchived cfg.archiveConfigured).1 hf
  have hmin : (PartitionDiskWriter.openOn cfg.rotationBytes dir).2.minCommitted =
      dir.minCommitted := by
    unfold PartitionDir.minCommitted PartitionDir.progress
    rw [groups_openOn]
  rw [← hframes] at hids hroom hholds
  obtain ⟨st, p, hreplay, hst⟩ := @replayPartition_accepts C
    (.new cfg.partition cfg.memoryCapacity) cfg.archiveConfigured
    (PartitionDiskWriter.openOn cfg.rotationBytes dir).2
    (PartitionDiskWriter.openOn cfg.rotationBytes dir).1 rfl hopen.progress
    (fun f hf => (h.known _ _ (hholds f hf)).2.imp (fun m hm => hm.1))
    (fun f hf => (h.known _ _ (hholds f hf)).1)
    (fun f hf f' hf' heq => h.unique _ _ _ _ (hholds f hf) (hholds f' hf') heq)
    (hroom.trans (Nat.le_max_left _ _)) hids
  have hentryOf := PartitionMemory.entryOf_congr hst.partition
  refine ⟨{ openPartition cfg dir history with memory := st.memory, writer := p.1, dir := p.2 }, ?_,
    fun segment f m hf hm habove => ?_, fun e he => ?_⟩
  · unfold reopenPartition openPartition
    simp only [hreplay, bind, Except.bind]
  · have hread := (mem_replayedFrames_iff h.unarchived cfg.archiveConfigured).2 hf
    rw [← hframes] at hread
    rw [hentryOf]
    exact hst.kept (segment, f) hread m hm (fun c hc => habove c (hmin ▸ hc))
  · obtain ⟨f, hf, m, hm, rfl⟩ := hst.only e he
    obtain ⟨-, m', hm', hgiven⟩ := h.known _ _ (hholds f hf)
    rw [C.serialize_inj (hm.symm.trans hm')]
    exact hgiven

theorem Stored.recoverable
    (hreopen : reopenPartition C cfg dir history = .ok r) : Recoverable C r := by
  obtain ⟨hreplay, hsends, -, hhistory⟩ := reopenPartition_ok hreopen
  have hsound := sound_reopenPartition hreopen
  have hopen := h.openOn cfg.rotationBytes
  obtain ⟨habove, -⟩ := replayPartition_above hreplay
  obtain ⟨floor, st, -, -, -, hresume⟩ := replayPartition_ok hreplay
  have hresumed : Stored C r.dir history ∧ ∀ segment f, r.dir.Holds segment f →
      (PartitionDiskWriter.openOn cfg.rotationBytes dir).2.Holds segment f := by
    rcases (resumeWriter_ok hresume).2 with ⟨-, hdir, -⟩ | ⟨id, -, -, -, hdir⟩
    · rw [hdir]
      exact ⟨hopen, fun _ _ hf => hf⟩
    · rw [hdir]
      exact ⟨hopen.append_nil _, fun _ _ hf => holds_append_nil.1 hf⟩
  refine ⟨hsound, hhistory ▸ hresumed.1, fun segment f hf => ?_, fun offset send hsend => ?_⟩
  · exact habove (segment, f) ((mem_replayedFrames_iff hopen.unarchived _).2
      (hresumed.2 segment f hf))
  · rw [hsends] at hsend
    cases hsend

end

/-! ## Whole runs -/

/-- A partition that can be recovered, running or not. -/
def Partition.Recoverable (C : MessageCodec) : Partition → Prop
  | .running r => Queue.Recoverable C r
  | .down dir history => Stored C dir history

theorem recoverable_blank : blank.Recoverable C := by
  refine ⟨rfl, ?_, ?_, nofun, nofun⟩
  · rintro segment f ⟨file, hfile, -⟩
    cases hfile
  · rintro segment f segment' f' ⟨file, hfile, -⟩
    cases hfile

theorem Partition.Recoverable.step {s t : Partition} {e : PartitionEvent} (h : s.Recoverable C)
    (hok : RecoveryOk C cfg s e) (hstep : s.step C cfg e = some t) : t.Recoverable C := by
  cases s with
  | running r =>
    have hr : Queue.Recoverable C r := h
    cases e with
    | session e =>
      obtain ⟨r', hr', rfl⟩ := Option.map_eq_some_iff.1 hstep
      exact hr.moves hok (Running.moves_of_step hr')
    | crash keep =>
      cases hstep
      exact hr.stored.crashed keep
    | shutdown =>
      cases hstep
      exact hr.stored
    | reopen | openOnUse => cases hstep
  | down dir history =>
    have hdir : Stored C dir history := h
    cases e with
    | session | crash | shutdown => cases hstep
    | reopen =>
      obtain ⟨r, hreopen, rfl⟩ := step_reopen hstep
      exact hdir.recoverable hreopen
    | openOnUse => exact absurd hok id

/-- Every reopening succeeds, and puts into the memory tier, under its offset, every message that a
    `Strict` send returned for in any session and that some group has not committed; and whatever it
    puts there was sent, with that offset. -/
theorem reopen_recovers {events : List PartitionEvent}
    (hrun : play (guarded (RecoveryOk C cfg) (Partition.step C cfg)) Partition.blank events =
      some (.down dir history))
    (hok : RecoveryOk C cfg (.down dir history) .reopen) :
    ∃ r, reopenPartition C cfg dir history = .ok r ∧
      (∀ offset message, (offset, message, true) ∈ history.receipts →
        (∀ c, dir.minCommitted = some c → c < offset) →
        r.memory.entries.get? offset = some (r.memory.entryOf message offset)) ∧
      ∀ e ∈ r.memory.entries.entries, (e.1, e.2.message) ∈ history.given := by
  have hdir : Stored C dir history := play_invariant (P := Partition.Recoverable C)
    (fun s e t hs hstep => hs.step (guarded_eq_some.1 hstep).1 (guarded_eq_some.1 hstep).2)
    recoverable_blank hrun
  obtain ⟨r, hreopen, hkept, honly⟩ := hdir.reopen hok
  refine ⟨r, hreopen, fun offset message hreceipt habove => ?_, honly⟩
  obtain ⟨segment, hs⟩ := hdir.strict offset message hreceipt
  exact OrdMap.get?_eq_some.2
    (hkept segment (offset, C.serialize message) message (holds_of_keeps hs) rfl habove)

/-! ## A torn frame behind a whole one, and one alone -/

/-- A `Strict` send, from its reservation to its receipt. -/
def strictSend (offset segment : Nat) (message : Message) : List PartitionEvent :=
  [.session (.reserve message), .session (.write offset), .session (.enqueue offset),
    .session (.waitForFsync offset), .session (.fsync segment [offset]),
    .session (.receipt offset)]

/-- The second frame of segment 0 is torn; the next session writes to segment 1. -/
def tornBehind : List PartitionEvent :=
  [.reopen] ++ strictSend 0 0 (note [1]) ++ [.session (.reserve (note [2])),
    .session (.write 1), .crash (fun _ => 32), .reopen] ++ strictSend 1 1 (note [3]) ++
    [.crash (fun _ => 0)]

theorem reopen_recovers_tornBehind : ∃ dir history r,
    play (guarded (RecoveryOk plainCodec onePartition) (Partition.step plainCodec onePartition))
      Partition.blank tornBehind = some (.down dir history) ∧
    reopenPartition plainCodec onePartition dir history = .ok r ∧
    r.memory.entries.get? 0 = some (r.memory.entryOf (note [1]) 0) ∧
    r.memory.entries.get? 1 = some (r.memory.entryOf (note [3]) 1) := by
  have hrun : ((play (guarded (RecoveryOk plainCodec onePartition)
      (step plainCodec onePartition)) blank tornBehind).bind
        stopped).map (fun p => (p.2.receipts, p.1.minCommitted,
          decide (RecoveryOk plainCodec onePartition (.down p.1 p.2) .reopen))) =
      some ([(0, note [1], true), (1, note [3], true)], none, true) := by
    rfl
  obtain ⟨dir, history, hs, hview⟩ := of_stopped hrun
  simp only [Prod.mk.injEq] at hview
  obtain ⟨hreceipts, hmin, hok⟩ := hview
  obtain ⟨r, hreopen, hkept, -⟩ := reopen_recovers hs (of_decide_eq_true hok)
  refine ⟨dir, history, r, hs, hreopen, hkept 0 _ (by simp [hreceipts]) ?_,
    hkept 1 _ (by simp [hreceipts]) ?_⟩
  · simp [hmin]
  · simp [hmin]

/-- The first frame of segment 0 is torn, and a `Strict` send appends behind it. -/
def tornAlone : List PartitionEvent :=
  [.reopen, .session (.reserve (note [1])), .session (.write 0), .crash (fun _ => 1), .reopen] ++
    strictSend 0 0 (note [2]) ++ [.crash (fun _ => 0)]

/-- The message has a `Strict` receipt, no group has committed anything, and the directory cannot be
    reopened: the bytes are read as a frame that is no message. -/
theorem tornAlone_unrecoverable : ∃ dir history,
    play (Partition.step plainCodec onePartition) Partition.blank tornAlone =
      some (.down dir history) ∧ (0, note [2], true) ∈ history.receipts ∧
    dir.minCommitted = none ∧ ∃ error,
      reopenPartition plainCodec onePartition dir history = .error error := by
  have hrun : ((play (step plainCodec onePartition) blank tornAlone).bind
      stopped).map (fun p => (p.2.receipts, p.1.minCommitted,
        (reopenPartition plainCodec onePartition p.1 p.2).isOk)) =
      some ([(0, note [2], true)], none, false) := by
    rfl
  obtain ⟨dir, history, hs, hview⟩ := of_stopped hrun
  simp only [Prod.mk.injEq] at hview
  obtain ⟨hreceipts, hmin, hfailed⟩ := hview
  refine ⟨dir, history, hs, by simp [hreceipts], hmin, ?_⟩
  cases hreopen : reopenPartition plainCodec onePartition dir history with
  | error error => exact ⟨error, rfl⟩
  | ok r =>
    rw [hreopen] at hfailed
    cases hfailed

end ProximaDb.Queue
