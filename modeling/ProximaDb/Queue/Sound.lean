/-
  ProximaDb.Queue.Sound

  What holds in every running process, whatever its directory holds: the writer's counter is above
  every offset in the memory tier, in the sends, in the subscriptions and in the progress of the
  groups, and the memory tier keeps each message under its own offset.
-/
import ProximaDb.Queue.Partition

namespace ProximaDb.Queue

open ProximaDb.Lib PartitionDiskWriter PartitionDir

variable {dir : PartitionDir} {memory memory' : PartitionMemory} {w w' : PartitionDiskWriter}
  {archiveConfigured : Bool} {dir' : PartitionDir}

structure Running.Sound (r : Running) : Prop where
  counter : r.writer.nextOffset < 2 ^ 64
  memory : ∀ e ∈ r.memory.entries.entries,
    e.2 = r.memory.entryOf e.2.message e.1 ∧ e.1 < r.writer.nextOffset
  sends : ∀ offset send, r.sends offset = some send → offset < r.writer.nextOffset
  consumers : ∀ group k, r.consumers group = some k →
    k.tracker.nextReadOffset ≤ r.writer.nextOffset ∧
      ∀ p ∈ k.tracker.pending, p.memo.offset < r.writer.nextOffset
  groups : ∀ group c, r.dir.committed group = some c → c < r.writer.nextOffset

namespace Running.Sound

variable {C : MessageCodec} {cfg : TopicConfig} {r r' : Running} {e : SessionEvent} {group : String}
  (h : r.Sound) {offset : Nat} {t : InFlight} {u : Bool}

include h

theorem memory_bound : ∀ e ∈ r.memory.entries.entries, e.2.offset + 1 < 2 ^ 64 := by
  intro e he
  obtain ⟨hentry, hlt⟩ := h.memory e he
  have hoffset : e.2.offset = e.1 := by
    rw [hentry]
    rfl
  have := h.counter
  omega

theorem offset_of_batch {batch : List MemoryEntry} {cursor : Nat}
    (hbatch : batch <+: (r.memory.entries.entries.filter
      (fun e => decide (cursor ≤ e.1))).map Prod.snd) {memo : MemoryEntry} (hmemo : memo ∈ batch) :
    (memo.offset, memo) ∈ r.memory.entries.entries ∧ cursor ≤ memo.offset ∧
      memo = r.memory.entryOf memo.message memo.offset ∧ memo.offset < r.writer.nextOffset := by
  obtain ⟨⟨k, entry⟩, he, rfl⟩ := List.mem_map.1 (hbatch.subset hmemo)
  obtain ⟨hmem, hcursor⟩ := List.mem_filter.1 he
  obtain ⟨hentry, hlt⟩ := h.memory _ hmem
  have hoffset : entry.offset = k := congrArg MemoryEntry.offset hentry
  rw [hoffset]
  exact ⟨hmem, of_decide_eq_true hcursor, hentry, hlt⟩

theorem poll_tracker {maxBatch : Nat} {t t' : InFlight}
    {result : Except String (List Delivery)} (hconsumer : r.consumers group = some ⟨u, t⟩)
    (hpoll : t.pollLocked r.memory maxBatch = (result, t')) :
    t'.nextReadOffset ≤ r.writer.nextOffset ∧ ∀ p ∈ t'.pending, p.memo.offset < r.writer.nextOffset := by
  obtain ⟨hcursor, hpending⟩ := h.consumers group _ hconsumer
  obtain ⟨pending, hkeys, hcases⟩ := t.pollLocked_cases r.memory maxBatch h.memory_bound
  have hold : ∀ p ∈ pending, p.memo.offset < r.writer.nextOffset := by
    intro p hp
    obtain ⟨q, hq, -, hoffset, -⟩ := InFlight.mem_of_keys hkeys hp
    exact hoffset ▸ hpending q hq
  rcases hcases with ⟨error, heq⟩ | ⟨out, batch, -, hbatch, heq⟩
  · rw [heq] at hpoll
    cases hpoll
    exact ⟨hcursor, hold⟩
  · rw [heq] at hpoll
    cases hpoll
    refine ⟨?_, fun p hp => ?_⟩
    · rcases InFlight.cursorAfter_cases batch t.nextReadOffset with ⟨-, hsame⟩ | ⟨memo, hlast, hmoved⟩
      · rw [hsame]
        exact hcursor
      · rw [hmoved]
        exact (h.offset_of_batch hbatch (List.mem_of_getLast? hlast)).2.2.2
    · rcases List.mem_append.1 hp with hp | hp
      · exact hold p hp
      · obtain ⟨memo, hmemo, rfl⟩ := List.mem_map.1 hp
        exact (h.offset_of_batch hbatch hmemo).2.2.2

theorem setConsumer {k : Consumer} (hcursor : k.tracker.nextReadOffset ≤ r.writer.nextOffset)
    (hpending : ∀ p ∈ k.tracker.pending, p.memo.offset < r.writer.nextOffset) :
    (r.setConsumer group k).Sound := by
  refine { h with consumers := fun group' k' hk' => ?_ }
  rw [consumers_setConsumer] at hk'
  split_ifs at hk' with hgroup
  · cases hk'
    exact ⟨hcursor, hpending⟩
  · exact h.consumers group' k' hk'

theorem setSend {send : Option Send}
    (hoffset : send.isSome → offset < r.writer.nextOffset) : (r.setSend offset send).Sound := by
  refine { h with sends := fun offset' send' hsend' => ?_ }
  rw [sends_setSend] at hsend'
  split_ifs at hsend' with heq
  · rw [heq]
    exact hoffset (hsend' ▸ rfl)
  · exact h.sends offset' send' hsend'

theorem setSend_none (offset : Nat) : (r.setSend offset none).Sound := h.setSend nofun

theorem of_eq (hwriter : r'.writer.nextOffset = r.writer.nextOffset)
    (hmemory : r'.memory = r.memory) (hsends : r'.sends = r.sends)
    (hconsumers : r'.consumers = r.consumers)
    (hgroups : ∀ group, r'.dir.committed group = r.dir.committed group) : r'.Sound := by
  refine ⟨by rw [hwriter]; exact h.counter, ?_, ?_, ?_, ?_⟩
  · rw [hmemory, hwriter]
    exact h.memory
  · rw [hsends, hwriter]
    exact h.sends
  · rw [hconsumers, hwriter]
    exact h.consumers
  · intro group c hc
    rw [hwriter]
    exact h.groups group c ((hgroups group).symm.trans hc)

theorem commit {ids : List MessageId}
    (hconsumer : r.consumers group = some ⟨u, t⟩) (hpoint : t.commitPoint ids = some offset) :
    ({ r with dir := r.dir.commit group offset } : Running).Sound := by
  refine { h with groups := fun group' c hc => ?_ }
  obtain ⟨p, -, hp, rfl⟩ := InFlight.commitPoint_eq_some hpoint
  have hlt := (h.consumers group _ hconsumer).2 p hp
  have hc' : (r.dir.commit group p.memo.offset).committed group' = some c := hc
  rw [committed_commit] at hc'
  split_ifs at hc' with hgroup
  · cases hprev : r.dir.committed group with
    | none =>
      rw [hprev] at hc'
      cases hc'
      exact hlt
    | some prev =>
      rw [hprev] at hc'
      cases hc'
      exact max_lt (h.groups group prev hprev) hlt
  · exact h.groups group' c hc'

theorem ackLocked (hconsumer : r.consumers group = some ⟨u, t⟩) (ids : List MessageId) :
    (t.ackLocked ids).nextReadOffset ≤ r.writer.nextOffset ∧
      ∀ p ∈ (t.ackLocked ids).pending, p.memo.offset < r.writer.nextOffset := by
  obtain ⟨hcursor, hpending⟩ := h.consumers group _ hconsumer
  refine ⟨hcursor, fun p hp => ?_⟩
  obtain ⟨q, hq, hmemo, -⟩ := InFlight.mem_ackLocked hp
  rw [hmemo]
  exact hpending q hq

/-- The counter is raised. -/
theorem reserve (hnext : r.writer.nextOffset + 1 < 2 ^ 64) :
    ({ r with writer := { r.writer with nextOffset := r.writer.nextOffset + 1 } } : Running).Sound :=
  have hlt : r.writer.nextOffset < r.writer.nextOffset + 1 := Nat.lt_succ_self _
  { counter := hnext
    memory := fun e he => ⟨(h.memory e he).1, (h.memory e he).2.trans hlt⟩
    sends := fun offset send hsend => (h.sends offset send hsend).trans hlt
    consumers := fun group k hk => ⟨(h.consumers group k hk).1.trans hlt.le,
      fun p hp => ((h.consumers group k hk).2 p hp).trans hlt⟩
    groups := fun group c hc => (h.groups group c hc).trans hlt }

theorem writeFrame (bytes : Bytes) : ({ r with
    writer := (r.writer.writeFrame bytes r.dir).1
    dir := (r.writer.writeFrame bytes r.dir).2 } : Running).Sound :=
  h.of_eq (by simp) rfl rfl rfl (fun group => by simp [committed])

theorem enqueued {message : Message} {entry : AppendedEntry} {memory : PartitionMemory}
    (hlt : offset < r.writer.nextOffset)
    (henqueue : r.memory.enqueueWithOffset message offset = (.ok entry, memory)) :
    ({ r with memory } : Running).Sound := by
  obtain ⟨-, hpartition, -, hentries⟩ := PartitionMemory.enqueueWithOffset_ok henqueue
  refine { h with memory := fun e he => ?_ }
  have he' : e ∈ (r.memory.entries.insert offset
      (r.memory.entryOf message offset)).entries := hentries ▸ he
  show e.2 = ⟨e.2.message, .new memory.partition 0 e.1, e.1⟩ ∧ _
  rw [hpartition]
  rcases OrdMap.mem_insert.1 he' with rfl | ⟨hold, -⟩
  · exact ⟨rfl, hlt⟩
  · exact h.memory e hold

theorem refused {message message' : Message} {memory : PartitionMemory}
    (henqueue : r.memory.enqueueWithOffset message offset = (.error message', memory)) :
    ({ r with memory } : Running).Sound := by
  obtain ⟨hpartition, -, hentries⟩ := PartitionMemory.enqueueWithOffset_error henqueue
  refine { h with memory := fun e he => ?_ }
  show e.2 = ⟨e.2.message, .new memory.partition 0 e.1, e.1⟩ ∧ _
  rw [hpartition]
  exact h.memory e (hentries ▸ he)

/-- A cursor that starts behind the progress of its group. -/
theorem start_le (group : String) :
    (r.dir.committed group).elim 0 (· + 1) ≤ r.writer.nextOffset := by
  cases hc : r.dir.committed group with
  | none => exact Nat.zero_le _
  | some c => exact h.groups group c hc

theorem moves (hmoves : r.Moves C cfg e r') : r'.Sound := by
  cases hmoves with
  | reserve message hnext => exact (h.reserve hnext).setSend (fun _ => Nat.lt_succ_self _)
  | write offset message hsend =>
    have hlt := h.sends offset _ hsend
    exact ((h.writeFrame (frame offset (C.serialize message))).setSend
      (fun _ => by simpa using hlt)).of_eq rfl rfl rfl rfl (fun _ => rfl)
  | abandon offset => exact h.setSend_none offset
  | enqueue offset segment message entry memory hsend henqueue =>
    have hlt := h.sends offset _ hsend
    exact (h.enqueued hlt henqueue).setSend (fun _ => hlt)
  | full offset segment message message' memory hsend henqueue =>
    exact (h.refused henqueue).setSend_none offset
  | wait offset segment message hsend => exact h.setSend (fun _ => h.sends offset _ hsend)
  | fsync segment answered =>
    refine { h with sends := fun offset send hsend => ?_ }
    -- a send that is there was there before
    cases hold : r.sends offset with
    | none => simp [synced, hold] at hsend
    | some send' => exact h.sends offset send' hold
  | lazyReceipt | strictReceipt =>
    exact (h.setSend_none _).of_eq rfl rfl rfl rfl (fun _ => rfl)
  | subscribe group next hnext =>
    have hregistered : ({ r with dir := r.dir.register group } : Running).Sound :=
      h.of_eq rfl rfl rfl rfl (committed_register r.dir group)
    exact hregistered.setConsumer (hnext ▸ h.start_le group) nofun
  | exhausted group => exact h.of_eq rfl rfl rfl rfl (committed_register r.dir group)
  | poll group maxBatch t t' out hconsumer hpoll =>
    obtain ⟨hcursor, hpending⟩ := h.poll_tracker hconsumer hpoll
    exact (h.setConsumer hcursor hpending).of_eq rfl rfl rfl rfl (fun _ => rfl)
  | pollFailed group maxBatch t t' error hconsumer hpoll =>
    obtain ⟨hcursor, hpending⟩ := h.poll_tracker hconsumer hpoll
    exact h.setConsumer hcursor hpending
  | ackNothing => exact h
  | ackBehind group ids publication t hconsumer hpoint =>
    obtain ⟨hcursor, hpending⟩ := h.ackLocked hconsumer ids
    exact (h.setConsumer hcursor hpending).of_eq rfl rfl rfl rfl (fun _ => rfl)
  | ack group ids t offset hconsumer hpoint =>
    obtain ⟨hcursor, hpending⟩ := h.ackLocked hconsumer ids
    exact ((h.commit hconsumer hpoint).setConsumer hcursor hpending).of_eq rfl rfl rfl rfl
      (fun _ => rfl)
  | ackLost group ids t offset hconsumer hpoint =>
    obtain ⟨hcursor, hpending⟩ := h.consumers group _ hconsumer
    exact ((h.commit hconsumer hpoint).setConsumer (k := ⟨false, t⟩) hcursor hpending).of_eq
      rfl rfl rfl rfl (fun _ => rfl)
  | nack group ids t hconsumer =>
    obtain ⟨hcursor, hpending⟩ := h.consumers group _ hconsumer
    refine h.setConsumer hcursor (fun p hp => ?_)
    obtain ⟨q, hq, hmemo, -⟩ := InFlight.mem_nackLocked hp
    rw [hmemo]
    exact hpending q hq
  | upload | reap =>
    exact h.of_eq rfl rfl rfl rfl (fun group => by simp [committed])

/-! ## A process that starts -/

omit h in
theorem replayPartition_sound (hempty : memory.entries = ∅) (hw : w.nextOffset < 2 ^ 64)
    (h : replayPartition C archiveConfigured dir memory w = .ok (memory', w', dir')) :
    w'.nextOffset < 2 ^ 64 ∧ ∀ e ∈ memory'.entries.entries,
      e.2 = memory'.entryOf e.2.message e.1 ∧ e.1 < w'.nextOffset := by
  obtain ⟨floor, st, hfloor, hloop, rfl, hresume⟩ := replayPartition_ok h
  obtain ⟨hnext, -⟩ := resumeWriter_ok hresume
  have hbound : ∀ n, floor = some n → n < 2 ^ 64 := by
    intro n hn
    revert hfloor
    fun_cases progressFloor dir <;> intro hfloor <;> cases hfloor <;> cases hn
    case case3 top htop hsucc =>
      obtain ⟨hlt, rfl⟩ := checkedSucc_eq_some.1 hsucc
      exact hlt
  have hloops := foldlM_ok_induction (P := fun _ (st : Replay) =>
      (∀ n, st.maxNextOffset = some n → n < 2 ^ 64) ∧ ∀ e ∈ st.memory.entries.entries,
        e.2 = st.memory.entryOf e.2.message e.1 ∧ st.Above e.1) hloop
    ⟨hbound, fun e he => by
      have he' : e ∈ memory.entries.entries := he
      rw [hempty] at he'
      cases he'⟩ (by
      rintro done f st st' ⟨hlt, hentries⟩ hround
      obtain ⟨habove, hkeep⟩ := Replay.above_replayFrame hround
      obtain ⟨message, -, hoffset, hcounter, -, hpartition, -, hcases⟩ := replayFrame_ok hround
      have hentryOf := PartitionMemory.entryOf_congr hpartition
      refine ⟨fun n hn => ?_, fun e he => ?_⟩
      · rw [hcounter] at hn
        cases hmax : st.maxNextOffset with
        | none =>
          rw [hmax] at hn
          cases hn
          exact hoffset
        | some n' =>
          rw [hmax] at hn
          cases hn
          exact max_lt (hlt n' hmax) hoffset
      · rw [hentryOf]
        rcases hcases with hnew | ⟨hold, -⟩
        · rw [hnew] at he
          rcases OrdMap.mem_insert.1 he with rfl | ⟨hin, -⟩
          · exact ⟨rfl, habove⟩
          · exact ⟨(hentries e hin).1, hkeep _ (hentries e hin).2⟩
        · rw [hold] at he
          exact ⟨(hentries e he).1, hkeep _ (hentries e he).2⟩)
  refine ⟨?_, fun e he => ⟨(hloops.2 e he).1, ?_⟩⟩
  · rw [hnext]
    cases hmax : st.maxNextOffset with
    | none => exact hw
    | some n => exact hloops.1 n hmax
  · obtain ⟨n, hn, hlt⟩ := (hloops.2 e he).2
    rw [hnext, hn]
    exact hlt

end Running.Sound

theorem PartitionDiskWriter.openOn_cases (rotationBytes : Nat) (dir : PartitionDir) :
    (openOn rotationBytes dir).1.nextOffset = 0 ∧ ((openOn rotationBytes dir).2 = dir ∧
        (∃ file, dir.segments.entries.getLast? =
          some ((openOn rotationBytes dir).1.activeSegmentId, file)) ∨
      dir.segments.entries = [] ∧ (openOn rotationBytes dir).1.activeSegmentId = 0 ∧
        (openOn rotationBytes dir).2 = dir.append 0 []) := by
  unfold openOn
  cases hlast : dir.segments.entries.getLast? with
  | none => exact ⟨rfl, .inr ⟨List.getLast?_eq_none_iff.1 hlast, rfl, rfl⟩⟩
  | some e => exact ⟨rfl, .inl ⟨rfl, e.2, rfl⟩⟩

variable {C : MessageCodec} {cfg : TopicConfig} {history : History} {r : Running}

theorem reopenPartition_ok (h : reopenPartition C cfg dir history = .ok r) :
    replayPartition C cfg.archiveConfigured (openOn cfg.rotationBytes dir).2
        (.new cfg.partition cfg.memoryCapacity) (openOn cfg.rotationBytes dir).1 =
          .ok (r.memory, r.writer, r.dir) ∧
      r.sends = (fun _ => none) ∧ r.consumers = (fun _ => none) ∧ r.history = history := by
  unfold reopenPartition at h
  cases hreplay : replayPartition C cfg.archiveConfigured (openPartition cfg dir history).dir
      (openPartition cfg dir history).memory (openPartition cfg dir history).writer with
  | error e =>
    simp only [hreplay, bind, Except.bind] at h
    cases h
  | ok p =>
    simp only [hreplay, bind, Except.bind] at h
    cases h
    exact ⟨hreplay, rfl, rfl, rfl⟩

theorem PartitionDiskWriter.groups_openOn (rotationBytes : Nat) (dir : PartitionDir) :
    (openOn rotationBytes dir).2.groups = dir.groups := by
  rcases (openOn_cases rotationBytes dir).2 with ⟨h, -⟩ | ⟨-, -, h⟩
  · rw [h]
  · rw [h]
    rfl

/-- The directory behind a replay is the one that was read, but for files that were touched. -/
theorem replayPartition_groups
    (h : replayPartition C archiveConfigured dir memory w = .ok (memory', w', dir')) :
    dir'.groups = dir.groups := by
  obtain ⟨floor, st, -, -, -, hresume⟩ := replayPartition_ok h
  rcases (resumeWriter_ok hresume).2 with ⟨-, hdir, -⟩ | ⟨id, -, -, -, hdir⟩
  · rw [hdir]
  · rw [hdir]
    rfl

theorem sound_reopenPartition (h : reopenPartition C cfg dir history = .ok r) : r.Sound := by
  obtain ⟨hreplay, hsends, hconsumers, -⟩ := reopenPartition_ok h
  have hzero := (openOn_cases cfg.rotationBytes dir).1
  obtain ⟨hcounter, hmemory⟩ := Running.Sound.replayPartition_sound rfl
    (by rw [hzero]; decide) hreplay
  obtain ⟨-, hgroups⟩ := replayPartition_above hreplay
  refine ⟨hcounter, hmemory, fun offset send hsend => ?_, fun group k hk => ?_, fun group c hc => ?_⟩
  · rw [hsends] at hsend
    cases hsend
  · rw [hconsumers] at hk
    cases hk
  · refine hgroups group c ?_
    unfold committed at hc ⊢
    rw [← replayPartition_groups hreplay]
    exact hc

theorem sound_openPartition (cfg : TopicConfig) : (openPartition cfg {} {}).Sound := by
  refine ⟨?_, fun e he => ?_, fun offset send hsend => ?_, fun group k hk => ?_, fun group c hc => ?_⟩
  · show 0 < 2 ^ 64
    decide
  · cases he
  · cases hsend
  · cases hk
  · cases hc

/-- Whatever the directory holds, once it is replayed the counter stays above every offset that is
    in memory, on its way, read or committed. -/
theorem reopened_stays_sound (h : reopenPartition C cfg dir history = .ok r)
    {es : List SessionEvent} {r' : Running} (hrun : play (Running.step C cfg) r es = some r') :
    r'.Sound :=
  play_invariant (fun _ _ _ hs hstep => hs.moves (Running.moves_of_step hstep))
    (sound_reopenPartition h) hrun

/-- A directory with one message in its first segment. -/
def oneMessage : PartitionDir :=
  ({} : PartitionDir).append 0 (frame 0 (plainCodec.serialize (note [0])))

/-- The message is replayed, and the next one is sent behind it. -/
theorem reopened_stays_sound_sent : ∃ r r',
    reopenPartition plainCodec onePartition oneMessage {} = .ok r ∧
      play (Running.step plainCodec onePartition) r [.reserve (note [1]), .write 1, .enqueue 1] =
        some r' ∧ r'.writer.nextOffset = 2 ∧ r'.Sound := by
  refine ⟨?_, ?_, ?h, ?hrun, ?_, reopened_stays_sound ?h ?hrun⟩
  case h => rfl
  case hrun => rfl
  · rfl

end ProximaDb.Queue
