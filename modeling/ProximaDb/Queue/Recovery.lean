/-
  ProximaDb.Queue.Recovery

  `replay_partition`: the frames of all segments, local or archived, are read in order of the
  segment ids. Every frame raises the offset counter; a frame that not every group has committed
  goes back into the memory tier.
-/
import ProximaDb.Lib.Traces
import ProximaDb.Queue.DiskTier

namespace ProximaDb.Queue

open ProximaDb.Lib List OrdMap

variable {f : Nat × Nat × Bytes} {C : MessageCodec} {committed : Option Nat}
  {memory : PartitionMemory} {w w' : PartitionDiskWriter}

inductive RecoveryError
  /-- durable progress exhausted offsets -/
  | progressExhausted
  /-- malformed complete frame -/
  | malformedFrame (segment offset : Nat)
  | offsetOverflow (segment offset : Nat)
  /-- memory tier full -/
  | memoryFull (segment replayed : Nat)
  | segmentIdExhausted
  deriving DecidableEq

structure Replay where
  memory : PartitionMemory
  maxNextOffset : Option Nat
  maxRecoveredSegment : Option Nat := none
  replayed : Nat := 0

def replayFrame (C : MessageCodec) (committed : Option Nat) (st : Replay)
    (f : Nat × Nat × Bytes) : Except RecoveryError Replay :=
  match C.deserialize f.2.2 with
  | none => .error (.malformedFrame f.1 f.2.1)
  | some message =>
    match checkedSucc f.2.1 with
    | none => .error (.offsetOverflow f.1 f.2.1)
    | some next =>
      let st : Replay := { st with
        maxNextOffset := some (st.maxNextOffset.elim next (max · next))
        maxRecoveredSegment := some f.1 }
      -- committed by every group
      if committed.any (fun c => decide (f.2.1 ≤ c)) = true then .ok st
      else
        match st.memory.enqueueWithOffset message f.2.1 with
        | (.error _, _) => .error (.memoryFull f.1 st.replayed)
        | (.ok _, memory) => .ok { st with memory, replayed := st.replayed + 1 }

/-- The bytes a segment is replayed from: a local copy, unless it is an empty placeholder of an
    archived one. -/
def segmentBytes : Option SegmentFile × Option Bytes → Bytes
  | (some file, archived) => if file.bytes = [] then archived.getD [] else file.bytes
  | (none, archived) => archived.getD []

namespace PartitionDir

def archived (dir : PartitionDir) (archiveConfigured : Bool) : OrdMap Nat Bytes :=
  if archiveConfigured then dir.archive else ∅

/-- The segments a replay reads, in order of their ids. -/
def replayed (dir : PartitionDir) (archiveConfigured : Bool) : OrdMap Nat Bytes :=
  (dir.segments.beside (dir.archived archiveConfigured)).map (fun _ copies => segmentBytes copies)

def replayedFrames (dir : PartitionDir) (archiveConfigured : Bool) : List (Nat × Nat × Bytes) :=
  (dir.replayed archiveConfigured).entries.flatMap (fun e => (frames e.2).map (fun f => (e.1, f)))

end PartitionDir

/-- The counter that group progress alone asks for. -/
def progressFloor (dir : PartitionDir) : Except RecoveryError (Option Nat) :=
  match dir.maxCommitted with
  | none => .ok none
  | some top =>
    match checkedSucc top with
    | none => .error .progressExhausted
    | some next => .ok (some next)

/-- The writer after a replay: behind every recovered segment and offset. -/
def resumeWriter (w : PartitionDiskWriter) (dir : PartitionDir) (st : Replay) :
    Except RecoveryError (PartitionDiskWriter × PartitionDir) :=
  let counted (p : PartitionDiskWriter × PartitionDir) : PartitionDiskWriter × PartitionDir :=
    (st.maxNextOffset.elim p.1 p.1.setNextOffset, p.2)
  match st.maxRecoveredSegment with
  | none => .ok (counted (w, dir))
  | some id =>
    match w.advancePastRecoveredSegment id dir with
    | none => .error .segmentIdExhausted
    | some p => .ok (counted p)

def replayPartition (C : MessageCodec) (archiveConfigured : Bool) (dir : PartitionDir)
    (memory : PartitionMemory) (w : PartitionDiskWriter) :
    Except RecoveryError (PartitionMemory × PartitionDiskWriter × PartitionDir) := do
  let floor ← progressFloor dir
  let st ← (dir.replayedFrames archiveConfigured).foldlM (replayFrame C dir.minCommitted)
    { memory, maxNextOffset := floor }
  let resumed ← resumeWriter w dir st
  .ok (st.memory, resumed)

/-! ## Frames that are replayed -/

section Frames

variable {dir : PartitionDir} {archiveConfigured : Bool} {id : Nat}

theorem mem_replayed_of_frame {f : Nat × Bytes} (h : f ∈ frames (segmentBytes
      (dir.segments.get? id, (dir.archived archiveConfigured).get? id))) :
    (id, f) ∈ dir.replayedFrames archiveConfigured := by
  refine mem_flatMap.2 ⟨(id, segmentBytes (dir.segments.get? id, _)), OrdMap.mem_map.2
    ⟨_, get?_eq_some.1 ?_, rfl⟩, mem_map.2 ⟨f, h, rfl⟩⟩
  rw [OrdMap.get?_beside, if_neg]
  rintro ⟨hlocal, harchive⟩
  rw [Option.isNone_iff_eq_none.1 hlocal, Option.isNone_iff_eq_none.1 harchive] at h
  cases h

theorem mem_replayedFrames {f : Nat × Bytes}
    (h : (id, f) ∈ dir.replayedFrames archiveConfigured) : f ∈ frames (segmentBytes
      (dir.segments.get? id, (dir.archived archiveConfigured).get? id)) := by
  obtain ⟨⟨id', bytes⟩, hmem, hf⟩ := mem_flatMap.1 h
  obtain ⟨f', hf', heq⟩ := mem_map.1 hf
  cases heq
  obtain ⟨copies, hcopies, rfl⟩ := OrdMap.mem_map.1 hmem
  have hget := get?_eq_some.2 hcopies
  rw [get?_beside] at hget
  split_ifs at hget
  cases hget
  exact hf'

end Frames

/-! ## What a replay leaves -/

def Replay.Above (st : Replay) (offset : Nat) : Prop := ∃ n, st.maxNextOffset = some n ∧ offset < n

variable {st : Replay} {st' : Replay}

theorem replayFrame_ok (h : replayFrame C committed st f = .ok st') :
    ∃ message, C.deserialize f.2.2 = some message ∧ f.2.1 + 1 < 2 ^ 64 ∧
      st'.maxNextOffset = some (st.maxNextOffset.elim (f.2.1 + 1) (max · (f.2.1 + 1))) ∧
      st'.maxRecoveredSegment = some f.1 ∧ st'.memory.partition = st.memory.partition ∧
      st'.memory.capacity = st.memory.capacity ∧
      (st'.memory.entries = st.memory.entries.insert f.2.1 (st.memory.entryOf message f.2.1) ∨
        st'.memory.entries = st.memory.entries ∧ ∃ c, committed = some c ∧ f.2.1 ≤ c) := by
  revert h
  fun_cases replayFrame C committed st f <;> intro h <;> try cases h
  case case3 message hmessage next hnext st hskip =>
    rw [← Except.ok.inj h]
    obtain ⟨hlt, rfl⟩ := checkedSucc_eq_some.1 hnext
    obtain ⟨c, hc, hle⟩ := (Option.any_eq_true _ _).1 hskip
    exact ⟨message, hmessage, hlt, rfl, rfl, rfl, rfl, .inr ⟨rfl, c, hc, of_decide_eq_true hle⟩⟩
  case case5 message hmessage next hnext st hskip entry memory henq =>
    obtain ⟨hlt, rfl⟩ := checkedSucc_eq_some.1 hnext
    obtain ⟨-, hpart, hcap, hentries⟩ := PartitionMemory.enqueueWithOffset_ok henq
    exact ⟨message, hmessage, hlt, rfl, rfl, hpart, hcap, .inl hentries⟩

/-- Taking a frame keeps the counter above what it was above, and puts it above the frame. -/
theorem Replay.above_replayFrame (h : replayFrame C committed st f = .ok st') :
    st'.Above f.2.1 ∧ ∀ offset, st.Above offset → st'.Above offset := by
  obtain ⟨-, -, -, hnext, -⟩ := replayFrame_ok h
  refine ⟨⟨_, hnext, ?_⟩, fun offset ⟨n, hn, hlt⟩ => ⟨_, hnext, ?_⟩⟩
  · cases st.maxNextOffset with
    | none => exact Nat.lt_succ_self _
    | some n => exact lt_of_lt_of_le (Nat.lt_succ_self _) (Nat.le_max_right _ _)
  · rw [hn]
    exact lt_of_lt_of_le hlt (Nat.le_max_left _ _)

variable {dir : PartitionDir}

theorem progressFloor_ok {floor : Option Nat}
    (h : progressFloor dir = .ok floor) {group : String} {c : Nat}
    (hc : dir.committed group = some c) : ∃ n, floor = some n ∧ c < n := by
  obtain ⟨top, htop, hle⟩ := PartitionDir.le_maxCommitted hc
  unfold progressFloor at h
  rw [htop] at h
  dsimp only at h
  split at h
  · cases h
  · rename_i next hnext
    cases h
    obtain ⟨-, rfl⟩ := checkedSucc_eq_some.1 hnext
    exact ⟨top + 1, rfl, Nat.lt_succ_of_le hle⟩

variable {archiveConfigured : Bool} {dir dir' : PartitionDir} {memory' : PartitionMemory}
  {message : Message}

theorem replayPartition_ok
    (h : replayPartition C archiveConfigured dir memory w = .ok (memory', w', dir')) :
    ∃ floor st, progressFloor dir = .ok floor ∧
      (dir.replayedFrames archiveConfigured).foldlM (replayFrame C dir.minCommitted)
        { memory, maxNextOffset := floor } = .ok st ∧
      st.memory = memory' ∧ resumeWriter w dir st = .ok (w', dir') := by
  obtain ⟨floor, hfloor, h⟩ := exists_of_bind_ok h
  obtain ⟨st, hloop, h⟩ := exists_of_bind_ok h
  obtain ⟨resumed, hresume, h⟩ := exists_of_bind_ok h
  cases h
  exact ⟨floor, st, hfloor, hloop, rfl, hresume⟩

/-- The writer resumes with the replay's counter, on the segment it had or on a new one. -/
theorem resumeWriter_ok (h : resumeWriter w dir st = .ok (w', dir')) :
    w'.nextOffset = st.maxNextOffset.getD w.nextOffset ∧
      ((w'.activeSegmentId = w.activeSegmentId ∧ dir' = dir ∧
          ∀ id, st.maxRecoveredSegment = some id → id < w.activeSegmentId) ∨
        ∃ id, st.maxRecoveredSegment = some id ∧ w.activeSegmentId ≤ id ∧
          w'.activeSegmentId = id + 1 ∧ dir' = dir.append (id + 1) []) := by
  have hcounted : ∀ u : PartitionDiskWriter,
      (st.maxNextOffset.elim u u.setNextOffset).nextOffset = st.maxNextOffset.getD u.nextOffset ∧
        (st.maxNextOffset.elim u u.setNextOffset).activeSegmentId = u.activeSegmentId := by
    intro u
    cases st.maxNextOffset with
    | none | some => exact ⟨rfl, rfl⟩
  unfold resumeWriter at h
  cases hseg : st.maxRecoveredSegment with
  | none =>
    simp only [hseg] at h
    cases h
    exact ⟨(hcounted w).1, .inl ⟨(hcounted w).2, rfl, nofun⟩⟩
  | some id =>
    simp only [hseg] at h
    unfold PartitionDiskWriter.advancePastRecoveredSegment at h
    split_ifs at h with hlt
    · cases h
      refine ⟨(hcounted w).1, .inl ⟨(hcounted w).2, rfl, fun id' hid' => ?_⟩⟩
      cases hid'
      exact hlt
    · cases hnext : checkedSucc id with
      | none => simp [hnext] at h
      | some next =>
        rw [hnext] at h
        obtain ⟨-, rfl⟩ := checkedSucc_eq_some.1 hnext
        cases h
        refine ⟨(hcounted _).1, .inr ⟨id, rfl, Nat.le_of_not_lt hlt, (hcounted _).2, rfl⟩⟩

/-- After a replay the counter is above every frame that was read and above the progress of every
    group. -/
theorem replayPartition_above
    (h : replayPartition C archiveConfigured dir memory w = .ok (memory', w', dir')) :
    (∀ f ∈ dir.replayedFrames archiveConfigured, f.2.1 < w'.nextOffset) ∧
      ∀ group c, dir.committed group = some c → c < w'.nextOffset := by
  obtain ⟨floor, st, hfloor, hloop, -, hresume⟩ := replayPartition_ok h
  obtain ⟨hnext, -⟩ := resumeWriter_ok hresume
  have habove := foldlM_ok_induction (P := fun done (st : Replay) =>
      (∀ f ∈ done, st.Above f.2.1) ∧ ∀ group c, dir.committed group = some c → st.Above c)
    hloop ⟨nofun, fun group c hc => progressFloor_ok hfloor hc⟩ (by
      rintro done f c c' ⟨hdone, hgroups⟩ hround
      obtain ⟨hf, hkeep⟩ := Replay.above_replayFrame hround
      refine ⟨fun f' hf' => ?_, fun group k hk => hkeep k (hgroups group k hk)⟩
      rcases mem_append.1 hf' with hold | hnew
      · exact hkeep _ (hdone f' hold)
      · rw [mem_singleton.1 hnew]
        exact hf)
  have hlt : ∀ offset, st.Above offset → offset < w'.nextOffset := by
    rintro offset ⟨n, hn, hlt⟩
    rw [hnext, hn]
    exact hlt
  exact ⟨fun f hf => hlt _ (habove.1 f hf), fun group c hc => hlt _ (habove.2 group c hc)⟩

/-! ## A replay that goes through -/

/-- A frame that decodes, with an offset that has a successor, is taken while there is room. -/
theorem replayFrame_accepts (committed : Option Nat)
    (hmessage : C.deserialize f.2.2 = some message) (hoffset : f.2.1 + 1 < 2 ^ 64)
    (hroom : st.memory.entries.entries.length < st.memory.capacity) :
    ∃ st', replayFrame C committed st f = .ok st' := by
  unfold replayFrame
  rw [hmessage, checkedSucc_eq_some.2 ⟨hoffset, rfl⟩]
  dsimp only
  split_ifs with hskip
  · exact ⟨_, rfl⟩
  · obtain ⟨entry, memory, henqueue⟩ := PartitionMemory.enqueueWithOffset_accepts message hroom hoffset
    rw [henqueue]
    exact ⟨_, rfl⟩

/-- The replay so far: the memory tier holds the messages of the frames that were read and not
    skipped, and no others. -/
structure Replayed (C : MessageCodec) (committed : Option Nat) (memory : PartitionMemory)
    (done : List (Nat × Nat × Bytes)) (st : Replay) : Prop where
  partition : st.memory.partition = memory.partition
  capacity : st.memory.capacity = memory.capacity
  size : st.memory.entries.entries.length ≤ done.length
  kept : ∀ f ∈ done, ∀ m, f.2.2 = C.serialize m → (∀ c, committed = some c → c < f.2.1) →
    (f.2.1, memory.entryOf m f.2.1) ∈ st.memory.entries.entries
  only : ∀ e ∈ st.memory.entries.entries, ∃ f ∈ done, ∃ m, f.2.2 = C.serialize m ∧
    e = (f.2.1, memory.entryOf m f.2.1)
  segment : ∀ id, st.maxRecoveredSegment = some id → ∃ f ∈ done, f.1 = id

theorem Replayed.step {done : List (Nat × Nat × Bytes)}
    (h : Replayed C committed memory done st) (hmessage : f.2.2 = C.serialize message)
    (hunique : ∀ f' ∈ done, f'.2.1 = f.2.1 → f'.2.2 = f.2.2)
    (hround : replayFrame C committed st f = .ok st') :
    Replayed C committed memory (done ++ [f]) st' := by
  obtain ⟨message', hdecoded, -, -, hsegment, hpartition, hcapacity, hentries⟩ := replayFrame_ok hround
  rw [hmessage, C.deserialize_serialize] at hdecoded
  cases hdecoded
  have hentryOf := PartitionMemory.entryOf_congr h.partition
  refine ⟨hpartition.trans h.partition, hcapacity.trans h.capacity, ?_, ?_, ?_, ?_⟩
  · rw [length_append, length_singleton]
    rcases hentries with hnew | ⟨hold, -⟩
    · rw [hnew]
      exact (length_insert_le _ _ _).trans (Nat.succ_le_succ h.size)
    · rw [hold]
      exact h.size.trans (Nat.le_succ _)
  · intro f' hf' m hm habove
    rcases hentries with hnew | ⟨hold, c, hc, hle⟩
    · rw [hnew, hentryOf]
      by_cases hoffset : f'.2.1 = f.2.1
      · -- the frame itself, or one with its offset and so with its message
        have hpayload : f'.2.2 = f.2.2 := by
          rcases mem_append.1 hf' with hin | hin
          · exact hunique f' hin hoffset
          · rw [mem_singleton.1 hin]
        have hsame : m = message := C.serialize_inj (hm.symm.trans (hpayload.trans hmessage))
        rw [hsame, hoffset]
        exact mem_insert.2 (.inl rfl)
      · rcases mem_append.1 hf' with hin | hin
        · exact mem_insert.2 (.inr ⟨h.kept f' hin m hm habove, hoffset⟩)
        · rw [mem_singleton.1 hin] at hoffset
          exact absurd rfl hoffset
    · rw [hold]
      rcases mem_append.1 hf' with hin | hin
      · exact h.kept f' hin m hm habove
      · rw [mem_singleton.1 hin] at habove
        exact absurd hle (Nat.not_le.2 (habove c hc))
  · intro e he
    have hbefore : e ∈ st.memory.entries.entries → ∃ f' ∈ done ++ [f], ∃ m,
        f'.2.2 = C.serialize m ∧ e = (f'.2.1, memory.entryOf m f'.2.1) := by
      intro hin
      obtain ⟨f', hf', hrest⟩ := h.only e hin
      exact ⟨f', mem_append_left _ hf', hrest⟩
    rcases hentries with hnew | ⟨hold, -⟩
    · rw [hnew, hentryOf] at he
      rcases mem_insert.1 he with heq | ⟨hin, -⟩
      · exact ⟨f, mem_append_right _ mem_cons_self, message, hmessage, heq⟩
      · exact hbefore hin
    · rw [hold] at he
      exact hbefore he
  · intro id hid
    rw [hsegment] at hid
    exact ⟨f, mem_append_right _ mem_cons_self, Option.some.inj hid⟩

/-- Frames that are all messages, with one payload for each offset, are replayed if there is room
    for them. -/
theorem replayFrames_ok (committed floor : Option Nat) (hempty : memory.entries = ∅)
    {l : List (Nat × Nat × Bytes)} (hmessages : ∀ f ∈ l, ∃ m, f.2.2 = C.serialize m)
    (hoffsets : ∀ f ∈ l, f.2.1 + 1 < 2 ^ 64)
    (hunique : ∀ f ∈ l, ∀ f' ∈ l, f.2.1 = f'.2.1 → f.2.2 = f'.2.2)
    (hroom : l.length ≤ memory.capacity) :
    ∃ st, l.foldlM (replayFrame C committed) { memory, maxNextOffset := floor } = .ok st ∧
      Replayed C committed memory l st := by
  refine foldlM_ok_of_step (P := Replayed C committed memory) ?_ ?_
  · refine ⟨rfl, rfl, ?_, nofun, ?_, nofun⟩
    · rw [hempty]
      exact Nat.le_refl _
    · intro e he
      have he' : e ∈ memory.entries.entries := he
      rw [hempty] at he'
      cases he'
  · intro done f rest st hl hst
    have hf : f ∈ l := hl ▸ mem_append_right _ mem_cons_self
    obtain ⟨message, hmessage⟩ := hmessages f hf
    have hlength : done.length < l.length := by
      rw [hl, length_append, length_cons]
      omega
    have hfree : st.memory.entries.entries.length < st.memory.capacity := by
      rw [hst.capacity]
      exact lt_of_le_of_lt hst.size (lt_of_lt_of_le hlength hroom)
    obtain ⟨st', hround⟩ := replayFrame_accepts committed
      (hmessage ▸ C.deserialize_serialize message) (hoffsets f hf) hfree
    exact ⟨st', hround, hst.step hmessage (fun f' hf' =>
      hunique f' (hl ▸ mem_append_left _ hf') f hf) hround⟩

theorem resumeWriter_accepts (dir : PartitionDir)
    (h : ∀ id, st.maxRecoveredSegment = some id → id + 1 < 2 ^ 64) :
    ∃ p, resumeWriter w dir st = .ok p := by
  unfold resumeWriter
  cases hsegment : st.maxRecoveredSegment with
  | none => exact ⟨_, rfl⟩
  | some id =>
    dsimp only
    unfold PartitionDiskWriter.advancePastRecoveredSegment
    rw [checkedSucc_eq_some.2 ⟨h id hsegment, rfl⟩]
    split_ifs
    · exact ⟨_, rfl⟩
    · exact ⟨_, rfl⟩

theorem progressFloor_accepts (h : ∀ group c, dir.committed group = some c → c + 1 < 2 ^ 64) :
    ∃ floor, progressFloor dir = .ok floor := by
  unfold progressFloor
  cases htop : dir.maxCommitted with
  | none => exact ⟨_, rfl⟩
  | some top =>
    obtain ⟨value, hvalue, hid⟩ := mem_filterMap.1 (max?_eq_some_iff.1 htop).1
    obtain rfl : value = some top := hid
    obtain ⟨group, hgroup⟩ := PartitionDir.mem_progress.1 hvalue
    simp only [checkedSucc_eq_some.2 ⟨h group top hgroup, rfl⟩]
    exact ⟨_, rfl⟩

/-- A replay goes through if its frames are messages, with one payload for each offset, and neither
    offsets, segment ids nor the memory tier run out. -/
theorem replayPartition_accepts (w : PartitionDiskWriter) (hempty : memory.entries = ∅)
    (hprogress : ∀ group c, dir.committed group = some c → c + 1 < 2 ^ 64)
    (hmessages : ∀ f ∈ dir.replayedFrames archiveConfigured, ∃ m, f.2.2 = C.serialize m)
    (hoffsets : ∀ f ∈ dir.replayedFrames archiveConfigured, f.2.1 + 1 < 2 ^ 64)
    (hunique : ∀ f ∈ dir.replayedFrames archiveConfigured,
      ∀ f' ∈ dir.replayedFrames archiveConfigured, f.2.1 = f'.2.1 → f.2.2 = f'.2.2)
    (hroom : (dir.replayedFrames archiveConfigured).length ≤ memory.capacity)
    (hids : ∀ f ∈ dir.replayedFrames archiveConfigured, f.1 + 1 < 2 ^ 64) :
    ∃ st p, replayPartition C archiveConfigured dir memory w = .ok (st.memory, p) ∧
      Replayed C dir.minCommitted memory (dir.replayedFrames archiveConfigured) st := by
  obtain ⟨floor, hfloor⟩ := progressFloor_accepts hprogress
  obtain ⟨st, hloop, hst⟩ := replayFrames_ok dir.minCommitted floor hempty hmessages hoffsets
    hunique hroom
  obtain ⟨p, hresume⟩ := @resumeWriter_accepts w st dir (fun id hid => by
    obtain ⟨f, hf, rfl⟩ := hst.segment id hid
    exact hids f hf)
  refine ⟨st, p, ?_, hst⟩
  unfold replayPartition
  simp only [hfloor, bind, Except.bind, hloop, hresume]

end ProximaDb.Queue
