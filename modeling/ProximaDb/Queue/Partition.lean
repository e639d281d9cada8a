/-
  ProximaDb.Queue.Partition

  One partition of a topic as a machine, and the frames of its segments: a segment `Holds` the
  whole frames at the front of its file, and `Keeps` those within its synced bytes.
-/
import ProximaDb.Queue.Consumer
import ProximaDb.Queue.Recovery

namespace ProximaDb.Queue

open ProximaDb.Lib OrdMap Function

structure TopicConfig where
  partition : Nat
  memoryCapacity : Nat
  rotationBytes : Nat
  archiveConfigured : Bool
  deriving DecidableEq

/-! ## The running process -/

/-- How far a send is; a written one knows its segment. -/
inductive SendStage
  | reserved
  | written (segment : Nat)
  | enqueued (segment : Nat)
  | waiting (segment : Nat)
  | synced
  deriving DecidableEq

structure Send where
  message : Message
  stage : SendStage
  deriving DecidableEq

/-- The consumer that owns the lease of a group. -/
structure Consumer where
  usable : Bool
  tracker : InFlight
  deriving DecidableEq

structure History where
  /-- every frame written, with its offset -/
  given : List (Nat × Message) := []
  /-- every receipt; the flag says that the send waited for the sync (`Strict`) -/
  receipts : List (Nat × Message × Bool) := []
  delivered : String → List Delivery := fun _ => []
  acked : String → List MessageId := fun _ => []

structure Running where
  dir : PartitionDir
  writer : PartitionDiskWriter
  memory : PartitionMemory
  /-- the sends that have not returned, by their offset -/
  sends : Nat → Option Send := fun _ => none
  consumers : String → Option Consumer := fun _ => none
  history : History := {}

/-- How the publication of a committed offset ends: it takes effect, or it does not, or it takes
    effect and an error is reported. -/
inductive Publication
  | done
  | refused
  | lost
  deriving DecidableEq

inductive SessionEvent
  | reserve (message : Message)
  | write (offset : Nat)
  | abandon (offset : Nat)
  | enqueue (offset : Nat)
  | waitForFsync (offset : Nat)
  | fsync (segment : Nat) (answered : List Nat)
  | receipt (offset : Nat)
  | subscribe (group : String)
  | poll (group : String) (maxBatch : Nat)
  | ack (group : String) (ids : List MessageId) (publication : Publication)
  | nack (group : String) (ids : List MessageId)
  | upload (segment : Nat)
  | reap (segment : Nat)
  deriving DecidableEq

namespace Running

variable (C : MessageCodec) (cfg : TopicConfig) (r : Running)

def setSend (r : Running) (offset : Nat) (send : Option Send) : Running :=
  { r with sends := Function.update r.sends offset send }

def setConsumer (r : Running) (group : String) (consumer : Consumer) : Running :=
  { r with consumers := Function.update r.consumers group (some consumer) }

@[simp] theorem sends_setSend (offset : Nat) (send : Option Send) (offset' : Nat) :
    (r.setSend offset send).sends offset' = if offset' = offset then send else r.sends offset' :=
  update_apply _ _ _ _

@[simp] theorem consumers_setConsumer (group : String) (consumer : Consumer)
    (group' : String) : (r.setConsumer group consumer).consumers group' =
      if group' = group then some consumer else r.consumers group' :=
  update_apply _ _ _ _

theorem consumers_setConsumer_self (group : String) (consumer : Consumer) :
    (r.setConsumer group consumer).consumers group = some consumer :=
  (consumers_setConsumer r group consumer group).trans (if_pos rfl)

/-- The frame of a reserved message is written. -/
def written (r : Running) (offset : Nat) (message : Message) : Running :=
  let wd := r.writer.writeFrame (frame offset (C.serialize message)) r.dir
  { r with
    writer := wd.1
    dir := wd.2
    sends := Function.update r.sends offset (some ⟨message, .written wd.1.activeSegmentId⟩)
    history := { r.history with given := r.history.given ++ [(offset, message)] } }

/-- The batch fsync of a segment answers some of the sends that wait for it. -/
def synced (r : Running) (segment : Nat) (answered : List Nat) : Running :=
  { r with
    dir := r.dir.fsync segment
    sends := fun offset =>
      match r.sends offset with
      | some ⟨message, .waiting s⟩ =>
        if s = segment ∧ offset ∈ answered then some ⟨message, .synced⟩
        else some ⟨message, .waiting s⟩
      | send => send }

def receipted (r : Running) (offset : Nat) (message : Message) (strict : Bool) : Running :=
  { r.setSend offset none with
    history := { r.history with receipts := r.history.receipts ++ [(offset, message, strict)] } }

def deliver (r : Running) (group : String) (out : List Delivery) : Running :=
  { r with history := { r.history with
      delivered := Function.update r.history.delivered group (r.history.delivered group ++ out) } }

/-- An acknowledgement that names these deliveries is made. -/
def acknowledge (r : Running) (group : String) (t : InFlight) (ids : List MessageId) : Running :=
  let named := (t.pending.map (fun p => p.memo.messageId)).filter (fun id => decide (id ∈ ids))
  { r with history := { r.history with
      acked := Function.update r.history.acked group (r.history.acked group ++ named) } }

@[simp] theorem delivered_deliver (group : String) (out : List Delivery)
    (group' : String) : (r.deliver group out).history.delivered group' =
      if group' = group then r.history.delivered group ++ out else r.history.delivered group' :=
  update_apply _ _ _ _

@[simp] theorem acked_acknowledge (group : String) (t : InFlight)
    (ids : List MessageId) (group' : String) : (r.acknowledge group t ids).history.acked group' =
      if group' = group then r.history.acked group ++
        (t.pending.map (fun p => p.memo.messageId)).filter (fun id => decide (id ∈ ids))
      else r.history.acked group' :=
  update_apply _ _ _ _

@[simp] theorem consumers_deliver (group : String) (out : List Delivery) :
    (r.deliver group out).consumers = r.consumers := rfl

@[simp] theorem consumers_acknowledge (group : String) (t : InFlight)
    (ids : List MessageId) : (r.acknowledge group t ids).consumers = r.consumers := rfl

def step (r : Running) : SessionEvent → Option Running
  | .reserve message =>
    r.writer.reserve.map (fun p =>
      ({ r with writer := p.2 } : Running).setSend p.1 (some ⟨message, .reserved⟩))
  | .write offset =>
    match r.sends offset with
    | some ⟨message, .reserved⟩ => some (r.written C offset message)
    | _ => none
  | .abandon offset => (r.sends offset).map (fun _ => r.setSend offset none)
  | .enqueue offset =>
    match r.sends offset with
    | some ⟨message, .written segment⟩ =>
      match r.memory.enqueueWithOffset message offset with
      | (.ok _, memory) =>
        some (({ r with memory } : Running).setSend offset (some ⟨message, .enqueued segment⟩))
      -- the memory tier is full: the send returns `Backpressure`
      | (.error _, memory) => some (({ r with memory } : Running).setSend offset none)
    | _ => none
  | .waitForFsync offset =>
    match r.sends offset with
    | some ⟨message, .enqueued segment⟩ =>
      some (r.setSend offset (some ⟨message, .waiting segment⟩))
    | _ => none
  | .fsync segment answered => some (r.synced segment answered)
  | .receipt offset =>
    match r.sends offset with
    | some ⟨message, .enqueued _⟩ => some (r.receipted offset message false)
    | some ⟨message, .synced⟩ => some (r.receipted offset message true)
    | _ => none
  | .subscribe group =>
    let r : Running := { r with dir := r.dir.register group }
    match r.dir.committed group with
    | none => some (r.setConsumer group ⟨true, {}⟩)
    | some offset =>
      match checkedSucc offset with
      | none => some r
      | some next => some (r.setConsumer group ⟨true, { nextReadOffset := next }⟩)
  | .poll group maxBatch =>
    match r.consumers group with
    | some ⟨true, t⟩ =>
      match t.pollLocked r.memory maxBatch with
      | (.ok out, t') => some ((r.setConsumer group ⟨true, t'⟩).deliver group out)
      | (.error _, t') => some (r.setConsumer group ⟨true, t'⟩)
    | _ => none
  | .ack group ids publication =>
    match r.consumers group with
    | some ⟨true, t⟩ =>
      if t.names ids = false then some r
      else
        match t.commitPoint ids, publication with
        | none, _ => some ((r.setConsumer group ⟨true, t.ackLocked ids⟩).acknowledge group t ids)
        | some _, .refused => some r
        | some offset, .done =>
          some ((({ r with dir := r.dir.commit group offset } : Running).setConsumer group
            ⟨true, t.ackLocked ids⟩).acknowledge group t ids)
        | some offset, .lost =>
          some ((({ r with dir := r.dir.commit group offset } : Running).setConsumer group
            ⟨false, t⟩).acknowledge group t ids)
    | _ => none
  | .nack group ids =>
    match r.consumers group with
    | some ⟨true, t⟩ => some (r.setConsumer group ⟨true, t.nackLocked ids⟩)
    | _ => none
  | .upload segment =>
    if cfg.archiveConfigured = true ∧ segment < r.writer.activeSegmentId then
      some { r with dir := r.dir.uploadSegment segment }
    else none
  | .reap segment =>
    if segment < r.writer.activeSegmentId then
      some { r with dir := r.dir.maybeReap cfg.archiveConfigured segment }
    else none

end Running

/-! ## What a step can do -/

variable {C : MessageCodec} {cfg : TopicConfig}

/-- The steps of a running process, one case for each way they end. -/
inductive Running.Moves (C : MessageCodec) (cfg : TopicConfig) (r : Running) :
    SessionEvent → Running → Prop
  | reserve (message : Message) (hnext : r.writer.nextOffset + 1 < 2 ^ 64) :
      Moves C cfg r (.reserve message)
        (({ r with writer := { r.writer with nextOffset := r.writer.nextOffset + 1 } } :
          Running).setSend r.writer.nextOffset (some ⟨message, .reserved⟩))
  | write (offset : Nat) (message : Message) (hsend : r.sends offset = some ⟨message, .reserved⟩) :
      Moves C cfg r (.write offset) (r.written C offset message)
  | abandon (offset : Nat) : Moves C cfg r (.abandon offset) (r.setSend offset none)
  | enqueue (offset segment : Nat) (message : Message) (entry : AppendedEntry)
      (memory : PartitionMemory) (hsend : r.sends offset = some ⟨message, .written segment⟩)
      (henqueue : r.memory.enqueueWithOffset message offset = (.ok entry, memory)) :
      Moves C cfg r (.enqueue offset)
        (({ r with memory } : Running).setSend offset (some ⟨message, .enqueued segment⟩))
  | full (offset segment : Nat) (message message' : Message) (memory : PartitionMemory)
      (hsend : r.sends offset = some ⟨message, .written segment⟩)
      (henqueue : r.memory.enqueueWithOffset message offset = (.error message', memory)) :
      Moves C cfg r (.enqueue offset) (({ r with memory } : Running).setSend offset none)
  | wait (offset segment : Nat) (message : Message)
      (hsend : r.sends offset = some ⟨message, .enqueued segment⟩) :
      Moves C cfg r (.waitForFsync offset)
        (r.setSend offset (some ⟨message, .waiting segment⟩))
  | fsync (segment : Nat) (answered : List Nat) :
      Moves C cfg r (.fsync segment answered) (r.synced segment answered)
  | lazyReceipt (offset segment : Nat) (message : Message)
      (hsend : r.sends offset = some ⟨message, .enqueued segment⟩) :
      Moves C cfg r (.receipt offset) (r.receipted offset message false)
  | strictReceipt (offset : Nat) (message : Message)
      (hsend : r.sends offset = some ⟨message, .synced⟩) :
      Moves C cfg r (.receipt offset) (r.receipted offset message true)
  | subscribe (group : String) (next : Nat)
      (hnext : next = (r.dir.committed group).elim 0 (· + 1)) :
      Moves C cfg r (.subscribe group)
        (({ r with dir := r.dir.register group } : Running).setConsumer group
          ⟨true, { nextReadOffset := next }⟩)
  | exhausted (group : String) :
      Moves C cfg r (.subscribe group) { r with dir := r.dir.register group }
  | poll (group : String) (maxBatch : Nat) (t t' : InFlight) (out : List Delivery)
      (hconsumer : r.consumers group = some ⟨true, t⟩)
      (hpoll : t.pollLocked r.memory maxBatch = (.ok out, t')) :
      Moves C cfg r (.poll group maxBatch) ((r.setConsumer group ⟨true, t'⟩).deliver group out)
  | pollFailed (group : String) (maxBatch : Nat) (t t' : InFlight) (error : String)
      (hconsumer : r.consumers group = some ⟨true, t⟩)
      (hpoll : t.pollLocked r.memory maxBatch = (.error error, t')) :
      Moves C cfg r (.poll group maxBatch) (r.setConsumer group ⟨true, t'⟩)
  | ackNothing (group : String) (ids : List MessageId) (publication : Publication) :
      Moves C cfg r (.ack group ids publication) r
  | ackBehind (group : String) (ids : List MessageId) (publication : Publication) (t : InFlight)
      (hconsumer : r.consumers group = some ⟨true, t⟩) (hpoint : t.commitPoint ids = none) :
      Moves C cfg r (.ack group ids publication)
        ((r.setConsumer group ⟨true, t.ackLocked ids⟩).acknowledge group t ids)
  | ack (group : String) (ids : List MessageId) (t : InFlight) (offset : Nat)
      (hconsumer : r.consumers group = some ⟨true, t⟩) (hpoint : t.commitPoint ids = some offset) :
      Moves C cfg r (.ack group ids .done)
        ((({ r with dir := r.dir.commit group offset } : Running).setConsumer group
          ⟨true, t.ackLocked ids⟩).acknowledge group t ids)
  | ackLost (group : String) (ids : List MessageId) (t : InFlight) (offset : Nat)
      (hconsumer : r.consumers group = some ⟨true, t⟩) (hpoint : t.commitPoint ids = some offset) :
      Moves C cfg r (.ack group ids .lost)
        ((({ r with dir := r.dir.commit group offset } : Running).setConsumer group
          ⟨false, t⟩).acknowledge group t ids)
  | nack (group : String) (ids : List MessageId) (t : InFlight)
      (hconsumer : r.consumers group = some ⟨true, t⟩) :
      Moves C cfg r (.nack group ids) (r.setConsumer group ⟨true, t.nackLocked ids⟩)
  | upload (segment : Nat) (harchive : cfg.archiveConfigured = true)
      (hsealed : segment < r.writer.activeSegmentId) :
      Moves C cfg r (.upload segment) { r with dir := r.dir.uploadSegment segment }
  | reap (segment : Nat) (hsealed : segment < r.writer.activeSegmentId) :
      Moves C cfg r (.reap segment)
        { r with dir := r.dir.maybeReap cfg.archiveConfigured segment }

theorem Running.moves_of_step {r r' : Running} {e : SessionEvent}
    (h : r.step C cfg e = some r') : Moves C cfg r e r' := by
  revert h
  -- a branch that gives no state closes with `h`, and one that gives a state is a move
  fun_cases Running.step C cfg r e <;> intro h <;> try cases h
  case case1 message =>
    obtain ⟨p, hp, rfl⟩ := Option.map_eq_some_iff.1 h
    obtain ⟨next, hnext, rfl⟩ := Option.map_eq_some_iff.1 hp
    obtain ⟨hlt, rfl⟩ := checkedSucc_eq_some.1 hnext
    exact .reserve message hlt
  case case2 offset message hsend => exact .write offset message hsend
  case case4 offset =>
    obtain ⟨send, -, rfl⟩ := Option.map_eq_some_iff.1 h
    exact .abandon offset
  case case5 offset message segment hsend entry memory henqueue =>
    exact .enqueue offset segment message entry memory hsend henqueue
  case case6 offset message segment hsend message' memory henqueue =>
    exact .full offset segment message message' memory hsend henqueue
  case case8 offset message segment hsend => exact .wait offset segment message hsend
  case case10 segment answered => exact .fsync segment answered
  case case11 offset message segment hsend => exact .lazyReceipt offset segment message hsend
  case case12 offset message hsend => exact .strictReceipt offset message hsend
  case case14 group _ hnone =>
    rw [PartitionDir.committed_register] at hnone
    exact .subscribe group 0 (by rw [hnone]; rfl)
  case case15 group _ offset hsome _ =>
    rw [← Option.some.inj h]
    exact .exhausted group
  case case16 group _ offset hsome next hnext =>
    rw [PartitionDir.committed_register] at hsome
    obtain ⟨-, rfl⟩ := checkedSucc_eq_some.1 hnext
    exact .subscribe group (offset + 1) (by rw [hsome]; rfl)
  case case17 group maxBatch t hconsumer out t' hpoll =>
    exact .poll group maxBatch t t' out hconsumer hpoll
  case case18 group maxBatch t hconsumer error t' hpoll =>
    exact .pollFailed group maxBatch t t' error hconsumer hpoll
  case case20 group ids publication t _ _ => exact .ackNothing group ids publication
  case case21 group ids publication t hconsumer _ hpoint =>
    exact .ackBehind group ids publication t hconsumer hpoint
  case case22 group ids t _ _ offset _ => exact .ackNothing group ids .refused
  case case23 group ids t hconsumer _ offset hpoint => exact .ack group ids t offset hconsumer hpoint
  case case24 group ids t hconsumer _ offset hpoint =>
    exact .ackLost group ids t offset hconsumer hpoint
  case case26 group ids t hconsumer => exact .nack group ids t hconsumer
  case case28 segment hok => exact .upload segment hok.1 hok.2
  case case30 segment hok => exact .reap segment hok

/-! ## The partition over restarts -/

/-- A partition whose process runs, or whose directory is all there is. -/
inductive Partition
  | running (r : Running)
  | down (dir : PartitionDir) (history : History)

inductive PartitionEvent
  | session (e : SessionEvent)
  /-- the process stops; `keep` says how much of each segment is left behind its synced bytes -/
  | crash (keep : Nat → Nat)
  | shutdown
  /-- open and replay -/
  | reopen
  /-- open without a replay, on first use -/
  | openOnUse

/-- Every segment is cut behind its synced bytes. -/
def PartitionDir.crashed (dir : PartitionDir) (keep : Nat → Nat) : PartitionDir :=
  { dir with segments := dir.segments.map (fun id file =>
      { file with bytes := file.bytes.take (max file.synced (keep id)) }) }

/-- A process that has opened the partition's directory. -/
def openPartition (cfg : TopicConfig) (dir : PartitionDir) (history : History) : Running :=
  let wd := PartitionDiskWriter.openOn cfg.rotationBytes dir
  { dir := wd.2
    writer := wd.1
    memory := .new cfg.partition cfg.memoryCapacity
    history }

/-- A process that has opened and replayed it. -/
def reopenPartition (C : MessageCodec) (cfg : TopicConfig) (dir : PartitionDir)
    (history : History) : Except RecoveryError Running := do
  let r := openPartition cfg dir history
  let (memory, writer, dir) ← replayPartition C cfg.archiveConfigured r.dir r.memory r.writer
  .ok { r with memory, writer, dir }

namespace Partition

def history : Partition → History
  | running r => r.history
  | down _ history => history

def step (C : MessageCodec) (cfg : TopicConfig) : Partition → PartitionEvent → Option Partition
  | running r, .session e => (r.step C cfg e).map running
  | running r, .crash keep => some (down (r.dir.crashed keep) r.history)
  | running r, .shutdown => some (down r.dir r.history)
  | down dir history, .reopen =>
    match reopenPartition C cfg dir history with
    | .ok r => some (running r)
    | .error _ => none
  | down dir history, .openOnUse => some (running (openPartition cfg dir history))
  | _, _ => none

def blank : Partition := down {} {}

/-- What is there of a partition that is not running. -/
def stopped : Partition → Option (PartitionDir × History)
  | running _ => none
  | down dir history => some (dir, history)

theorem of_stopped {s? : Option Partition} {α : Type} {view : PartitionDir × History → α} {a : α}
    (h : (s?.bind stopped).map view = some a) :
    ∃ dir history, s? = some (down dir history) ∧ view (dir, history) = a := by
  obtain ⟨⟨dir, history⟩, hdown, hview⟩ := Option.map_eq_some_iff.1 h
  obtain ⟨s, rfl, hstopped⟩ := Option.bind_eq_some_iff.1 hdown
  cases s with
  | running r => cases hstopped
  | down =>
    cases hstopped
    exact ⟨dir, history, rfl, hview⟩

theorem step_reopen {dir : PartitionDir}
    {history : History} {t : Partition} (h : (down dir history).step C cfg .reopen = some t) :
    ∃ r, reopenPartition C cfg dir history = .ok r ∧ t = running r := by
  simp only [step] at h
  split at h
  · rename_i r hreopen
    cases h
    exact ⟨r, hreopen, rfl⟩
  · cases h

/-- The process of a partition that is running. -/
def process : Partition → Option Running
  | running r => some r
  | down _ _ => none

theorem process_eq_some {s : Partition} {r : Running} (h : s.process = some r) : s = running r := by
  cases s with
  | running r' =>
    cases h
    rfl
  | down => cases h

end Partition

/-! ## A small topic -/

def onePartition : TopicConfig where
  partition := 0
  memoryCapacity := 8
  rotationBytes := 1024 * 1024
  archiveConfigured := false

def note (payload : Bytes) : Message where
  topic := "t"
  tenantId := "a"
  payload
  headers := []
  producedAt := 0
  attemptCount := 0

theorem mem_frames_of_prefix {a b : Bytes} {f : Nat × Bytes} (h : a <+: b) (hf : f ∈ frames a) :
    f ∈ frames b := by
  obtain ⟨rest, rfl⟩ := h
  have hfront := frames_prefix a rest
  exact hfront.subset hf

namespace PartitionDir

variable {dir : PartitionDir} {id segment : Nat} {f : Nat × Bytes} (data : Bytes)

def Holds (dir : PartitionDir) (segment : Nat) (f : Nat × Bytes) : Prop :=
  ∃ file, (segment, file) ∈ dir.segments.entries ∧ f ∈ frames file.bytes

/-- A segment has a frame within its synced bytes. -/
def Keeps (dir : PartitionDir) (segment : Nat) (f : Nat × Bytes) : Prop :=
  ∃ file, (segment, file) ∈ dir.segments.entries ∧ f ∈ frames (file.bytes.take file.synced)

theorem holds_of_keeps (h : dir.Keeps segment f) : dir.Holds segment f := by
  obtain ⟨file, hfile, hf⟩ := h
  exact ⟨file, hfile, mem_frames_of_prefix (List.take_prefix _ _) hf⟩

theorem holds_iff : dir.Holds segment f ↔ f ∈ frames (dir.bytesOf segment) := by
  unfold Holds bytesOf
  cases hfile : dir.segments.get? segment with
  | none =>
    refine ⟨fun ⟨file, hmem, _⟩ => ?_, nofun⟩
    rw [get?_eq_some.2 hmem] at hfile
    cases hfile
  | some file =>
    have hmem := get?_eq_some.1 hfile
    refine ⟨fun ⟨file', hmem', hf⟩ => ?_, fun hf => ⟨file, hmem, hf⟩⟩
    rw [mem_unique hmem' hmem] at hf
    exact hf

/-! ## Appends -/

theorem bytesOf_append (segment : Nat) : (dir.append id data).bytesOf segment =
    if segment = id then dir.bytesOf id ++ data else dir.bytesOf segment := by
  unfold bytesOf append
  rw [get?_insert]
  split_ifs <;> rfl

theorem keeps_append (h : dir.Keeps segment f) : (dir.append id data).Keeps segment f := by
  obtain ⟨file, hfile, hf⟩ := h
  by_cases heq : segment = id
  · subst heq
    refine ⟨_, mem_append.2 (.inl rfl), ?_⟩
    rw [get?_eq_some.2 hfile]
    exact mem_frames_of_prefix (List.IsPrefix.take (List.prefix_append _ _) _) hf
  · exact ⟨file, mem_append.2 (.inr ⟨hfile, heq⟩), hf⟩

theorem holds_append_nil : (dir.append id []).Holds segment f ↔ dir.Holds segment f := by
  rw [holds_iff, holds_iff, bytesOf_append, List.append_nil]
  split_ifs with heq
  · rw [heq]
  · exact Iff.rfl

theorem holds_append_frame (hwhole : tailOf (dir.bytesOf id) = []) {offset : Nat} {payload : Bytes}
    (hfits : FrameFits offset payload) : (dir.append id (frame offset payload)).Holds segment f ↔
      dir.Holds segment f ∨ (segment = id ∧ f = (offset, payload)) := by
  rw [holds_iff, holds_iff, bytesOf_append]
  split_ifs with heq
  · rw [(frames_append_frame hwhole hfits).1, List.mem_append, List.mem_singleton, heq]
    simp
  · simp [heq]

/-! ## Syncs and crashes -/

theorem bytesOf_fsync : (dir.fsync id).bytesOf segment = dir.bytesOf segment := by
  unfold bytesOf fsync
  rw [get?_map]
  cases dir.segments.get? segment with
  | none => rfl
  | some file =>
    split_ifs <;> rfl

theorem holds_fsync : (dir.fsync id).Holds segment f ↔ dir.Holds segment f := by
  rw [holds_iff, holds_iff, bytesOf_fsync]

theorem keeps_fsync_self (h : dir.Holds id f) : (dir.fsync id).Keeps id f := by
  obtain ⟨file, hfile, hf⟩ := h
  refine ⟨_, mem_fsync.2 ⟨file, hfile, if_pos rfl⟩, ?_⟩
  rw [List.take_length]
  exact hf

theorem keeps_fsync (h : dir.Keeps segment f) : (dir.fsync id).Keeps segment f := by
  by_cases heq : segment = id
  · subst heq
    exact keeps_fsync_self (holds_of_keeps h)
  · obtain ⟨file, hfile, hf⟩ := h
    exact ⟨file, mem_fsync.2 ⟨file, hfile, if_neg heq⟩, hf⟩

variable {keep : Nat → Nat}

theorem holds_of_crashed (h : (dir.crashed keep).Holds segment f) : dir.Holds segment f := by
  obtain ⟨file, hfile, hf⟩ := h
  obtain ⟨old, hold, rfl⟩ := mem_map.1 hfile
  exact ⟨old, hold, mem_frames_of_prefix (List.take_prefix _ _) hf⟩

theorem keeps_crashed (h : dir.Keeps segment f) : (dir.crashed keep).Keeps segment f := by
  obtain ⟨file, hfile, hf⟩ := h
  refine ⟨_, mem_map.2 ⟨file, hfile, rfl⟩, ?_⟩
  -- the cut is behind the synced bytes
  show f ∈ frames ((file.bytes.take (max file.synced (keep segment))).take file.synced)
  rw [List.take_take, Nat.min_eq_left (Nat.le_max_left _ _)]
  exact hf

end PartitionDir

/-! ## The writer -/

namespace PartitionDiskWriter

variable {w : PartitionDiskWriter} {dir : PartitionDir} {segment len : Nat} {f : Nat × Bytes}

/-- The bytes a frame of this length is appended to. -/
def target (w : PartitionDiskWriter) (len : Nat) (dir : PartitionDir) : Bytes :=
  (w.rotate len dir).2.bytesOf (w.rotate len dir).1.activeSegmentId

theorem rotate_cases (w : PartitionDiskWriter) (len : Nat) (dir : PartitionDir) :
    w.rotate len dir = (w, dir) ∨ ∃ w', w.rotate len dir = (w', dir.append (w.activeSegmentId + 1) []) ∧
      w'.activeSegmentId = w.activeSegmentId + 1 := by
  unfold rotate
  split_ifs
  · exact .inr ⟨_, rfl, rfl⟩
  · exact .inl rfl

theorem holds_rotate : (w.rotate len dir).2.Holds segment f ↔ dir.Holds segment f := by
  rcases w.rotate_cases len dir with h | ⟨w', h, -⟩
  · rw [h]
  · rw [h]
    exact PartitionDir.holds_append_nil

theorem keeps_rotate (hkeeps : dir.Keeps segment f) : (w.rotate len dir).2.Keeps segment f := by
  rcases w.rotate_cases len dir with h | ⟨w', h, -⟩
  · rw [h]
    exact hkeeps
  · rw [h]
    exact PartitionDir.keeps_append [] hkeeps

end PartitionDiskWriter

end ProximaDb.Queue
