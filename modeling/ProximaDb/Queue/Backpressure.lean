/-
  ProximaDb.Queue.Backpressure

  When a send is refused. A producer looks at how full the memory tier is, as a fraction in `f32`,
  and refuses from 0.95 on.
-/
import ProximaDb.Lib.Rounding
import ProximaDb.Queue.Sound

namespace ProximaDb.Queue

open ProximaDb.Lib Running PartitionMemory

/-! ## Pressure -/

/-- A rational as `f32`; the ones here are within its range. -/
def f32 (q : ℚ) : ℚ := roundSig 24 q

def softPct : ℚ := f32 (75 / 100)

def hardPct : ℚ := f32 (95 / 100)

inductive PressureLevel
  | soft (pct : ℚ)
  | hard (pct : ℚ)
  deriving DecidableEq

namespace PartitionMemory

def depth (mem : PartitionMemory) : ℕ := mem.entries.entries.length

def depthPct (mem : PartitionMemory) : ℚ := f32 (f32 mem.depth / f32 mem.capacity)

def pressure (mem : PartitionMemory) : Option PressureLevel :=
  if hardPct ≤ mem.depthPct then some (.hard mem.depthPct)
  else if softPct ≤ mem.depthPct then some (.soft mem.depthPct)
  else none

end PartitionMemory

inductive SendError
  | backpressure (pct : ℚ) (retryAfterMs : ℕ)
  | persistence (what : String)
  deriving DecidableEq

def SendError.IsBackpressure : SendError → Prop
  | .backpressure _ _ => True
  | .persistence _ => False

/-- `Producer::send` with nothing in between, up to the message being visible to consumers: the
    check, the append in its two parts, the memory tier. -/
def Running.send (C : MessageCodec) (r : Running) (message : Message) : Except SendError Running :=
  match r.memory.pressure with
  | some (.hard pct) => .error (.backpressure (f32 (pct * 100)) 100)
  | _ =>
    match r.writer.reserve with
    | none => .error (.persistence "queue disk offset exhausted")
    | some (offset, writer) =>
      let r := ({ r with writer } : Running).written C offset message
      match r.memory.enqueueWithOffset message offset with
      | (.error _, memory) => .error (.backpressure (f32 (memory.depthPct * 100)) 100)
      | (.ok _, memory) => .ok { r with memory }

/-! ## The threshold -/

def HardAt (capacity depth : ℕ) : Prop := hardPct ≤ f32 (f32 depth / f32 capacity)

theorem hardAt_full {capacity : ℕ} (h : 0 < capacity) : HardAt capacity capacity := by
  have hpos : 0 < f32 capacity := roundSig_pos (by norm_num) (by exact_mod_cast h)
  unfold HardAt
  rw [div_self hpos.ne']
  exact roundSig_mono (by norm_num) (by norm_num)

theorem hardPct_eq : hardPct = 15938355 * (2 : ℚ) ^ (-24 : ℤ) := by
  have hlog : Int.log 2 (95 / 100 : ℚ) = -1 := log_eq_of_bounds (by norm_num) (by norm_num)
  unfold hardPct f32
  rw [roundSig_of_pos (by norm_num), lastBit, hlog]
  norm_num [roundHalfEven, show ⌊(1593835520 / 100 : ℚ)⌋ = 15938355 by norm_num]

theorem f32_below_hard : f32 (19 / 20 - 1 / 20971520) < hardPct := by
  have hlog : Int.log 2 (19 / 20 - 1 / 20971520 : ℚ) = -1 :=
    log_eq_of_bounds (by norm_num) (by norm_num)
  rw [hardPct_eq]
  unfold f32
  rw [roundSig_of_pos (by norm_num), lastBit, hlog]
  norm_num [roundHalfEven, show ⌊(79691772 / 5 : ℚ)⌋ = 15938354 by norm_num]

/-- For capacities up to `2 ^ 20` the fraction that is computed and the exact one agree about the
    threshold. -/
theorem hardAt_iff {capacity depth : ℕ} (hpos : 0 < capacity) (hcapacity : capacity ≤ 2 ^ 20)
    (hdepth : depth ≤ capacity) : HardAt capacity depth ↔ 19 * capacity ≤ 20 * depth := by
  have hexact : ∀ n : ℕ, n ≤ capacity → f32 n = n := fun n hn =>
    roundSig_natCast (lt_of_le_of_lt (hn.trans hcapacity) (by norm_num))
  have hq : (0 : ℚ) < capacity := by exact_mod_cast hpos
  unfold HardAt
  rw [hexact depth hdepth, hexact capacity le_rfl]
  constructor
  · intro h
    by_contra hlt
    have hnat : 20 * depth + 1 ≤ 19 * capacity := by omega
    have hbelow : (depth : ℚ) / capacity ≤ 19 / 20 - 1 / 20971520 := by
      rw [div_le_iff₀ hq]
      have hnatq : 20 * (depth : ℚ) + 1 ≤ 19 * capacity := by exact_mod_cast hnat
      have hcapq : (capacity : ℚ) ≤ 2 ^ 20 := by exact_mod_cast hcapacity
      linarith
    exact absurd h (not_le.2 (lt_of_le_of_lt (roundSig_mono (by norm_num) hbelow) f32_below_hard))
  · intro h
    refine roundSig_mono (by norm_num) ?_
    rw [le_div_iff₀ hq]
    have hnatq : 19 * (capacity : ℚ) ≤ 20 * depth := by exact_mod_cast h
    linarith

/-! ## Accepted messages -/

/-- The step is one that accepts a message into the memory tier. -/
def Running.accepts (r : Running) : SessionEvent → Bool
  | .enqueue offset =>
    match r.sends offset with
    | some ⟨message, .written _⟩ => (r.memory.enqueueWithOffset message offset).1.isOk
    | _ => false
  | _ => false

def acceptedIn (C : MessageCodec) (cfg : TopicConfig) : Running → List SessionEvent → ℕ
  | _, [] => 0
  | r, e :: es =>
    match r.step C cfg e with
    | none => 0
    | some r' => (r.accepts e).toNat + acceptedIn C cfg r' es

/-- The memory tier holds so many messages; a message that is still on its way is not there. -/
structure Counted (cap n : ℕ) (r : Running) : Prop where
  sound : r.Sound
  capacity : r.memory.capacity = cap
  depth : r.memory.depth = n
  room : n ≤ cap
  onTheWay : ∀ offset message, (r.sends offset = some ⟨message, .reserved⟩ ∨
    ∃ segment, r.sends offset = some ⟨message, .written segment⟩) →
      r.memory.entries.get? offset = none

namespace Counted

variable {C : MessageCodec} {cfg : TopicConfig} {cap n : ℕ} {r r' : Running} {e : SessionEvent}

variable (h : Counted cap n r)

include h

/-- A step that leaves the memory tier alone and puts no other message on its way. -/
theorem keep (hsound : r'.Sound) (hcapacity : r'.memory.capacity = r.memory.capacity)
    (hentries : r'.memory.entries = r.memory.entries)
    (hsends : ∀ offset message, (r'.sends offset = some ⟨message, .reserved⟩ ∨
      ∃ segment, r'.sends offset = some ⟨message, .written segment⟩) →
      r.memory.entries.get? offset = none) : Counted cap n r' := by
  refine ⟨hsound, hcapacity.trans h.capacity, ?_, h.room, ?_⟩
  · rw [PartitionMemory.depth, hentries]
    exact h.depth
  · rw [hentries]
    exact hsends

theorem keep_setSend {offset : ℕ} {send : Option Send} (hsound : (r.setSend offset send).Sound)
    (hsend : ∀ message, send ≠ some ⟨message, .reserved⟩ ∧
      ∀ segment, send ≠ some ⟨message, .written segment⟩) :
    Counted cap n (r.setSend offset send) := by
  refine h.keep hsound rfl rfl (fun offset' message hon => ?_)
  rw [sends_setSend] at hon
  split_ifs at hon
  · rcases hon with hreserved | ⟨segment, hwritten⟩
    · exact absurd hreserved (hsend message).1
    · exact absurd hwritten ((hsend message).2 segment)
  · exact h.onTheWay offset' message hon

variable {message : Message}

theorem reserve {writer : PartitionDiskWriter}
    (hsound : (({ r with writer } : Running).setSend r.writer.nextOffset
      (some ⟨message, .reserved⟩)).Sound) :
    Counted cap n (({ r with writer } : Running).setSend r.writer.nextOffset
      (some ⟨message, .reserved⟩)) := by
  refine h.keep hsound rfl rfl (fun offset message' hon => ?_)
  rw [sends_setSend] at hon
  split_ifs at hon with heq
  · -- the counter is above every offset of the memory tier
    subst heq
    cases hget : r.memory.entries.get? r.writer.nextOffset with
    | none => rfl
    | some entry => exact absurd (h.sound.memory _ (OrdMap.get?_eq_some.1 hget)).2 (lt_irrefl _)
  · exact h.onTheWay offset message' hon

theorem accept {offset segment : ℕ} {entry : AppendedEntry} {memory : PartitionMemory}
    (hsend : r.sends offset = some ⟨message, .written segment⟩)
    (henqueue : r.memory.enqueueWithOffset message offset = (.ok entry, memory))
    (hsound : (({ r with memory } : Running).setSend offset (some ⟨message, .enqueued segment⟩)).Sound) :
    Counted cap (n + 1)
      (({ r with memory } : Running).setSend offset (some ⟨message, .enqueued segment⟩)) := by
  obtain ⟨-, -, hcapacity, hentries⟩ := enqueueWithOffset_ok henqueue
  have habsent := h.onTheWay offset message (.inr ⟨segment, hsend⟩)
  have hlength : memory.depth = n + 1 := by
    rw [← h.depth, PartitionMemory.depth, hentries]
    refine OrdMap.length_insertEntry _ (fun e he hkey => ?_)
    subst hkey
    rw [OrdMap.get?_eq_some.2 he] at habsent
    cases habsent
  have hroom : n < cap := by
    by_contra hfull
    have hge : r.memory.capacity ≤ r.memory.entries.entries.length := by
      rw [h.capacity]
      exact (not_lt.1 hfull).trans h.depth.ge
    have hrefused := enqueueWithOffset_full message offset hge
    rw [henqueue] at hrefused
    cases hrefused
  refine ⟨hsound, hcapacity.trans h.capacity, hlength, hroom, fun offset' message' hon => ?_⟩
  rw [sends_setSend] at hon
  split_ifs at hon with heq
  · rcases hon with hreserved | ⟨segment', hwritten⟩
    · cases hreserved
    · cases hwritten
  · show memory.entries.get? offset' = none
    rw [hentries, OrdMap.get?_insert, if_neg heq]
    exact h.onTheWay offset' message' hon

theorem setSend_none (offset : ℕ) : Counted cap n (r.setSend offset none) :=
  h.keep_setSend (h.sound.setSend_none offset) (fun _ => ⟨nofun, nofun⟩)

theorem moves (hmoves : r.Moves C cfg e r') : Counted cap (n + (r.accepts e).toNat) r' := by
  have hsound := h.sound.moves hmoves
  cases hmoves with
  | reserve => exact h.reserve hsound
  | write offset message hsend =>
    refine h.keep hsound rfl rfl (fun offset' message' hon => ?_)
    by_cases heq : offset' = offset
    · subst heq
      exact h.onTheWay offset' message (.inl hsend)
    · have hsame : (r.written C offset message).sends offset' = r.sends offset' :=
        Function.update_of_ne heq _ _
      rw [hsame] at hon
      exact h.onTheWay offset' message' hon
  | abandon | wait => exact h.keep_setSend hsound (fun _ => ⟨nofun, nofun⟩)
  | enqueue offset segment message entry memory hsend henqueue =>
    have haccepts : r.accepts (.enqueue offset) = true := by
      simp [accepts, hsend, henqueue, Except.isOk, Except.toBool]
    rw [haccepts]
    exact h.accept hsend henqueue hsound
  | full offset segment message message' memory hsend henqueue =>
    have haccepts : r.accepts (.enqueue offset) = false := by
      simp [accepts, hsend, henqueue, Except.isOk, Except.toBool]
    rw [haccepts]
    obtain ⟨-, hcapacity, hentries⟩ := enqueueWithOffset_error henqueue
    exact (h.setSend_none offset).keep hsound hcapacity hentries (h.setSend_none offset).onTheWay
  | fsync segment answered =>
    refine h.keep hsound rfl rfl (fun offset message hon => h.onTheWay offset message ?_)
    simp only [synced] at hon
    split at hon
    case h_1 =>
      split_ifs at hon
      · rcases hon with h | ⟨_, h⟩ <;> cases h
      · rcases hon with h | ⟨_, h⟩ <;> cases h
    case h_2 => exact hon
  | lazyReceipt offset | strictReceipt offset =>
    exact (h.setSend_none offset).keep hsound rfl rfl (h.setSend_none offset).onTheWay
  | _ => exact h.keep hsound rfl rfl h.onTheWay

theorem run {es : List SessionEvent} (hrun : play (step C cfg) r es = some r') :
    Counted cap (n + acceptedIn C cfg r es) r' := by
  induction es generalizing r n with
  | nil =>
    cases hrun
    exact h
  | cons e es ih =>
    obtain ⟨t, hstep, hrest⟩ := Option.bind_eq_some_iff.1 hrun
    have hnext := ih (h.moves (moves_of_step hstep)) hrest
    simp only [acceptedIn, hstep]
    rw [← Nat.add_assoc]
    exact hnext

end Counted

theorem counted_openPartition (cfg : TopicConfig) :
    Counted (max cfg.memoryCapacity 1) 0 (openPartition cfg {} {}) where
  sound := sound_openPartition cfg
  capacity := rfl
  depth := rfl
  room := Nat.zero_le _
  onTheWay := fun _ _ h => (by rcases h with h | ⟨_, h⟩ <;> cases h)

/-! ## When a send is refused -/

theorem PartitionMemory.pressure_hard_iff {mem : PartitionMemory} :
    (∃ pct, mem.pressure = some (.hard pct)) ↔ HardAt mem.capacity mem.depth := by
  unfold pressure
  constructor
  · rintro ⟨pct, h⟩
    split_ifs at h with hhard hsoft
    · exact hhard
    · cases h
  · intro h
    exact ⟨_, if_pos h⟩

theorem Running.send_refused {C : MessageCodec} {r : Running} (message : Message)
    (h : HardAt r.memory.capacity r.memory.depth) :
    ∃ pct, r.send C message = .error (.backpressure pct 100) := by
  obtain ⟨pct, hpressure⟩ := pressure_hard_iff.2 h
  refine ⟨f32 (pct * 100), ?_⟩
  unfold send
  rw [hpressure]

/-- In every run from the opening of a partition, the next send is not refused with `Backpressure`
    if and only if the messages accepted since then are below 0.95 of the capacity, as computed in
    `f32`; it does not matter which of them are acknowledged. -/
theorem send_accepted_iff {C : MessageCodec} {cfg : TopicConfig} {events : List SessionEvent}
    {r : Running} (hrun : play (Running.step C cfg) (openPartition cfg {} {}) events = some r)
    (message : Message) : (∀ error, r.send C message = .error error → ¬ error.IsBackpressure) ↔
      ¬ HardAt (max cfg.memoryCapacity 1) (acceptedIn C cfg (openPartition cfg {} {}) events) := by
  have h := (counted_openPartition cfg).run hrun
  rw [Nat.zero_add] at h
  have hhard := r.memory.pressure_hard_iff
  rw [h.capacity, h.depth] at hhard
  constructor
  · rintro haccepted hat
    rw [← h.capacity, ← h.depth] at hat
    obtain ⟨pct, hrefused⟩ := send_refused (C := C) message hat
    exact haccepted _ hrefused trivial
  · intro hlow error herror hback
    have hnot : ∀ pct, r.memory.pressure ≠ some (.hard pct) := fun pct hp => hlow (hhard.1 ⟨pct, hp⟩)
    have hroom : r.memory.entries.entries.length < r.memory.capacity := by
      rw [h.capacity]
      refine lt_of_le_of_ne (h.depth.trans_le h.room) (fun hfull => hlow ?_)
      rw [← h.depth, depth, hfull]
      exact hardAt_full (Nat.le_max_right _ _)
    unfold send at herror
    split at herror
    case h_1 pct hp => exact hnot pct hp
    case h_2 =>
      split at herror
      case h_1 =>
        cases herror
        exact hback
      case h_2 offset writer hreserve =>
        obtain ⟨next, hnext, heq⟩ := Option.map_eq_some_iff.1 hreserve
        cases heq
        obtain ⟨entry, memory, haccepts⟩ := enqueueWithOffset_accepts message hroom
          (checkedSucc_eq_some.1 hnext).1
        have haccepts' : ((({ r with
            writer := { r.writer with nextOffset := next } } : Running).written C
              r.writer.nextOffset message).memory.enqueueWithOffset message r.writer.nextOffset) =
            (.ok entry, memory) := haccepts
        simp only [haccepts'] at herror
        cases herror

/-- A message is sent, delivered to the only group and acknowledged. -/
def oneAcknowledged : List SessionEvent :=
  [.reserve (note [0]), .write 0, .enqueue 0, .receipt 0, .subscribe "g", .poll "g" 8,
    .ack "g" [.new 0 0 0] .done]

theorem send_accepted_iff_roomy : ∃ r,
    play (Running.step plainCodec onePartition) (openPartition onePartition {} {}) oneAcknowledged =
      some r ∧
    acceptedIn plainCodec onePartition (openPartition onePartition {} {}) oneAcknowledged = 1 ∧
    ∀ error, r.send plainCodec (note [1]) = .error error → ¬ error.IsBackpressure := by
  have hrun : (play (step plainCodec onePartition) (openPartition onePartition {} {})
      oneAcknowledged).isSome := by
    rfl
  have haccepted : acceptedIn plainCodec onePartition (openPartition onePartition {} {})
      oneAcknowledged = 1 := by
    rfl
  obtain ⟨r, hr⟩ := Option.isSome_iff_exists.1 hrun
  refine ⟨r, hr, haccepted, (send_accepted_iff hr (note [1])).2 ?_⟩
  rw [haccepted, hardAt_iff (by decide) (by decide) (by decide)]
  decide

/-- With room for one message, a partition whose only message every group has acknowledged refuses
    the next one. -/
theorem acknowledged_partition_refuses : ∃ r,
    play (Running.step plainCodec { onePartition with memoryCapacity := 1 })
      (openPartition { onePartition with memoryCapacity := 1 } {} {}) oneAcknowledged = some r ∧
    r.history.given.map Prod.fst = [0] ∧ r.dir.groups.keys = ["g"] ∧
    r.dir.groups.lookup "g" = some (some 0) ∧
    ∃ error, r.send plainCodec (note [1]) = .error error ∧ error.IsBackpressure := by
  have hrun : (play (step plainCodec { onePartition with memoryCapacity := 1 })
      (openPartition { onePartition with memoryCapacity := 1 } {} {}) oneAcknowledged).map
        (fun r => (r.history.given.map Prod.fst, r.dir.groups.keys, r.dir.groups.lookup "g",
          r.memory.capacity, r.memory.depth)) = some ([0], ["g"], some (some 0), 1, 1) := by
    rfl
  obtain ⟨r, hr, hview⟩ := Option.map_eq_some_iff.1 hrun
  simp only [Prod.mk.injEq] at hview
  obtain ⟨hgiven, hkeys, hgroup, hcapacity, hdepth⟩ := hview
  have hfull : HardAt r.memory.capacity r.memory.depth := by
    rw [hcapacity, hdepth]
    exact hardAt_full (by decide)
  obtain ⟨pct, hrefused⟩ := send_refused (C := plainCodec) (note [1]) hfull
  exact ⟨r, hr, hgiven, hkeys, hgroup, _, hrefused, trivial⟩

end ProximaDb.Queue
