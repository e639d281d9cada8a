/-
  ProximaDb.Queue.Client

  The queue as a whole: the topics of the configuration are opened and replayed when the client
  opens; any other topic is opened when it is first used, without a replay. Its partitions then
  run on their own until the client is shut down.
-/
import ProximaDb.Queue.OffsetNames

namespace ProximaDb.Queue

open ProximaDb.Lib

/-- The settings of a topic that its partitions read. -/
structure TopicSettings where
  partitionCount : Nat := 16
  memoryCapacity : Nat := 4096
  diskRotationSizeMb : Nat := 16
  deriving DecidableEq

structure QueueConfig where
  /-- whether an `object_archive` is configured -/
  objectArchive : Bool := false
  topics : KeyMap String TopicSettings := ∅

namespace QueueConfig

/-- A topic that is not declared has the default settings. -/
def settings (config : QueueConfig) (topic : String) : TopicSettings :=
  (config.topics.lookup topic).getD {}

def partition (config : QueueConfig) (topic : String) (p : Nat) : TopicConfig where
  partition := p
  memoryCapacity := (config.settings topic).memoryCapacity
  rotationBytes := (config.settings topic).diskRotationSizeMb * 1024 * 1024
  archiveConfigured := config.objectArchive

def Declares (config : QueueConfig) (topic : String) (p : Nat) : Prop :=
  topic ∈ config.topics.keys ∧ p < (config.settings topic).partitionCount

instance (config : QueueConfig) (topic : String) (p : Nat) : Decidable (config.Declares topic p) :=
  inferInstanceAs (Decidable (_ ∧ _))

end QueueConfig

/-- The client, if one is running, with its registered topics; and every partition. -/
structure QueueClient where
  running : Bool := false
  topics : List String := []
  partitions : String → Nat → Partition := fun _ _ => .blank

inductive QueueEvent
  | openClient
  | ensureTopic (topic : String)
  | session (topic : String) (p : Nat) (e : SessionEvent)
  | shutdown

namespace QueueClient

variable (C : MessageCodec) (config : QueueConfig)

def moved (q : QueueClient) (on : String → Nat → Prop) [∀ topic p, Decidable (on topic p)]
    (e : PartitionEvent) (topic : String) (p : Nat) : Partition :=
  if on topic p then
    ((q.partitions topic p).step C (config.partition topic p) e).getD (q.partitions topic p)
  else q.partitions topic p

def setPartition (q : QueueClient) (topic : String) (p : Nat) (s : Partition) : QueueClient :=
  { q with
    partitions := Function.update q.partitions topic (Function.update (q.partitions topic) p s) }

theorem partitions_setPartition (q : QueueClient) (topic : String) (p : Nat) (s : Partition)
    (topic' : String) (p' : Nat) : (q.setPartition topic p s).partitions topic' p' =
      if topic' = topic ∧ p' = p then s else q.partitions topic' p' := by
  unfold setPartition
  by_cases ht : topic' = topic
  · subst ht
    simp only [Function.update_self, true_and, Function.update_apply]
  · simp only [Function.update_of_ne ht, ht, false_and, if_false]

def step (q : QueueClient) : QueueEvent → Option QueueClient
  -- `ensure_topic_async` for every declared topic, then `recover`
  | .openClient =>
    if q.running = false ∧ ∀ topic ∈ config.topics.keys,
        ∀ p < (config.settings topic).partitionCount,
          ((q.partitions topic p).step C (config.partition topic p) .reopen).isSome then
      some { running := true, topics := config.topics.keys,
             partitions := q.moved C config config.Declares .reopen }
    else none
  | .ensureTopic topic =>
    if q.running = false then none
    else if topic ∈ q.topics then some q
    else
      some { q with
        topics := topic :: q.topics
        partitions := q.moved C config
          (fun t p => t = topic ∧ p < (config.settings topic).partitionCount) .openOnUse }
  | .session topic p e =>
    if q.running = true ∧ topic ∈ q.topics ∧ p < (config.settings topic).partitionCount then
      ((q.partitions topic p).step C (config.partition topic p) (.session e)).map
        (q.setPartition topic p)
    else none
  | .shutdown =>
    if q.running = true then
      some { running := false, topics := [],
             partitions := q.moved C config (fun _ _ => True) .shutdown }
    else none

end QueueClient

open QueueClient

variable {C : MessageCodec} {config : QueueConfig} {q q' : QueueClient} {e : QueueEvent}

/-! ## Offsets over whole runs -/

/-- The condition on a step of the queue, by what it asks of the partitions that take it. -/
def QueueOk (C : MessageCodec) (config : QueueConfig) (q : QueueClient) : QueueEvent → Prop
  | .ensureTopic topic => topic ∈ q.topics ∨ ∀ p < (config.settings topic).partitionCount,
      NamingOk C (config.partition topic p) (q.partitions topic p) .openOnUse
  | .session topic p e => NamingOk C (config.partition topic p) (q.partitions topic p) (.session e)
  | _ => True

instance (C : MessageCodec) (config : QueueConfig) (q : QueueClient) (e : QueueEvent) :
    Decidable (QueueOk C config q e) := by
  cases e with
  | ensureTopic topic => exact inferInstanceAs (Decidable (_ ∨ ∀ p < _, _))
  | session => exact inferInstanceAs (Decidable (NamingOk _ _ _ _))
  | _ => exact instDecidableTrue

namespace QueueClient

def Named (config : QueueConfig) (q : QueueClient) : Prop :=
  ∀ topic p, (q.partitions topic p).Named (config.partition topic p)

theorem Named.moved (h : q.Named config) {on : String → Nat → Prop}
    [∀ topic p, Decidable (on topic p)] {e : PartitionEvent}
    (hok : ∀ topic p, on topic p →
      NamingOk C (config.partition topic p) (q.partitions topic p) e) (topic : String) (p : Nat) :
    (q.moved C config on e topic p).Named (config.partition topic p) := by
  unfold QueueClient.moved
  split_ifs with hon
  · cases hstep : (q.partitions topic p).step C (config.partition topic p) e with
    | none => exact h topic p
    | some s => exact (h topic p).step (hok topic p hon) hstep
  · exact h topic p

theorem Named.step (h : q.Named config) (hok : QueueOk C config q e)
    (hstep : q.step C config e = some q') : q'.Named config := by
  cases e with
  | openClient =>
    simp only [step] at hstep
    split_ifs at hstep
    cases hstep
    refine h.moved (fun topic p _ => ?_)
    cases q.partitions topic p with
    | running | down => exact trivial
  | ensureTopic topic =>
    simp only [step] at hstep
    split_ifs at hstep with hclosed hregistered
    · cases hstep
      exact h
    · cases hstep
      refine h.moved (fun t p hon => ?_)
      obtain ⟨rfl, hp⟩ := hon
      exact hok.resolve_left hregistered p hp
  | session topic p e =>
    simp only [step] at hstep
    split_ifs at hstep
    obtain ⟨s, hs, rfl⟩ := Option.map_eq_some_iff.1 hstep
    have hself := (h topic p).step hok hs
    intro topic' p'
    rw [partitions_setPartition]
    split_ifs with heq
    · obtain ⟨rfl, rfl⟩ := heq
      exact hself
    · exact h topic' p'
  | shutdown =>
    simp only [step] at hstep
    split_ifs at hstep
    cases hstep
    have hok' : ∀ topic p, True →
        NamingOk C (config.partition topic p) (q.partitions topic p) .shutdown := by
      intro topic p _
      cases q.partitions topic p with
      | running | down => exact trivial
    exact h.moved hok'

end QueueClient

/-- In every run whose steps meet the condition, no offset of a partition is given twice, and the
    next one is above all that were given and above the progress and the cursor of every group. -/
theorem offsets_name_one_message {events : List QueueEvent}
    (hrun : play (guarded (QueueOk C config) (QueueClient.step C config)) {} events = some q)
    (topic : String) (p : Nat) : ((q.partitions topic p).history.given.map Prod.fst).Nodup ∧
      ∀ r, q.partitions topic p = .running r → ∀ offset w, r.writer.reserve = some (offset, w) →
        (∀ given ∈ r.history.given, given.1 < offset) ∧
        ∀ group, (∀ c, r.dir.committed group = some c → c < offset) ∧
          ∀ k, r.consumers group = some k → k.tracker.nextReadOffset ≤ offset := by
  have hnamed : (q.partitions topic p).Named (config.partition topic p) :=
    play_invariant (P := QueueClient.Named config)
      (fun s e t hs hstep => hs.step (guarded_eq_some.1 hstep).1 (guarded_eq_some.1 hstep).2)
      (fun _ _ => named_blank) hrun topic p
  refine ⟨?_, fun r hr offset w hreserve => ?_⟩
  · cases hs : q.partitions topic p with
    | running r =>
      rw [hs] at hnamed
      exact hnamed.ledger.nodup
    | down dir history =>
      rw [hs] at hnamed
      exact hnamed.1.nodup
  · rw [hr] at hnamed
    have hr' : Named (config.partition topic p) r := hnamed
    obtain ⟨next, -, heq⟩ := Option.map_eq_some_iff.1 hreserve
    cases heq
    exact ⟨fun given hgiven => hr'.below _ (List.mem_map_of_mem hgiven),
      fun group => ⟨hr'.sound.groups group, fun k hk => (hr'.sound.consumers group k hk).1⟩⟩

/-! ## A restart of a declared topic, and of one that is not -/

/-- One message through a partition of a topic: sent, delivered to a group and acknowledged. -/
def roundTrip (topic : String) (offset : Nat) (message : Message) : List QueueEvent :=
  [.session topic 0 (.reserve message), .session topic 0 (.write offset),
    .session topic 0 (.enqueue offset), .session topic 0 (.receipt offset),
    .session topic 0 (.subscribe "g"), .session topic 0 (.poll "g" 8),
    .session topic 0 (.ack "g" [.new 0 0 offset] .done)]

def oneTopic : QueueConfig where
  topics := (∅ : KeyMap String TopicSettings).insert "t" { partitionCount := 1 }

/-- A message, a clean restart, and another message. -/
def restarted (use : List QueueEvent) (next : Nat) : List QueueEvent :=
  [.openClient] ++ use ++ roundTrip "t" 0 (note [1]) ++ [.shutdown, .openClient] ++ use ++
    [.session "t" 0 (.reserve (note [2])), .session "t" 0 (.write next)]

theorem offsets_name_one_message_declared : ∃ q,
    play (guarded (QueueOk plainCodec oneTopic) (QueueClient.step plainCodec oneTopic)) {}
      (restarted [] 1) = some q ∧
    (q.partitions "t" 0).history.given = [(0, note [1]), (1, note [2])] ∧
    ((q.partitions "t" 0).history.given.map Prod.fst).Nodup := by
  have hrun : (play (guarded (QueueOk plainCodec oneTopic) (step plainCodec oneTopic))
      {} (restarted [] 1)).map (fun q => (q.partitions "t" 0).history.given) =
        some [(0, note [1]), (1, note [2])] := by
    rfl
  obtain ⟨q, hq, hgiven⟩ := Option.map_eq_some_iff.1 hrun
  exact ⟨q, hq, hgiven, (offsets_name_one_message hq "t" 0).1⟩

/-- A topic that is opened on use after the restart starts again at offset 0, which is given to the
    second message too and is already committed by the group. -/
theorem undeclared_topic_reuses_offset : ∃ q,
    play (QueueClient.step plainCodec {}) {} (restarted [.ensureTopic "t"] 0) = some q ∧
    (q.partitions "t" 0).history.given = [(0, note [1]), (0, note [2])] ∧
    ∃ r, q.partitions "t" 0 = .running r ∧ r.dir.committed "g" = some 0 := by
  have hrun : (play (step plainCodec {}) {} (restarted [.ensureTopic "t"] 0)).map
      (fun q => ((q.partitions "t" 0).history.given,
        (q.partitions "t" 0).process.map (fun r => r.dir.committed "g"))) =
      some ([(0, note [1]), (0, note [2])], some (some 0)) := by
    rfl
  obtain ⟨q, hq, hview⟩ := Option.map_eq_some_iff.1 hrun
  simp only [Prod.mk.injEq] at hview
  obtain ⟨r, hr, hcommitted⟩ := Option.map_eq_some_iff.1 hview.2
  exact ⟨q, hq, hview.1, r, Partition.process_eq_some hr, hcommitted⟩

end ProximaDb.Queue
