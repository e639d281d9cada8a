/-
  ProximaDb.Cluster.Replication

  A synchronous write to the replicas of a shard. The call waits for all of them at once under one
  timeout, so a replica that never answers costs it the answers of the others.
-/
import ProximaDb.Lib.KeyedFold

namespace ProximaDb.Cluster

open ProximaDb.Lib Option

inductive ConsistencyLevel
  | one
  | quorum
  | all
  | localQuorum

def calculateRequiredAcks (totalReplicas : Nat) : ConsistencyLevel → Nat
  | .one => 1
  | .quorum => totalReplicas / 2 + 1
  | .all => totalReplicas
  | .localQuorum => totalReplicas / 2 + 1

structure ReplicationAck where
  nodeId : String
  lsn : Nat
  timestamp : Int
  success : Bool
  error : Option String

structure ReplicationEntry where
  entryId : Nat
  lsn : Nat

/-- The answers of the replicas so far, by position. -/
abbrev Answers := List (Option (Except String ReplicationAck))

/-- What comes to a waiting call. -/
inductive ReplicationEvent
  | answer (replica : Nat) (result : Except String ReplicationAck)
  | timeout

def Answers.record (answers : Answers) (replica : Nat) (result : Except String ReplicationAck) :
    Answers :=
  answers.modify replica (fun answer => answer <|> some result)

def Answers.acks (answers : Answers) : List ReplicationAck :=
  answers.filterMap (fun answer => answer.bind Except.toOption)

/-- `timeout(join_all(futures))`, and the errors left out; `none` while it waits. -/
def joinAll (answers : Answers) (events : List ReplicationEvent) :
    Option (Except String (List ReplicationAck)) :=
  if answers.all isSome then some (.ok answers.acks)
  else
    match events with
    | [] => none
    | .timeout :: _ => some (.error "Replication timeout")
    | .answer replica result :: rest => joinAll (answers.record replica result) rest

/-- `replicate` with synchronous replication: what it returns, and the pending entries. -/
def replicate (pending : KeyMap String (List ReplicationEntry)) (entry : ReplicationEntry)
    (shardId : String) (replicas : List String) (consistency : ConsistencyLevel)
    (events : List ReplicationEvent) :
    Option (Except String (List ReplicationAck)) × KeyMap String (List ReplicationEntry) :=
  let requiredAcks := calculateRequiredAcks (replicas.length + 1) consistency
  let entries := (pending.lookup shardId).getD [] ++ [entry]
  match joinAll (replicas.map (fun _ => none)) events with
  | some (.ok acks) =>
    let successfulAcks := acks.countP (·.success) + 1
    if successfulAcks < requiredAcks then
      (some (.error ("Insufficient replicas acknowledged: " ++ toString successfulAcks ++ " of " ++
        toString requiredAcks ++ " required")), pending.insert shardId entries)
    else
      (some (.ok acks),
        pending.insert shardId (entries.filter (fun e => decide (e.entryId ≠ entry.entryId))))
  | result => (result, pending.insert shardId entries)

/-! ## What arrives in time -/

/-- The answers that come before the timeout, the first one of each replica. -/
def arrived (answers : Answers) : List ReplicationEvent → Answers
  | .answer replica result :: rest => arrived (answers.record replica result) rest
  | _ => answers

variable {answers : Answers}

theorem record_of_all (h : answers.all isSome = true) (replica : Nat)
    (result : Except String ReplicationAck) : answers.record replica result = answers := by
  refine List.ext_getElem? (fun i => ?_)
  rw [Answers.record, List.getElem?_modify]
  cases hi : answers[i]? with
  | none => rfl
  | some answer =>
    obtain ⟨r, rfl⟩ := isSome_iff_exists.1 (List.all_eq_true.1 h answer (List.mem_of_getElem? hi))
    split_ifs <;> rfl

theorem arrived_of_all (h : answers.all isSome = true) (events : List ReplicationEvent) :
    arrived answers events = answers := by
  induction events with
  | nil => rfl
  | cons event rest ih =>
    cases event with
    | timeout => rfl
    | answer replica result => rw [arrived, record_of_all h, ih]

/-- The wait ends well exactly if every replica has answered in time. -/
theorem joinAll_eq_ok {events : List ReplicationEvent} {acks : List ReplicationAck} :
    joinAll answers events = some (.ok acks) ↔
      (arrived answers events).all isSome = true ∧ (arrived answers events).acks = acks := by
  fun_induction joinAll answers events with
  | case1 answers events hall =>
    rw [arrived_of_all hall]
    simp [hall]
  | case2 answers hall | case3 answers hall => simp [arrived, hall]
  | case4 answers hall replica result rest ih => exact ih

/-- For every replica set, consistency level and order of answers and timeout: a write returns `Ok`
    exactly if every replica has answered before the timeout and enough of them, with the primary,
    with success; and unless it returns `Ok` its entry is pending. -/
theorem replicate_ok_iff (pending : KeyMap String (List ReplicationEntry))
    (entry : ReplicationEntry) (shardId : String) (replicas : List String)
    (consistency : ConsistencyLevel) (events : List ReplicationEvent) :
    ((∃ acks, (replicate pending entry shardId replicas consistency events).1 = some (.ok acks)) ↔
      (arrived (replicas.map (fun _ => none)) events).all isSome = true ∧
        calculateRequiredAcks (replicas.length + 1) consistency ≤
          (arrived (replicas.map (fun _ => none)) events).acks.countP (·.success) + 1) ∧
    ((∀ acks, (replicate pending entry shardId replicas consistency events).1 ≠ some (.ok acks)) →
      ∃ entries, (replicate pending entry shardId replicas consistency events).2.lookup shardId =
        some entries ∧ entry ∈ entries) := by
  have hpending : ∀ entries : List ReplicationEntry, entry ∈ entries →
      ∃ held, (pending.insert shardId entries).lookup shardId = some held ∧ entry ∈ held :=
    fun entries hmem => ⟨entries, AList.lookup_insert _, hmem⟩
  have hlast : entry ∈ (pending.lookup shardId).getD [] ++ [entry] := by simp
  -- The three ends: the wait does not end well, too few successes, enough of them.
  by_cases hwait : ∃ acks, joinAll (replicas.map (fun _ => none)) events = some (.ok acks)
  · obtain ⟨acks, hjoin⟩ := hwait
    obtain ⟨hall, rfl⟩ := joinAll_eq_ok.1 hjoin
    unfold replicate
    rw [hjoin]
    dsimp only
    split_ifs with hfew
    · exact ⟨iff_of_false (by simp) (fun h => absurd h.2 (Nat.not_le_of_lt hfew)),
        fun _ => hpending _ hlast⟩
    · exact ⟨iff_of_true ⟨_, rfl⟩ ⟨hall, Nat.le_of_not_lt hfew⟩, fun hno => absurd rfl (hno _)⟩
  · have hreplicate : replicate pending entry shardId replicas consistency events =
        (joinAll (replicas.map (fun _ => none)) events,
          pending.insert shardId ((pending.lookup shardId).getD [] ++ [entry])) := by
      unfold replicate
      split
      · rename_i acks hjoin
        exact absurd ⟨acks, hjoin⟩ hwait
      · rfl
    rw [hreplicate]
    refine ⟨iff_of_false hwait (fun h => hwait ⟨_, joinAll_eq_ok.2 ⟨h.1, rfl⟩⟩),
      fun _ => hpending _ hlast⟩

/-- Two replicas at quorum: one acknowledges, which with the primary is the quorum, the other is
    silent until the timeout. -/
theorem quorum_reached_but_timeout : let success : ReplicationAck := ⟨"n1", 7, 0, true, none⟩
    let events := [ReplicationEvent.answer 0 (.ok success), .timeout]
    let call := replicate ∅ ⟨1, 7⟩ "s" ["n1", "n2"] .quorum events
    calculateRequiredAcks 3 .quorum = 2 ∧
      (arrived [none, none] events).acks.countP (·.success) + 1 = 2 ∧
      call.1 = some (.error "Replication timeout") ∧ call.2.lookup "s" = some [⟨1, 7⟩] :=
  ⟨rfl, rfl, rfl, rfl⟩

end ProximaDb.Cluster
