/-
  ProximaDb.Cluster.Incarnations

  Writer incarnations: the generations `begin_writer_incarnation_with_key` gives out, seen by
  process and not by pod.
-/
import ProximaDb.Cluster.LeaseIdentity
import ProximaDb.Cluster.LeaseSafety

namespace ProximaDb.Cluster

open ProximaDb.Lib ProximaDb.Manifest

variable {ι π : Type} {st : PartitionLeaseStore} {calls : ι → LeaseCall}
  {process : ι → π} {s : Shared ι}
  {P : Pool ι (Shared ι) StoreOp StoreOp.Answer LeaseError (Option LeaseOutcome)}

/-- In every state reached, the leases that two processes with pod ids of their own were given have
    different generations below the last one, whether they began with them or renewed them. -/
theorem incarnations_unique [DecidableEq ι] (hstart : NoLeases s)
    (hpods : ∀ i j, (calls i).pod = (calls j).pod → process i = process j)
    (h : Reaches (objectStore ι) (leasePool st calls s) P)
    {i j : ι} {log : Bytes} {lease other : PartitionLease} (hne : process i ≠ process j)
    (hi : committerForKey st.path (calls i).key = .ok log)
    (hj : committerForKey st.path (calls j).key = .ok log)
    (houti : (P.procs i).outcome = some (.ok (some (.acquired lease))))
    (houtj : (P.procs j).outcome = some (.ok (some (.acquired other))))
    (hmax : lease.generation < maxGeneration) : lease.generation ≠ other.generation := by
  obtain ⟨hinv, -⟩ := leasePool_meets hstart h
  obtain ⟨hpodi, logi, v, hlogi, hv⟩ := leasePool_outcome hstart h houti
  obtain ⟨hpodj, logj, w, hlogj, hw⟩ := leasePool_outcome hstart h houtj
  cases hlogi.symm.trans hi
  cases hlogj.symm.trans hj
  intro hgen
  refine hne (hpods i j ?_)
  calc (calls i).pod = lease.holderPod := hpodi.symm
    _ = other.holderPod := hinv.holder_eq hv hw hgen hmax
    _ = (calls j).pod := hpodj

/-! ## Two processes -/

/-- A process of pod `a` begins and renews its lease, and when that is over so does one of `b`. -/
def successorCalls (call : Fin 4) : LeaseCall :=
  match call with
  | 0 => .claim ⟨usersTable, "a", 0, 10, .alwaysBump⟩
  | 1 => .claim ⟨usersTable, "a", 5, 10, .renewOrTakeover⟩
  | 2 => .claim ⟨usersTable, "b", 20, 10, .alwaysBump⟩
  | 3 => .claim ⟨usersTable, "b", 25, 10, .renewOrTakeover⟩

def succession : List (Turn (Fin 4) Choice) :=
  List.flatten [List.replicate 11 (.act 0 .plain), [.drift (.arrive 0 0), .act 0 .plain],
    List.replicate 16 (.act 1 .plain), [.drift (.arrive 1 0), .act 1 .plain],
    List.replicate 16 (.act 2 .plain), [.drift (.arrive 2 0), .act 2 .plain],
    List.replicate 16 (.act 3 .plain), [.drift (.arrive 3 0), .act 3 .plain]]

/-- The second process renews another generation than the one the first has renewed. -/
theorem incarnations_unique_successor : ∃ P,
    Pool.play (objectStore (Fin 4)) (leasePool rootStore successorCalls {}) succession = some P ∧
      ∃ lease other, (P.procs 1).outcome = some (.ok (some (.acquired lease))) ∧
        (P.procs 3).outcome = some (.ok (some (.acquired other))) ∧
        lease.generation ≠ other.generation := by
  have hrun : (Pool.play (objectStore (Fin 4)) (leasePool rootStore successorCalls {})
      succession).map (fun P => ((P.procs 1).outcome, (P.procs 3).outcome)) =
        some (some (.ok (some (.acquired (.withKey usersTable "a" 1 5 15)))),
          some (.ok (some (.acquired (.withKey usersTable "b" 2 25 35))))) := by decide +kernel
  obtain ⟨P, hP, hends⟩ := Option.map_eq_some_iff.1 hrun
  obtain ⟨hfirst, hsecond⟩ := Prod.mk.inj hends
  obtain ⟨log, hlog⟩ : ∃ log, committerForKey [] usersTable = .ok log :=
    ⟨_, committerForKey_other (by decide)⟩
  refine ⟨P, hP, _, _, hfirst, hsecond, ?_⟩
  -- the first two calls are of one process
  exact @incarnations_unique (Fin 4) Bool rootStore successorCalls (fun call => 2 ≤ call) {} P _
    ⟨rfl, rfl, rfl, rfl⟩ (by decide) (Pool.reaches_of_play hP) 1 3 log _ _ (by decide) hlog hlog
    hfirst hsecond (by decide)

/-- Two processes of one pod begin at the same time. -/
def restartCalls (_ : Bool) : LeaseCall := .claim ⟨usersTable, "a", 0, 10, .alwaysBump⟩

/-- Both find no lease and put the first; the put of the second is refused. -/
def restart : List (Turn Bool Choice) :=
  List.flatten [List.replicate 11 (.act false .plain), List.replicate 11 (.act true .plain),
    [.drift (.arrive 0 0), .act false .plain, .drift (.arrive 1 0), .act true .refusal],
    List.replicate 10 (.act true .plain)]

/-- The second process adopts the lease of the first: both begin with generation 1. -/
theorem restarted_adopts : ∃ P, Reaches (objectStore Bool) (leasePool rootStore restartCalls {}) P ∧
      ∀ process, (P.procs process).outcome =
        some (.ok (some (.acquired (.withKey usersTable "a" 1 0 10)))) := by
  have hplays : (Pool.play (objectStore Bool) (leasePool rootStore restartCalls {})
      restart).isSome = true := by rfl
  have hboth : ∀ process, (Pool.play (objectStore Bool) (leasePool rootStore restartCalls {})
      restart).bind (fun P => (P.procs process).outcome) =
        some (.ok (some (.acquired (.withKey usersTable "a" 1 0 10)))) := by decide
  obtain ⟨P, hP⟩ := Option.isSome_iff_exists.1 hplays
  refine ⟨P, Pool.reaches_of_play hP, fun process => ?_⟩
  have hone := hboth process
  rwa [hP, Option.bind_some] at hone

end ProximaDb.Cluster
