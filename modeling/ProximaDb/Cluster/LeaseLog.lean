/-
  ProximaDb.Cluster.LeaseLog

  The logs of a lease store. Every object of the store is a manifest with a lease, and every lease
  but the first of its log succeeds the one at the version before: its generation is no lower, and
  the same one only where a live lease is renewed by its holder.
-/
import ProximaDb.Cluster.Lease

namespace ProximaDb.Cluster

open ProximaDb.Lib ProximaDb.Manifest List Option
open ManifestCommitter (encodeFenced decodeFenced)

/-! ## Generations -/

variable {lease : PartitionLease} {version : UInt64} {g : UInt64}

theorem le_maxGeneration (g : UInt64) : g ≤ maxGeneration := by
  rw [UInt64.le_iff_toNat_le]
  have hlt := g.toNat_lt
  have hmax : maxGeneration.toNat = 18446744073709551615 := by decide
  omega

theorem toNat_nextGeneration (h : g < maxGeneration) : (nextGeneration g).toNat = g.toNat + 1 := by
  have hlt : g.toNat < 18446744073709551615 := UInt64.lt_iff_toNat_lt.1 h
  have hne : g ≠ maxGeneration := by
    rintro rfl
    exact absurd h (UInt64.lt_irrefl _)
  rw [nextGeneration, if_neg hne, UInt64.toNat_add, UInt64.toNat_one]
  omega

theorem lt_nextGeneration (h : g < maxGeneration) : g < nextGeneration g := by
  rw [UInt64.lt_iff_toNat_lt, toNat_nextGeneration h]
  omega

theorem le_nextGeneration (g : UInt64) : g ≤ nextGeneration g := by
  by_cases h : g = maxGeneration
  · rw [nextGeneration, if_pos h, h]
    exact UInt64.le_refl _
  · have hlt : g < maxGeneration := UInt64.lt_of_le_of_ne (le_maxGeneration g) h
    exact UInt64.le_of_lt (lt_nextGeneration hlt)

/-- `lease` may stand at the version after `before`: a generation that is kept is renewed by its
    holder while it is live, unless generations have come to their end. -/
structure Succeeds (before lease : PartitionLease) : Prop where
  le : before.generation ≤ lease.generation
  renewed : before.generation < maxGeneration → lease.generation = before.generation →
    lease.holderPod = before.holderPod ∧ lease.released = false ∧ before.released = false ∧
      before.isExpired lease.acquiredAtMs = false
  entitled : lease.holderPod = before.holderPod ∨ before.released = true ∨
    before.isExpired lease.acquiredAtMs = true
  tombstone : lease.released = true → lease.holderPod = before.holderPod

theorem Succeeds.of_next {before : PartitionLease}
    (h : lease.generation = nextGeneration before.generation)
    (hentitled : lease.holderPod = before.holderPod ∨ before.released = true ∨
      before.isExpired lease.acquiredAtMs = true)
    (htombstone : lease.released = true → lease.holderPod = before.holderPod) :
    Succeeds before lease where
  le := h ▸ le_nextGeneration _
  entitled := hentitled
  tombstone := htombstone
  renewed hmax heq := by
    have hlt := lt_nextGeneration hmax
    rw [← h, heq] at hlt
    exact absurd hlt (UInt64.lt_irrefl _)

variable {r : ClaimRequest} {found : Option (UInt64 × PartitionLease)} {parent : Option UInt64}
  {generation : UInt64}

theorem ClaimRequest.decision_succeeds
    (h : r.decision (some (version, lease)) = .commit parent generation) :
    parent = some version ∧ Succeeds lease (r.lease generation) := by
  unfold ClaimRequest.decision at h
  dsimp only at h
  split_ifs at h with hreleased hlive hexpired hforeign
  · cases h
    exact ⟨rfl, .of_next rfl (.inr (.inl hreleased)) nofun⟩
  · cases h
    refine ⟨rfl, UInt64.le_refl _, fun _ _ => ?_, .inl hlive.2.1.symm, fun _ => hlive.2.1.symm⟩
    exact ⟨hlive.2.1.symm, rfl, by simpa using hreleased, hlive.2.2⟩
  · cases h
    exact ⟨rfl, .of_next rfl (.inr (.inr hexpired)) nofun⟩
  · cases h
    exact ⟨rfl, .of_next rfl (.inl (not_not.1 hforeign).symm) nofun⟩

theorem ClaimRequest.decision_held (h : r.decision found = .held lease) :
    ∃ version, found = some (version, lease) := by
  unfold ClaimRequest.decision at h
  cases found with
  | none => cases h
  | some x =>
    obtain ⟨version, lease'⟩ := x
    dsimp only at h
    split_ifs at h
    cases h
    exact ⟨version, rfl⟩

theorem ClaimRequest.decision_parent (h : r.decision found = .commit parent generation) :
    parent = found.map Prod.fst := by
  cases found with
  | none =>
    cases h
    rfl
  | some x => exact (ClaimRequest.decision_succeeds h).1

def LeaseCall.Writes : LeaseCall → PartitionLease → Prop
  | claim r, lease => ∃ generation, lease = r.lease generation
  | release _ holderPod _, lease => lease.holderPod = holderPod ∧ lease.released = true

/-! ## The lease at a version -/

def leaseBytes (C : LeaseCodec) (lease : PartitionLease) : Bytes :=
  encodeFenced lease.generation (C.toVec lease)

theorem decodeFenced_encodeFenced (generation : UInt64) (payload : Bytes) :
    decodeFenced (encodeFenced generation payload) = (generation, payload) := by
  have hlen : ((leBytes 8 generation.toNat).reverse).length = 8 := by simp
  unfold decodeFenced encodeFenced
  rw [if_neg (by rw [length_append, hlen]; omega), take_left' hlen,
    drop_left' hlen, reverse_reverse, leNat_leBytes generation.toNat_lt,
    UInt64.ofNat_toNat]

section Log

variable {ι : Type} (C : LeaseCodec) {log : Bytes} {later : PartitionLease}

/-- The lease committed at a version of a log. -/
def leaseAt (s : Shared ι) (log : Bytes) (version : UInt64) : Option PartitionLease :=
  (s.object ⟨log, .manifest version⟩).bind (fun o => C.fromSlice (decodeFenced o.bytes).2)

/-- `lease` may stand at `version`: at the first one, or over a lease that is there. -/
def Rooted (s : Shared ι) (log : Bytes) (version : UInt64) (lease : PartitionLease) : Prop :=
  version = 0 ∨ ∃ prev before, version.toNat = prev.toNat + 1 ∧
    leaseAt C s log prev = some before ∧ Succeeds before lease

def Filed (s : Shared ι) (path : ObjectPath) (lease : PartitionLease) : Prop :=
  ∃ version, path.file = .manifest version ∧ Rooted C s path.log version lease

/-- Every put is the creation of a lease in its place, one its writer's call may write. The objects
    are what the puts have left that took effect, each at a path of its own. -/
structure LeaseInv (st : PartitionLeaseStore) (calls : ι → LeaseCall) (s : Shared ι) : Prop where
  puts : ∀ put ∈ s.puts, put.mode = .create ∧ ∃ lease, put.bytes = leaseBytes st.codec lease ∧
    (calls put.writer).Writes lease ∧
    committerForKey st.path (calls put.writer).key = .ok put.path.log ∧
    Filed st.codec s put.path lease
  landed : ∀ ticket ∈ s.effects, ∃ put o, s.puts[ticket]? = some put ∧
    s.object put.path = some o ∧ o.bytes = put.bytes
  source : ∀ path o, s.object path = some o → ∃ ticket ∈ s.effects, ∃ put,
    s.puts[ticket]? = some put ∧ put.path = path ∧ put.bytes = o.bytes
  once : ∀ a ∈ s.effects, ∀ b ∈ s.effects, ∀ put put', s.puts[a]? = some put →
    s.puts[b]? = some put' → put.path = put'.path → a = b
  refused : ∀ ticket ∈ s.refused, ∃ put o, s.puts[ticket]? = some put ∧
    s.object put.path = some o

/-- Objects stay as they are, puts and their effects are only added. -/
structure Extends (s t : Shared ι) : Prop where
  objects : ∀ path o, s.object path = some o → t.object path = some o
  puts : s.puts <+: t.puts
  effects : s.effects <+: t.effects

variable {C} {st : PartitionLeaseStore} {calls : ι → LeaseCall} {s t u : Shared ι}
  {lease' : PartitionLease} {path : ObjectPath} {i : ι}

theorem Extends.refl (s : Shared ι) : Extends s s :=
  ⟨fun _ _ h => h, prefix_rfl, prefix_rfl⟩

theorem Extends.trans (h : Extends s t) (h' : Extends t u) : Extends s u :=
  ⟨fun path o ho => h'.objects path o (h.objects path o ho), h.puts.trans h'.puts,
    h.effects.trans h'.effects⟩

theorem Extends.of_objects (hobj : t.objects = s.objects) (hputs : s.puts <+: t.puts)
    (heff : t.effects = s.effects) : Extends s t where
  objects path o ho := by
    unfold Shared.object at ho ⊢
    rw [hobj]
    exact ho
  puts := hputs
  effects := heff ▸ prefix_rfl

theorem Extends.leaseAt (h : Extends s t) (hlease : leaseAt C s log version = some lease) :
    leaseAt C t log version = some lease := by
  obtain ⟨o, ho, hdec⟩ := bind_eq_some_iff.1 hlease
  exact bind_eq_some_iff.2 ⟨o, h.objects _ o ho, hdec⟩

theorem Rooted.mono (h : Rooted C s log version lease) (hst : Extends s t) :
    Rooted C t log version lease := by
  rcases h with h | ⟨prev, before, hprev, hbefore, hsucc⟩
  · exact .inl h
  · exact .inr ⟨prev, before, hprev, hst.leaseAt hbefore, hsucc⟩

theorem Filed.mono (h : Filed C s path lease) (hst : Extends s t) : Filed C t path lease := by
  obtain ⟨version, hfile, hroot⟩ := h
  exact ⟨version, hfile, hroot.mono hst⟩

theorem fromSlice_leaseBytes (lease : PartitionLease) :
    C.fromSlice (decodeFenced (leaseBytes C lease)).2 = some lease := by
  rw [leaseBytes, decodeFenced_encodeFenced, C.fromSlice_toVec]

theorem leaseBytes_injective (h : leaseBytes C lease = leaseBytes C lease') : lease = lease' := by
  have heq := congrArg (fun bs => C.fromSlice (decodeFenced bs).2) h
  simpa only [fromSlice_leaseBytes, some.injEq] using heq

/-! ## Writers -/

/-- A program has put a lease, and the put took effect. -/
def Wrote (C : LeaseCodec) (i : ι) (log : Bytes) (version : UInt64) (lease : PartitionLease)
    (s : Shared ι) : Prop :=
  ∃ ticket ∈ s.effects, s.puts[ticket]? =
    some ⟨i, ⟨log, .manifest version⟩, leaseBytes C lease, .create⟩

theorem Wrote.mono (h : Wrote C i log version lease s) (hst : Extends s t) :
    Wrote C i log version lease t := by
  obtain ⟨ticket, hticket, hput⟩ := h
  refine ⟨ticket, hst.effects.subset hticket, ?_⟩
  obtain ⟨rest, hrest⟩ := hst.puts
  obtain ⟨hlt, -⟩ := List.getElem?_eq_some_iff.1 hput
  rw [← hrest, List.getElem?_append_left hlt]
  exact hput

section

variable (hinv : LeaseInv st calls s)

include hinv

theorem Wrote.leaseAt
    (h : Wrote st.codec i log version lease s) : leaseAt st.codec s log version = some lease := by
  obtain ⟨ticket, hticket, hput⟩ := h
  obtain ⟨put, o, hput', ho, hbytes⟩ := hinv.landed ticket hticket
  rw [hput] at hput'
  cases hput'
  rw [Cluster.leaseAt, ho, bind_some, hbytes, fromSlice_leaseBytes]

/-- A version is written by one call: of two commits at one parent the store lets one in. -/
theorem Wrote.unique {i j : ι}
    (h : Wrote st.codec i log version lease s) (h' : Wrote st.codec j log version lease' s) :
    i = j := by
  obtain ⟨ticket, hticket, hput⟩ := h
  obtain ⟨ticket', hticket', hput'⟩ := h'
  have hsame := hinv.once ticket hticket ticket' hticket' _ _ hput hput' rfl
  subst hsame
  exact congrArg Put.writer (some.inj (hput.symm.trans hput'))

theorem Wrote.writes (h : Wrote st.codec i log version lease s) :
    (calls i).Writes lease ∧ committerForKey st.path (calls i).key = .ok log := by
  obtain ⟨ticket, -, hput⟩ := h
  obtain ⟨-, lease', hbytes, hwrites, hlog, -⟩ := hinv.puts _ (mem_of_getElem? hput)
  rw [leaseBytes_injective hbytes]
  exact ⟨hwrites, hlog⟩

end

/-! ## Along the versions -/

variable (h : LeaseInv st calls s) {v w : UInt64} {ticket : Nat} {p : Put ι} {now : Int}

include h

theorem LeaseInv.filed {o : Object} (ho : s.object path = some o) :
    ∃ lease, o.bytes = leaseBytes st.codec lease ∧ Filed st.codec s path lease := by
  obtain ⟨ticket, -, put, hput, rfl, hbytes⟩ := h.source path o ho
  obtain ⟨-, lease, hlease, -, -, hfiled⟩ := h.puts put (mem_of_getElem? hput)
  exact ⟨lease, hbytes ▸ hlease, hfiled⟩

theorem LeaseInv.rooted (hlease : leaseAt st.codec s log version = some lease) :
    Rooted st.codec s log version lease := by
  obtain ⟨o, ho, hdec⟩ := bind_eq_some_iff.1 hlease
  obtain ⟨lease', hbytes, version', hfile, hroot⟩ := h.filed ho
  rw [hbytes, fromSlice_leaseBytes] at hdec
  cases hdec
  cases hfile
  exact hroot

theorem LeaseInv.no_head (log : Bytes) : s.object ⟨log, .head⟩ = none := by
  cases ho : s.object ⟨log, .head⟩ with
  | none => rfl
  | some o =>
    obtain ⟨lease, -, version, hfile, -⟩ := h.filed ho
    cases hfile

theorem LeaseInv.exists_wrote (hlease : Cluster.leaseAt st.codec s log version = some lease) :
    ∃ i, Wrote st.codec i log version lease s := by
  obtain ⟨o, ho, hdec⟩ := bind_eq_some_iff.1 hlease
  obtain ⟨ticket, hticket, put, hput, hpath, hbytes⟩ := h.source _ o ho
  obtain ⟨hmode, lease', hlease', -, -⟩ := h.puts put (mem_of_getElem? hput)
  rw [← hbytes, hlease', fromSlice_leaseBytes] at hdec
  cases hdec
  obtain ⟨writer, path, bytes, mode⟩ := put
  subst hmode hlease' hpath
  exact ⟨writer, ticket, hticket, hput⟩

/-- What holds of the lease of a version, and goes from each version to the next, holds of the lease
    of any later one. -/
theorem LeaseInv.along {P : UInt64 → PartitionLease → Prop}
    (hvw : v ≤ w) (hlease : leaseAt st.codec s log v = some lease)
    (hlater : leaseAt st.codec s log w = some later) (hfirst : P v lease)
    (hstep : ∀ prev before w later, v ≤ prev → w.toNat = prev.toNat + 1 →
      leaseAt st.codec s log prev = some before → leaseAt st.codec s log w = some later →
      Succeeds before later → P prev before → P w later) : P w later := by
  obtain ⟨n, hn⟩ : ∃ n, w.toNat = v.toNat + n :=
    ⟨w.toNat - v.toNat, by have := UInt64.le_iff_toNat_le.1 hvw; omega⟩
  induction n generalizing w later with
  | zero =>
    have hwv : w = v := UInt64.toNat_inj.1 (by omega)
    subst hwv
    rw [hlease] at hlater
    cases hlater
    exact hfirst
  | succ n ih =>
    rcases h.rooted hlater with hzero | ⟨prev, before, hprev, hbefore, hsucc⟩
    · subst hzero
      have hnat : (0 : UInt64).toNat = 0 := rfl
      omega
    · have hvprev : v ≤ prev := UInt64.le_iff_toNat_le.2 (by omega)
      exact hstep prev before w later hvprev (by omega) hbefore hlater hsucc
        (ih hvprev hbefore (by omega))

theorem LeaseInv.generation_le (hvw : v ≤ w) (hlease : leaseAt st.codec s log v = some lease)
    (hlater : leaseAt st.codec s log w = some later) : lease.generation ≤ later.generation :=
  h.along (P := fun _ b => lease.generation ≤ b.generation) hvw hlease hlater (UInt64.le_refl _)
    (fun _ _ _ _ _ _ _ _ hbc hab => UInt64.le_trans hab hbc.le)

theorem LeaseInv.holder_eq (hlease : leaseAt st.codec s log v = some lease)
    (hlater : leaseAt st.codec s log w = some later) (hgen : lease.generation = later.generation)
    (hmax : lease.generation < maxGeneration) : lease.holderPod = later.holderPod := by
  have hone : ∀ {v w : UInt64} {lease later : PartitionLease}, v ≤ w →
      leaseAt st.codec s log v = some lease → leaseAt st.codec s log w = some later →
      lease.generation < maxGeneration → lease.generation = later.generation →
      lease.holderPod = later.holderPod := by
    intro v w lease later hvw hlease hlater
    refine h.along (P := fun _ b => lease.generation < maxGeneration →
      lease.generation = b.generation → lease.holderPod = b.holderPod) hvw hlease hlater
      (fun _ _ => rfl) ?_
    intro prev b w c hvprev _ hb _ hbc hsame ha hac
    -- between two equal generations every one is the same
    have heq : lease.generation = b.generation :=
      UInt64.le_antisymm (h.generation_le hvprev hlease hb) (hac ▸ hbc.le)
    rw [hsame ha heq]
    exact (hbc.renewed (heq ▸ ha) (hac ▸ heq)).1.symm
  rcases UInt64.le_total v w with hvw | hwv
  · exact hone hvw hlease hlater hmax hgen
  · exact (hone hwv hlater hlease (hgen ▸ hmax) hgen.symm).symm

/-! ## Steps -/

theorem LeaseInv.of_same (hst : Extends s t) (hobj : t.objects = s.objects)
    (hputs : t.puts = s.puts) (heff : t.effects = s.effects) (href : ∀ ticket ∈ t.refused,
      ticket ∈ s.refused ∨ ∃ put o, s.puts[ticket]? = some put ∧ s.object put.path = some o) :
    LeaseInv st calls t where
  puts put hput := by
    rw [hputs] at hput
    obtain ⟨hmode, lease, hbytes, hwrites, hlog, hfiled⟩ := h.puts put hput
    exact ⟨hmode, lease, hbytes, hwrites, hlog, hfiled.mono hst⟩
  landed ticket hticket := by
    rw [heff] at hticket
    obtain ⟨put, o, hput, ho, hbytes⟩ := h.landed ticket hticket
    exact ⟨put, o, hputs ▸ hput, hst.objects _ o ho, hbytes⟩
  source path o ho := by
    unfold Shared.object at ho
    rw [hobj] at ho
    rw [heff, hputs]
    exact h.source path o ho
  once := by
    rw [heff, hputs]
    exact h.once
  refused ticket hticket := by
    have hold : ∃ put o, s.puts[ticket]? = some put ∧ s.object put.path = some o :=
      (href ticket hticket).elim (h.refused ticket) id
    obtain ⟨put, o, hput, ho⟩ := hold
    exact ⟨put, o, hputs ▸ hput, hst.objects _ o ho⟩

theorem LeaseInv.issue (hmode : p.mode = .create) (hbytes : p.bytes = leaseBytes st.codec lease)
    (hwrites : (calls p.writer).Writes lease)
    (hlog : committerForKey st.path (calls p.writer).key = .ok p.path.log)
    (hfiled : Filed st.codec s p.path lease) :
    LeaseInv st calls { s with puts := s.puts ++ [p] } ∧ Extends s { s with puts := s.puts ++ [p] } := by
  have hst : Extends s { s with puts := s.puts ++ [p] } := .of_objects rfl (prefix_append _ _) rfl
  -- a put that took effect was there before
  have hold : ∀ ticket ∈ s.effects, (s.puts ++ [p])[ticket]? = s.puts[ticket]? := by
    intro ticket hticket
    obtain ⟨put, -, hput, -⟩ := h.landed ticket hticket
    obtain ⟨hlt, -⟩ := List.getElem?_eq_some_iff.1 hput
    exact List.getElem?_append_left hlt
  refine ⟨⟨?_, ?_, ?_, ?_, ?_⟩, hst⟩
  · intro put hput
    rcases mem_append.1 hput with hmem | hnew
    · obtain ⟨hmode', lease', hbytes', hwrites', hlog', hfiled'⟩ := h.puts put hmem
      exact ⟨hmode', lease', hbytes', hwrites', hlog', hfiled'.mono hst⟩
    · rw [mem_singleton.1 hnew]
      exact ⟨hmode, lease, hbytes, hwrites, hlog, hfiled.mono hst⟩
  · intro ticket hticket
    obtain ⟨put, o, hput, ho, heq⟩ := h.landed ticket hticket
    exact ⟨put, o, (hold ticket hticket).trans hput, ho, heq⟩
  · intro path o ho
    obtain ⟨ticket, hticket, put, hput, hpath, heq⟩ := h.source path o ho
    exact ⟨ticket, hticket, put, (hold ticket hticket).trans hput, hpath, heq⟩
  · intro a ha b hb put put' hput hput' hpath
    exact h.once a ha b hb put put' ((hold a ha).symm.trans hput) ((hold b hb).symm.trans hput') hpath
  · intro ticket hticket
    obtain ⟨put, o, hput, ho⟩ := h.refused ticket hticket
    obtain ⟨hlt, -⟩ := List.getElem?_eq_some_iff.1 hput
    exact ⟨put, o, (List.getElem?_append_left hlt).trans hput, ho⟩

theorem LeaseInv.write (hput : s.puts[ticket]? = some p) (hnone : s.object p.path = none) :
    LeaseInv st calls (s.write ticket p now) ∧ Extends s (s.write ticket p now) := by
  have hnew : (s.write ticket p now).object p.path = some ⟨p.bytes, s.nextTag, now⟩ :=
    AList.lookup_insert _
  have hold : ∀ path, path ≠ p.path → (s.write ticket p now).object path = s.object path :=
    fun path hne => AList.lookup_insert_ne hne
  have hst : Extends s (s.write ticket p now) := by
    refine ⟨fun path o ho => ?_, prefix_rfl, prefix_append _ _⟩
    rw [hold path (by rintro rfl; rw [hnone] at ho; cases ho)]
    exact ho
  -- nothing that took effect before is at this path
  have hfree : ∀ a ∈ s.effects, ∀ put, s.puts[a]? = some put → put.path ≠ p.path := by
    intro a ha put hput' hpath
    obtain ⟨put', o, hput'', ho, -⟩ := h.landed a ha
    rw [hput'] at hput''
    cases hput''
    rw [hpath, hnone] at ho
    cases ho
  refine ⟨⟨?_, ?_, ?_, ?_, ?_⟩, hst⟩
  · intro put hmem
    obtain ⟨hmode, lease, hbytes, hwrites, hlog, hfiled⟩ := h.puts put hmem
    exact ⟨hmode, lease, hbytes, hwrites, hlog, hfiled.mono hst⟩
  · intro a ha
    rcases mem_append.1 ha with hbefore | hjust
    · obtain ⟨put, o, hput', ho, hbytes⟩ := h.landed a hbefore
      exact ⟨put, o, hput', hst.objects _ o ho, hbytes⟩
    · rw [mem_singleton.1 hjust]
      exact ⟨p, _, hput, hnew, rfl⟩
  · intro path o ho
    by_cases hpath : path = p.path
    · subst hpath
      rw [hnew] at ho
      cases ho
      exact ⟨ticket, by simp [Shared.write], p, hput, rfl, rfl⟩
    · rw [hold path hpath] at ho
      obtain ⟨a, ha, put, hput', hpath', hbytes⟩ := h.source path o ho
      exact ⟨a, mem_append_left _ ha, put, hput', hpath', hbytes⟩
  · intro a ha b hb put put' hputa hputb hpath
    rcases mem_append.1 ha with hbefore | hjust
    · rcases mem_append.1 hb with hbefore' | hjust'
      · exact h.once a hbefore b hbefore' put put' hputa hputb hpath
      · rw [mem_singleton.1 hjust', show (s.write ticket p now).puts = s.puts from rfl,
          hput] at hputb
        cases hputb
        exact absurd hpath (hfree a hbefore put hputa)
    · rcases mem_append.1 hb with hbefore' | hjust'
      · rw [mem_singleton.1 hjust, show (s.write ticket p now).puts = s.puts from rfl,
          hput] at hputa
        cases hputa
        exact absurd hpath.symm (hfree b hbefore' put' hputb)
      · rw [mem_singleton.1 hjust, mem_singleton.1 hjust']
  · intro a ha
    obtain ⟨put, o, hput', ho⟩ := h.refused a ha
    exact ⟨put, o, hput', hst.objects _ o ho⟩

theorem LeaseInv.arrive
    (harrive : s.arrive ticket now = some t) : LeaseInv st calls t ∧ Extends s t := by
  obtain ⟨put, hput, rfl⟩ := map_eq_some_iff.1 harrive
  have hmode := (h.puts put (mem_of_getElem? hput)).1
  split_ifs with hadmits
  · rw [hmode] at hadmits
    exact h.write hput hadmits
  · have hst : Extends s { s with refused := s.refused ++ [ticket] } :=
      .of_objects rfl prefix_rfl rfl
    refine ⟨h.of_same hst rfl rfl rfl (fun a ha => ?_), hst⟩
    rcases mem_append.1 ha with hbefore | hjust
    · exact .inl hbefore
    · rw [mem_singleton.1 hjust]
      rw [hmode] at hadmits
      obtain ⟨o, ho⟩ := ne_none_iff_exists'.1 hadmits
      exact .inr ⟨put, o, hput, ho⟩

end Log

/-- What the calls of a lease store rely on: logs only grow. -/
def leaseDiscipline {ι : Type} (st : PartitionLeaseStore) (calls : ι → LeaseCall) :
    Discipline ι (Shared ι) where
  inv := LeaseInv st calls
  moves := Extends
  own _ _ _ := True
  moves_refl := .refl
  moves_trans := .trans
  own_refl _ _ := trivial
  own_trans _ _ _ _ _ _ := trivial

end ProximaDb.Cluster
