/-
  ProximaDb.Cluster.LeaseSafety

  Leases under any interleaving of their pods. Claims and releases are programs of a pool over the
  object store, with clocks of their own.
-/
import ProximaDb.Cluster.LeaseLog
import ProximaDb.Lib.Format

namespace ProximaDb.Cluster

open ProximaDb.Lib ProximaDb.Manifest List PartitionLeaseStore
open ManifestCommitter (encodeFenced decodeFenced manifestVersions)
open Meets (gives_seq ret_gives fail_gives gives_from)

variable {ι : Type} {st : PartitionLeaseStore} {calls : ι → LeaseCall} {c : ManifestCommitter}
  {H : Digest} {i : ι} {s t u : Shared ι} {log : Bytes} {parent : Option UInt64}
  {found : Option (UInt64 × PartitionLease)} {w : UInt64} {r : ClaimRequest}
  {earlier : PartitionLease} {key : ResourceKey} {version : UInt64} {target : UInt64}
  {C : LeaseCodec}

theorem rely_of_extends (h : Extends s t) : (leaseDiscipline st calls).rely i s t := ⟨h, trivial⟩

theorem keeps_of_extends (hinv : LeaseInv st calls t) (h : Extends s t) :
    (leaseDiscipline st calls).Keeps i s t := ⟨hinv, h, fun _ _ => trivial⟩

/-- The program keeps the discipline of the leases and gives what `P` says. -/
abbrev LeaseYields (st : PartitionLeaseStore) (calls : ι → LeaseCall) (i : ι) {ε α : Type}
    (P : α → Shared ι → Prop) (p : StoreProg ε α) (s : Shared ι) : Prop :=
  Meets (objectStore ι) (leaseDiscipline st calls) i (Gives (leaseDiscipline st calls) i s P) p s

/-! ## Reading -/

theorem loadHead_none : LeaseYields st calls i (fun r _ => r = none) (c.loadHead H) s := by
  refine meets_get (fun t ht hinv r hr => ?_)
  rcases hr with rfl | ⟨text, rfl⟩
  · have hfound : t.found c.headPath = .error .notFound := by
      have hobject : t.object c.headPath = none := LeaseInv.no_head hinv c.log
      rw [Shared.found, hobject]
    rw [hfound]
    refine meets_readCell (fun u hu _ => gives_from (ht.trans hu) ?_)
    split_ifs
    · exact fail_gives .refl
    · refine meets_get (fun v hv _ r _ => gives_from hv ?_)
      cases r with
      | ok found => exact fail_gives .refl
      | error err =>
        cases err with
        | notFound => exact ret_gives .refl (fun _ _ _ _ => rfl)
        | alreadyExists | precondition | other => exact fail_gives .refl
  · exact fail_gives ht

theorem legacy_gives {α : Type} {f : Option LoadedHead → StoreProg StorageError α}
    {P : α → Shared ι → Prop} (h : ∀ t, Extends s t → LeaseYields st calls i P (f none) t) :
    LeaseYields st calls i P (c.loadHead H >>= f) s := by
  refine gives_seq loadHead_none (fun t r ht _ hr => ?_)
  subst hr
  exact h t ht.1

theorem mem_listing {file : LogFile} {time : Int} : (file, time) ∈ s.listing log ↔
      ∃ o, s.object ⟨log, file⟩ = some o ∧ o.lastModified = time := by
  unfold Shared.listing
  rw [mem_map]
  constructor
  · rintro ⟨⟨⟨log', file'⟩, o⟩, hmem, heq⟩
    obtain ⟨hentry, hlog⟩ := mem_filter.1 hmem
    have hlog' : log' = log := of_decide_eq_true hlog
    subst hlog'
    cases heq
    exact ⟨o, AList.mem_lookup_iff.2 hentry, rfl⟩
  · rintro ⟨o, ho, rfl⟩
    exact ⟨⟨⟨log, file⟩, o⟩, mem_filter.2 ⟨AList.mem_lookup_iff.1 ho, by simp⟩, rfl⟩

theorem manifestVersions_last (metas : List (LogFile × Int)) :
    (∀ version, (manifestVersions metas).getLast? = some version →
      ∃ time, (.manifest version, time) ∈ metas) ∧
    (∀ w time, (.manifest w, time) ∈ metas →
      ∃ version, (manifestVersions metas).getLast? = some version ∧ w ≤ version) := by
  unfold ManifestCommitter.manifestVersions
  generalize hvs : List.filterMap _ metas = versions
  obtain ⟨hperm, hsorted⟩ := sortOf_sortBy UInt64.toNat versions
  have hanti : Std.Antisymm (fun a b : UInt64 => a.toNat ≤ b.toNat) :=
    ⟨fun _ _ h h' => UInt64.toNat_inj.1 (Nat.le_antisymm h h')⟩
  rw [hsorted.destutter_eq_dedup]
  have hmem : ∀ w, w ∈ (sortBy UInt64.toNat versions).dedup ↔
      ∃ time, (.manifest w, time) ∈ metas := by
    intro w
    rw [mem_dedup, hperm.mem_iff, ← hvs, mem_filterMap]
    constructor
    · rintro ⟨⟨file, time⟩, hm, hfile⟩
      cases file with
      | manifest v =>
        cases hfile
        exact ⟨time, hm⟩
      | _ => cases hfile
    · rintro ⟨time, hm⟩
      exact ⟨(.manifest w, time), hm, rfl⟩
  constructor
  · intro version hlast
    exact (hmem version).1 (mem_of_getLast? hlast)
  · intro w time hm
    have hw := (hmem w).2 ⟨time, hm⟩
    have hsorted := hsorted.sublist (dedup_sublist _)
    obtain ⟨front, last, hsplit⟩ := eq_nil_or_concat' _ |>.resolve_left (ne_nil_of_mem hw)
    rw [hsplit] at hw hsorted ⊢
    refine ⟨last, List.getLast?_concat, ?_⟩
    rcases mem_append.1 hw with hfront | hlast
    · exact UInt64.le_iff_toNat_le.2 ((pairwise_append.1 hsorted).2.2 w hfront last (by simp))
    · rw [mem_singleton.1 hlast]
      exact UInt64.le_refl _

/-- What is known of the latest version: it is there, and no earlier manifest is above it. -/
def Latest (log : Bytes) (s : Shared ι) (latest : Option UInt64) (t : Shared ι) : Prop :=
  (∀ version, latest = some version → ∃ o, t.object ⟨log, .manifest version⟩ = some o) ∧
    ∀ w o, s.object ⟨log, .manifest w⟩ = some o → ∃ version, latest = some version ∧ w ≤ version

theorem Latest.mono {latest : Option UInt64} (h : Latest log s latest t) (htu : Extends t u) :
    Latest log s latest u := by
  refine ⟨fun version hv => ?_, h.2⟩
  obtain ⟨o, ho⟩ := h.1 version hv
  exact ⟨o, htu.objects _ o ho⟩

def Overtaken (log : Bytes) (parent : Option UInt64) (s : Shared ι) : Prop :=
  ∃ w o, s.object ⟨log, .manifest w⟩ = some o ∧ ∀ version, parent = some version → version < w

theorem Overtaken.mono (h : Overtaken log parent s) (hst : Extends s t) :
    Overtaken log parent t := by
  obtain ⟨w, o, ho, hw⟩ := h
  exact ⟨w, o, hst.objects _ o ho, hw⟩

theorem Latest.overtaken {latest : Option UInt64} (h : Latest log s latest t)
    (hthere : ∀ p, parent = some p → ∃ o, s.object ⟨log, .manifest p⟩ = some o)
    (hne : parent ≠ latest) : Overtaken log parent t := by
  cases parent with
  | none =>
    obtain ⟨version, rfl⟩ := Option.ne_none_iff_exists'.1 (Ne.symm hne)
    obtain ⟨o, ho⟩ := h.1 version rfl
    exact ⟨version, o, ho, nofun⟩
  | some p =>
    obtain ⟨o, ho⟩ := hthere p rfl
    obtain ⟨version, rfl, hle⟩ := h.2 p o ho
    obtain ⟨o', ho'⟩ := h.1 version rfl
    refine ⟨version, o', ho', fun p' hp' => ?_⟩
    cases hp'
    exact UInt64.lt_of_le_of_ne hle (fun heq => hne (by rw [heq]))

theorem legacyVersions_gives :
    LeaseYields st calls i (fun versions t => Latest c.log s versions.getLast? t)
      c.legacyVersions s := by
  refine gives_seq (P := fun metas t => Latest c.log s (manifestVersions metas).getLast? t)
    (listLog_gives (fun t ht _ u hu => ?_)) (fun t metas _ _ hlatest => ?_)
  · obtain ⟨hthere, habove⟩ := manifestVersions_last (t.listing c.log)
    refine ⟨fun version hv => ?_, fun w o ho => ?_⟩
    · obtain ⟨time, hm⟩ := hthere version hv
      obtain ⟨o, ho, -⟩ := mem_listing.1 hm
      exact ⟨o, hu.1.objects _ o ho⟩
    · exact habove w _ (mem_listing.2 ⟨o, ht.1.objects _ o ho, rfl⟩)
  · exact ret_gives .refl (fun u hu _ _ => hlatest.mono hu.1)

theorem latestLegacyVersion_gives :
    LeaseYields st calls i (Latest c.log s) c.latestLegacyVersion s := by
  refine gives_seq legacyVersions_gives (fun t versions _ _ hlatest => ?_)
  exact ret_gives .refl (fun u hu _ _ => hlatest.mono hu.1)

theorem latestVersion_gives : LeaseYields st calls i (Latest c.log s) (c.latestVersion H) s := by
  refine legacy_gives (fun t ht => ?_)
  refine latestLegacyVersion_gives.mono (fun r u _ hr => ?_)
  cases r with
  | ok latest => exact ⟨hr.1, hr.2.1, fun w o ho => hr.2.2 w o (ht.objects _ o ho)⟩
  | error e => exact hr

theorem readFenced_gives (hc : c.legacyEncoding = .generationPrefixed) (version : UInt64) :
    LeaseYields st calls i (fun found t => ∃ o,
        t.object ⟨c.log, .manifest version⟩ = some o ∧ found = decodeFenced o.bytes)
      (c.readFenced H version) s := by
  refine legacy_gives (fun t _ => ?_)
  refine gives_seq (P := fun bytes u => ∃ o,
      u.object ⟨c.log, .manifest version⟩ = some o ∧ bytes = o.bytes)
    (getBytes_gives (fun u o _ _ ho v hv => ⟨o, hv.1.objects _ o ho, rfl⟩))
    (fun u bytes _ _ hbytes => ?_)
  refine Meets.ofExcept_gives .refl (fun found v hfound hv _ _ => ?_)
  obtain ⟨o, ho, rfl⟩ := hbytes
  rw [ManifestCommitter.decodeLegacy, hc] at hfound
  split_ifs at hfound
  cases hfound
  exact ⟨o, hv.1.objects _ o ho, rfl⟩

theorem committerFor_gives (key : ResourceKey) :
    LeaseYields st calls i (fun c _ => c.legacyEncoding = .generationPrefixed ∧
      committerForKey st.path key = .ok c.log) (st.committerFor key) s := by
  unfold committerFor
  cases hlog : committerForKey st.path key with
  | error text => exact fail_gives .refl
  | ok log =>
    refine meets_newCell (fun t ht hinvt => ?_)
    have hst : Extends t { t with cells := t.cells ++ [none] } := .of_objects rfl prefix_rfl rfl
    refine ⟨keeps_of_extends (hinvt.of_same hst rfl rfl rfl (fun _ => .inl)) hst, ?_⟩
    exact ret_gives (ht.trans (rely_of_extends hst)) (fun _ _ _ _ => ⟨rfl, rfl⟩)

/-- What `read_key` tells of a log: a lease that is there, and every lease that was there when the
    call began stands at its version or below; or that there was none. -/
structure ReadMeans (st : PartitionLeaseStore) (log : Bytes) (s : Shared ι)
    (found : Option (UInt64 × PartitionLease)) (t : Shared ι) : Prop where
  there : ∀ version lease, found = some (version, lease) →
    leaseAt st.codec t log version = some lease
  latest : ∀ w earlier, leaseAt st.codec s log w = some earlier →
    ∃ version lease, found = some (version, lease) ∧ w ≤ version

theorem readKey_gives (hkey : committerForKey st.path key = .ok log) :
    LeaseYields st calls i (ReadMeans st log s) (st.readKey key) s := by
  refine gives_seq (committerFor_gives key) (fun t c ht _ hc => ?_)
  have hclog : c.log = log := Except.ok.inj (hc.2.symm.trans hkey)
  refine gives_seq (Meets.mapError_gives latestVersion_gives) (fun u latest hu _ hlatest => ?_)
  rw [hclog] at hlatest
  -- the leases that were there when the call began, in terms of the latest version
  have hbelow : ∀ w earlier, leaseAt st.codec s log w = some earlier →
      ∃ version, latest = some version ∧ w ≤ version := by
    intro w earlier hearlier
    obtain ⟨o, ho, -⟩ := Option.bind_eq_some_iff.1 hearlier
    exact hlatest.2 w o (ht.1.objects _ o ho)
  cases latest with
  | none =>
    refine ret_gives .refl (fun v _ _ _ =>
      ⟨fun _ _ heq => (by cases heq), fun w earlier hw => ?_⟩)
    obtain ⟨version, hversion, -⟩ := hbelow w earlier hw
    cases hversion
  | some version =>
    refine gives_seq (Meets.mapError_gives (readFenced_gives hc.1 version))
      (fun v found _ _ hfound => ?_)
    obtain ⟨o, ho, rfl⟩ := hfound
    cases hlease : st.codec.fromSlice (decodeFenced o.bytes).2 with
    | none => exact fail_gives .refl
    | some lease =>
      refine ret_gives .refl (fun x hx _ _ => ⟨fun version' lease' heq => ?_,
        fun w earlier hw => ?_⟩)
      · cases heq
        rw [hclog] at ho
        have hv' : leaseAt st.codec v log version = some lease := by
          rw [leaseAt, ho, Option.bind_some, hlease]
        exact hx.1.leaseAt hv'
      · obtain ⟨version', hversion, hle⟩ := hbelow w earlier hw
        cases hversion
        exact ⟨version, lease, rfl, hle⟩

/-! ## Committing -/

def Placed (C : LeaseCodec) (s : Shared ι) (log : Bytes) (parent : Option UInt64)
    (lease : PartitionLease) : Prop :=
  ∀ version, parent = some version →
    ∃ before, leaseAt C s log version = some before ∧ Succeeds before lease

theorem Placed.mono (h : Placed C s log parent lease)
    (hst : Extends s t) : Placed C t log parent lease := by
  intro version hversion
  obtain ⟨before, hbefore, hsucc⟩ := h version hversion
  exact ⟨before, hst.leaseAt hbefore, hsucc⟩

theorem toNat_successor {version target : UInt64} (h : successor (some version) = .ok target) :
    target.toNat = version.toNat + 1 := by
  unfold successor at h
  dsimp only at h
  split_ifs at h with hlt
  cases h
  rw [UInt64.toNat_add, UInt64.toNat_one, Nat.mod_eq_of_lt hlt]

theorem Placed.rooted (h : Placed C s log parent lease) (htarget : successor parent = .ok target) :
    Rooted C s log target lease := by
  cases parent with
  | none =>
    cases htarget
    exact .inl rfl
  | some version =>
    obtain ⟨before, hbefore, hsucc⟩ := h version rfl
    exact .inr ⟨version, before, toNat_successor htarget, hbefore, hsucc⟩

theorem lt_successor {target version : UInt64} (h : successor parent = .ok target)
    (hversion : parent = some version) : version < target := by
  subst hversion
  rw [UInt64.lt_iff_toNat_lt, toNat_successor h]
  omega

/-- What a commit tells: the lease was put at the version after the parent, or another manifest is
    there already. -/
structure CommitTells (st : PartitionLeaseStore) (i : ι) (log : Bytes) (parent : Option UInt64)
    (lease : PartitionLease) (r : CommitOutcome) (t : Shared ι) : Prop where
  wrote : ∀ version, r = .committed version → Wrote st.codec i log version lease t ∧
    ∀ p, parent = some p → p < version
  overtaken : ∀ latest, r = .conflict latest → Overtaken log parent t

theorem claimSlot_gives
    (hwrites : (calls i).Writes lease) (hkey : committerForKey st.path (calls i).key = .ok c.log)
    (hplaced : Placed st.codec s c.log parent lease) (htarget : successor parent = .ok target) :
    LeaseYields st calls i (CommitTells st i c.log parent lease)
      (c.claimSlot target (leaseBytes st.codec lease)) s := by
  refine meets_issue (fun t ht hinvt => ?_)
  have hfiled : Filed st.codec t (c.manifestPath target) lease :=
    ⟨target, rfl, (hplaced.mono ht.1).rooted htarget⟩
  obtain ⟨hinv', hst⟩ :=
    hinvt.issue (p := ⟨i, c.manifestPath target, leaseBytes st.codec lease, .create⟩) rfl rfl
      hwrites hkey hfiled
  refine ⟨keeps_of_extends hinv' hst, ?_⟩
  refine gives_from (ht.trans (rely_of_extends hst)) ?_
  refine meets_await (fun u hu hinvu r hr href => gives_from hu ?_)
  have hticket : u.puts[t.puts.length]? =
      some ⟨i, ⟨c.log, .manifest target⟩, leaseBytes st.codec lease, .create⟩ := by
    obtain ⟨rest, hrest⟩ := hu.1.puts
    rw [← hrest]
    simp [ManifestCommitter.manifestPath]
  match r with
  | .ok () =>
    refine ret_gives .refl (fun v hv _ _ => ⟨fun version hversion => ?_, fun _ heq => ?_⟩)
    · cases hversion
      have hwrote : Wrote st.codec i c.log target lease u := ⟨t.puts.length, hr rfl, hticket⟩
      exact ⟨hwrote.mono hv.1, fun p hp => lt_successor htarget hp⟩
    · cases heq
  | .error .alreadyExists =>
    have hthere : Overtaken c.log parent u := by
      obtain ⟨put, o, hput, ho⟩ := LeaseInv.refused hinvu _ (href rfl)
      rw [hticket] at hput
      cases hput
      exact ⟨target, o, ho, fun p hp => lt_successor htarget hp⟩
    refine gives_seq latestLegacyVersion_gives (fun v latest hv _ _ => ?_)
    refine ret_gives .refl (fun w hw _ _ => ⟨fun version hversion => ?_, fun _ _ => ?_⟩)
    · cases hversion
    · exact (hthere.mono hv.1).mono hw.1
  | .error .notFound | .error .precondition | .error (.other _) => exact fail_gives .refl

theorem fencedByTip_gives (hinv : LeaseInv st calls s) (hc : c.legacyEncoding = .generationPrefixed)
    (hplaced : Placed st.codec s c.log parent lease) :
    LeaseYields st calls i (fun fenced _ => fenced = false)
      (c.fencedByTip parent (some lease.generation)) s := by
  cases parent with
  | none =>
    exact ret_gives .refl (fun _ _ _ _ => rfl)
  | some version =>
    obtain ⟨before, hbefore, hsucc⟩ := hplaced version rfl
    obtain ⟨o, ho, hdec⟩ := Option.bind_eq_some_iff.1 hbefore
    have hbytes : o.bytes = leaseBytes st.codec before := by
      obtain ⟨lease', hlease', -⟩ := hinv.filed ho
      rw [hlease', fromSlice_leaseBytes] at hdec
      cases hdec
      exact hlease'
    refine gives_seq (P := fun bytes _ => bytes = leaseBytes st.codec before)
      (getBytes_gives (fun t o' ht _ ho' _ _ => ?_)) (fun t bytes _ _ heq => ?_)
    · have hsame := ht.1.objects _ o ho
      rw [show t.object (c.manifestPath version) = some o from hsame] at ho'
      cases ho'
      exact hbytes
    · refine gives_seq (P := fun existing _ => existing.1 = before.generation)
        (Meets.ofExcept_gives .refl (fun existing _ hex _ _ _ => ?_))
        (fun u existing _ _ hgen => ?_)
      · rw [heq, ManifestCommitter.decodeLegacy, hc] at hex
        split_ifs at hex
        cases hex
        rw [leaseBytes, decodeFenced_encodeFenced]
      · refine ret_gives .refl (fun _ _ _ _ => ?_)
        rw [hgen, decide_eq_false_iff_not, UInt64.not_lt]
        exact hsucc.le

theorem commitLease_gives (hc : c.legacyEncoding = .generationPrefixed)
    (hwrites : (calls i).Writes lease)
    (hkey : committerForKey st.path (calls i).key = .ok c.log)
    (hplaced : Placed st.codec s c.log parent lease) :
    LeaseYields st calls i (CommitTells st i c.log parent lease)
      (st.commitLease c parent lease) s := by
  refine legacy_gives (fun t hst => ?_)
  have hplacedt := hplaced.mono hst
  -- what the listing of the commit says of the latest version
  refine gives_seq legacyVersions_gives (fun u versions hu hinvu hlatest => ?_)
  dsimp only
  split_ifs with hmoved
  · refine ret_gives .refl (fun v hv _ _ => ⟨fun version hversion => ?_, fun _ _ => ?_⟩)
    · cases hversion
    · refine (Latest.overtaken hlatest (fun p hp => ?_) hmoved).mono hv.1
      obtain ⟨before, hbefore, -⟩ := hplacedt p hp
      obtain ⟨o, ho, -⟩ := Option.bind_eq_some_iff.1 hbefore
      exact ⟨o, ho⟩
  · exact fail_gives .refl
  · exact fail_gives .refl
  · have hsame : versions.getLast? = parent := (not_not.1 hmoved).symm
    rw [hsame]
    have hplacedu := hplacedt.mono hu.1
    refine gives_seq (fencedByTip_gives hinvu hc hplacedu) (fun v fenced hv _ hfenced => ?_)
    subst hfenced
    rw [if_neg (by decide)]
    refine gives_seq (Meets.ofExcept_gives (P := fun target _ =>
      successor parent = .ok target) .refl (fun _ _ h _ _ _ => h))
      (fun w target hw _ htarget => ?_)
    exact claimSlot_gives hwrites hkey (hplacedu.mono (hv.trans hw).1) htarget

/-! ## Calls -/

def LeaseOutcome.lease : LeaseOutcome → PartitionLease
  | acquired lease => lease
  | held lease => lease
  | fenced lease => lease

/-- What the outcome of a claim tells: a lease that is acquired is the claimer's, is there, and
    stands above all that were there when the call began; and no lease that was there then has a
    higher generation than the one the outcome names. -/
structure ClaimMeans (st : PartitionLeaseStore) (r : ClaimRequest) (log : Bytes) (s : Shared ι)
    (outcome : LeaseOutcome) (t : Shared ι) : Prop where
  owned : ∀ lease, outcome = .acquired lease → lease.holderPod = r.holderPod ∧
    lease.released = false ∧ ∃ version, leaseAt st.codec t log version = some lease ∧
      ∀ w earlier, leaseAt st.codec s log w = some earlier → w < version
  current : ∀ w earlier, leaseAt st.codec s log w = some earlier →
    earlier.generation ≤ outcome.lease.generation

theorem ClaimMeans.from_earlier {outcome : LeaseOutcome} (h : ClaimMeans st r log t outcome u)
    (hst : Extends s t) : ClaimMeans st r log s outcome u where
  owned lease hlease := by
    obtain ⟨hpod, hlive, version, hversion, habove⟩ := h.owned lease hlease
    exact ⟨hpod, hlive, version, hversion, fun w earlier hw => habove w earlier (hst.leaseAt hw)⟩
  current w earlier hw := h.current w earlier (hst.leaseAt hw)

theorem Meets.claim_from {p : StoreProg LeaseError LeaseOutcome} (hst : Extends s t)
    (h : LeaseYields st calls i (ClaimMeans st r log t) p t) :
    LeaseYields st calls i (ClaimMeans st r log s) p t := by
  refine h.mono (fun outcome u _ hout => ?_)
  cases outcome with
  | ok outcome => exact ⟨hout.1, hout.2.from_earlier hst⟩
  | error e => exact hout

theorem ReadMeans.generation_le
    (h : ReadMeans st log s (some (version, lease)) t) (hinv : LeaseInv st calls t)
    (hst : Extends s t) (hw : leaseAt st.codec s log w = some earlier) :
    earlier.generation ≤ lease.generation := by
  obtain ⟨version', lease', heq, hle⟩ := h.latest w earlier hw
  cases heq
  exact hinv.generation_le hle (hst.leaseAt hw) (h.there version lease rfl)

variable {generation : UInt64} {attempted : PartitionLease} {latest : Option PartitionLease}
  {pod : String} {nowMs : Int}

theorem ReadMeans.placed (h : ReadMeans st log s found t)
    (hdec : r.decision found = .commit parent generation) :
    Placed st.codec t log parent (r.lease generation) := by
  intro version hversion
  cases found with
  | none =>
    cases hdec
    cases hversion
  | some x =>
    obtain ⟨version', lease⟩ := x
    obtain ⟨rfl, hsucc⟩ := ClaimRequest.decision_succeeds hdec
    cases hversion
    exact ⟨lease, h.there version lease rfl, hsucc⟩

/-- The generation a claim writes is no lower than any that was there when it began. -/
theorem ReadMeans.le_claimed (h : ReadMeans st log s found t) (hinv : LeaseInv st calls t)
    (hst : Extends s t) (hdec : r.decision found = .commit parent generation)
    (hw : leaseAt st.codec s log w = some earlier) : earlier.generation ≤ generation := by
  cases found with
  | none =>
    obtain ⟨version, lease, heq, -⟩ := h.latest w earlier hw
    cases heq
  | some x =>
    obtain ⟨version, lease⟩ := x
    have hsucc := (ClaimRequest.decision_succeeds hdec).2
    exact UInt64.le_trans (h.generation_le hinv hst hw) hsucc.le

/-- What is above the parent of a claim is above all that was there when it began. -/
theorem ReadMeans.below_parent (h : ReadMeans st log s found t)
    (hdec : r.decision found = .commit parent generation)
    (habove : ∀ p, parent = some p → p < version) (hw : leaseAt st.codec s log w = some earlier) :
    w < version := by
  obtain ⟨found', lease, heq, hle⟩ := h.latest w earlier hw
  have hparent := ClaimRequest.decision_parent hdec
  rw [heq] at hparent
  exact UInt64.lt_of_le_of_lt hle (habove found' hparent)

theorem resolveIncarnationConflict_adopted
    (h : resolveIncarnationConflict latest pod nowMs attempted = .adopted lease) :
    latest = some lease ∧ lease.holderPod = pod ∧ lease.released = false := by
  unfold resolveIncarnationConflict at h
  cases latest with
  | none => cases h
  | some found =>
    dsimp only at h
    split_ifs at h with hreleased hlive
    cases h
    exact ⟨rfl, hlive.1, by simpa using hreleased⟩

theorem resolveIncarnationConflict_fenced
    (h : resolveIncarnationConflict latest pod nowMs attempted = .fenced lease) :
    latest = some lease ∨ latest = none := by
  unfold resolveIncarnationConflict at h
  cases latest with
  | none => exact .inr rfl
  | some found =>
    dsimp only at h
    split_ifs at h <;> cases h <;> exact .inl rfl

theorem ReadMeans.current (h : ReadMeans st log s found t) (hinv : LeaseInv st calls t)
    (hst : Extends s t)
    (hlease : found.map Prod.snd = some lease ∨ found.map Prod.snd = none)
    (hw : leaseAt st.codec s log w = some earlier) : earlier.generation ≤ lease.generation := by
  obtain ⟨version, lease', heq, -⟩ := h.latest w earlier hw
  subst heq
  rcases hlease with heq | heq
  · cases heq
    exact h.generation_le hinv hst hw
  · cases heq

theorem settleConflict_gives (hinv : LeaseInv st calls s)
    (hkey : committerForKey st.path r.key = .ok log) (generation : UInt64)
    (hovertaken : Overtaken log parent s)
    (hbelow : ∀ w earlier, leaseAt st.codec t log w = some earlier → ∀ version,
      (∀ p, parent = some p → p < version) → w < version)
    (hts : Extends t s) {again : Option (StoreProg LeaseError LeaseOutcome)}
    (hagain : ∀ p, again = some p → ∀ t, LeaseYields st calls i (ClaimMeans st r log t) p t) :
    LeaseYields st calls i (ClaimMeans st r log t) (st.settleConflict r generation again) s := by
  refine gives_seq (readKey_gives hkey) (fun u found hu hinvu hfound => ?_)
  have hread : ∀ {lease : PartitionLease}, found.map Prod.snd = some lease ∨
      found.map Prod.snd = none → ∀ w earlier, leaseAt st.codec t log w = some earlier →
      earlier.generation ≤ lease.generation :=
    fun hlease w earlier hw => hfound.current hinvu hu.1 hlease (hts.leaseAt hw)
  cases hres : resolveIncarnationConflict (found.map Prod.snd) r.holderPod r.nowMs
    (r.lease generation) with
  | adopted lease =>
    obtain ⟨hlatest, hpod, hlive⟩ := resolveIncarnationConflict_adopted hres
    refine ret_gives .refl (fun v hv _ _ => ⟨fun lease' heq => ?_, hread (.inl hlatest)⟩)
    cases heq
    obtain ⟨⟨version, _⟩, hfound', rfl⟩ := Option.map_eq_some_iff.1 hlatest
    refine ⟨hpod, hlive, version, hv.1.leaseAt (hfound.there version _ hfound'), ?_⟩
    -- the manifest that stood in the way is at this version or below
    obtain ⟨w', o, ho, habove⟩ := hovertaken
    obtain ⟨filed, hbytes, -⟩ := hinv.filed ho
    obtain ⟨there, lease', hat, hle⟩ := hfound.latest w' filed (by
      rw [leaseAt, ho, Option.bind_some, hbytes, fromSlice_leaseBytes])
    rw [hfound'] at hat
    cases hat
    intro w earlier hw
    exact hbelow w earlier hw version (fun p hp => UInt64.lt_of_lt_of_le (habove p hp) hle)
  | fenced lease =>
    exact ret_gives .refl (fun v _ _ _ => ⟨fun _ heq => (by cases heq),
      hread (resolveIncarnationConflict_fenced hres)⟩)
  | retry =>
    cases again with
    | none =>
      generalize hlease : (found.map Prod.snd).getD _ = lease
      have hlatest : found.map Prod.snd = some lease ∨ found.map Prod.snd = none := by
        cases found with
        | none => exact .inr rfl
        | some x => exact .inl (congrArg some hlease)
      refine ret_gives .refl (fun v _ _ _ => ⟨fun _ heq => ?_, hread hlatest⟩)
      cases heq
    | some p =>
      exact Meets.claim_from (hts.trans hu.1) (hagain p rfl u)

theorem claimRounds_gives (hcall : calls i = .claim r)
    (hc : c.legacyEncoding = .generationPrefixed) (hkey : committerForKey st.path r.key = .ok c.log)
    (rounds : Nat) :
    LeaseYields st calls i (ClaimMeans st r c.log s) (st.claimRounds r c rounds) s := by
  have hown : committerForKey st.path (calls i).key = .ok c.log := by
    rw [hcall]
    exact hkey
  induction rounds generalizing s with
  | zero => exact fail_gives .refl
  | succ rounds ih =>
    refine gives_seq (readKey_gives hkey) (fun t found ht hinvt hfound => ?_)
    cases hdec : r.decision found with
    | held lease =>
      obtain ⟨version, rfl⟩ := ClaimRequest.decision_held hdec
      exact ret_gives .refl (fun u _ _ _ => ⟨fun _ heq => (by cases heq),
        fun w earlier hw => hfound.generation_le hinvt ht.1 hw⟩)
    | commit parent generation =>
      have hwrites : (calls i).Writes (r.lease generation) := by
        rw [hcall]
        exact ⟨generation, rfl⟩
      refine gives_seq (Meets.mapError_gives
        (commitLease_gives hc hwrites hown (hfound.placed hdec)))
        (fun u outcome hu hinvu htells => ?_)
      cases outcome with
      | committed version =>
        obtain ⟨hwrote, habove⟩ := htells.wrote version rfl
        refine ret_gives .refl (fun v hv hinvv _ => ⟨fun lease heq => ?_,
          fun w earlier hw => hfound.le_claimed hinvt ht.1 hdec hw⟩)
        cases heq
        exact ⟨rfl, rfl, version, (hwrote.mono hv.1).leaseAt hinvv,
          fun w earlier hw => hfound.below_parent hdec habove hw⟩
      | conflict latest =>
        refine settleConflict_gives hinvu hkey generation (htells.overtaken latest rfl)
          (fun w earlier hw version habove => hfound.below_parent hdec habove hw)
          (ht.trans hu).1 (fun p hp v => ?_)
        split_ifs at hp
        cases hp
        exact ih

theorem claim_gives (hcall : calls i = .claim r) :
    LeaseYields st calls i (fun outcome t => ∃ log, committerForKey st.path r.key = .ok log ∧
      ClaimMeans st r log s outcome t) (st.claim r) s := by
  refine gives_seq (committerFor_gives r.key) (fun t c ht _ hc => ?_)
  have hrounds := Meets.claim_from ht.1 (claimRounds_gives hcall hc.1 hc.2 2)
  refine hrounds.mono (fun outcome u _ hout => ?_)
  cases outcome with
  | ok outcome => exact ⟨hout.1, c.log, hc.2, hout.2⟩
  | error e => exact hout

theorem releaseWithKey_gives {holderPod : String} (hcall : calls i = .release key holderPod nowMs) :
    LeaseYields st calls i (fun _ _ => True) (st.releaseWithKey key holderPod nowMs) s := by
  cases hkey : committerForKey st.path key with
  | error text =>
    -- without a log the read fails and nothing is done
    have hread : st.readKey key = .fail (.ambiguousKey text) := by
      unfold readKey committerFor
      rw [hkey]
      rfl
    unfold releaseWithKey
    rw [hread]
    exact Meets.done
  | ok log =>
    refine gives_seq (Meets.attempt_gives (readKey_gives hkey)) (fun t found _ _ hfound => ?_)
    match found with
    | .error _ => exact Meets.done
    | .ok none => exact Meets.done
    | .ok (some (version, lease)) =>
      dsimp only
      split_ifs with hstale
      · exact Meets.done
      · have hwrites : (calls i).Writes (lease.tombstone nowMs) := by
          rw [hcall]
          exact ⟨not_not.1 (not_or.1 hstale).1, rfl⟩
        refine gives_seq (committerFor_gives key) (fun u c hu _ hc => ?_)
        have hclog : c.log = log := Except.ok.inj (hc.2.symm.trans hkey)
        have hthere := (hfound _ rfl).there version lease rfl
        have hplaced : Placed st.codec u c.log (some version) (lease.tombstone nowMs) := by
          intro version' heq
          cases heq
          rw [hclog]
          exact ⟨lease, hu.1.leaseAt hthere, .of_next rfl (.inl rfl) (fun _ => rfl)⟩
        have hown : committerForKey st.path (calls i).key = .ok c.log := by
          rw [hcall]
          exact hc.2
        exact gives_seq (Meets.attempt_gives (commitLease_gives hc.1 hwrites hown hplaced))
          (fun _ _ _ _ _ => Meets.done)

/-- What the end of a call tells of a state it began in. -/
def CallMeans (st : PartitionLeaseStore) (call : LeaseCall) (s : Shared ι) :
    Except LeaseError (Option LeaseOutcome) → Shared ι → Prop
  | .ok (some outcome), t => ∃ r log, call = .claim r ∧ committerForKey st.path r.key = .ok log ∧
      ClaimMeans st r log s outcome t
  | _, _ => True

theorem LeaseCall.meets :
    Meets (objectStore ι) (leaseDiscipline st calls) i (CallMeans st (calls i) s)
      ((calls i).prog st) s := by
  cases hcall : calls i with
  | claim r =>
    rw [LeaseCall.prog, PartitionLeaseStore.claimByMode_eq]
    refine Meets.seq (claim_gives hcall) (fun t outcome _ _ hout => ?_) (fun _ _ _ _ => trivial)
    obtain ⟨log, hlog, howned, hcurrent⟩ := hout
    intro u hu _
    refine ⟨r, log, rfl, hlog, fun lease hlease => ?_, hcurrent⟩
    obtain ⟨hpod, hlive, version, hversion, habove⟩ := howned lease hlease
    exact ⟨hpod, hlive, version, hu.1.leaseAt hversion, habove⟩
  | release key holderPod nowMs =>
    exact Meets.seq (releaseWithKey_gives hcall)
      (fun _ _ _ _ _ => fun _ _ _ => trivial) (fun _ _ _ _ => trivial)

/-! ## Pools -/

/-- A store without a lease, and without puts on their way. -/
structure NoLeases (s : Shared ι) : Prop where
  objects : s.objects = ∅
  puts : s.puts = []
  effects : s.effects = []
  refused : s.refused = []

theorem NoLeases.leaseInv (h : NoLeases s) : LeaseInv st calls s where
  puts put hput := by
    rw [h.puts] at hput
    cases hput
  landed ticket hticket := by
    rw [h.effects] at hticket
    cases hticket
  source path o ho := by
    unfold Shared.object at ho
    rw [h.objects] at ho
    cases ho
  once a ha := by
    rw [h.effects] at ha
    cases ha
  refused ticket hticket := by
    rw [h.refused] at hticket
    cases hticket

theorem leaseStore_drift : (leaseDiscipline st calls).AllowsDrift (objectStore ι) := by
  intro s choice t hinv h
  cases choice with
  | arrive ticket now =>
    obtain ⟨hinv', hst⟩ := hinv.arrive h
    exact ⟨hinv', hst, fun _ => trivial⟩
  | _ => cases h

section Pools

variable [DecidableEq ι]

/-- The calls of a store, none of which has begun. -/
def leasePool (st : PartitionLeaseStore) (calls : ι → LeaseCall) (start : Shared ι) :
    Pool ι (Shared ι) StoreOp StoreOp.Answer LeaseError (Option LeaseOutcome) :=
  ⟨start, fun i => (calls i).prog st⟩

variable {P Q : Pool ι (Shared ι) StoreOp StoreOp.Answer LeaseError (Option LeaseOutcome)}

theorem leasePool_meets (hstart : NoLeases s)
    (h : Reaches (objectStore ι) (leasePool st calls s) P) : LeaseInv st calls P.shared ∧
      ∀ i, Meets (objectStore ι) (leaseDiscipline st calls) i
        (CallMeans st (calls i) s) (P.procs i) P.shared := by
  have hinv : LeaseInv st calls s := hstart.leaseInv
  obtain ⟨hinvP, -, hmeets⟩ := h.meets leaseStore_drift hinv (fun i => LeaseCall.meets)
  exact ⟨hinvP, hmeets⟩

theorem leasePool_outcome (hstart : NoLeases s)
    (h : Reaches (objectStore ι) (leasePool st calls s) P) {i : ι}
    (hout : (P.procs i).outcome = some (.ok (some (.acquired lease)))) :
    lease.holderPod = (calls i).pod ∧ ∃ log v, committerForKey st.path (calls i).key = .ok log ∧
      leaseAt st.codec P.shared log v = some lease := by
  have hinv : LeaseInv st calls s := hstart.leaseInv
  obtain ⟨r, log, hcall, hlog, hclaim⟩ :=
    h.outcome leaseStore_drift hinv (fun j => LeaseCall.meets) hout
  obtain ⟨hpod, -, v, hv, -⟩ := hclaim.owned lease rfl
  rw [hcall]
  exact ⟨hpod, log, v, hlog, hv⟩

/-- For any calls of any pods, with clocks of any kind, in every state they reach: generations do
    not decrease along a log; below the last one each is held by one pod; another holder, a
    tombstone, a lease over a tombstone or over one that is over has a higher generation; what is
    acquired is there and is the claimer's; and a claim that has not begun will name no generation
    below one that is there. -/
theorem leases_fenced (hstart : NoLeases s)
    {P : Pool ι (Shared ι) StoreOp StoreOp.Answer LeaseError (Option LeaseOutcome)}
    (h : Reaches (objectStore ι) (leasePool st calls s) P) :
    (∀ log v w lease later, v ≤ w → leaseAt st.codec P.shared log v = some lease →
      leaseAt st.codec P.shared log w = some later → lease.generation ≤ later.generation) ∧
    (∀ log v w lease later, leaseAt st.codec P.shared log v = some lease →
      leaseAt st.codec P.shared log w = some later → lease.generation = later.generation →
      lease.generation < maxGeneration → lease.holderPod = later.holderPod) ∧
    (∀ log v w lease later, w.toNat = v.toNat + 1 → leaseAt st.codec P.shared log v = some lease →
      leaseAt st.codec P.shared log w = some later → lease.generation < maxGeneration →
      later.holderPod ≠ lease.holderPod ∨ later.released = true ∨ lease.released = true ∨
        lease.isExpired later.acquiredAtMs = true →
      lease.generation < later.generation) ∧
    (∀ i lease, (P.procs i).outcome = some (.ok (some (.acquired lease))) →
      lease.holderPod = (calls i).pod ∧ ∃ log v, committerForKey st.path (calls i).key = .ok log ∧
        leaseAt st.codec P.shared log v = some lease) ∧
    (∀ i log v lease, P.procs i = (calls i).prog st →
      committerForKey st.path (calls i).key = .ok log →
      leaseAt st.codec P.shared log v = some lease →
      ∀ Q outcome, Reaches (objectStore ι) P Q →
        (Q.procs i).outcome = some (.ok (some outcome)) →
        lease.generation ≤ outcome.lease.generation) := by
  obtain ⟨hinv, hmeets⟩ := leasePool_meets hstart h
  refine ⟨?ordered, ?one, ?higher, ?owned, ?later⟩
  case ordered => exact fun log v w lease later hvw hv hw => hinv.generation_le hvw hv hw
  case one => exact fun log v w lease later hv hw hgen hmax => hinv.holder_eq hv hw hgen hmax
  case higher =>
    intro log v w lease later hvw hv hw hmax hcase
    rcases hinv.rooted hw with rfl | ⟨prev, before, hprev, hbefore, hsucc⟩
    · have hzero : (0 : UInt64).toNat = 0 := rfl
      omega
    · have hprevv : prev = v := UInt64.toNat_inj.1 (by omega)
      subst hprevv
      rw [hv] at hbefore
      cases hbefore
      refine UInt64.lt_of_le_of_ne hsucc.le (fun heq => ?_)
      obtain ⟨hpod, hlater, hlease, hlive⟩ := hsucc.renewed hmax heq.symm
      rcases hcase with hne | hrel | hrel | hexp
      · exact hne hpod
      · rw [hlater] at hrel
        cases hrel
      · rw [hlease] at hrel
        cases hrel
      · rw [hlive] at hexp
        cases hexp
  case owned =>
    intro i lease hout
    exact leasePool_outcome hstart h hout
  case later =>
    intro i log v lease hfresh hlog hv Q outcome hPQ hout
    -- the call is measured from here, the others from where they began
    have hmeans := hPQ.outcome (D := leaseDiscipline st calls) (Q := fun j =>
      if j = i then CallMeans st (calls i) P.shared else CallMeans st (calls j) s)
      leaseStore_drift hinv (fun j => ?_) hout
    · rw [if_pos rfl] at hmeans
      obtain ⟨r, log', hcall, hlog', hclaim⟩ := hmeans
      rw [hcall] at hlog
      cases hlog'.symm.trans hlog
      exact hclaim.current v lease hv
    · by_cases hj : j = i
      · subst hj
        rw [if_pos rfl, hfresh]
        exact LeaseCall.meets
      · rw [if_neg hj]
        exact hmeets j

/-- However the calls interleave from here on, a lease that is there is never overwritten, and below
    it no version is missing. -/
theorem leases_written_once (hstart : NoLeases s)
    (h : Reaches (objectStore ι) (leasePool st calls s) P) (hPQ : Reaches (objectStore ι) P Q)
    (hw : leaseAt st.codec P.shared log w = some lease) :
    leaseAt st.codec Q.shared log w = some lease ∧
      ∀ v ≤ w, ∃ before, leaseAt st.codec Q.shared log v = some before := by
  obtain ⟨hinv, hmeets⟩ := leasePool_meets hstart h
  obtain ⟨hinvQ, hmoves, -⟩ := hPQ.meets leaseStore_drift hinv hmeets
  have hlater := hmoves.leaseAt hw
  refine ⟨hlater, fun v hvw => ?_⟩
  clear hw
  -- a lease stands over the version before it, and so on down to `v`
  obtain ⟨n, hn⟩ := Nat.exists_eq_add_of_le (UInt64.le_iff_toNat_le.1 hvw)
  induction n generalizing w lease with
  | zero => exact ⟨lease, UInt64.toNat_inj.1 hn ▸ hlater⟩
  | succ n ih =>
    rcases hinvQ.rooted hlater with rfl | ⟨prev, before, hprev, hbefore, -⟩
    · rw [UInt64.toNat_zero] at hn
      omega
    · exact ih hbefore (UInt64.le_iff_toNat_le.2 (by omega)) (by omega)

end Pools

/-! ## A takeover -/

def resourceTypeFormat : Format ResourceType :=
  Format.nat.iso (fun t => ResourceType.all.idxOf t)
    (fun n => ResourceType.all.getD n .collection) (by intro t; cases t <;> rfl)

def identifierFormat : Format ResourceIdentifier :=
  (Format.pair Format.nat (Format.list Format.string)).iso
    (fun
      | .single id => (0, [id])
      | .composite parts => (1, parts)
      | .hierarchical parent child => (2, [parent, child]))
    (fun
      | (0, [id]) => .single id
      | (2, [parent, child]) => .hierarchical parent child
      | (_, parts) => .composite parts)
    (by intro id; cases id <;> rfl)

def keyFormat : Format ResourceKey :=
  (Format.pair Format.string (Format.pair (Format.option Format.string)
    (Format.pair resourceTypeFormat identifierFormat))).iso
    (fun k => (k.tenantId, k.namespaceId, k.resourceType, k.resourceId))
    (fun p => ⟨p.1, p.2.1, p.2.2.1, p.2.2.2⟩) (by intro k; rfl)

def leaseFormat : Format PartitionLease :=
  (Format.pair (Format.option keyFormat) (Format.pair (Format.option Format.string)
    (Format.pair (Format.option Format.string) (Format.pair Format.string (Format.pair Format.nat
      (Format.pair Format.int (Format.pair Format.int (Format.pair (Format.option Format.nat)
        Format.nat)))))))).iso
    (fun l => (l.resourceKey, l.tenantId, l.collectionId, l.holderPod, l.generation.toNat,
      l.acquiredAtMs, l.expiresAtMs, l.formatVersion, l.released.toNat))
    (fun p => ⟨p.1, p.2.1, p.2.2.1, p.2.2.2.1, UInt64.ofNat p.2.2.2.2.1, p.2.2.2.2.2.1,
      p.2.2.2.2.2.2.1, p.2.2.2.2.2.2.2.1, p.2.2.2.2.2.2.2.2 == 1⟩)
    (by
      intro l
      obtain ⟨_, _, _, _, _, _, _, _, released⟩ := l
      cases released <;> simp)

def leaseCodec : LeaseCodec where
  toVec := leaseFormat.put
  fromSlice bs := (leaseFormat.get bs).map Prod.fst
  fromSlice_toVec lease := by
    have := leaseFormat.get_put lease []
    rw [append_nil] at this
    rw [this]
    rfl

def rootStore : PartitionLeaseStore :=
  ⟨[], leaseCodec, blankDigest⟩

def usersTable : ResourceKey := ⟨"t", none, .table, .composite ["s", "users"]⟩

/-- Pod `a` claims a table for 10 ms, and pod `b` comes when that time is over. -/
def takeoverCalls (late : Bool) : LeaseCall :=
  .claim ⟨usersTable, if late then "b" else "a", if late then 20 else 0, 10, .renewOrTakeover⟩

def takeover : List (Turn Bool Choice) :=
  List.replicate 11 (.act false .plain) ++ [.drift (.arrive 0 0), .act false .plain] ++
    (List.replicate 16 (.act true .plain) ++ [.drift (.arrive 1 0), .act true .plain])

/-- Both are told the truth: `a` has the first generation, `b` the second. -/
theorem leases_fenced_takeover :
    ∃ P, Pool.play (objectStore Bool) (leasePool rootStore takeoverCalls {}) takeover = some P ∧
      (P.procs false).outcome = some (.ok (some (.acquired (.withKey usersTable "a" 1 0 10)))) ∧
      (P.procs true).outcome = some (.ok (some (.acquired (.withKey usersTable "b" 2 20 30)))) ∧
      ∃ log v, committerForKey [] usersTable = .ok log ∧
        leaseAt leaseCodec P.shared log v = some (.withKey usersTable "b" 2 20 30) := by
  have hrun : (Pool.play (objectStore Bool) (leasePool rootStore takeoverCalls {}) takeover).map
      (fun P => ((P.procs false).outcome, (P.procs true).outcome)) =
        some (some (.ok (some (.acquired (.withKey usersTable "a" 1 0 10)))),
          some (.ok (some (.acquired (.withKey usersTable "b" 2 20 30))))) := by rfl
  obtain ⟨P, hP, hends⟩ := Option.map_eq_some_iff.1 hrun
  obtain ⟨hfirst, hsecond⟩ := Prod.mk.inj hends
  refine ⟨P, hP, hfirst, hsecond, ?_⟩
  obtain ⟨-, -, -, howned, -⟩ := leases_fenced ⟨rfl, rfl, rfl, rfl⟩ (Pool.reaches_of_play hP)
  exact (howned true _ hsecond).2

theorem leases_written_once_takeover : ∃ P log,
    Pool.play (objectStore Bool) (leasePool rootStore takeoverCalls {}) takeover = some P ∧
      ∃ before, leaseAt leaseCodec P.shared log 0 = some before := by
  obtain ⟨P, hP, hend⟩ : ∃ P, Pool.play (objectStore Bool) (leasePool rootStore takeoverCalls {})
      takeover = some P ∧ (P.procs true).outcome =
        some (.ok (some (.acquired (.withKey usersTable "b" 2 20 30)))) := ⟨_, rfl, by rfl⟩
  have hreach := Pool.reaches_of_play hP
  obtain ⟨-, log, v, -, hv⟩ := leasePool_outcome ⟨rfl, rfl, rfl, rfl⟩ hreach hend
  exact ⟨P, log, hP, (leases_written_once ⟨rfl, rfl, rfl, rfl⟩ hreach .refl hv).2 0 (by simp)⟩

end ProximaDb.Cluster
