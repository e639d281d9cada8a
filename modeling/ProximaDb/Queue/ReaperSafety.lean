/-
  ProximaDb.Queue.ReaperSafety

  What the reaper may delete. A scan reads the id of the active segment, lists the segments, lists
  the registered groups and reads the progress of each of them, and then unlinks the sealed
  segments whose last frame is committed by all of them.
-/
import ProximaDb.Queue.Sound

namespace ProximaDb.Queue

open ProximaDb.Lib PartitionDiskWriter Option PartitionDir OrdMap

/-! ## A scan -/

variable {group : String}

inductive Scan
  | idle
  | active (activeId : Nat)
  | listed (activeId : Nat) (segments : List Nat)
  | reading (activeId : Nat) (segments : List Nat) (left : List String)
      (seen : List (String × Option Nat))
  | reaping (activeId : Nat) (segments : List Nat) (committed : Option Nat)
  deriving DecidableEq

structure Reaped where
  running : Running
  scan : Scan := .idle

inductive ReaperEvent
  | session (e : SessionEvent)
  | readActive
  | listSegments
  | listGroups
  | readGroup (group : String)
  | takeMinimum
  | reapNext
  | skipNext
  | giveUp
  deriving DecidableEq

namespace Reaped

variable (C : MessageCodec) (cfg : TopicConfig)

def step (s : Reaped) : ReaperEvent → Option Reaped
  -- segments are unlinked by the scan alone
  | .session (.reap _) => none
  | .session e => (s.running.step C cfg e).map ({ s with running := · })
  | .readActive =>
    match s.scan with
    | .idle => some { s with scan := .active s.running.writer.activeSegmentId }
    | _ => none
  | .listSegments =>
    match s.scan with
    | .active id =>
      some { s with scan := .listed id (s.running.dir.segments.entries.map Prod.fst) }
    | _ => none
  | .listGroups =>
    match s.scan with
    | .listed id segments =>
      some { s with scan := .reading id segments s.running.dir.groups.keys [] }
    | _ => none
  | .readGroup group =>
    match s.scan with
    | .reading id segments left seen =>
      if group ∈ left then
        let seen := seen ++ [(group, s.running.dir.committed group)]
        some { s with scan := .reading id segments (left.erase group) seen }
      else none
    | _ => none
  | .takeMinimum =>
    match s.scan with
    | .reading id segments [] seen =>
      some { s with scan := .reaping id segments (leastProgress (seen.map Prod.snd)) }
    | _ => none
  | .reapNext =>
    match s.scan with
    | .reaping _ [] _ => some { s with scan := .idle }
    | .reaping id (segment :: segments) committed =>
      let scan := .reaping id segments committed
      -- producers are still appending to the active segment
      if id ≤ segment then some { s with scan }
      else
        let dir := s.running.dir.maybeReapAt cfg.archiveConfigured committed segment
        some { running := { s.running with dir }, scan }
    | _ => none
  -- an I/O error on one segment is logged and the scan goes on
  | .skipNext =>
    match s.scan with
    | .reaping id (_ :: segments) committed =>
      some { s with scan := .reaping id segments committed }
    | _ => none
  -- an I/O error on a read ends the scan
  | .giveUp => some { s with scan := .idle }

end Reaped

open Reaped

variable {C : MessageCodec} {cfg : TopicConfig} {r r' : Running} {dir dir' : PartitionDir}

/-! ## Segments in the order of their offsets -/

namespace PartitionDir

/-- The segments are whole frames in the order of their offsets. -/
def Ascending (dir : PartitionDir) : Prop :=
  ∀ id, tailOf (dir.bytesOf id) = [] ∧ (frames (dir.bytesOf id)).Pairwise (fun f g => f.1 < g.1)

section

variable (h : dir.Ascending)

include h

theorem Ascending.of_bytes
    (hbytes : ∀ id, dir'.bytesOf id = dir.bytesOf id ∨ dir'.bytesOf id = []) : dir'.Ascending := by
  intro id
  rcases hbytes id with hsame | hnone
  · rw [hsame]
    exact h id
  · rw [hnone]
    exact ⟨rfl, List.Pairwise.nil⟩

theorem Ascending.append_nil (id : Nat) : (dir.append id []).Ascending := by
  refine h.of_bytes (fun segment => .inl ?_)
  rw [bytesOf_append, List.append_nil]
  split_ifs with heq
  · rw [heq]
  · rfl

theorem Ascending.unlink (id : Nat) : (dir.unlink id).Ascending := by
  refine h.of_bytes (fun segment => ?_)
  unfold bytesOf PartitionDir.unlink
  rw [get?_erase]
  split_ifs
  · exact .inr rfl
  · exact .inl rfl

theorem Ascending.append_frame {id offset : Nat} {payload : Bytes}
    (hfits : FrameFits offset payload) (hhigher : ∀ f ∈ frames (dir.bytesOf id), f.1 < offset) :
    (dir.append id (frame offset payload)).Ascending := by
  intro segment
  rw [bytesOf_append]
  split_ifs
  · obtain ⟨hwhole, hsorted⟩ := h id
    obtain ⟨hframes, htail⟩ := frames_append_frame hwhole hfits
    refine ⟨htail, ?_⟩
    rw [hframes]
    refine List.pairwise_append.2 ⟨hsorted, List.pairwise_singleton _ _, fun f hf g hg => ?_⟩
    rw [List.mem_singleton.1 hg]
    exact hhigher f hf
  · exact h segment

theorem Ascending.rotate (w : PartitionDiskWriter) (len : Nat) :
    (w.rotate len dir).2.Ascending := by
  unfold PartitionDiskWriter.rotate
  split_ifs
  · exact h.append_nil _
  · exact h

theorem Ascending.le_last {id : Nat} {f : Nat × Bytes} (hf : f ∈ frames (dir.bytesOf id)) :
    ∃ last, lastOffsetInSegment (dir.bytesOf id) = some last ∧ f.1 ≤ last := by
  have hsorted := (h id).2
  unfold lastOffsetInSegment
  cases hlast : (frames (dir.bytesOf id)).getLast? with
  | none =>
    rw [List.getLast?_eq_none_iff.1 hlast] at hf
    cases hf
  | some g =>
    refine ⟨g.1, rfl, ?_⟩
    obtain ⟨front, hfront⟩ := List.getLast?_eq_some_iff.1 hlast
    rw [hfront] at hsorted hf
    rcases List.mem_append.1 hf with hin | hin
    · exact Nat.le_of_lt ((List.pairwise_append.1 hsorted).2.2 f hin g (List.mem_singleton_self g))
    · rw [List.mem_singleton.1 hin]

end

/-! ## Progress while a scan is underway -/

def Grows (dir dir' : PartitionDir) : Prop :=
  ∀ group progress', dir'.groups.lookup group = some progress' →
    ∃ progress, dir.groups.lookup group = some progress ∧ NotBehind progress progress'

theorem Grows.of_groups (h : dir'.groups = dir.groups) : dir.Grows dir' := by
  intro group progress' hlookup
  rw [h] at hlookup
  exact ⟨progress', hlookup, .refl _⟩

theorem Grows.insert {progress value : Option Nat}
    (hgroup : dir.groups.lookup group = some progress) (hvalue : NotBehind progress value)
    (hgroups : dir'.groups = dir.groups.insert group value) : dir.Grows dir' := by
  intro group' progress' hlookup
  rw [hgroups, lookup_insert_eq] at hlookup
  split_ifs at hlookup with heq
  · cases hlookup
    exact ⟨progress, heq ▸ hgroup, hvalue⟩
  · exact ⟨progress', hlookup, .refl _⟩

theorem committed_eq {progress : Option Nat} (h : dir.groups.lookup group = some progress) :
    dir.committed group = progress := by
  unfold committed
  rw [h]
  rfl

theorem grows_register (h : (dir.groups.lookup group).isSome) : dir.Grows (dir.register group) := by
  obtain ⟨progress, hprogress⟩ := isSome_iff_exists.1 h
  exact .insert hprogress (.refl progress) (by rw [← committed_eq hprogress]; rfl)

theorem grows_commit (h : (dir.groups.lookup group).isSome) (offset : Nat) :
    dir.Grows (dir.commit group offset) := by
  obtain ⟨progress, hprogress⟩ := isSome_iff_exists.1 h
  refine .insert hprogress (fun c hc => ?_) rfl
  rw [committed_eq hprogress, hc]
  exact ⟨max c offset, rfl, Nat.le_max_left _ _⟩

end PartitionDir

theorem leastProgress_le {seen : List (Option Nat)} {least : Nat}
    (h : leastProgress seen = some least) {v : Option Nat} (hv : v ∈ seen) :
    ∃ c, v = some c ∧ least ≤ c := by
  unfold leastProgress at h
  split_ifs at h with hnone
  cases v with
  | none => exact absurd hv hnone
  | some c =>
    have hmem : c ∈ seen.filterMap id := List.mem_filterMap.2 ⟨some c, hv, rfl⟩
    exact ⟨c, rfl, (List.min?_eq_some_iff.1 h).2 c hmem⟩

namespace Scan

def Underway : Scan → Prop
  | .reading .. => True
  | .reaping .. => True
  | _ => False

instance (s : Scan) : Decidable s.Underway := by
  cases s with
  | reading | reaping => exact instDecidableTrue
  | _ => exact instDecidableFalse

/-- What the scan knows of the groups: it has yet to read a group or has read progress that the
    group still has; and no group is behind the minimum. -/
def Current (dir : PartitionDir) : Scan → Prop
  | .reading _ _ left seen => ∀ group progress, dir.groups.lookup group = some progress →
      group ∈ left ∨ ∃ v, (group, v) ∈ seen ∧ NotBehind v progress
  | .reaping _ _ committed => ∀ group progress, dir.groups.lookup group = some progress →
      NotBehind committed progress
  | _ => True

theorem Current.grows {s : Scan} (h : s.Current dir) (hgrows : s.Underway → dir.Grows dir') :
    s.Current dir' := by
  cases s with
  | reading id segments left seen =>
    intro group progress' hlookup
    obtain ⟨progress, hprogress, hle⟩ := hgrows trivial group progress' hlookup
    rcases h group progress hprogress with hleft | ⟨v, hv, hbehind⟩
    · exact .inl hleft
    · exact .inr ⟨v, hv, hbehind.trans hle⟩
  | reaping id segments committed =>
    intro group progress' hlookup
    obtain ⟨progress, hprogress, hle⟩ := hgrows trivial group progress' hlookup
    exact (h group progress hprogress).trans hle
  | _ => exact trivial

end Scan

/-! ## The steps of a session -/

def Running.Registered (r : Running) : Prop :=
  ∀ group consumer, r.consumers group = some consumer → (r.dir.groups.lookup group).isSome

/-- The condition on a step of the session: a frame has a length that fits its header and is written
    behind frames with lower offsets; and no new group subscribes while a scan is at work on the
    groups it has listed. -/
def InOrder (C : MessageCodec) (s : Reaped) : ReaperEvent → Prop
  | .session (.write offset) =>
    ∀ send ∈ s.running.sends offset, (C.serialize send.message).length < 2 ^ 32 ∧
      ∀ f ∈ frames (s.running.writer.target
        (frame offset (C.serialize send.message)).length s.running.dir), f.1 < offset
  | .session (.subscribe group) =>
    s.scan.Underway → (s.running.dir.groups.lookup group).isSome = true
  | _ => True

instance (C : MessageCodec) (s : Reaped) (e : ReaperEvent) : Decidable (InOrder C s e) :=
  match e with
  | .session (.write offset) =>
    inferInstanceAs (Decidable (∀ send ∈ s.running.sends offset, _ ∧ ∀ f ∈ _, _))
  | .session (.subscribe _) => inferInstanceAs (Decidable (_ → _))
  | .session (.reserve _) | .session (.abandon _) | .session (.enqueue _)
  | .session (.waitForFsync _) | .session (.fsync ..) | .session (.receipt _)
  | .session (.poll ..) | .session (.ack ..) | .session (.nack ..) | .session (.upload _)
  | .session (.reap _) | .readActive | .listSegments | .listGroups | .readGroup _
  | .takeMinimum | .reapNext | .skipNext | .giveUp => instDecidableTrue

/-- A step of the session registers no group behind the back of a scan, and none goes back. -/
theorem Running.Moves.grows {e : SessionEvent} (hmoves : r.Moves C cfg e r') (hregistered : r.Registered)
    (hok : ∀ group, e = .subscribe group → (r.dir.groups.lookup group).isSome) :
    r.dir.Grows r'.dir := by
  cases hmoves with
  | write => exact .of_groups (groups_writeFrame _ _ _)
  | upload => exact .of_groups groups_uploadSegment
  | reap => exact .of_groups (groups_maybeReap _)
  | subscribe | exhausted => exact grows_register (hok _ rfl)
  | ack _ _ _ _ hconsumer | ackLost _ _ _ _ hconsumer =>
    exact grows_commit (hregistered _ _ hconsumer) _
  | _ => exact .of_groups rfl

theorem Running.Registered.of_kept (h : r.Registered)
    (hgroups : ∀ group, (r.dir.groups.lookup group).isSome → (r'.dir.groups.lookup group).isSome)
    (hconsumers : ∀ group consumer, r'.consumers group = some consumer →
      (r'.dir.groups.lookup group).isSome ∨ ∃ consumer', r.consumers group = some consumer') :
    r'.Registered := by
  intro group consumer hconsumer
  rcases hconsumers group consumer hconsumer with hnew | ⟨consumer', hold⟩
  · exact hnew
  · exact hgroups group (h group consumer' hold)

theorem Running.Registered.setConsumer (h : r.Registered)
    (hgroup : (r.dir.groups.lookup group).isSome) (consumer : Consumer) :
    (r.setConsumer group consumer).Registered := by
  refine h.of_kept (fun _ hsome => hsome) (fun group' k hk => ?_)
  rw [consumers_setConsumer] at hk
  split_ifs at hk with heq
  · subst heq
    exact .inl hgroup
  · exact .inr ⟨k, hk⟩

theorem Running.Registered.insert (h : r.Registered) {value : Option Nat}
    (hgroups : dir.groups = r.dir.groups.insert group value) :
    ({ r with dir } : Running).Registered := by
  refine h.of_kept (fun group' hsome => ?_) (fun group' k hk => .inr ⟨k, hk⟩)
  rw [hgroups, lookup_insert_eq]
  split_ifs
  · rfl
  · exact hsome

theorem Running.Registered.of_groups (h : r.Registered) (hgroups : r'.dir.groups = r.dir.groups)
    (hconsumers : r'.consumers = r.consumers) : r'.Registered :=
  h.of_kept (fun _ hsome => hgroups ▸ hsome) (fun _ k hk => .inr ⟨k, hconsumers ▸ hk⟩)

theorem Running.Registered.moves {e : SessionEvent} (h : r.Registered)
    (hmoves : r.Moves C cfg e r') : r'.Registered := by
  cases hmoves with
  | write =>
    exact h.of_groups (groups_writeFrame _ _ _) rfl
  | upload => exact h.of_groups groups_uploadSegment rfl
  | reap => exact h.of_groups (groups_maybeReap _) rfl
  | subscribe group next hnext =>
    have hinserted : ({ r with dir := r.dir.register group } : Running).Registered := h.insert rfl
    refine hinserted.setConsumer ?_ _
    show ((r.dir.groups.insert group _).lookup group).isSome
    rw [AList.lookup_insert]
    rfl
  | exhausted group => exact h.insert rfl
  | poll group maxBatch t t' out hconsumer =>
    exact (h.setConsumer (h group _ hconsumer) ⟨true, t'⟩).of_groups rfl rfl
  | pollFailed group maxBatch t t' error hconsumer =>
    exact h.setConsumer (h group _ hconsumer) ⟨true, t'⟩
  | ackBehind group ids publication t hconsumer =>
    exact (h.setConsumer (h group _ hconsumer) ⟨true, t.ackLocked ids⟩).of_groups rfl rfl
  | ack group ids t offset hconsumer | ackLost group ids t offset hconsumer =>
    have hinserted : ({ r with dir := r.dir.commit group offset } : Running).Registered :=
      h.insert rfl
    exact (hinserted.setConsumer (hinserted group _ hconsumer) _).of_groups rfl rfl
  | nack group ids t hconsumer => exact h.setConsumer (h group _ hconsumer) ⟨true, t.nackLocked ids⟩
  | _ => exact h.of_groups rfl rfl

theorem PartitionDir.Ascending.moves {e : SessionEvent} (h : r.dir.Ascending) (hsound : r.Sound)
    (hok : ∀ offset, e = .write offset → ∀ send ∈ r.sends offset,
      (C.serialize send.message).length < 2 ^ 32 ∧ ∀ f ∈ frames (r.writer.target
        (frame offset (C.serialize send.message)).length r.dir), f.1 < offset)
    (hmoves : r.Moves C cfg e r') : r'.dir.Ascending := by
  cases hmoves with
  | write offset message hsend =>
    obtain ⟨hlength, hhigher⟩ := hok offset rfl _ hsend
    have hlt := hsound.sends offset _ hsend
    exact (h.rotate r.writer _).append_frame ⟨hlt.trans hsound.counter, hlength⟩ hhigher
  | fsync => exact h.of_bytes (fun id => .inl bytesOf_fsync)
  | upload segment harchive hsealed =>
    refine h.of_bytes (fun id => .inl ?_)
    show ((r.dir.uploadSegment segment).segments.get? id |>.getD {}).bytes = _
    rw [segments_uploadSegment]
    rfl
  | reap segment hsealed =>
    rcases r.dir.maybeReap_cases cfg.archiveConfigured segment with hsame | ⟨hgone, -⟩
    · rw [hsame]
      exact h
    · rw [hgone]
      exact h.unlink segment
  | _ => exact h

theorem PartitionDir.isSome_append {id segment : Nat} (data : Bytes)
    (h : (dir.segments.get? segment).isSome) :
    ((dir.append id data).segments.get? segment).isSome := by
  show ((dir.segments.insert id _).get? segment).isSome
  rw [get?_insert]
  split_ifs
  · rfl
  · exact h

theorem Running.Moves.keeps_files {e : SessionEvent} (hmoves : r.Moves C cfg e r')
    (hreap : ∀ segment, e ≠ .reap segment) (id : Nat) (h : (r.dir.segments.get? id).isSome) :
    (r'.dir.segments.get? id).isSome := by
  cases hmoves with
  | write offset message hsend =>
    have hrotated : ((r.writer.rotate (frame offset (C.serialize message)).length
        r.dir).2.segments.get? id).isSome := by
      unfold rotate
      split_ifs
      · exact isSome_append [] h
      · exact h
    exact isSome_append _ hrotated
  | fsync segment answered =>
    show ((r.dir.segments.map _).get? id).isSome
    rw [get?_map, isSome_map]
    exact h
  | upload segment harchive hsealed =>
    rw [segments_uploadSegment]
    exact h
  | reap segment => exact absurd rfl (hreap segment)
  | _ => exact h

/-! ## Whole runs -/

namespace Reaped

variable {s s' : Reaped} {e : ReaperEvent}

structure Safe (s : Reaped) : Prop where
  sound : s.running.Sound
  ascending : s.running.dir.Ascending
  registered : s.running.Registered
  current : s.scan.Current s.running.dir

theorem session_cases {e : SessionEvent} (h : s.step C cfg (.session e) = some s') :
    ∃ r', s.running.Moves C cfg e r' ∧ s' = { s with running := r' } ∧
      ∀ segment, e ≠ .reap segment := by
  have hreap : ∀ segment, e ≠ .reap segment := by
    rintro segment rfl
    cases h
  have hstep : (s.running.step C cfg e).map ({ s with running := · }) = some s' := by
    rw [← h]
    cases e with
    | reap segment => exact absurd rfl (hreap segment)
    | _ => rfl
  obtain ⟨r', hr', rfl⟩ := map_eq_some_iff.1 hstep
  exact ⟨r', Running.moves_of_step hr', rfl, hreap⟩

/-- What the reaper itself can do: it reads and moves on, or it comes to a segment. -/
theorem reaper_cases (hsession : ∀ e', e ≠ .session e') (h : s.step C cfg e = some s') :
    (s'.running = s.running ∧ (s.scan.Current s.running.dir → s'.scan.Current s.running.dir)) ∨
    ∃ id segment segments committed, s.scan = .reaping id (segment :: segments) committed ∧
      s' = ⟨{ s.running with
        dir := s.running.dir.maybeReapAt cfg.archiveConfigured committed segment },
        .reaping id segments committed⟩ := by
  revert hsession h
  fun_cases Reaped.step C cfg s e <;> intro hsession h <;> try cases h
  case case2 e' _ => exact absurd rfl (hsession e')
  case case3 | case5 | case14 | case20 => exact .inl ⟨rfl, fun _ => trivial⟩
  case case7 id segments _ =>
    refine .inl ⟨rfl, fun _ group progress hlookup => .inl ?_⟩
    exact AList.mem_keys.2 (AList.lookup_isSome.1 (by rw [hlookup]; rfl))
  case case9 group id segments left seen hscan _ _ =>
    refine .inl ⟨rfl, fun hcurrent group' progress hlookup => ?_⟩
    rw [hscan] at hcurrent
    by_cases heq : group' = group
    · -- the group is read: its progress is what was seen
      subst heq
      refine .inr ⟨progress, List.mem_append_right _ ?_, .refl _⟩
      rw [committed_eq hlookup]
      exact List.mem_singleton_self _
    · rcases hcurrent group' progress hlookup with hleft | ⟨v, hv, hbehind⟩
      · exact .inl ((List.mem_erase_of_ne heq).2 hleft)
      · exact .inr ⟨v, List.mem_append_left _ hv, hbehind⟩
  case case12 id segments seen hscan =>
    refine .inl ⟨rfl, fun hcurrent group progress hlookup c hc => ?_⟩
    rw [hscan] at hcurrent
    rcases hcurrent group progress hlookup with hleft | ⟨v, hv, hbehind⟩
    · cases hleft
    · obtain ⟨c', hc', hle⟩ := leastProgress_le hc (List.mem_map_of_mem hv)
      obtain ⟨c'', hc'', hle'⟩ := hbehind c' hc'
      exact ⟨c'', hc'', hle.trans hle'⟩
  case case15 id segment segments committed hscan _ _ | case18 id segment segments committed hscan =>
    refine .inl ⟨rfl, fun hcurrent => ?_⟩
    rw [hscan] at hcurrent
    exact hcurrent
  case case16 id segment segments committed hscan _ _ _ =>
    exact .inr ⟨id, segment, segments, committed, hscan, rfl⟩

theorem Safe.step (h : s.Safe) (hok : InOrder C s e) (hstep : s.step C cfg e = some s') :
    s'.Safe := by
  by_cases hsession : ∃ e', e = .session e'
  · obtain ⟨e', rfl⟩ := hsession
    obtain ⟨r', hmoves, rfl, -⟩ := session_cases hstep
    refine ⟨h.sound.moves hmoves, h.ascending.moves h.sound ?_ hmoves, h.registered.moves hmoves,
      h.current.grows (fun hunderway => hmoves.grows h.registered ?_)⟩
    · rintro offset rfl
      exact hok
    · rintro group rfl
      exact hok hunderway
  · rcases reaper_cases (fun e' he' => hsession ⟨e', he'⟩) hstep with
      ⟨hrunning, hcurrent⟩ | ⟨id, segment, segments, committed, hscan, rfl⟩
    · refine ⟨hrunning ▸ h.sound, hrunning ▸ h.ascending, hrunning ▸ h.registered, ?_⟩
      rw [hrunning]
      exact hcurrent h.current
    · have hcurrent := h.current
      rw [hscan] at hcurrent
      rcases s.running.dir.maybeReapAt_cases cfg.archiveConfigured committed segment with
        hsame | ⟨hgone, -⟩
      · rw [hsame]
        exact ⟨h.sound, h.ascending, h.registered, hcurrent⟩
      · rw [hgone]
        exact ⟨h.sound.of_eq rfl rfl rfl rfl (fun _ => rfl), h.ascending.unlink segment,
          h.registered.of_groups rfl rfl, hcurrent⟩

/-- A partition nobody has used, and a reaper that has not started. -/
def start (cfg : TopicConfig) : Reaped := { running := openPartition cfg {} {} }

theorem safe_start (cfg : TopicConfig) : (start cfg).Safe where
  sound := sound_openPartition cfg
  ascending := by
    have hempty : ({} : PartitionDir).Ascending := fun _ => ⟨rfl, List.Pairwise.nil⟩
    exact hempty.append_nil 0
  registered := nofun
  current := trivial

end Reaped

/-- In every run that writes the frames of each segment in the order of their offsets, and has no
    new group while a scan is at work on those it has listed, a segment is deleted only if every
    registered group has committed all of its frames. -/
theorem reaper_spares_needed {events : List ReaperEvent} {s s' : Reaped} {e : ReaperEvent}
    (hrun : play (guarded (InOrder C) (Reaped.step C cfg)) (.start cfg) events = some s)
    (hstep : s.step C cfg e = some s') {segment : Nat} {file : SegmentFile}
    (hfile : s.running.dir.segments.get? segment = some file)
    (hdeleted : s'.running.dir.segments.get? segment = none) :
    ∀ f ∈ frames file.bytes, ∀ group progress,
      s.running.dir.groups.lookup group = some progress → ∃ c, progress = some c ∧ f.1 ≤ c := by
  have hsafe : s.Safe :=
    play_invariant (P := Reaped.Safe)
      (fun s e t hs hstep => hs.step (guarded_eq_some.1 hstep).1 (guarded_eq_some.1 hstep).2)
      (safe_start cfg) hrun
  have hbytes : s.running.dir.bytesOf segment = file.bytes := by
    unfold bytesOf
    rw [hfile]
    rfl
  intro f hf group progress hgroup
  rw [← hbytes] at hf
  by_cases hsession : ∃ e', e = .session e'
  · -- the session deletes nothing
    obtain ⟨e', rfl⟩ := hsession
    obtain ⟨r', hmoves, rfl, hreap⟩ := session_cases hstep
    have hkept := hmoves.keeps_files hreap segment (by rw [hfile]; rfl)
    rw [hdeleted] at hkept
    cases hkept
  · rcases reaper_cases (fun e' he' => hsession ⟨e', he'⟩) hstep with
      ⟨hrunning, -⟩ | ⟨id, next, segments, committed, hscan, rfl⟩
    · rw [hrunning, hfile] at hdeleted
      cases hdeleted
    · have hcurrent := hsafe.current
      rw [hscan] at hcurrent
      rcases s.running.dir.maybeReapAt_cases cfg.archiveConfigured committed next with
        hsame | ⟨hgone, -, c, rfl, hlast⟩
      · rw [hsame, hfile] at hdeleted
        cases hdeleted
      · rw [hgone] at hdeleted
        have hnext : segment = next := by
          by_contra hne
          have hkept := get?_erase s.running.dir.segments next segment
          rw [if_neg hne, hfile] at hkept
          exact absurd (hdeleted.symm.trans hkept) (by simp)
        subst hnext
        obtain ⟨last, hend, hle⟩ := hsafe.ascending.le_last hf
        obtain ⟨c', hc', hle'⟩ := hcurrent group progress hgroup c rfl
        exact ⟨c', hc', hle.trans ((hlast last hend).trans hle')⟩

/-! ## A segment in order -/

def readAll : List ReaperEvent := [.readActive, .listSegments, .listGroups, .readGroup "g", .takeMinimum]

/-- The first message is delivered to a group and acknowledged. -/
def acknowledged : List ReaperEvent :=
  [.session (.enqueue 0), .session (.subscribe "g"), .session (.poll "g" 8),
    .session (.ack "g" [.new 0 0 0] .done)]

def twoSegments : List ReaperEvent :=
  [.session (.reserve (note [0])), .session (.reserve (note [1])), .session (.write 0),
    .session (.write 1)] ++ acknowledged ++ readAll

/-- A topic with this `disk_rotation_size_mb`. -/
def rotatingAt (mb : Nat) : TopicConfig := { onePartition with rotationBytes := mb * 1024 * 1024 }

theorem reaper_spares_needed_inOrder : ∃ s s' file,
    play (guarded (InOrder plainCodec) (Reaped.step plainCodec (rotatingAt 0)))
      (.start (rotatingAt 0)) twoSegments = some s ∧
    s.step plainCodec (rotatingAt 0) .reapNext = some s' ∧
    s.running.dir.segments.get? 0 = some file ∧ s'.running.dir.segments.get? 0 = none ∧
    (frames file.bytes).map Prod.fst = [0] ∧ s.running.dir.groups.lookup "g" = some (some 0) ∧
    ∀ f ∈ frames file.bytes, ∀ group progress,
      s.running.dir.groups.lookup group = some progress → ∃ c, progress = some c ∧ f.1 ≤ c := by
  have hrun : (play (guarded (InOrder plainCodec) (step plainCodec (rotatingAt 0)))
      (.start (rotatingAt 0)) twoSegments).bind (fun s =>
        (s.step plainCodec (rotatingAt 0) .reapNext).map (fun s' =>
          ((s.running.dir.segments.get? 0).map (fun file => (frames file.bytes).map Prod.fst),
            s'.running.dir.segments.get? 0, s.running.dir.groups.lookup "g"))) =
      some (some [0], none, some (some 0)) := by
    rfl
  obtain ⟨s, hs, hnext⟩ := bind_eq_some_iff.1 hrun
  obtain ⟨s', hs', hview⟩ := map_eq_some_iff.1 hnext
  simp only [Prod.mk.injEq] at hview
  obtain ⟨hfile, hgone, hgroup⟩ := hview
  obtain ⟨file, hfile, hframes⟩ := map_eq_some_iff.1 hfile
  exact ⟨s, s', file, hs, hs', hfile, hgone, hframes, hgroup,
    reaper_spares_needed hs hs' hfile hgone⟩

/-! ## A segment that is not -/

/-- A message that does not fit into a segment of 1 MiB with others. -/
def large : Message := note (List.replicate (1024 * 1024) 0)

/-- The third message is written before the first one; the first is acknowledged. -/
def crossed : List ReaperEvent :=
  [.session (.reserve (note [0])), .session (.reserve large), .session (.reserve (note [2])),
    .session (.write 2), .session (.write 0)] ++ acknowledged

structure Crossed (message : Message) (r : Running) : Prop where
  sends : r.sends 1 = some ⟨message, .reserved⟩
  large : 1024 * 1024 ≤ (plainCodec.serialize message).length
  writer : r.writer.activeSegmentId = 0 ∧ 0 < r.writer.activeSegmentSize ∧
    r.writer.rotationBytes = 1024 * 1024
  file : ∃ file, r.dir.segments.entries = [(0, file)] ∧ (frames file.bytes).map Prod.fst = [2, 0]
  groups : r.dir.groups.keys = ["g"] ∧ r.dir.groups.lookup "g" = some (some 0)

theorem payload_length_le (message : Message) :
    message.payload.length ≤ (plainCodec.serialize message).length := by
  have hbytes : message.payload.flatMap Format.byte.put = message.payload := List.flatMap_singleton' _
  show _ ≤ (_ ++ (_ ++ ((Format.nat.put message.payload.length ++
    message.payload.flatMap Format.byte.put) ++ _))).length
  rw [hbytes]
  simp only [List.length_append]
  omega

theorem crossed_reached : ∃ r, Crossed large r ∧
    play (step plainCodec (rotatingAt 1)) (.start (rotatingAt 1)) crossed = some ⟨r, .idle⟩ := by
  have hsend : (play (step plainCodec (rotatingAt 1)) (.start (rotatingAt 1)) crossed).map
      (fun s => s.running.sends 1) = some (some ⟨large, .reserved⟩) := rfl
  have hview : (play (step plainCodec (rotatingAt 1)) (.start (rotatingAt 1)) crossed).map
      (fun s => (s.scan, s.running.writer,
        s.running.dir.segments.entries.map (fun e => (e.1, (frames e.2.bytes).map Prod.fst)),
        s.running.dir.groups.keys, s.running.dir.groups.lookup "g")) =
      some (.idle, ⟨1024 * 1024, 0, 54, 3⟩, [(0, [2, 0])], ["g"], some (some 0)) := by
    rfl
  obtain ⟨⟨r, scan⟩, hs, hview⟩ := map_eq_some_iff.1 hview
  rw [hs] at hsend
  simp only [Prod.mk.injEq] at hview
  obtain ⟨rfl, hwriter, hsegments, hgroups⟩ := hview
  simp only [map_some, some.injEq] at hsend
  have hlarge : 1024 * 1024 ≤ (plainCodec.serialize large).length := by
    rw [← List.length_replicate (n := 1024 * 1024) (a := (0 : UInt8))]
    exact payload_length_le large
  refine ⟨r, ⟨hsend, hlarge, by rw [hwriter]; decide, ?_, hgroups⟩, hs⟩
  obtain ⟨⟨id, file⟩, hentries, hentry⟩ := List.map_eq_singleton_iff.1 hsegments
  simp only [Prod.mk.injEq] at hentry
  obtain ⟨rfl, hframes⟩ := hentry
  exact ⟨file, hentries, hframes⟩

variable {message : Message}

theorem Crossed.seals (h : Crossed message r) :
    r.writer.rotate (frame 1 (plainCodec.serialize message)).length r.dir =
      ({ r.writer with activeSegmentId := 1, activeSegmentSize := 0 }, r.dir.append 1 []) := by
  obtain ⟨hactive, hsize, hrotation⟩ := h.writer
  have hlarge := h.large
  unfold rotate
  rw [if_pos ⟨hsize, by rw [hrotation, length_frame]; omega⟩, hactive]

theorem readAll_reads {c : Nat} (hkeys : r.dir.groups.keys = ["g"])
    (hcommitted : r.dir.committed "g" = some c) :
    play (step C cfg) ⟨r, .idle⟩ readAll = some ⟨r, .reaping r.writer.activeSegmentId
      (r.dir.segments.entries.map Prod.fst) (some c)⟩ := by
  simp [play, readAll, step, hkeys, hcommitted, leastProgress]

/-- The scan behind it comes to the first segment, with the group's offset as the minimum. -/
theorem Crossed.scanned (h : Crossed message r) : ∃ r', r'.dir.segments.get? 0 = r.dir.segments.get? 0 ∧
    r'.dir.groups = r.dir.groups ∧
    play (step plainCodec (rotatingAt 1)) ⟨r, .idle⟩ (.session (.write 1) :: readAll) =
      some ⟨r', .reaping 1 [0, 1] (some 0)⟩ := by
  obtain ⟨file, hentries, -⟩ := h.file
  have hdir : (r.written plainCodec 1 message).dir =
      (r.dir.append 1 []).append 1 (frame 1 (plainCodec.serialize message)) := by
    show (r.writer.rotate _ r.dir).2.append (r.writer.rotate _ r.dir).1.activeSegmentId _ = _
    rw [h.seals]
  have hactive : (r.written plainCodec 1 message).writer.activeSegmentId = 1 := by
    show (r.writer.rotate _ r.dir).1.activeSegmentId = 1
    rw [h.seals]
  have hgroups : (r.written plainCodec 1 message).dir.groups = r.dir.groups :=
    groups_writeFrame _ _ _
  have hwrite : step plainCodec (rotatingAt 1) ⟨r, .idle⟩ (.session (.write 1)) =
      some ⟨r.written plainCodec 1 message, .idle⟩ := by
    show (r.step plainCodec (rotatingAt 1) (.write 1)).map _ = _
    simp only [Running.step, h.sends, map_some]
  have hcommitted : (r.written plainCodec 1 message).dir.committed "g" = some 0 :=
    committed_eq (by rw [hgroups]; exact h.groups.2)
  refine ⟨r.written plainCodec 1 message, ?_, hgroups, ?_⟩
  · simp only [hdir, append, get?_insert, zero_ne_one, if_false]
  · show (step plainCodec (rotatingAt 1) ⟨r, .idle⟩ (.session (.write 1))).bind _ = _
    rw [hwrite, bind_some, readAll_reads (by rw [hgroups]; exact h.groups.1) hcommitted,
      hactive, hdir]
    simp [append, OrdMap.insert, hentries, OrdMap.insertEntry]

/-- The third message is written before the first one, into a segment that the second one seals. The
    only group has committed the first message, and the segment is deleted with the third. -/
theorem reaper_deletes_uncommitted : ∃ s s' file,
    play (Reaped.step plainCodec (rotatingAt 1)) (.start (rotatingAt 1))
      (crossed ++ (.session (.write 1) :: readAll)) = some s ∧
    s.step plainCodec (rotatingAt 1) .reapNext = some s' ∧
    s.running.dir.segments.get? 0 = some file ∧ s'.running.dir.segments.get? 0 = none ∧
    (frames file.bytes).map Prod.fst = [2, 0] ∧
    s.running.dir.groups.lookup "g" = some (some 0) := by
  obtain ⟨r, hcrossed, hrun⟩ := crossed_reached
  obtain ⟨r', hfile', hgroups, hscan⟩ := hcrossed.scanned
  obtain ⟨file, hentries, hframes⟩ := hcrossed.file
  have hfile : r'.dir.segments.get? 0 = some file := by
    rw [hfile']
    exact get?_eq_some.2 (by rw [hentries]; exact List.mem_singleton_self _)
  have hlast : lastOffsetInSegment file.bytes = some 0 := by
    unfold lastOffsetInSegment
    rw [← List.getLast?_map, hframes]
    rfl
  have hreap : r'.dir.maybeReapAt false (some 0) 0 = r'.dir.unlink 0 := by
    simp [maybeReapAt, hfile, hlast]
  refine ⟨⟨r', .reaping 1 [0, 1] (some 0)⟩,
    ⟨{ r' with dir := r'.dir.unlink 0 }, .reaping 1 [1] (some 0)⟩, file, ?_, ?_, hfile, ?_, hframes, ?_⟩
  · rw [play_append, hrun]
    exact hscan
  · rw [← hreap]
    rfl
  · show (r'.dir.segments.erase 0).get? 0 = none
    rw [get?_erase, if_pos rfl]
  · rw [hgroups]
    exact hcrossed.groups.2

end ProximaDb.Queue
