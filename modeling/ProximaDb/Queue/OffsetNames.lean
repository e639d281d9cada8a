/-
  ProximaDb.Queue.OffsetNames

  Offsets over clean restarts. The counter of a partition is rebuilt from the frames of its
  segments, local or archived, and from the progress of its groups.
-/
import ProximaDb.Queue.Sound

namespace ProximaDb.Queue

open ProximaDb.Lib PartitionDir PartitionDiskWriter OrdMap List Prod Queue.Partition

variable {C : MessageCodec} {cfg : TopicConfig} {archiveConfigured : Bool}
  {dir dir' : PartitionDir} {history : History} {r r' : Running} {e : SessionEvent}

/-! ## The bytes a replay reads -/

variable {id : Nat}

namespace PartitionDir

def replayBytes (dir : PartitionDir) (archiveConfigured : Bool) (id : Nat) : Bytes :=
  segmentBytes (dir.segments.get? id, (dir.archived archiveConfigured).get? id)

theorem mem_replayedFrames_bytes {f : Nat × Bytes} :
    (id, f) ∈ dir.replayedFrames archiveConfigured ↔
      f ∈ frames (dir.replayBytes archiveConfigured id) :=
  ⟨mem_replayedFrames, mem_replayed_of_frame⟩

theorem replayBytes_local (h : (dir.archived archiveConfigured).get? id = none) :
    dir.replayBytes archiveConfigured id = dir.bytesOf id := by
  unfold replayBytes bytesOf
  rw [h]
  cases dir.segments.get? id with
  | none => rfl
  | some file =>
    unfold segmentBytes
    simp only [Option.getD_none, Option.getD_some]
    split_ifs with hempty
    · rw [hempty]
    · rfl

theorem replayBytes_of_free (h : dir.archive.get? id = none) :
    dir.replayBytes archiveConfigured id = dir.bytesOf id := by
  refine replayBytes_local ?_
  unfold archived
  split_ifs
  · exact h
  · rfl

theorem replayBytes_mirrored {bytes : Bytes} (h : dir.archive.get? id = some bytes)
    (hmirror : ∀ file, (id, file) ∈ dir.segments.entries → file.bytes = bytes) :
    dir.replayBytes true id = bytes := by
  unfold replayBytes archived
  rw [if_pos rfl, h]
  cases hfile : dir.segments.get? id with
  | none => rfl
  | some file =>
    have hsame := hmirror file (get?_eq_some.1 hfile)
    simp only [segmentBytes, Option.getD_some, hsame, ite_self]

theorem replayBytes_congr (hlocal : dir'.segments.get? id = dir.segments.get? id)
    (harchive : dir'.archive.get? id = dir.archive.get? id) :
    dir'.replayBytes archiveConfigured id = dir.replayBytes archiveConfigured id := by
  have hsame : (dir'.archived archiveConfigured).get? id =
      (dir.archived archiveConfigured).get? id := by
    unfold archived
    split_ifs
    · exact harchive
    · rfl
  unfold replayBytes
  rw [hlocal, hsame]

end PartitionDir

/-! ## Offsets that are not given again -/

/-- A replay reads a frame of the offset, or a group has committed it. -/
def Covered (archiveConfigured : Bool) (dir : PartitionDir) (offset : Nat) : Prop :=
  (∃ segment payload, (offset, payload) ∈ frames (dir.replayBytes archiveConfigured segment)) ∨
    ∃ group c, dir.committed group = some c ∧ offset ≤ c

/-- No offset was given twice, and every one that was given is covered. The files are whole frames,
    and an uploaded segment has its bytes in the archive. -/
structure Ledger (archiveConfigured : Bool) (dir : PartitionDir) (history : History) : Prop where
  nodup : (history.given.map Prod.fst).Nodup
  covered : ∀ offset ∈ history.given.map Prod.fst, Covered archiveConfigured dir offset
  whole : ∀ id, tailOf (dir.bytesOf id) = []
  mirrored : ∀ id ∈ dir.uploaded, ∃ bytes, dir.archive.get? id = some bytes ∧
    ∀ file, (id, file) ∈ dir.segments.entries → file.bytes = bytes

/-- A running process that gives new offsets only. -/
structure Named (cfg : TopicConfig) (r : Running) : Prop where
  sound : r.Sound
  ledger : Ledger cfg.archiveConfigured r.dir r.history
  below : ∀ offset ∈ r.history.given.map Prod.fst, offset < r.writer.nextOffset
  reserved : ∀ offset message, r.sends offset = some ⟨message, .reserved⟩ →
    offset ∉ r.history.given.map Prod.fst
  active : ∃ file, (r.writer.activeSegmentId, file) ∈ r.dir.segments.entries
  sealed : ∀ id, r.writer.activeSegmentId ≤ id → r.dir.archive.get? id = none

theorem Covered.mono {offset : Nat} (h : Covered archiveConfigured dir offset)
    (hframes : ∀ segment f, f ∈ frames (dir.replayBytes archiveConfigured segment) →
      f ∈ frames (dir'.replayBytes archiveConfigured segment))
    (hprogress : ∀ group c, dir.committed group = some c →
      ∃ c', dir'.committed group = some c' ∧ c ≤ c') :
    Covered archiveConfigured dir' offset := by
  rcases h with ⟨segment, payload, hf⟩ | ⟨group, c, hc, hle⟩
  · exact .inl ⟨segment, payload, hframes segment _ hf⟩
  · obtain ⟨c', hc', hle'⟩ := hprogress group c hc
    exact .inr ⟨group, c', hc', hle.trans hle'⟩

namespace Ledger

variable (h : Ledger archiveConfigured dir history)

include h

theorem append {data : Bytes}
    (hfree : dir.archive.get? id = none) (hwhole : tailOf (dir.bytesOf id ++ data) = []) :
    Ledger archiveConfigured (dir.append id data) history := by
  have hfree' : (dir.append id data).archive.get? id = none := hfree
  refine ⟨h.nodup, fun offset hoffset => ?_, fun segment => ?_, fun id' hid' => ?_⟩
  · refine (h.covered offset hoffset).mono (fun segment f hf => ?_)
      (fun group c hc => ⟨c, hc, Nat.le_refl _⟩)
    by_cases heq : segment = id
    · subst heq
      rw [replayBytes_of_free hfree] at hf
      rw [replayBytes_of_free hfree', bytesOf_append, if_pos rfl]
      exact mem_frames_of_prefix (prefix_append _ _) hf
    · have hother : (dir.append id data).segments.get? segment = dir.segments.get? segment := by
        unfold PartitionDir.append
        rw [get?_insert, if_neg heq]
      rw [replayBytes_congr hother rfl]
      exact hf
  · rw [bytesOf_append]
    split_ifs
    · exact hwhole
    · exact h.whole segment
  · obtain ⟨bytes, harchive, hbytes⟩ := h.mirrored id' hid'
    refine ⟨bytes, harchive, fun file hfile => ?_⟩
    rcases mem_append.1 hfile with heq | ⟨hold, -⟩
    · -- the segment that grew is not an uploaded one
      rw [(mk.inj heq).1, hfree] at harchive
      cases harchive
    · exact hbytes file hold

theorem append_nil (hfree : dir.archive.get? id = none) :
    Ledger archiveConfigured (dir.append id []) history :=
  h.append hfree (by rw [List.append_nil]; exact h.whole id)

theorem fsync (id : Nat) : Ledger archiveConfigured (dir.fsync id) history := by
  have hbytes : ∀ segment, (dir.fsync id).replayBytes archiveConfigured segment =
      dir.replayBytes archiveConfigured segment := by
    intro segment
    unfold PartitionDir.replayBytes PartitionDir.fsync
    rw [get?_map]
    cases dir.segments.get? segment with
    | none => rfl
    | some file =>
      split_ifs <;> rfl
  refine ⟨h.nodup, fun offset hoffset => ?_, fun segment => ?_, fun id' hid' => ?_⟩
  · refine (h.covered offset hoffset).mono (fun segment f hf => ?_)
      (fun group c hc => ⟨c, hc, Nat.le_refl _⟩)
    rw [hbytes]
    exact hf
  · rw [bytesOf_fsync]
    exact h.whole segment
  · obtain ⟨bytes, harchive, hmirror⟩ := h.mirrored id' hid'
    refine ⟨bytes, harchive, fun file hfile => ?_⟩
    obtain ⟨old, hold, rfl⟩ := mem_fsync.1 hfile
    have hold' := hmirror old hold
    split_ifs
    · exact hold'
    · exact hold'

theorem uploadSegment (id : Nat) : Ledger archiveConfigured (dir.uploadSegment id) history := by
  unfold PartitionDir.uploadSegment
  cases hfile : dir.segments.get? id with
  | none => exact h
  | some file =>
    dsimp only
    split_ifs with hskip
    · exact h
    · have hnonempty : file.bytes ≠ [] := fun hnil => hskip (.inr hnil)
      have hmem := get?_eq_some.1 hfile
      refine ⟨h.nodup, fun offset hoffset => ?_, h.whole, fun id' hid' => ?_⟩
      · refine (h.covered offset hoffset).mono (fun segment f hf => ?_)
          (fun group c hc => ⟨c, hc, Nat.le_refl _⟩)
        by_cases heq : segment = id
        · subst heq
          unfold replayBytes segmentBytes at hf ⊢
          simp only [hfile, if_neg hnonempty] at hf ⊢
          exact hf
        · have harchive : (dir.archive.insert id file.bytes).get? segment =
              dir.archive.get? segment := (get?_insert _ _ _ _).trans (if_neg heq)
          have hread : replayBytes { dir with
              archive := dir.archive.insert id file.bytes
              uploaded := id :: dir.uploaded } archiveConfigured segment =
                dir.replayBytes archiveConfigured segment :=
            replayBytes_congr rfl harchive
          rw [hread]
          exact hf
      · by_cases heq : id' = id
        · subst heq
          refine ⟨file.bytes, (get?_insert _ _ _ _).trans (if_pos rfl), fun file' hfile' => ?_⟩
          rw [mem_unique hfile' hmem]
        · have hold : id' ∈ dir.uploaded := (mem_cons.1 hid').resolve_left heq
          obtain ⟨bytes, harchive, hmirror⟩ := h.mirrored id' hold
          exact ⟨bytes, ((get?_insert _ _ _ _).trans (if_neg heq)).trans harchive, hmirror⟩

/-- A segment is unlinked: the archive has its frames, or the groups have committed them. -/
theorem unlink (hgone : (archiveConfigured = true ∧ id ∈ dir.uploaded) ∨
      (archiveConfigured = false ∧ ∀ f ∈ frames (dir.bytesOf id),
      ∃ group c, dir.committed group = some c ∧ f.1 ≤ c)) :
    Ledger archiveConfigured (dir.unlink id) history := by
  have hother : ∀ segment, segment ≠ id →
      (dir.unlink id).segments.get? segment = dir.segments.get? segment := by
    intro segment hne
    exact (get?_erase _ _ _).trans (if_neg hne)
  refine ⟨h.nodup, fun offset hoffset => ?_, fun segment => ?_, fun id' hid' => ?_⟩
  · rcases h.covered offset hoffset with ⟨segment, payload, hf⟩ | hprogress
    · by_cases heq : segment = id
      · subst heq
        rcases hgone with ⟨rfl, huploaded⟩ | ⟨rfl, hcommitted⟩
        · obtain ⟨bytes, harchive, hmirror⟩ := h.mirrored segment huploaded
          have hafter : (dir.unlink segment).replayBytes true segment = bytes :=
            replayBytes_mirrored harchive (fun file hfile => absurd rfl (mem_erase.1 hfile).2)
          refine .inl ⟨segment, payload, ?_⟩
          rw [hafter, ← replayBytes_mirrored harchive hmirror]
          exact hf
        · -- without an archive the frame was in the local file
          have hnone : (dir.archived false).get? segment = none := rfl
          rw [replayBytes_local hnone] at hf
          obtain ⟨group, c, hc, hle⟩ := hcommitted _ hf
          exact .inr ⟨group, c, hc, hle⟩
      · refine .inl ⟨segment, payload, ?_⟩
        rw [replayBytes_congr (hother segment heq) rfl]
        exact hf
    · exact .inr hprogress
  · by_cases heq : segment = id
    · have hnone : (dir.unlink id).segments.get? segment = none :=
        (get?_erase _ _ _).trans (if_pos heq)
      unfold bytesOf
      rw [hnone]
      rfl
    · unfold bytesOf
      rw [hother segment heq]
      exact h.whole segment
  · obtain ⟨hold, -⟩ := mem_filter.1 hid'
    obtain ⟨bytes, harchive, hmirror⟩ := h.mirrored id' hold
    exact ⟨bytes, harchive, fun file hfile => hmirror file (mem_erase.1 hfile).1⟩

end Ledger

/-! ## The steps of a session -/

/-- The condition on a step of a session. The length of a frame fits its header; without an archive
    a segment is reaped only if its last frame has its highest offset. -/
def NamingSessionOk (C : MessageCodec) (cfg : TopicConfig) (r : Running) : SessionEvent → Prop
  | .write offset => ∀ send ∈ r.sends offset, (C.serialize send.message).length < 2 ^ 32
  | .reap segment => cfg.archiveConfigured = true ∨ ∀ f ∈ frames (r.dir.bytesOf segment),
      ∀ last ∈ lastOffsetInSegment (r.dir.bytesOf segment), f.1 ≤ last
  | _ => True

/-- The condition on a step. Restarts are clean, and a topic is opened without a replay only if
    there is nothing to replay. -/
def NamingOk (C : MessageCodec) (cfg : TopicConfig) : Partition → PartitionEvent → Prop
  | .running r, .session e => NamingSessionOk C cfg r e
  | .down dir _, .openOnUse =>
    dir.replayedFrames cfg.archiveConfigured = [] ∧ dir.maxCommitted = none
  | _, .crash _ => False
  | _, _ => True

instance (C : MessageCodec) (cfg : TopicConfig) (r : Running) (e : SessionEvent) :
    Decidable (NamingSessionOk C cfg r e) :=
  match e with
  | .write offset => inferInstanceAs (Decidable (∀ send ∈ r.sends offset, _))
  | .reap _ => inferInstanceAs (Decidable (_ ∨ ∀ f ∈ _, ∀ last ∈ _, _))
  | .reserve _ | .abandon _ | .enqueue _ | .waitForFsync _ | .fsync .. | .receipt _
  | .subscribe _ | .poll .. | .ack .. | .nack .. | .upload _ => instDecidableTrue

instance (C : MessageCodec) (cfg : TopicConfig) (s : Partition) (e : PartitionEvent) :
    Decidable (NamingOk C cfg s e) :=
  match s, e with
  | .running r, .session e => inferInstanceAs (Decidable (NamingSessionOk C cfg r e))
  | .down .., .openOnUse => inferInstanceAs (Decidable (_ ∧ _))
  | .running _, .crash _ | .down .., .crash _ => instDecidableFalse
  | .running _, .shutdown | .running _, .reopen | .running _, .openOnUse
  | .down .., .session _ | .down .., .shutdown | .down .., .reopen => instDecidableTrue

namespace Named

/-- Steps that leave the files as they are; progress may grow, and sends may go on. -/
theorem of_eq (h : Named cfg r) (hsound : r'.Sound)
    (hsegments : r'.dir.segments = r.dir.segments) (harchive : r'.dir.archive = r.dir.archive)
    (huploaded : r'.dir.uploaded = r.dir.uploaded)
    (hprogress : ∀ group c, r.dir.committed group = some c →
      ∃ c', r'.dir.committed group = some c' ∧ c ≤ c')
    (hgiven : r'.history.given = r.history.given)
    (hactive : r'.writer.activeSegmentId = r.writer.activeSegmentId)
    (hnext : r.writer.nextOffset ≤ r'.writer.nextOffset)
    (hsends : ∀ offset message, r'.sends offset = some ⟨message, .reserved⟩ →
      offset ∉ r.history.given.map fst) : Named cfg r' := by
  have hbytes : ∀ id, r'.dir.bytesOf id = r.dir.bytesOf id := by
    intro id
    unfold bytesOf
    rw [hsegments]
  refine ⟨hsound, ⟨?_, fun offset hoffset => ?_, fun id => ?_, fun id hid => ?_⟩, ?_, ?_, ?_, ?_⟩
  · rw [hgiven]
    exact h.ledger.nodup
  · rw [hgiven] at hoffset
    refine (h.ledger.covered offset hoffset).mono (fun segment f hf => ?_) hprogress
    have hread : r'.dir.replayBytes cfg.archiveConfigured segment =
        r.dir.replayBytes cfg.archiveConfigured segment :=
      replayBytes_congr (by rw [hsegments]) (by rw [harchive])
    rw [hread]
    exact hf
  · rw [hbytes]
    exact h.ledger.whole id
  · rw [huploaded] at hid
    rw [harchive, hsegments]
    exact h.ledger.mirrored id hid
  · rw [hgiven]
    exact fun offset hoffset => lt_of_lt_of_le (h.below offset hoffset) hnext
  · rw [hgiven]
    exact hsends
  · rw [hactive, hsegments]
    exact h.active
  · rw [hactive, harchive]
    exact h.sealed

theorem write (h : Named cfg r) {offset : Nat} {message : Message}
    (hsend : r.sends offset = some ⟨message, .reserved⟩)
    (hsound : (r.written C offset message).Sound)
    (hlength : (C.serialize message).length < 2 ^ 32) : Named cfg (r.written C offset message) := by
  have hlt := h.sound.sends offset _ hsend
  have hfits : FrameFits offset (C.serialize message) := ⟨hlt.trans h.sound.counter, hlength⟩
  have hnew := h.reserved offset message hsend
  let framed := frame offset (C.serialize message)
  let w := (r.writer.rotate framed.length r.dir).1
  let d := (r.writer.rotate framed.length r.dir).2
  -- behind the rotation the ledger and what is sealed are as before
  have hrotated : Ledger cfg.archiveConfigured d r.history ∧
      r.writer.activeSegmentId ≤ w.activeSegmentId ∧ d.archive = r.dir.archive := by
    rcases r.writer.rotate_cases framed.length r.dir with heq | ⟨w', heq, hid⟩
    · rw [show d = r.dir from congrArg snd heq, show w = r.writer from congrArg fst heq]
      exact ⟨h.ledger, Nat.le_refl _, rfl⟩
    · rw [show d = _ from congrArg snd heq, show w = w' from congrArg fst heq, hid]
      exact ⟨h.ledger.append_nil (h.sealed _ (Nat.le_succ _)), Nat.le_succ _, rfl⟩
  obtain ⟨hledger, hforward, harchive⟩ := hrotated
  have hfree : d.archive.get? w.activeSegmentId = none := by
    rw [harchive]
    exact h.sealed _ hforward
  have hwhole := hledger.whole w.activeSegmentId
  obtain ⟨hframes, htail⟩ := frames_append_frame hwhole hfits
  have happended : Ledger cfg.archiveConfigured (d.append w.activeSegmentId framed) r.history :=
    hledger.append hfree htail
  have hfree' : (d.append w.activeSegmentId framed).archive.get? w.activeSegmentId = none := hfree
  have hread : (d.append w.activeSegmentId framed).replayBytes cfg.archiveConfigured
      w.activeSegmentId = d.bytesOf w.activeSegmentId ++ framed := by
    rw [replayBytes_of_free hfree', bytesOf_append, if_pos rfl]
  have hgiven : (r.written C offset message).history.given.map fst =
      r.history.given.map fst ++ [offset] := map_append
  refine ⟨hsound, ⟨?_, ?_, happended.whole, happended.mirrored⟩, ?_, ?_, ?_, ?_⟩
  · rw [hgiven]
    exact nodup_append.2 ⟨h.ledger.nodup, nodup_singleton _, fun a ha b hb hab =>
      hnew (mem_singleton.1 hb ▸ hab ▸ ha)⟩
  · rw [hgiven]
    intro o ho
    rcases mem_append.1 ho with hold | hself
    · exact happended.covered o hold
    · rw [mem_singleton.1 hself]
      refine .inl ⟨w.activeSegmentId, C.serialize message, ?_⟩
      show (offset, C.serialize message) ∈ frames ((d.append w.activeSegmentId framed).replayBytes
        cfg.archiveConfigured w.activeSegmentId)
      rw [hread, hframes]
      exact mem_append_right _ mem_cons_self
  · rw [hgiven]
    intro o ho
    show o < (r.writer.writeFrame framed r.dir).1.nextOffset
    rw [nextOffset_writeFrame]
    rcases mem_append.1 ho with hold | hself
    · exact h.below o hold
    · rw [mem_singleton.1 hself]
      exact hlt
  · intro o m hm
    have hm' : (r.setSend offset (some ⟨message, .written
        (r.written C offset message).writer.activeSegmentId⟩)).sends o = some ⟨m, .reserved⟩ := hm
    rw [Running.sends_setSend] at hm'
    split_ifs at hm' with heq
    · cases hm'
    · rw [hgiven]
      intro ho
      rcases mem_append.1 ho with hold | hself
      · exact h.reserved o m hm' hold
      · exact heq (mem_singleton.1 hself)
  · exact ⟨_, mem_append.2 (.inl rfl)⟩
  · intro id hid
    show d.archive.get? id = none
    rw [harchive]
    exact h.sealed id (hforward.trans hid)

theorem reap (h : Named cfg r) {segment : Nat} (hsealed : segment < r.writer.activeSegmentId)
    (hok : NamingSessionOk C cfg r (.reap segment))
    (hsound : ({ r with dir := r.dir.maybeReap cfg.archiveConfigured segment } : Running).Sound) :
    Named cfg { r with dir := r.dir.maybeReap cfg.archiveConfigured segment } := by
  rcases maybeReap_cases r.dir cfg.archiveConfigured segment with
    hsame | ⟨hgone, huploaded, c, hmin, hlast⟩
  · rw [hsame]
    exact h
  · have hledger : Ledger cfg.archiveConfigured (r.dir.unlink segment) r.history := by
      refine h.ledger.unlink ?_
      cases harchive : cfg.archiveConfigured with
      | true => exact .inl ⟨rfl, huploaded harchive⟩
      | false =>
        refine .inr ⟨rfl, fun f hf => ?_⟩
        obtain ⟨group, hgroup⟩ := minCommitted_attained hmin
        refine ⟨group, c, hgroup, ?_⟩
        -- the last frame is committed, and no frame of the segment is above it
        have hhighest := hok.resolve_left (by rw [harchive]; exact Bool.false_ne_true)
        cases hend : lastOffsetInSegment (r.dir.bytesOf segment) with
        | none =>
          have hempty : frames (r.dir.bytesOf segment) = [] :=
            getLast?_eq_none_iff.1 (Option.map_eq_none_iff.1 hend)
          rw [hempty] at hf
          cases hf
        | some last => exact (hhighest f hf last hend).trans (hlast last hend)
    obtain ⟨active, hactive⟩ := h.active
    rw [hgone] at hsound ⊢
    exact ⟨hsound, hledger, h.below, h.reserved, ⟨active, mem_erase.2
      ⟨hactive, ne_of_gt hsealed⟩⟩, h.sealed⟩

theorem moves (h : Named cfg r) (hok : NamingSessionOk C cfg r e) (hmoves : r.Moves C cfg e r') :
    Named cfg r' := by
  have hsound := h.sound.moves hmoves
  have hstays : ∀ group c, r.dir.committed group = some c →
      ∃ c', r.dir.committed group = some c' ∧ c ≤ c' := fun group c hc => ⟨c, hc, Nat.le_refl _⟩
  have hset : ∀ offset send, (∀ m, send ≠ some ⟨m, .reserved⟩) → ∀ o m,
      (r.setSend offset send).sends o = some ⟨m, .reserved⟩ →
        o ∉ r.history.given.map fst := by
    intro offset send hsend o m hm
    rw [Running.sends_setSend] at hm
    split_ifs at hm with heq
    · exact absurd hm (hsend m)
    · exact h.reserved o m hm
  cases hmoves with
  | reserve message hnext =>
    refine h.of_eq hsound rfl rfl rfl hstays rfl rfl (Nat.le_succ _) (fun o m hm => ?_)
    rw [Running.sends_setSend] at hm
    split_ifs at hm with heq
    · rw [heq]
      exact fun hgiven => Nat.lt_irrefl _ (h.below _ hgiven)
    · exact h.reserved o m hm
  | write offset message hsend => exact h.write hsend hsound (hok _ hsend)
  | abandon | full | lazyReceipt | strictReceipt | enqueue | wait =>
    exact h.of_eq hsound rfl rfl rfl hstays rfl rfl (Nat.le_refl _) (hset _ _ (by simp))
  | fsync segment answered =>
    refine ⟨hsound, h.ledger.fsync segment, h.below, fun o m hm => ?_, ?_, h.sealed⟩
    · unfold Running.synced at hm
      dsimp only at hm
      split at hm
      case h_1 => split_ifs at hm <;> cases hm
      case h_2 => exact h.reserved o m hm
    · obtain ⟨file, hfile⟩ := h.active
      exact ⟨_, mem_fsync.2 ⟨file, hfile, rfl⟩⟩
  | subscribe | exhausted =>
    exact h.of_eq hsound rfl rfl rfl (fun group' c hc => ⟨c,
      (committed_register r.dir _ group').trans hc, Nat.le_refl _⟩) rfl rfl
      (Nat.le_refl _) h.reserved
  | poll | pollFailed | ackBehind | nack =>
    exact h.of_eq hsound rfl rfl rfl hstays rfl rfl (Nat.le_refl _) h.reserved
  | ackNothing => exact h
  | ack | ackLost =>
    refine h.of_eq hsound rfl rfl rfl (fun group c hc => ?_) rfl rfl (Nat.le_refl _) h.reserved
    show ∃ c', (r.dir.commit _ _).committed group = some c' ∧ c ≤ c'
    rw [committed_commit]
    split_ifs with heq
    · rw [← heq, hc]
      exact ⟨_, rfl, Nat.le_max_left _ _⟩
    · exact ⟨c, hc, Nat.le_refl _⟩
  | upload segment harchive hsealed =>
    obtain ⟨file, hfile⟩ := h.active
    refine ⟨hsound, h.ledger.uploadSegment segment, h.below, h.reserved, ⟨file, ?_⟩,
      fun id hid => ?_⟩
    · rw [segments_uploadSegment]
      exact hfile
    · rw [archive_uploadSegment (ne_of_gt (lt_of_lt_of_le hsealed hid))]
      exact h.sealed id hid
  | reap segment hsealed => exact h.reap hsealed hok hsound

end Named

/-! ## Restarts -/

/-- A partition, running or not, whose next offsets are new. -/
def Partition.Named (cfg : TopicConfig) : Partition → Prop
  | .running r => Queue.Named cfg r
  | .down dir history => Ledger cfg.archiveConfigured dir history ∧
      ∀ id, (dir.archive.get? id).isSome → ∃ e ∈ dir.segments.entries, id < e.1

theorem Named.down (h : Named cfg r) : (down r.dir r.history).Named cfg := by
  refine ⟨h.ledger, fun id hid => ?_⟩
  obtain ⟨file, hfile⟩ := h.active
  refine ⟨_, hfile, ?_⟩
  by_contra hnot
  rw [h.sealed id (Nat.le_of_not_lt hnot)] at hid
  cases hid

theorem named_blank : blank.Named cfg := by
  refine ⟨⟨nodup_nil, nofun, fun id => rfl, nofun⟩, nofun⟩

/-- The directory that a process opens: its highest segment is there, and above the archive. -/
theorem Partition.Named.openOn (h : (down dir history).Named cfg) (rotationBytes : Nat) :
    Ledger cfg.archiveConfigured (openOn rotationBytes dir).2 history ∧
      (∃ file, ((openOn rotationBytes dir).1.activeSegmentId, file) ∈
        (openOn rotationBytes dir).2.segments.entries) ∧
      ∀ id, (openOn rotationBytes dir).1.activeSegmentId ≤ id →
        (openOn rotationBytes dir).2.archive.get? id = none := by
  obtain ⟨hledger, harchive⟩ := h
  rcases (openOn_cases rotationBytes dir).2 with
    ⟨hdir, file, hlast⟩ | ⟨hempty, hid, hdir⟩
  · rw [hdir]
    refine ⟨hledger, ⟨file, mem_of_getLast? hlast⟩, fun id hle => ?_⟩
    by_contra hsome
    obtain ⟨e, he, hlt⟩ := harchive id (Option.isSome_iff_ne_none.2 hsome)
    exact absurd (le_last hlast he) (Nat.not_le.2 (lt_of_le_of_lt hle hlt))
  · have hnone : ∀ id, dir.archive.get? id = none := by
      intro id
      by_contra hsome
      obtain ⟨e, he, -⟩ := harchive id (Option.isSome_iff_ne_none.2 hsome)
      rw [hempty] at he
      cases he
    rw [hdir, hid]
    exact ⟨hledger.append_nil (hnone 0), ⟨_, mem_append.2 (.inl rfl)⟩, fun id _ => hnone id⟩

/-- A process that has replayed its directory goes on above every offset that was given. -/
theorem Partition.Named.reopen (h : (down dir history).Named cfg)
    (hreopen : reopenPartition C cfg dir history = .ok r) : Queue.Named cfg r := by
  obtain ⟨hreplay, hsends, -, hhistory⟩ := reopenPartition_ok hreopen
  have hsound := sound_reopenPartition hreopen
  obtain ⟨hledger, hactive, hsealed⟩ := h.openOn cfg.rotationBytes
  obtain ⟨habove, hprogress⟩ := replayPartition_above hreplay
  obtain ⟨floor, st, -, -, -, hresume⟩ := replayPartition_ok hreplay
  have hbelow : ∀ offset ∈ history.given.map fst, offset < r.writer.nextOffset := by
    intro offset hoffset
    rcases hledger.covered offset hoffset with ⟨segment, payload, hf⟩ | ⟨group, c, hc, hle⟩
    · exact habove (segment, offset, payload) (mem_replayedFrames_bytes.2 hf)
    · exact lt_of_le_of_lt hle (hprogress group c hc)
  have hreserved : ∀ offset message, r.sends offset = some ⟨message, .reserved⟩ →
      offset ∉ history.given.map fst := by
    intro offset message hsend
    rw [hsends] at hsend
    cases hsend
  rcases (resumeWriter_ok hresume).2 with ⟨hid, hdir, -⟩ | ⟨id, -, hle, hid, hdir⟩
  · refine ⟨hsound, ?_, hhistory ▸ hbelow, hhistory ▸ hreserved, ?_, ?_⟩
    · rw [hdir, hhistory]
      exact hledger
    · rw [hid, hdir]
      exact hactive
    · rw [hid, hdir]
      exact hsealed
  · refine ⟨hsound, ?_, hhistory ▸ hbelow, hhistory ▸ hreserved, ?_, ?_⟩
    · rw [hdir, hhistory]
      exact hledger.append_nil (hsealed (id + 1) (hle.trans (Nat.le_succ _)))
    · rw [hid, hdir]
      exact ⟨_, mem_append.2 (.inl rfl)⟩
    · rw [hid, hdir]
      exact fun id' hid' => hsealed id' ((hle.trans (Nat.le_succ _)).trans hid')

theorem Partition.Named.openOnUse (h : (down dir history).Named cfg)
    (hframes : dir.replayedFrames cfg.archiveConfigured = []) (hprogress : dir.maxCommitted = none) :
    Queue.Named cfg (openPartition cfg dir history) := by
  have hnone : ∀ group c, dir.committed group ≠ some c := by
    intro group c hc
    obtain ⟨top, htop, -⟩ := le_maxCommitted hc
    rw [hprogress] at htop
    cases htop
  have hgiven : history.given.map fst = [] := by
    refine eq_nil_iff_forall_not_mem.2 (fun offset hoffset => ?_)
    rcases h.1.covered offset hoffset with ⟨segment, payload, hf⟩ | ⟨group, c, hc, -⟩
    · have hread := mem_replayedFrames_bytes.2 hf
      rw [hframes] at hread
      cases hread
    · exact hnone group c hc
  obtain ⟨hledger, hactive, hsealed⟩ := h.openOn cfg.rotationBytes
  have hsound : (openPartition cfg dir history).Sound := by
    refine ⟨?_, nofun, nofun, nofun, fun group c hc => ?_⟩
    · show (PartitionDiskWriter.openOn cfg.rotationBytes dir).1.nextOffset < 2 ^ 64
      rw [(openOn_cases cfg.rotationBytes dir).1]
      decide
    · have hc' : (PartitionDiskWriter.openOn cfg.rotationBytes dir).2.committed group = some c := hc
      unfold committed at hc'
      rw [groups_openOn] at hc'
      exact absurd hc' (hnone group c)
  refine ⟨hsound, hledger, fun offset hoffset => ?_, nofun, hactive, hsealed⟩
  have hoffset' : offset ∈ history.given.map fst := hoffset
  rw [hgiven] at hoffset'
  cases hoffset'

theorem Partition.Named.step {s t : Partition} {e : PartitionEvent} (h : s.Named cfg)
    (hok : NamingOk C cfg s e) (hstep : s.step C cfg e = some t) : t.Named cfg := by
  cases s with
  | running r =>
    have hr : Queue.Named cfg r := h
    cases e with
    | session e =>
      obtain ⟨r', hr', rfl⟩ := Option.map_eq_some_iff.1 hstep
      exact hr.moves hok (Running.moves_of_step hr')
    | crash keep => exact absurd hok id
    | shutdown =>
      cases hstep
      exact hr.down
    | reopen | openOnUse => cases hstep
  | down dir history =>
    cases e with
    | session e => cases hstep
    | crash keep => exact absurd hok id
    | shutdown => cases hstep
    | reopen =>
      obtain ⟨r, hreopen, rfl⟩ := Partition.step_reopen hstep
      exact h.reopen hreopen
    | openOnUse =>
      cases hstep
      exact h.openOnUse hok.1 hok.2

end ProximaDb.Queue
