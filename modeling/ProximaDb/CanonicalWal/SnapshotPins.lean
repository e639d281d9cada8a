/-
  ProximaDb.CanonicalWal.SnapshotPins

  Pins hold history. While a snapshot is pinned every entry after it stays readable, a pin below
  the floor is refused, and truncation takes the oldest segments only, so what is left has no gap.
-/
import ProximaDb.CanonicalWal.RangeRead

namespace ProximaDb.CanonicalWal

open ProximaDb.Lib List

variable {C : WalCodec} {img : Image} {w : World} {op : Operation} {a : Appender}

/-! ## Consecutive sequences -/

variable {entries : List CanonicalWalEntry} {operations : List (CanonicalOperation × Option String)}
  {more : List CanonicalWalEntry} {io : AppendIo} {group : Bool} {start : Nat} {now : Nat}

/-- The entries carry the sequences from `start` on, without a gap. -/
def Consecutive (start : Nat) (entries : List CanonicalWalEntry) : Prop :=
  entries.map (fun e => e.sequenceNumber) = List.range' start entries.length

theorem Consecutive.append
    (h : Consecutive start entries) (hmore : Consecutive (start + entries.length) more) :
    Consecutive start (entries ++ more) := by
  unfold Consecutive at *
  rw [map_append, h, hmore, length_append, List.range'_append_1]

theorem Consecutive.of_append (h : Consecutive start (entries ++ more)) :
    Consecutive start entries ∧ Consecutive (start + entries.length) more := by
  unfold Consecutive at *
  rw [map_append, length_append, ← List.range'_append_1] at h
  exact append_inj h (by simp)

theorem consecutive_assignSequences {now seq : Nat} (h : seq + operations.length ≤ 2 ^ 64) :
    Consecutive seq (assignSequences now seq operations) := by
  unfold Consecutive
  rw [map_sequenceNumber_assignSequences h, length_assignSequences]

theorem Consecutive.mem (h : Consecutive start entries) {e : CanonicalWalEntry}
    (he : e ∈ entries) : start ≤ e.sequenceNumber ∧ e.sequenceNumber < start + entries.length := by
  have hmem : e.sequenceNumber ∈ entries.map (fun e => e.sequenceNumber) := mem_map.2 ⟨e, he, rfl⟩
  rw [h] at hmem
  exact mem_range'_1.1 hmem

theorem Consecutive.filter_eq_drop (h : Consecutive 1 entries) (floor : Nat) :
    entries.filter (fun e => decide (floor < e.sequenceNumber)) = entries.drop floor := by
  have hsplit := h
  rw [← take_append_drop floor entries] at hsplit
  obtain ⟨hfront, hback⟩ := hsplit.of_append
  have hlen := length_take_le floor entries
  have hnone : (entries.take floor).filter (fun e => decide (floor < e.sequenceNumber)) = [] := by
    refine filter_eq_nil_iff.2 (fun e he => ?_)
    have := (hfront.mem he).2
    simp only [decide_eq_true_eq]
    omega
  have hall : (entries.drop floor).filter (fun e => decide (floor < e.sequenceNumber)) =
      entries.drop floor := by
    refine filter_eq_self.2 (fun e he => ?_)
    -- a nonempty rest means the front is as long as the floor
    have hpos := length_pos_of_mem he
    have := (hback.mem he).1
    rw [length_drop] at hpos
    rw [length_take] at this
    simp only [decide_eq_true_eq]
    omega
  have hcut := congrArg (List.filter (fun e => decide (floor < e.sequenceNumber)))
    (take_append_drop floor entries)
  rw [filter_append, hnone, hall, nil_append] at hcut
  exact hcut.symm

/-! ## The counter -/

theorem recoveredAppender_nextSequence_le {floor bound : Nat} {kept : List SegmentSummary}
    (hfloor : floor ≤ bound) (hkept : ∀ s ∈ kept, s.lastSeq ≤ bound)
    (hentries : ∀ e ∈ entries, e.sequenceNumber ≤ bound) :
    (recoveredAppender floor kept entries).nextSequence ≤ bound := by
  refine max_le ?_ ?_
  · cases hmax : (entries.map (fun e => e.sequenceNumber)).max? with
    | none => exact Nat.zero_le _
    | some m =>
      obtain ⟨e, he, rfl⟩ := mem_map.1 (List.max?_eq_some_iff.1 hmax).1
      exact hentries e he
  · rcases foldl_max_mem (kept.map (fun s => s.lastSeq)) floor with h | h
    · rw [h]
      exact hfloor
    · obtain ⟨s, hs, hlast⟩ := mem_map.1 h
      rw [← hlast]
      exact hkept s hs

/-! ## The invariant -/

/-- The sequences issued are 1, 2, 3 and so on, and a process's counter is the last. -/
structure Gapless (w : World) : Prop where
  consecutive : Consecutive 1 w.issued
  head : ∀ a, w.process = some a → a.nextSequence = w.issued.length

theorem gapless_initial : Gapless World.initial := ⟨rfl, nofun⟩

theorem Up.length_le_nextSequence (hup : Up C w img a) (hrec : Recorded w img)
    (hcons : Consecutive 1 w.issued) : w.issued.length ≤ a.nextSequence := by
  rcases Nat.lt_or_ge img.floor w.issued.length with hlt | hge
  · -- the last entry issued is above the floor, so it is in the files
    have hdrop := hcons.filter_eq_drop (w.issued.length - 1)
    obtain ⟨e, he⟩ : ∃ e, e ∈ w.issued.drop (w.issued.length - 1) :=
      exists_mem_of_length_pos (by rw [length_drop]; omega)
    rw [← hdrop] at he
    obtain ⟨hissued, hlast⟩ := mem_filter.1 he
    rw [decide_eq_true_iff] at hlast
    have hmem : e ∈ img.entries := by
      rw [← hrec.history]
      exact mem_filter.2 ⟨hissued, by simp only [decide_eq_true_eq]; omega⟩
    have := hup.serves.agrees.counter e hmem
    omega
  · exact hge.trans hup.serves.agrees.floorLe

theorem Recorded.floor_le_length (h : Recorded w img) (hcons : Consecutive 1 w.issued) :
    img.floor ≤ w.issued.length := by
  rcases h.reached with hzero | ⟨e, he, hseq⟩
  · omega
  · have := (hcons.mem he).2
    omega

theorem Invariant.openWal_nextSequence_le (h : Invariant C w img) (hp : w.process = none)
    (hcons : Consecutive 1 w.issued) {io : OpenIo} (hclean : CleanOperation C w (.openLog io))
    (hopen : (openWal C io w.disk).2 = .ok a) : a.nextSequence ≤ w.issued.length := by
  have hio : io.renames = true ∨ splitSummaryTrailer C w.disk.activeBytes = none := by
    unfold CleanOperation at hclean
    simpa only [hp] using hclean
  obtain ⟨img', hfloor, hentries, -, ⟨removed, hok, -⟩, rfl⟩ :=
    (openWal_spec (h.down hp).rests hio).2 a hopen
  have hbound : ∀ e ∈ img'.entries, e.sequenceNumber ≤ w.issued.length := by
    intro e he
    rw [hentries] at he
    have := (hcons.mem (h.recorded.mem_issued he)).2
    omega
  refine recoveredAppender_nextSequence_le ?_ ?_ ?_
  · rw [hfloor]
    exact h.recorded.floor_le_length hcons
  · intro summary hsummary
    obtain ⟨s, hs, rfl⟩ := mem_map.1 hsummary
    obtain ⟨e, he, hlast⟩ := SealedImage.lastSeq_mem (hok.segmentOk s (mem_append_right _ hs))
    rw [hlast]
    exact hbound e (Image.mem_entries_of_segment hs he)
  · exact fun e he => hbound e (mem_append_right _ he)

/-! ## Steps -/

/-- The label does not raise the counter from outside. -/
def KeepsCounter : Label → Prop
  | .complete (.advance _) => False
  | _ => True

theorem processAfter_nextSequence (hp : w.process = some a)
    (happend : ∀ io now operations group, op ≠ .append io now operations group)
    (hadvance : ∀ floor, op ≠ .advance floor) {a' : Appender}
    (ha' : (processAfter C w op).process = some a') : a'.nextSequence = a.nextSequence := by
  unfold processAfter at ha'
  cases op with
  | append io now operations group => exact absurd rfl (happend io now operations group)
  | advance floor => exact absurd rfl (hadvance floor)
  | truncate io floor =>
    simp only [hp] at ha'
    cases ha'
    unfold truncateBelow
    dsimp only
    split
    · rfl
    · split
      · rfl
      · split <;> rfl
  | pin snapshotLsn =>
    simp only [hp, pinHistory] at ha'
    split_ifs at ha'
    all_goals
      simp only [hp] at ha'
      cases ha'
      rfl
  | unpin lsn =>
    simp only [hp] at ha'
    split_ifs at ha'
    all_goals
      simp only [hp] at ha'
      cases ha'
    · unfold dropPin
      split <;> rfl
    · rfl
  | openLog | fence | enableRotation | enableAtomicGroups =>
    simp only [hp] at ha'
    cases ha'
    rfl

theorem acknowledgedBy_eq_nil
    (h : ∀ io now operations group, op ≠ .append io now operations group) :
    acknowledgedBy C w op = [] := by
  cases op with
  | append io now operations group => exact absurd rfl (h io now operations group)
  | _ => rfl

theorem CleanOperation.room (hp : w.process = some a)
    (h : CleanOperation C w (.append io now operations group))
    (hplan : planOf C w (.append io now operations group) ≠ []) :
    a.nextSequence + operations.length + 1 < 2 ^ 64 := by
  unfold CleanOperation at h
  simp only [hp] at h
  exact (h.resolve_left hplan).1

theorem Gapless.complete_append (h : Gapless w) (hinv : Invariant C w img) (hp : w.process = some a)
    (hclean : CleanOperation C w (.append io now operations group)) :
    Gapless (complete C w (.append io now operations group)) := by
  obtain ⟨-, -, -, hissued⟩ := hinv.completeKeeps hclean
  have hprocess := @complete_append_process C w a io now operations group hp
  have hhead := h.head a hp
  rw [acknowledgedBy_append hp] at hissued
  rcases (@appendEntries_counter C io now operations group a w.disk).2 with
    ⟨hnone, hnext⟩ | ⟨hplan, hall, hnext⟩
  · rw [hnone, append_nil] at hissued
    refine ⟨by rw [hissued]; exact h.consecutive, fun a' ha' => ?_⟩
    rw [hprocess] at ha'
    cases ha'
    rw [hnext, hissued, hhead]
  · have hroom := hclean.room hp (by rw [planOf_append hp]; exact hplan)
    rw [hall] at hissued
    refine ⟨?_, fun a' ha' => ?_⟩
    · rw [hissued]
      refine h.consecutive.append ?_
      rw [← hhead, Nat.add_comm]
      exact consecutive_assignSequences (by omega)
    · rw [hprocess] at ha'
      cases ha'
      rw [hnext, hissued, length_append, length_assignSequences, ← hhead,
        Nat.mod_eq_of_lt (by omega)]

theorem Gapless.complete (h : Gapless w) (hinv : Invariant C w img)
    (hclean : CleanOperation C w op) (hadvance : ∀ floor, op ≠ .advance floor) :
    Gapless (complete C w op) := by
  by_cases happend : ∃ io now operations group, op = .append io now operations group
  · obtain ⟨io, now, operations, group, rfl⟩ := happend
    cases hp : w.process with
    | some a => exact h.complete_append hinv hp hclean
    | none =>
      obtain ⟨-, -, -, hissued⟩ := hinv.completeKeeps hclean
      have hacked : acknowledgedBy C w (.append io now operations group) = [] := by
        simp only [acknowledgedBy, hp]
      rw [hacked, append_nil] at hissued
      refine ⟨by rw [hissued]; exact h.consecutive, fun a ha => ?_⟩
      have hdown : (processAfter C w (.append io now operations group)).process = some a := ha
      simp only [processAfter, hp] at hdown
      cases hdown
  · have hother : ∀ io now operations group, op ≠ .append io now operations group :=
      fun io now operations group heq => happend ⟨io, now, operations, group, heq⟩
    obtain ⟨img', -, hinv', hissued⟩ := hinv.completeKeeps hclean
    rw [acknowledgedBy_eq_nil hother, append_nil] at hissued
    have hcons : Consecutive 1 (CanonicalWal.complete C w op).issued := by
      rw [hissued]
      exact h.consecutive
    refine ⟨hcons, fun a' ha' => ?_⟩
    have hafter : (processAfter C w op).process = some a' := ha'
    cases hp : w.process with
    | some a =>
      rw [processAfter_nextSequence hp hother hadvance hafter, hissued]
      exact h.head a hp
    | none =>
      -- only an open starts a process; its counter is bounded from both sides
      have hge := (hinv'.up ha').length_le_nextSequence hinv'.recorded hcons
      have hle : a'.nextSequence ≤ w.issued.length := by
        cases op with
        | openLog io =>
          cases hopen : (openWal C io w.disk).2 with
          | error e =>
            simp only [processAfter, hp, hopen] at hafter
            cases hafter
          | ok b =>
            simp only [processAfter, hp, hopen, Option.some.injEq] at hafter
            subst hafter
            exact hinv.openWal_nextSequence_le hp h.consecutive hclean hopen
        | _ =>
          simp only [processAfter, hp] at hafter
          cases hafter
      rw [hissued] at hge ⊢
      omega

theorem Gapless.crash (h : Gapless w) (hinv : Invariant C w img) {steps len : Nat}
    (hclean : CleanOperation C w op) (hcrash : CleanCrash C w op steps len) :
    Gapless (crashIn C w op steps len) := by
  obtain ⟨-, -, -, k, hidle, hissued⟩ := hinv.crashKeeps hclean hcrash
  refine ⟨?_, nofun⟩
  rw [hissued]
  by_cases hplan : planOf C w op = []
  · rw [hidle hplan]
    simpa [framesEntries] using h.consecutive
  refine h.consecutive.append ?_
  cases op with
  | append io now operations group =>
    cases hp : w.process with
    | none => simp [framesWritten, hp, framesEntries, Consecutive]
    | some a =>
      -- whole frames of the append are a front of its entries
      have hroom := hclean.room hp hplan
      have hsplit : framesEntries ((framesOf group
            (assignSequences now (a.nextSequence + 1) operations)).take k) ++
          framesEntries ((framesOf group
            (assignSequences now (a.nextSequence + 1) operations)).drop k) =
          assignSequences now (a.nextSequence + 1) operations := by
        rw [framesEntries, framesEntries, ← flatMap_append, take_append_drop]
        exact framesEntries_framesOf _ _
      have hcons := @consecutive_assignSequences operations now (a.nextSequence + 1) (by omega)
      rw [← hsplit] at hcons
      rw [framesWritten_append hp, ← h.head a hp, Nat.add_comm 1]
      exact hcons.of_append.1
  | _ => simp [framesWritten, framesEntries, Consecutive]

/-! ## Runs -/

/-- One clean step that does not raise the counter from outside. -/
def SteadyStep (C : WalCodec) (w w' : World) : Prop :=
  ∃ label, CleanLabel C w label ∧ KeepsCounter label ∧ w' = exec C w label

def SteadyReachable (C : WalCodec) (w : World) : Prop :=
  Relation.ReflTransGen (SteadyStep C) World.initial w

theorem SteadyReachable.gapless (h : SteadyReachable C w) :
    Gapless w ∧ ∃ img : Image, Invariant C w img := by
  induction h with
  | refl => exact ⟨gapless_initial, _, invariant_initial⟩
  | tail _ hstep ih =>
    obtain ⟨label, hclean, hkeeps, rfl⟩ := hstep
    obtain ⟨hgapless, img, hinv⟩ := ih
    obtain ⟨img', -, hinv'⟩ := hinv.exec hclean
    refine ⟨?_, img', hinv'⟩
    cases label with
    | complete op =>
      refine hgapless.complete hinv hclean (fun floor heq => ?_)
      subst heq
      exact hkeeps
    | crash op steps len => exact hgapless.crash hinv hclean.1 hclean.2

theorem CleanRun.steady {w : World} {labels : List Label} (h : CleanRun C w labels)
    (hkeeps : ∀ label ∈ labels, KeepsCounter label) :
    Relation.ReflTransGen (SteadyStep C) w (runFrom C w labels) := by
  induction labels generalizing w with
  | nil => exact Relation.ReflTransGen.refl
  | cons label labels ih =>
    exact Relation.ReflTransGen.head ⟨label, h.1, hkeeps label (by simp), rfl⟩
      (ih h.2 (fun l hl => hkeeps l (by simp [hl])))

/-! ## Truncation takes the oldest segments -/

/-- A truncation drops some of the oldest segments from the list, and deletes the files of those
    only. -/
theorem truncateBelow_drops (io : TruncateIo) (below : Nat) (a : Appender) :
    ∃ n, (truncateBelow io below a).appender.sealedList = a.sealedList.drop n ∧
      ∀ name, .remove name ∈ (truncateBelow io below a).plan →
        ∃ s ∈ a.sealedList.take n, s.path.segment? = some name := by
  have hvictims : victimsBelow a below = a.sealedList.take (victimsBelow a below).length :=
    prefix_iff_eq_take.1 (List.takeWhile_prefix _)
  unfold truncateBelow
  dsimp only
  split
  · exact ⟨0, rfl, by simp⟩
  · split
    · exact ⟨0, rfl, by simp⟩
    · split
      · exact ⟨0, rfl, by simp⟩
      · exact ⟨0, rfl, by simp⟩
      · refine ⟨(victimsBelow a below).length, rfl, fun name hname => ?_⟩
        rw [← hvictims]
        rcases mem_cons.1 hname with h | h
        · cases h
        · obtain ⟨n, hn, heq⟩ := mem_map.1 h
          cases heq
          exact mem_filterMap.1 (mem_of_mem_filter hn)

/-! ## Pins -/

/-- In every state of a clean run in which nobody raises the counter from outside: a held pin keeps
    every later entry readable; a pin whose later entries are gone is refused; the entries read are
    the acknowledged ones without their oldest, and have no gap; and a truncation drops the oldest
    segments and deletes no other file. -/
theorem pins_keep_history (h : SteadyReachable C w) (hp : w.process = some a) :
    ∃ all floor, readEntries C w.disk = .ok all ∧ readFloorMarker w.disk = .ok floor ∧
      (∀ lsn ∈ w.pinned, ∀ e ∈ w.acked, lsn < e.sequenceNumber → e ∈ all) ∧
      (∀ snapshotLsn : Nat → Nat,
        (∃ e ∈ w.acked, min (snapshotLsn a.nextSequence) a.nextSequence < e.sequenceNumber ∧
          e ∉ all) →
        pinHistory snapshotLsn a =
          .error ⟨min (snapshotLsn a.nextSequence) a.nextSequence, a.retainedFrom⟩) ∧
      all = w.acked.drop floor ∧ Consecutive (floor + 1) all ∧
      ∀ io below, ∃ n, (truncateBelow io below a).appender.sealedList = a.sealedList.drop n ∧
        ∀ name, .remove name ∈ (truncateBelow io below a).plan →
          ∃ s ∈ a.sealedList.take n, s.path.segment? = some name := by
  obtain ⟨hgapless, img, hinv⟩ := h.gapless
  have hup := hinv.up hp
  have hcons := hgapless.consecutive
  have hle := hinv.recorded.floor_le_length hcons
  rw [hup.acked] at hcons hle
  have hhistory : w.acked.filter (fun e => decide (img.floor < e.sequenceNumber)) = img.entries := by
    rw [← hup.acked]
    exact hinv.recorded.history
  have hkept : ∀ e ∈ w.acked, img.floor < e.sequenceNumber → e ∈ img.entries := by
    intro e he hlt
    rw [← hhistory]
    exact mem_filter.2 ⟨he, by simpa using hlt⟩
  have hdrop : img.entries = w.acked.drop img.floor := by
    rw [← hhistory, hcons.filter_eq_drop]
  refine ⟨img.entries, img.floor, hinv.readEntries, hinv.readFloorMarker, ?_, ?_, hdrop, ?_,
    fun io below => truncateBelow_drops io below a⟩
  · intro lsn hlsn e he hlt
    have := hup.pins.kept lsn hlsn
    exact hkept e he (by omega)
  · rintro snapshotLsn ⟨e, he, hlt, hgone⟩
    have hlow : min (snapshotLsn a.nextSequence) a.nextSequence < img.floor := by
      by_contra hge
      exact hgone (hkept e he (by omega))
    have hsucc := saturatingSucc_le (min (snapshotLsn a.nextSequence) a.nextSequence)
    have hretained : a.retainedFrom = img.floor + 1 := by
      rw [hup.serves.agrees.retained, if_pos (by omega)]
    unfold pinHistory
    rw [if_pos (by omega)]
  · rw [hdrop]
    rw [← take_append_drop img.floor w.acked] at hcons
    have := hcons.of_append.2
    rwa [length_take, min_eq_left hle, Nat.add_comm 1] at this

/-- Three segments, a pin after the first, and a truncation that asks for all of them. -/
def pinnedLog : List Label :=
  [.complete smoothOpen, .complete (.enableRotation 1), .complete (smoothAppend none ["a"]),
    .complete (.pin (fun head => head)), .complete (smoothAppend none ["b"]),
    .complete (smoothAppend none ["a"]), .complete (.truncate ⟨.done, fun _ => true⟩ 100)]

theorem pins_keep_history_pinnedLog : CleanRun codec World.initial pinnedLog ∧
      (runFrom codec World.initial pinnedLog).pinned = [1] ∧
      (runFrom codec World.initial pinnedLog).acked.length = 3 ∧
      ∃ all floor, readEntries codec (runFrom codec World.initial pinnedLog).disk = .ok all ∧
        readFloorMarker (runFrom codec World.initial pinnedLog).disk = .ok floor ∧
        (∀ lsn ∈ (runFrom codec World.initial pinnedLog).pinned,
          ∀ e ∈ (runFrom codec World.initial pinnedLog).acked,
            lsn < e.sequenceNumber → e ∈ all) ∧
        Consecutive (floor + 1) all := by
  have hclean : CleanRun codec World.initial pinnedLog := by decide
  have hkeeps : ∀ label ∈ pinnedLog, KeepsCounter label := by
    simp [pinnedLog, KeepsCounter, smoothOpen, smoothAppend]
  have hup : (runFrom codec World.initial pinnedLog).process.isSome = true := by rfl
  obtain ⟨a, ha⟩ := Option.isSome_iff_exists.1 hup
  obtain ⟨all, floor, hread, hfloor, hpins, -, -, hcons, -⟩ :=
    pins_keep_history (hclean.steady hkeeps) ha
  exact ⟨hclean, by rfl, by rfl, all, floor, hread, hfloor, hpins, hcons⟩

/-- A pin of everything, then an append for a tenant whose text ends like a section. -/
def pinnedSectionTenant : List Label :=
  [.complete smoothOpen, .complete (.pin (fun _ => 0)),
    .complete (smoothAppend (some (sectionTenant 41)) ["a"])]

/-- The entry is acknowledged after the pinned snapshot, and no read returns it. -/
theorem pinnedSectionTenant_lost : (runFrom codec World.initial pinnedSectionTenant).pinned = [0] ∧
      (runFrom codec World.initial pinnedSectionTenant).acked.map
        (fun e => e.sequenceNumber) = [1] ∧
      readEntries codec (runFrom codec World.initial pinnedSectionTenant).disk = .ok [] := by
  refine ⟨?_, ?_, ?_⟩
  all_goals decide +kernel

end ProximaDb.CanonicalWal
