/-
  ProximaDb.CanonicalWal.CrashRecovery

  The invariant along clean runs, and what an open finds after a crash: it succeeds, and the log
  then reads as the acknowledged entries above the floor with whole frames of the append in flight
  behind them.
-/
import ProximaDb.CanonicalWal.Invariant

namespace ProximaDb.CanonicalWal

open ProximaDb.Lib List World

variable {C : WalCodec} {img : Image} {w : World} {op : Operation} {a : Appender}

/-! ## Operations on memory -/

variable {a' : Appender} {pinned : List Nat}
  {operations : List (CanonicalOperation × Option String)}

/-- The appender changed in ways the files know nothing of, but for a counter that may have
    grown. -/
theorem Serves.memory {d : Disk} (h : Serves C a img d) (hsealed : a'.sealedList = a.sealedList)
    (hactive : a'.active = a.active) (hnext : a.nextSequence ≤ a'.nextSequence)
    (hretained : a'.retainedFrom = a.retainedFrom) (hmarks : a'.collectionMax = a.collectionMax)
    (hpoisoned : a'.poisoned = a.poisoned) : Serves C a' img d := by
  have hm := h.agrees
  refine ⟨h.files, h.durable, h.sectionDurable, h.synced_le, ⟨hsealed.trans hm.sealedList,
    hactive.trans hm.active, fun e he => (hm.counter e he).trans hnext, hm.floorLe.trans hnext,
    hretained.trans hm.retained, ?_, ?_⟩⟩
  · rw [hmarks]
    exact hm.covers
  · rw [hpoisoned]
    exact hm.tail

theorem PinsOk.of_pins {floor : Nat} (h : PinsOk a pinned floor) (hpins : a'.pins = a.pins) :
    PinsOk a' pinned floor :=
  ⟨fun f => hpins ▸ h.counts f, h.kept⟩

theorem saturatingSucc_le (n : Nat) : saturatingSucc n ≤ n + 1 := min_le_left _ _

theorem PinsOk.pinHistory (h : PinsOk a pinned img.floor) (hm : Matches a img)
    {snapshotLsn : Nat → Nat} {lsn : Nat} (hpin : pinHistory snapshotLsn a = .ok (lsn, a')) :
    PinsOk a' (lsn :: pinned) img.floor := by
  unfold CanonicalWal.pinHistory at hpin
  dsimp only at hpin
  split_ifs at hpin with hlow
  cases hpin
  refine ⟨fun f => ?_, fun l hl => ?_⟩
  · rw [countP_cons]
    rw [lookup_insert_eq, ← h.counts]
    by_cases hf : f = saturatingSucc (min (snapshotLsn a.nextSequence) a.nextSequence)
    · rw [if_pos hf, hf, if_pos (by simp)]
      rfl
    · rw [if_neg hf, if_neg (by simpa using Ne.symm hf)]
      rfl
  · rcases mem_cons.1 hl with rfl | hl
    · rw [hm.retained] at hlow
      have := saturatingSucc_le (min (snapshotLsn a.nextSequence) a.nextSequence)
      split_ifs at hlow <;> omega
    · exact h.kept l hl

variable {floor lsn : Nat}

theorem PinsOk.exists_count (h : PinsOk a pinned floor) (hmem : lsn ∈ pinned) :
    ∃ count, a.pins.lookup (saturatingSucc lsn) = some count := by
  have hpos : 0 < pinned.countP (fun l => saturatingSucc l == saturatingSucc lsn) :=
    countP_pos_iff.2 ⟨lsn, hmem, by simp⟩
  rw [← h.counts] at hpos
  refine Option.ne_none_iff_exists'.1 (fun hnone => ?_)
  simp [hnone] at hpos

theorem PinsOk.dropPin (h : PinsOk a pinned floor) (hmem : lsn ∈ pinned) :
    PinsOk (dropPin (saturatingSucc lsn) a) (pinned.erase lsn) floor := by
  refine ⟨fun f => ?_, fun l hl => h.kept l (mem_of_mem_erase hl)⟩
  obtain ⟨count, hl⟩ := h.exists_count hmem
  have herase : (pinned.erase lsn).countP (fun l => saturatingSucc l == f) =
      (a.pins.lookup f).getD 0 - if saturatingSucc lsn = f then 1 else 0 := by
    rw [countP_erase, h.counts]
    simp [hmem]
  rw [herase]
  unfold CanonicalWal.dropPin
  rw [hl]
  dsimp only
  split_ifs with hzero hf hf
  · rw [lookup_erase_eq, if_pos hf.symm, ← hf, hl]
    exact hzero.symm
  · rw [lookup_erase_eq, if_neg (Ne.symm hf)]
    rfl
  · rw [lookup_insert_eq, if_pos hf.symm, ← hf, hl]
    rfl
  · rw [lookup_insert_eq, if_neg (Ne.symm hf)]
    rfl

theorem PinsOk.pinnedFloor_le (h : PinsOk a pinned floor) (hmem : lsn ∈ pinned)
    (below : Nat) : pinnedFloor a below ≤ saturatingSucc lsn := by
  obtain ⟨count, hl⟩ := h.exists_count hmem
  have hkey : saturatingSucc lsn ∈ a.pins.keys :=
    AList.mem_keys.1 (AList.lookup_isSome.1 (by rw [hl]; rfl))
  unfold pinnedFloor
  cases hmin : a.pins.keys.min? with
  | none => simp [List.min?_eq_none_iff.1 hmin] at hkey
  | some least =>
    have := (List.min?_eq_some_iff.1 hmin).2 _ hkey
    exact (min_le_right _ _).trans this

/-! ## Steps -/

def acknowledgedBy (C : WalCodec) (w : World) (op : Operation) : List CanonicalWalEntry :=
  match op, w.process with
  | .append io now operations group, some a =>
    ackedBy (appendEntries C io now operations group a w.disk).result
  | _, _ => []

theorem acknowledgedBy_append (hp : w.process = some a) {io : AppendIo} {now : Nat} {group : Bool} :
    acknowledgedBy C w (.append io now operations group) =
      ackedBy (appendEntries C io now operations group a w.disk).result := by
  simp only [acknowledgedBy, hp]

/-- The operation keeps the invariant, the floor does not fall, and what it acknowledges is what is
    issued. -/
def CompleteKeeps (C : WalCodec) (w : World) (img : Image) (op : Operation) : Prop :=
  ∃ img' : Image, img.floor ≤ img'.floor ∧ Invariant C (complete C w op) img' ∧
    (complete C w op).issued = w.issued ++ acknowledgedBy C w op

/-- The world with its process, and the snapshots it holds, replaced. -/
def World.withProcess (w : World) (a : Appender) (pinned : List Nat) : World :=
  { w with process := some a, pinned := pinned }

section

variable (h : Invariant C w img)

include h

/-- An operation that leaves the files and the history alone. -/
theorem Invariant.complete_eq {w' : World}
    (hafter : processAfter C w op = w') (hplan : planOf C w op = []) (hacked : w'.acked = w.acked)
    (hdisk : w'.disk = w.disk) (hissued : w'.issued = w.issued) : complete C w op = w' := by
  have hread : readable C w.disk = img.entries := by
    cases hp : w.process with
    | none => exact (h.down hp).rests.readable
    | some a => exact (h.up hp).serves.readable
  rw [complete, hafter, hplan, hacked, drop_length]
  have hsame : ({ w' with disk := w.disk.applyAll [] } : World) = w' := by rw [← hdisk]; rfl
  rw [hsame]
  refine observe_of_subset (by simp) (fun e he => ?_)
  rw [hdisk, hread] at he
  exact hissued ▸ h.recorded.mem_issued he

theorem Invariant.completeKeeps_memory (hp : w.process = some a)
    (hafter : processAfter C w op = w.withProcess a' pinned)
    (hplan : planOf C w op = []) (hacked : acknowledgedBy C w op = [])
    (hserves : Serves C a' img w.disk) (hpins : PinsOk a' pinned img.floor) :
    CompleteKeeps C w img op := by
  have hup := h.up hp
  have hworld : complete C w op = w.withProcess a' pinned := h.complete_eq hafter hplan rfl rfl rfl
  refine ⟨img, le_rfl, ?_, ?_⟩
  · rw [hworld]
    exact ⟨h.recorded.congr rfl, hserves, hup.acked, hpins⟩
  · rw [hworld, hacked, append_nil]
    rfl

theorem Invariant.completeKeeps_none (hafter : processAfter C w op = w)
    (hplan : planOf C w op = []) (hacked : acknowledgedBy C w op = []) :
    CompleteKeeps C w img op := by
  have hworld : complete C w op = w := h.complete_eq hafter hplan rfl rfl rfl
  exact ⟨img, le_rfl, by rwa [hworld], by rw [hworld, hacked, append_nil]⟩

omit h in
theorem rotateActive_keeps (io : RotateIo) (a : Appender) (len : Nat) :
    (rotateActive C io a len).2.pins = a.pins ∧
      (rotateActive C io a len).2.nextSequence = a.nextSequence := by
  unfold rotateActive
  cases a.active.firstSeq with
  | none => exact ⟨rfl, rfl⟩
  | some firstSeq =>
    split_ifs <;> exact ⟨rfl, rfl⟩

omit h in
/-- An append keeps the pins. It acknowledges nothing and leaves the counter, or acknowledges all
    its entries and moves the counter past them. -/
theorem appendEntries_counter (io : AppendIo) (now : Nat)
    (operations : List (CanonicalOperation × Option String)) (group : Bool) (a : Appender)
    (d : Disk) : let out := appendEntries C io now operations group a d
    out.appender.pins = a.pins ∧
      ((ackedBy out.result = [] ∧ out.appender.nextSequence = a.nextSequence) ∨
        (out.plan ≠ [] ∧ ackedBy out.result = assignSequences now (a.nextSequence + 1) operations ∧
          out.appender.nextSequence = (a.nextSequence + operations.length) % 2 ^ 64)) := by
  dsimp only
  by_cases hplan : (appendEntries C io now operations group a d).plan = []
  · obtain ⟨happ, hacked, -⟩ := appendEntries_of_plan_nil hplan
    exact ⟨by rw [happ], Or.inl ⟨hacked, by rw [happ]⟩⟩
  · obtain ⟨-, -, bytes, -, heq⟩ := appendEntries_of_plan_ne_nil hplan
    have hnext : (acknowledge a (assignSequences now (a.nextSequence + 1)
        operations)).nextSequence = (a.nextSequence + operations.length) % 2 ^ 64 := by
      show (a.nextSequence + _) % 2 ^ 64 = _
      rw [length_assignSequences]
    rw [heq]
    unfold writeFrames
    cases io.write with
    | openFails | syncFails => exact ⟨rfl, Or.inl ⟨rfl, rfl⟩⟩
    | writeFails n back =>
      dsimp only
      split_ifs <;> exact ⟨rfl, Or.inl ⟨rfl, rfl⟩⟩
    | done =>
      split_ifs
      · obtain ⟨hpins, hkept⟩ := rotateActive_keeps (C := C) io.rotate
          (acknowledge a (assignSequences now (a.nextSequence + 1) operations))
          (d.activeBytes.length + bytes.length)
        exact ⟨hpins, Or.inr ⟨by simp, rfl, by rw [hkept, hnext]⟩⟩
      · exact ⟨rfl, Or.inr ⟨by simp, rfl, hnext⟩⟩

theorem Invariant.completeKeeps_append (hp : w.process = some a)
    {io : AppendIo} {now : Nat} {group : Bool}
    (hclean : CleanOperation C w (.append io now operations group)) :
    CompleteKeeps C w img (.append io now operations group) := by
  have hup := h.up hp
  have hplan := @planOf_append C w a io now operations group hp
  have hacked := @acknowledgedBy_append C w a operations hp io now group
  have hclean' : (appendEntries C io now operations group a w.disk).plan = [] ∨
      CleanAppend C io now operations group a w.disk := by
    unfold CleanOperation at hclean
    simp only [hp, hplan] at hclean
    exact hclean
  obtain ⟨img', hfloor, hentries, hserves⟩ := hup.serves.appendEntries hclean'
  generalize hnew : ackedBy (appendEntries C io now operations group a w.disk).result = new at *
  obtain ⟨removed, hok, -⟩ := hserves.files
  -- the new entries continue the history, because the image they end up in is in order
  have hord : InOrder (img.entries ++ new) := by
    rw [← hentries]
    exact hok.order.sublist (sublist_append_right _ _)
  have hpair := pairwise_append.1 hord
  have habove : ∀ e ∈ new, img.floor < e.sequenceNumber := by
    intro e he
    rw [← hfloor]
    exact hok.above e (show e ∈ img'.entries by rw [hentries]; exact mem_append_right _ he)
  have hissued : InOrder (w.issued ++ new) :=
    h.recorded.inOrder_append hpair.2.1 (fun e he x hx => hpair.2.2 x hx e he) habove
  have hremember : (new ++ readable C (w.disk.applyAll
      (appendEntries C io now operations group a w.disk).plan)).foldl remember w.issued =
      w.issued ++ new := by
    rw [hserves.readable, foldl_append, foldl_remember_of_inOrder hissued, hentries]
    refine foldl_remember_of_subset (fun e he => ?_)
    rcases mem_append.1 he with he | he
    · exact mem_append_left _ (h.recorded.mem_issued he)
    · exact mem_append_right _ he
  have hworld : (complete C w (.append io now operations group)).issued = w.issued ++ new := by
    rw [← hremember, complete, observe, hplan]
    simp only [processAfter, hp, hnew, drop_left]
  refine ⟨img', hfloor.ge, ⟨⟨?_, ?_, ?_⟩, ?_⟩, by rw [hworld, hacked]⟩
  · rw [hworld]
    exact hissued
  · rw [hworld, hfloor, hentries, h.recorded.history_append habove]
  · rw [hworld, hfloor]
    exact h.recorded.reached_append _
  · rw [complete_append_process hp]
    refine ⟨?_, ?_, ?_⟩
    · show Serves C _ img' (w.disk.applyAll (planOf C w (.append io now operations group)))
      rw [hplan]
      exact hserves
    · rw [hworld, hup.acked, complete, observe]
      simp only [processAfter, hp, hnew]
    · have hpinned : (complete C w (.append io now operations group)).pinned = w.pinned := by
        rw [complete, observe]
        simp only [processAfter, hp]
      rw [hpinned, hfloor]
      exact hup.pins.of_pins (appendEntries_counter _ _ _ _ _ _).1

theorem Invariant.completeKeeps_truncate (hp : w.process = some a)
    {io : TruncateIo} {floor : Nat} (hclean : CleanOperation C w (.truncate io floor)) :
    CompleteKeeps C w img (.truncate io floor) := by
  have hup := h.up hp
  obtain ⟨hplan, hmarker⟩ := truncate_of_clean hp hclean
  obtain ⟨img', hfloor, hentries, hserves, -⟩ :=
    @Serves.truncateBelow C img w.disk a hup.serves io floor hmarker
  have hle : img.floor ≤ img'.floor := by
    rcases hfloor with heq | hlt
    · exact heq.ge
    · exact hlt.1.le
  have hrecorded := h.recorded.truncate hle (hfloor.imp_right (fun hlt => hlt.2.2)) hentries
  have hworld : complete C w (.truncate io floor) = { w with
        process := some (truncateBelow io floor a).appender
        disk := w.disk.applyAll (truncateBelow io floor a).plan } := by
    rw [complete, hplan]
    simp only [processAfter, hp, drop_length]
    refine observe_of_subset (by simp) (fun e he => ?_)
    have he' : e ∈ readable C (w.disk.applyAll (truncateBelow io floor a).plan) := he
    rw [hserves.readable] at he'
    exact hrecorded.mem_issued he'
  refine ⟨img', hle, ?_, ?_⟩
  · rw [hworld]
    refine ⟨hrecorded.congr rfl, hserves, hup.acked, ⟨?_, fun lsn hlsn => ?_⟩⟩
    · have hpins : (truncateBelow io floor a).appender.pins = a.pins := by
        unfold truncateBelow
        dsimp only
        split
        · rfl
        · split
          · rfl
          · split <;> rfl
      rw [hpins]
      exact hup.pins.counts
    · -- a floor that rose stays below every pin
      rcases hfloor with heq | hlt
      · rw [heq]
        exact hup.pins.kept lsn hlsn
      · have := hup.pins.pinnedFloor_le hlsn floor
        have := saturatingSucc_le lsn
        omega
  · rw [hworld]
    simp [acknowledgedBy]

/-- Without a process, the history is the acknowledged entries above the floor and whole frames of
    the append in flight. -/
theorem Invariant.recovered (hp : w.process = none) :
    ∃ k, w.issued = w.acked ++ framesEntries (w.inflight.take k) ∧
      img.entries = w.acked.filter (fun e => decide (img.floor < e.sequenceNumber)) ++
        framesEntries (w.inflight.take k) := by
  obtain ⟨k, hissued, habove⟩ := (h.down hp).recovered
  have hnew : (framesEntries (w.inflight.take k)).filter
      (fun e => decide (img.floor < e.sequenceNumber)) = framesEntries (w.inflight.take k) :=
    filter_eq_self.2 (fun e he => by simpa using habove e he)
  exact ⟨k, hissued, by rw [← h.recorded.history, hissued, filter_append, hnew]⟩

theorem Invariant.foldl_remember_acked (hp : w.process = none) :
    img.entries.foldl remember w.acked = w.issued := by
  obtain ⟨k, hissued, hentries⟩ := h.recovered hp
  have hord := h.recorded.order
  rw [hissued] at hord
  rw [hentries, foldl_remember_append (fun e he => mem_of_mem_filter he) hord, hissued]

theorem Invariant.completeKeeps_open (hp : w.process = none) {io : OpenIo}
    (hclean : CleanOperation C w (.openLog io)) : CompleteKeeps C w img (.openLog io) := by
  have hdown := h.down hp
  have hplan : planOf C w (.openLog io) = (openWal C io w.disk).1 := by
    simp only [planOf, hp]
  have hacked : acknowledgedBy C w (.openLog io) = [] := rfl
  have hclean' : io.renames = true ∨ splitSummaryTrailer C w.disk.activeBytes = none := by
    unfold CleanOperation at hclean
    simpa only [hp] using hclean
  obtain ⟨halong, hok⟩ := openWal_spec hdown.rests hclean'
  have hsame : ∀ d, ({ w with disk := d } : World) = w.crashed d w.inflight := by
    intro d
    have hpinned := hdown.unpinned
    cases w
    simp_all [crashed]
  set opened := w.disk.applyAll (openWal C io w.disk).1 with hopened
  have hheld : Holds C img.floor img.entries opened := halong.last
  cases hres : (openWal C io w.disk).2 with
  | error e =>
    -- the files have the same history, and there is still no process
    obtain ⟨img', hfloor, hinv, hissued⟩ := h.crash_down hp hheld
    have hworld : complete C w (.openLog io) = observe C (w.crashed opened w.inflight) [] := by
      rw [complete, hplan, ← hopened, ← hsame]
      simp only [processAfter, hp, hres, drop_length]
    rw [← hworld] at hinv hissued
    exact ⟨img', hfloor.ge, hinv, by rw [hissued, hacked, append_nil]⟩
  | ok a =>
    obtain ⟨img', hfloor, hentries, ht, hrests, ha⟩ := hok a hres
    have hread : readable C opened = img.entries := by
      rw [hrests.readable, hentries]
    have hremember := h.foldl_remember_acked hp
    have hworld : complete C w (.openLog io) = { w with
          process := some a
          acked := w.issued
          inflight := []
          disk := opened } := by
      rw [complete, hplan]
      simp only [processAfter, hp, hres, ← hopened, hread, hremember]
      refine observe_of_subset (fun e he => mem_of_mem_drop he) (fun e he => ?_)
      have he' : e ∈ readable C opened := he
      rw [hread] at he'
      exact h.recorded.mem_issued he'
    refine ⟨img', hfloor.ge, ?_, ?_⟩
    · rw [hworld]
      refine ⟨⟨h.recorded.order, ?_, hfloor ▸ h.recorded.reached⟩, ?_, rfl, ?_⟩
      · rw [hfloor, hentries, h.recorded.history]
      · refine hrests.serves ?_
        obtain ⟨removed, hok', -⟩ := hrests
        rw [ha]
        exact matches_recoveredAppender hok'.floorBounded ht
      · have hpinned : w.pinned = [] := hdown.unpinned
        rw [hpinned, ha]
        exact ⟨fun f => rfl, by simp⟩
    · rw [hworld, hacked, append_nil]

theorem Invariant.completeKeeps (hclean : CleanOperation C w op) : CompleteKeeps C w img op := by
  cases hp : w.process with
  | none =>
    cases op with
    | openLog io => exact h.completeKeeps_open hp hclean
    | _ =>
      refine h.completeKeeps_none ?_ ?_ ?_
      · simp only [processAfter, hp]
      · simp only [planOf, hp]
      · simp only [acknowledgedBy, hp]
  | some a =>
    have hup := h.up hp
    cases op with
    | append io now operations group => exact h.completeKeeps_append hp hclean
    | truncate io floor => exact h.completeKeeps_truncate hp hclean
    | openLog io =>
      refine h.completeKeeps_none ?_ ?_ rfl
      · simp only [processAfter, hp]
      · simp only [planOf, hp]
    | pin snapshotLsn =>
      cases hpin : pinHistory snapshotLsn a with
      | error e =>
        exact h.completeKeeps_none (by simp only [processAfter, hp, hpin]) rfl rfl
      | ok granted =>
        obtain ⟨lsn, a'⟩ := granted
        refine h.completeKeeps_memory hp (by simp only [processAfter, hp, hpin]; rfl) rfl rfl
          ?_ (hup.pins.pinHistory hup.serves.agrees hpin)
        unfold pinHistory at hpin
        dsimp only at hpin
        split_ifs at hpin
        cases hpin
        exact hup.serves.memory rfl rfl le_rfl rfl rfl rfl
    | unpin lsn =>
      by_cases hmem : lsn ∈ w.pinned
      · refine h.completeKeeps_memory hp
          (by simp only [processAfter, hp, if_pos hmem]; rfl) rfl rfl ?_ (hup.pins.dropPin hmem)
        unfold dropPin
        cases a.pins.lookup (saturatingSucc lsn) with
        | none => exact hup.serves
        | some count => exact hup.serves.memory rfl rfl le_rfl rfl rfl rfl
      · exact h.completeKeeps_none (by simp only [processAfter, hp, if_neg hmem]) rfl rfl
    | advance floor =>
      refine h.completeKeeps_memory hp (by simp only [processAfter, hp]; rfl) rfl rfl ?_ ?_
      · exact hup.serves.memory rfl rfl (le_max_left _ _) rfl rfl rfl
      · exact hup.pins.of_pins rfl
    | fence | enableRotation | enableAtomicGroups =>
      refine h.completeKeeps_memory hp (by simp only [processAfter, hp]; rfl) rfl rfl ?_ ?_
      · exact hup.serves.memory rfl rfl le_rfl rfl rfl rfl
      · exact hup.pins.of_pins rfl

end

/-! ## Runs -/

def Image.empty : Image := ⟨[], [], [], .torn [], 0⟩

theorem invariant_initial : Invariant C initial Image.empty := by
  refine ⟨⟨List.Pairwise.nil, rfl, Or.inl rfl⟩, ?_⟩
  refine ⟨⟨[], ⟨by simp [Image.empty], by simp [Image.empty],
    Tail.ok_torn_nil splitSummaryTrailer_nil, List.Pairwise.nil, ?_, ?_, ?_, ?_, by decide⟩,
    ⟨rfl, rfl, rfl⟩, rfl⟩, rfl, 0, rfl, by simp⟩
  all_goals
    intro e he
    exact absurd he (by simp [Image.removedEntries, Image.entries, Image.sealedEntries, Image.empty])

section

variable (h : Invariant C w img)

include h

theorem Invariant.exec {label : Label} (hclean : CleanLabel C w label) :
    ∃ img' : Image, img.floor ≤ img'.floor ∧ Invariant C (exec C w label) img' := by
  cases label with
  | complete op =>
    obtain ⟨img', hle, hinv, -⟩ := h.completeKeeps hclean
    exact ⟨img', hle, hinv⟩
  | crash op steps len =>
    obtain ⟨img', hle, hinv, -⟩ := h.crashKeeps hclean.1 hclean.2
    exact ⟨img', hle, hinv⟩

theorem Invariant.run {w' : World} (hrun : Relation.ReflTransGen (CleanStep C) w w') :
    ∃ img' : Image, img.floor ≤ img'.floor ∧ Invariant C w' img' := by
  induction hrun with
  | refl => exact ⟨img, le_rfl, h⟩
  | tail _ hstep ih =>
    obtain ⟨label, hclean, rfl⟩ := hstep
    obtain ⟨img₁, hle₁, hinv₁⟩ := ih
    obtain ⟨img₂, hle₂, hinv₂⟩ := hinv₁.exec hclean
    exact ⟨img₂, hle₁.trans hle₂, hinv₂⟩

omit h in
theorem CleanReachable.invariant (h : CleanReachable C w) : ∃ img : Image, Invariant C w img := by
  obtain ⟨img, -, hinv⟩ := invariant_initial.run h
  exact ⟨img, hinv⟩

/-! ## What the files say under the invariant -/

theorem Invariant.files : ∃ removed, ({ img with removed := removed } : Image).Ok C ∧
      Realizes C { img with removed := removed } w.disk := by
  cases hp : w.process with
  | none =>
    obtain ⟨removed, hok, hreal, -⟩ := (h.down hp).rests
    exact ⟨removed, hok, hreal⟩
  | some a => exact (h.up hp).serves.files

theorem Invariant.readFloorMarker : readFloorMarker w.disk = .ok img.floor := by
  obtain ⟨removed, -, hreal⟩ := h.files
  exact hreal.floor

theorem Invariant.readEntries : readEntries C w.disk = .ok img.entries := by
  obtain ⟨removed, hok, hreal⟩ := h.files
  exact hreal.readEntries hok

end

def openedDisk (C : WalCodec) (io : OpenIo) (d : Disk) : Disk := d.applyAll (openWal C io d).1

/-- In every clean run, with no process on the log, an open succeeds, and what is read then is the
    acknowledged entries above the floor and whole frames of the append in flight, in sequence
    order. -/
theorem open_recovers_acknowledged (h : CleanReachable C w) (hp : w.process = none) {io : OpenIo}
    (hrenames : io.renames = true) (htruncates : io.truncates = true) :
    ∃ a floor k, (openWal C io w.disk).2 = .ok a ∧
      readFloorMarker (openedDisk C io w.disk) = .ok floor ∧
      readEntries C (openedDisk C io w.disk) =
        .ok (w.acked.filter (fun e => decide (floor < e.sequenceNumber)) ++
          framesEntries (w.inflight.take k)) ∧
      InOrder (w.acked.filter (fun e => decide (floor < e.sequenceNumber)) ++
        framesEntries (w.inflight.take k)) := by
  obtain ⟨img, hinv⟩ := h.invariant
  have hrests := (hinv.down hp).rests
  obtain ⟨a, hopen⟩ := openWal_ok hrests hrenames htruncates
  obtain ⟨img', hfloor, hentries, -, ⟨removed, hok, hreal, -⟩, -⟩ :=
    (openWal_spec hrests (Or.inl hrenames)).2 a hopen
  obtain ⟨k, -, hsplit⟩ := hinv.recovered hp
  have hread : readEntries C (openedDisk C io w.disk) = .ok img'.entries := hreal.readEntries hok
  have hord : InOrder img'.entries := hok.order.sublist (List.sublist_append_right _ _)
  refine ⟨a, img.floor, k, hopen, ?_, ?_, ?_⟩
  · have hmarker : readFloorMarker (openedDisk C io w.disk) = .ok img'.floor := hreal.floor
    rw [hmarker, hfloor]
  · rw [hread, hentries, hsplit]
  · rw [← hsplit, ← hentries]
    exact hord

/-- An acknowledged append, then a crash that leaves part of the next frame. -/
def tornAppend : List Label :=
  [.complete smoothOpen, .complete (smoothAppend none ["a"]),
    .crash (smoothAppend none ["a", "b"]) 1 100]

theorem open_recovers_acknowledged_tornAppend : CleanRun codec World.initial tornAppend ∧
      ∃ a floor k, (openWal codec ⟨true, true, fun _ => true, true⟩
          (runFrom codec World.initial tornAppend).disk).2 = .ok a ∧
        readFloorMarker (openedDisk codec ⟨true, true, fun _ => true, true⟩
          (runFrom codec World.initial tornAppend).disk) = .ok floor ∧
        readEntries codec (openedDisk codec ⟨true, true, fun _ => true, true⟩
            (runFrom codec World.initial tornAppend).disk) =
          .ok ((runFrom codec World.initial tornAppend).acked.filter
              (fun e => decide (floor < e.sequenceNumber)) ++
            framesEntries ((runFrom codec World.initial tornAppend).inflight.take k)) ∧
        InOrder ((runFrom codec World.initial tornAppend).acked.filter
            (fun e => decide (floor < e.sequenceNumber)) ++
          framesEntries ((runFrom codec World.initial tornAppend).inflight.take k)) := by
  have hclean : CleanRun codec initial tornAppend := by decide +kernel
  exact ⟨hclean, open_recovers_acknowledged hclean.reflTransGen (by rfl) rfl rfl⟩

/-- A rotation whose rename fails after its section is written, an append behind it, and a crash
    with nothing lost. -/
def failedRename : List Label :=
  [.complete smoothOpen, .complete (.enableRotation 1),
    .complete (.append ⟨true, .done, ⟨.written, false⟩⟩ 0 [(.recordUpsert "a" none [], none)] false),
    .complete (smoothAppend none ["a"]), .crash smoothOpen 0 1000]

/-- A crash in the middle of a rotation, with part of the section on disk. -/
def tornSection : List Label :=
  [.complete smoothOpen, .complete (.enableRotation 1), .crash (smoothAppend none ["a"]) 3 80]

/-- After the failed rename two acknowledged entries cannot be read, and after the torn section the
    log does not open. -/
theorem failedRename_unreadable :
    (runFrom codec World.initial failedRename).acked.map (fun e => e.sequenceNumber) = [1, 2] ∧
      readEntries codec (openedDisk codec ⟨true, true, fun _ => true, true⟩
          (runFrom codec World.initial failedRename).disk) =
        .error (.decoding (.segment 1) ⟨41, .invalidMagic⟩) ∧
      ¬ ∃ a, (openWal codec ⟨true, true, fun _ => true, true⟩
        (runFrom codec World.initial tornSection).disk).2 = .ok a := by
  refine ⟨by rfl, by decide +kernel, ?_⟩
  have hfails : (match (openWal codec ⟨true, true, fun _ => true, true⟩
      (runFrom codec initial tornSection).disk).2 with
      | .ok _ => true
      | .error _ => false) = false := by decide +kernel
  rintro ⟨a, ha⟩
  rw [ha] at hfails
  cases hfails

/-- A clean crash in `append_operations_atomic`, after any of its steps: behind the acknowledged
    entries a read finds the whole group or nothing of it. -/
theorem atomicAppend_all_or_nothing (h : CleanReachable C w) (hp : w.process = some a)
    {io : AppendIo} {now steps len : Nat} {op : Operation} {label : Label}
    (hop : op = .append io now operations (decide (1 < operations.length)))
    (hlabel : label = .crash op steps len) (hclean : CleanLabel C w label) :
    planOf C w op = (appendOperationsAtomic C io now operations a w.disk).plan ∧
    ∃ floor, readFloorMarker (exec C w label).disk = .ok floor ∧
      ∃ group ∈ [[], assignSequences now (a.nextSequence + 1) operations],
        readEntries C (exec C w label).disk =
          .ok ((w.acked ++ group).filter (fun e => decide (floor < e.sequenceNumber))) := by
  subst hop hlabel
  refine ⟨planOf_append hp, ?_⟩
  obtain ⟨img, hinv⟩ := h.invariant
  obtain ⟨img', -, hinv', k, -, hissued⟩ := hinv.crashKeeps hclean.1 hclean.2
  have hread := hinv'.readEntries
  rw [← hinv'.recorded.history, hissued, (hinv.up hp).acked, framesWritten_append hp] at hread
  refine ⟨img'.floor, hinv'.readFloorMarker, _, ?_, hread⟩
  -- the group is one frame, so that there is nothing between none and all
  rcases operations with _ | ⟨o, _ | ⟨o', rest⟩⟩ <;> cases k <;>
    simp [framesOf, assignSequences, framesEntries, Frame.entries]

def twoUpserts : List (CanonicalOperation × Option String) :=
  ["a", "b"].map (fun c => (.recordUpsert c none [], none))

def tornGroup : List Label :=
  [.complete smoothOpen, .crash (.append smoothIo 0 twoUpserts true) 1 60]

theorem atomicAppend_all_or_nothing_torn :
    let d := (runFrom codec initial tornGroup).disk
    ∃ floor, readFloorMarker d = .ok floor ∧ ∃ group ∈ [[], assignSequences 0 1 twoUpserts],
      readEntries codec d = .ok (group.filter (fun e => decide (floor < e.sequenceNumber))) := by
  have hclean : CleanRun codec initial tornGroup := by decide +kernel
  exact (atomicAppend_all_or_nothing (.single ⟨_, hclean.1, rfl⟩) rfl rfl rfl hclean.2.1).2

end ProximaDb.CanonicalWal
