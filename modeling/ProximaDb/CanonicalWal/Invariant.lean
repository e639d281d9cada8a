/-
  ProximaDb.CanonicalWal.Invariant

  The invariant of clean runs. The files hold the history of everything ever issued, above the
  floor; a process serves them and has acknowledged all of it; without a process the history is
  what was acknowledged and some whole frames of the append that was in flight.
-/
import ProximaDb.CanonicalWal.Truncated

namespace ProximaDb.CanonicalWal

open ProximaDb.Lib List World

variable {C : WalCodec} {img : Image} {d : Disk} {w : World}

/-! ## Remembering -/

variable {seen entries : List CanonicalWalEntry} {a : Appender} {img' : Image} {floor : Nat}
  {w' : World}

theorem foldl_remember_of_subset (h : ∀ e ∈ entries, e ∈ seen) :
    entries.foldl remember seen = seen := by
  refine entries.foldlRecOn remember (motive := (· = seen)) rfl (fun acc hacc e he => ?_)
  rw [hacc, remember, if_pos (h e he)]

theorem foldl_remember_of_inOrder (h : InOrder (seen ++ entries)) :
    entries.foldl remember seen = seen ++ entries := by
  induction entries generalizing seen with
  | nil => simp
  | cons e entries ih =>
    have hnew : e ∉ seen := by
      intro hmem
      have := (pairwise_append.1 h).2.2 e hmem e (by simp)
      omega
    rw [foldl_cons, remember, if_neg hnew, ih (by simpa using h)]
    simp

theorem foldl_remember_append {old : List CanonicalWalEntry}
    (hold : ∀ e ∈ old, e ∈ seen) (h : InOrder (seen ++ entries)) :
    (old ++ entries).foldl remember seen = seen ++ entries := by
  rw [foldl_append, foldl_remember_of_subset hold, foldl_remember_of_inOrder h]

/-! ## The invariant -/

/-- The pins of the appender are those of the snapshots held, and no entry after one of them was
    truncated. -/
structure PinsOk (a : Appender) (pinned : List Nat) (floor : Nat) : Prop where
  counts : ∀ f, (a.pins.lookup f).getD 0 = pinned.countP (fun lsn => saturatingSucc lsn == f)
  kept : ∀ lsn ∈ pinned, floor ≤ lsn

/-- Everything issued is in order, the files hold what is above the floor, and the floor is a
    sequence that was issued. -/
structure Recorded (w : World) (img : Image) : Prop where
  order : InOrder w.issued
  history : w.issued.filter (fun e => decide (img.floor < e.sequenceNumber)) = img.entries
  reached : img.floor = 0 ∨ ∃ e ∈ w.issued, e.sequenceNumber = img.floor

variable (C) in
/-- No process: what was acknowledged, and whole frames of the append in flight. -/
structure Down (w : World) (img : Image) : Prop where
  rests : Rests C img w.disk
  unpinned : w.pinned = []
  recovered : ∃ k, w.issued = w.acked ++ framesEntries (w.inflight.take k) ∧
    ∀ e ∈ framesEntries (w.inflight.take k), img.floor < e.sequenceNumber

variable (C) in
/-- A process: it serves the files, and everything issued was acknowledged. -/
structure Up (w : World) (img : Image) (a : Appender) : Prop where
  serves : Serves C a img w.disk
  acked : w.issued = w.acked
  pins : PinsOk a w.pinned img.floor

variable (C) in
/-- The invariant of clean runs, with the image it is about. -/
structure Invariant (w : World) (img : Image) : Prop where
  recorded : Recorded w img
  state : match w.process with
    | none => Down C w img
    | some a => Up C w img a

theorem Invariant.down (h : Invariant C w img) (hp : w.process = none) : Down C w img := by
  have := h.state
  rwa [hp] at this

theorem Invariant.up (h : Invariant C w img) (hp : w.process = some a) : Up C w img a := by
  have := h.state
  rwa [hp] at this

theorem Recorded.mem_issued (h : Recorded w img) {e : CanonicalWalEntry} (he : e ∈ img.entries) :
    e ∈ w.issued := by
  rw [← h.history] at he
  exact mem_of_mem_filter he

theorem Rests.readable (h : Rests C img d) : readable C d = img.entries := by
  obtain ⟨removed, hok, hreal, -⟩ := h
  exact hreal.readable hok

theorem Serves.readable (h : Serves C a img d) : readable C d = img.entries := by
  obtain ⟨removed, hok, hreal⟩ := h.files
  exact hreal.readable hok

theorem Holds.readable (h : Holds C floor entries d) : readable C d = entries := by
  obtain ⟨img, -, hentries, hrests⟩ := h
  rw [hrests.readable, hentries]

section

variable (h : Recorded w img)

include h

theorem Recorded.inOrder_append (hord : InOrder entries) (hafter : ∀ e ∈ entries, ∀ x ∈ img.entries,
      x.sequenceNumber < e.sequenceNumber) (hfloor : ∀ e ∈ entries, img.floor < e.sequenceNumber) :
    InOrder (w.issued ++ entries) := by
  refine pairwise_append.2 ⟨h.order, hord, fun x hx e he => ?_⟩
  by_cases hx' : img.floor < x.sequenceNumber
  · refine hafter e he x ?_
    rw [← h.history]
    exact mem_filter.2 ⟨hx, by simpa using hx'⟩
  · have := hfloor e he
    omega

theorem Recorded.history_append (hfloor : ∀ e ∈ entries, img.floor < e.sequenceNumber) :
    (w.issued ++ entries).filter (fun e => decide (img.floor < e.sequenceNumber)) =
      img.entries ++ entries := by
  rw [filter_append, h.history, filter_eq_self.2 (fun e he => by simpa using hfloor e he)]

theorem Recorded.reached_append (entries : List CanonicalWalEntry) :
    img.floor = 0 ∨ ∃ e ∈ w.issued ++ entries, e.sequenceNumber = img.floor :=
  h.reached.imp_right (fun ⟨e, he, hseq⟩ => ⟨e, mem_append_left _ he, hseq⟩)

theorem Recorded.congr (hissued : w'.issued = w.issued) : Recorded w' img :=
  ⟨hissued ▸ h.order, hissued ▸ h.history, hissued ▸ h.reached⟩

theorem Recorded.truncate (hle : img.floor ≤ img'.floor)
    (hreached : img'.floor = img.floor ∨ ∃ e ∈ img.entries, e.sequenceNumber = img'.floor)
    (hentries : img'.entries =
      img.entries.filter (fun e => decide (img'.floor < e.sequenceNumber))) :
    Recorded w img' := by
  refine ⟨h.order, ?_, ?_⟩
  · rw [hentries, ← h.history, filter_filter]
    refine filter_congr (fun e _ => ?_)
    by_cases he : img'.floor < e.sequenceNumber
    · have : img.floor < e.sequenceNumber := by omega
      simp [he, this]
    · simp [he]
  · rcases hreached with heq | ⟨e, he, hseq⟩
    · rw [heq]
      exact h.reached
    · exact Or.inr ⟨e, h.mem_issued he, hseq⟩

end

theorem observe_of_subset {acknowledged : List CanonicalWalEntry}
    (hacked : ∀ e ∈ acknowledged, e ∈ w'.issued)
    (hread : ∀ e ∈ readable C w'.disk, e ∈ w'.issued) : observe C w' acknowledged = w' := by
  rw [observe, foldl_remember_of_subset (forall_mem_append.2 ⟨hacked, hread⟩)]

/-! ## Crashes -/

/-- The world a crash leaves over files `d`. -/
def World.crashed (w : World) (d : Disk) (inflight : List Frame) : World :=
  { w with disk := d, process := none, inflight := inflight, pinned := [] }

/-- A crash of a process whose files then hold the history and whole frames of the append in
    flight. -/
theorem Recorded.crash (h : Recorded w img) (hacked : w.issued = w.acked)
    {inflight : List Frame} {k : Nat}
    (hheld : Holds C img.floor (img.entries ++ framesEntries (inflight.take k)) d)
    (hord : InOrder (framesEntries (inflight.take k)))
    (hafter : ∀ e ∈ framesEntries (inflight.take k), ∀ x ∈ img.entries,
      x.sequenceNumber < e.sequenceNumber)
    (hfloor : ∀ e ∈ framesEntries (inflight.take k), img.floor < e.sequenceNumber) :
    ∃ img' : Image, img'.floor = img.floor ∧
      Invariant C (observe C (w.crashed d inflight) []) img' ∧
      (observe C (w.crashed d inflight) []).issued =
        w.issued ++ framesEntries (inflight.take k) := by
  have hissued : (observe C (w.crashed d inflight) []).issued =
      w.issued ++ framesEntries (inflight.take k) := by
    show ([] ++ readable C d).foldl remember w.issued = _
    rw [nil_append, hheld.readable]
    exact foldl_remember_append (fun e he => h.mem_issued he) (h.inOrder_append hord hafter hfloor)
  obtain ⟨img', hfloor', hentries, hrests⟩ := hheld
  refine ⟨img', hfloor', ⟨⟨?_, ?_, ?_⟩, hrests, rfl, k, ?_, ?_⟩, hissued⟩
  · rw [hissued]
    exact h.inOrder_append hord hafter hfloor
  · rw [hissued, hentries, hfloor', h.history_append hfloor]
  · rw [hissued, hfloor']
    exact h.reached_append _
  · rw [hissued, hacked]
    rfl
  · rw [hfloor']
    exact hfloor

theorem Recorded.crash_same (h : Recorded w img) (hacked : w.issued = w.acked)
    (hheld : Holds C img.floor img.entries d) (inflight : List Frame) :
    ∃ img' : Image, img'.floor = img.floor ∧
      Invariant C (observe C (w.crashed d inflight) []) img' ∧
      (observe C (w.crashed d inflight) []).issued = w.issued := by
  have := @Recorded.crash C img d w h hacked inflight 0 (by simpa using hheld)
    List.Pairwise.nil (by simp) (by simp)
  simpa using this

theorem Invariant.crash_down (h : Invariant C w img) (hp : w.process = none)
    (hheld : Holds C img.floor img.entries d) : ∃ img' : Image, img'.floor = img.floor ∧
      Invariant C (observe C (w.crashed d w.inflight) []) img' ∧
      (observe C (w.crashed d w.inflight) []).issued = w.issued := by
  have hdown := h.down hp
  have hsame : observe C (w.crashed d w.inflight) [] = w.crashed d w.inflight := by
    refine observe_of_subset (by simp) (fun e he => ?_)
    have he' : e ∈ readable C d := he
    rw [hheld.readable] at he'
    exact h.recorded.mem_issued he'
  obtain ⟨img', hfloor, hentries, hrests⟩ := hheld
  obtain ⟨k, hissued, habove⟩ := hdown.recovered
  refine ⟨img', hfloor, ?_, by rw [hsame]; rfl⟩
  rw [hsame]
  refine ⟨⟨h.recorded.order, ?_, hfloor ▸ h.recorded.reached⟩, hrests, rfl, k, hissued, ?_⟩
  · show w.issued.filter _ = _
    rw [hfloor, hentries, h.recorded.history]
  · rw [hfloor]
    exact habove

variable {op : Operation} {steps len : Nat}

/-- Files of one history after a crash: the floor has not fallen, and what was issued has grown by
    whole frames of the operation, by none if it acts on no file. -/
def CrashKeeps (C : WalCodec) (w : World) (img : Image) (op : Operation) (steps len : Nat) : Prop :=
  ∃ img' : Image, img.floor ≤ img'.floor ∧ Invariant C (crashIn C w op steps len) img' ∧
    ∃ k, (planOf C w op = [] → k = 0) ∧
      (crashIn C w op steps len).issued = w.issued ++ framesEntries ((framesWritten w op).take k)

theorem crashKeeps_of_same (hle : img.floor ≤ img'.floor)
    (h : Invariant C (crashIn C w op steps len) img')
    (hissued : (crashIn C w op steps len).issued = w.issued) : CrashKeeps C w img op steps len :=
  ⟨img', hle, h, 0, fun _ => rfl, by rw [hissued]; simp⟩

/-! ## Without a process -/

variable (h : Invariant C w img) {io : TruncateIo}

include h

theorem Invariant.crashKeeps_down (hp : w.process = none)
    (hclean : CleanOperation C w op) : CrashKeeps C w img op steps len := by
  have hdown := h.down hp
  have hframes : framesWritten w op = [] := by
    unfold framesWritten
    rw [hp]
    cases op <;> rfl
  have hheld : Holds C img.floor img.entries
      ((w.disk.applyAll ((planOf C w op).take steps)).cut len) := by
    refine Holds.cut ?_ len
    unfold planOf
    rw [hp]
    cases op with
    | openLog io =>
      unfold CleanOperation at hclean
      rw [hp] at hclean
      exact (openWal_spec hdown.rests hclean).1 steps
    | _ =>
      simp only [take_nil]
      exact hdown.rests.holds
  obtain ⟨img', hfloor, hinv, hissued⟩ := h.crash_down hp hheld
  have hworld : crashIn C w op steps len = observe C
      (w.crashed ((w.disk.applyAll ((planOf C w op).take steps)).cut len) w.inflight) [] := by
    rw [crashIn, if_pos (Or.inr hframes)]
    rfl
  rw [← hworld] at hinv hissued
  exact crashKeeps_of_same hfloor.ge hinv hissued

/-! ## With a process -/

theorem Invariant.crashKeeps_idle (hp : w.process = some a)
    (hplan : planOf C w op = []) (hcrash : CleanCrash C w op steps len) :
    CrashKeeps C w img op steps len := by
  have hup := h.up hp
  unfold CleanCrash at hcrash
  rw [hplan, take_nil] at hcrash
  obtain ⟨img', hfloor, hinv, hissued⟩ :=
    h.recorded.crash_same hup.acked (hup.serves.holds_cut hcrash) w.inflight
  have hworld : crashIn C w op steps len =
      observe C (w.crashed (w.disk.cut len) w.inflight) [] := by
    rw [crashIn, if_pos (Or.inl hplan), hplan, take_nil]
    rfl
  rw [← hworld] at hinv hissued
  exact crashKeeps_of_same hfloor.ge hinv hissued

theorem Invariant.crashKeeps_append (hp : w.process = some a)
    {io : AppendIo} {now : Nat} {operations : List (CanonicalOperation × Option String)}
    {group : Bool} (hclean : CleanOperation C w (.append io now operations group))
    (hcrash : CleanCrash C w (.append io now operations group) steps len) :
    CrashKeeps C w img (.append io now operations group) steps len := by
  by_cases hplan : planOf C w (.append io now operations group) = []
  · exact h.crashKeeps_idle hp hplan hcrash
  have hup := h.up hp
  have hplanOf := @planOf_append C w a io now operations group hp
  have hframes := @framesWritten_append w a io now operations group hp
  have happend : CleanAppend C io now operations group a w.disk := by
    unfold CleanOperation at hclean
    simp only [hp] at hclean
    exact hclean.resolve_left hplan
  rw [hplanOf] at hplan
  obtain ⟨hready, -⟩ := hup.serves.ready hplan happend
  -- the crash leaves some of the append's frames whole
  unfold CleanCrash sectionWritten at hcrash
  simp only [hp, hplanOf] at hcrash
  obtain ⟨k, hheld⟩ := hup.serves.appendEntries_crash (Or.inr happend) hcrash
  have hcont := (hready.continues []).take k
  obtain ⟨img', hfloor, hinv, hissued⟩ :=
    h.recorded.crash hup.acked hheld hcont.order hcont.after hcont.aboveFloor
  have hworld : crashIn C w (.append io now operations group) steps len = observe C
      (w.crashed ((w.disk.applyAll
        ((appendEntries C io now operations group a w.disk).plan.take steps)).cut len)
        (framesOf group (assignSequences now (a.nextSequence + 1) operations))) [] := by
    have hne : ¬ (planOf C w (.append io now operations group) = [] ∨
        framesWritten w (.append io now operations group) = []) := by
      rw [hplanOf, hframes]
      exact fun hor => hor.elim hplan hready.nonempty
    rw [crashIn, if_neg hne, hplanOf, hframes]
    rfl
  rw [← hworld] at hinv hissued
  exact ⟨img', hfloor.ge, hinv, k, fun hnil => absurd (hplanOf ▸ hnil) hplan,
    by rw [hissued, hframes]⟩

omit h in
theorem truncate_of_clean (hp : w.process = some a)
    (hclean : CleanOperation C w (.truncate io floor)) :
    planOf C w (.truncate io floor) = (truncateBelow io floor a).plan ∧
      io.marker ≠ .directorySyncFails := by
  unfold CleanOperation at hclean
  simp only [hp] at hclean
  exact ⟨by simp only [planOf, hp], hclean⟩

theorem Invariant.crashKeeps_truncate (hp : w.process = some a)
    (hclean : CleanOperation C w (.truncate io floor))
    (hcrash : CleanCrash C w (.truncate io floor) steps len) :
    CrashKeeps C w img (.truncate io floor) steps len := by
  have hup := h.up hp
  obtain ⟨hplan, hmarker⟩ := truncate_of_clean hp hclean
  obtain ⟨hactive, hlast⟩ := @truncateBelow_active w.disk a io floor steps
  set left := w.disk.applyAll ((truncateBelow io floor a).plan.take steps)
  have hcut : (left.cut len).activeBytes = left.activeBytes ∨
      Plain C (left.cut len).activeBytes := by
    have hbytes : left.activeBytes = w.disk.activeBytes := by
      rw [Disk.activeBytes, hactive]
      rfl
    rw [hbytes]
    unfold CleanCrash CleanCut at hcrash
    rw [hplan] at hcrash
    split at hcrash
    · rename_i bytes hsection
      exact absurd hsection (hlast bytes)
    · exact hcrash
  have hworld : crashIn C w (.truncate io floor) steps len =
      observe C (w.crashed (left.cut len) w.inflight) [] := by
    have hframes : framesWritten w (.truncate io floor) = [] := by
      unfold framesWritten
      rw [hp]
    rw [crashIn, if_pos (Or.inr hframes), hplan]
    rfl
  obtain ⟨img₁, hfloor₁, hentries₁, -, hpoints⟩ :=
    @Serves.truncateBelow C img w.disk a hup.serves io floor hmarker
  -- before the floor was recorded, or after
  rcases hpoints steps with hserves | hserves
  · obtain ⟨img', hfloor, hinv, hissued⟩ :=
      h.recorded.crash_same hup.acked (hserves.holds_cut hcut) w.inflight
    rw [← hworld] at hinv hissued
    exact crashKeeps_of_same hfloor.ge hinv hissued
  · have hle : img.floor ≤ img₁.floor := by
      rcases hfloor₁ with heq | hlt
      · exact heq.ge
      · exact hlt.1.le
    obtain ⟨img', hfloor, hinv, hissued⟩ :=
      (h.recorded.truncate hle (hfloor₁.imp_right (fun hlt => hlt.2.2)) hentries₁).crash_same
        hup.acked (hserves.holds_cut hcut) w.inflight
    rw [← hworld] at hinv hissued
    exact crashKeeps_of_same (by omega) hinv hissued

theorem Invariant.crashKeeps (hclean : CleanOperation C w op)
    (hcrash : CleanCrash C w op steps len) : CrashKeeps C w img op steps len := by
  cases hp : w.process with
  | none => exact h.crashKeeps_down hp hclean
  | some a =>
    cases op with
    | append io now operations group => exact h.crashKeeps_append hp hclean hcrash
    | truncate io floor => exact h.crashKeeps_truncate hp hclean hcrash
    | openLog io => exact h.crashKeeps_idle hp (by simp only [planOf, hp]) hcrash
    | pin | unpin | advance | fence | enableRotation | enableAtomicGroups =>
      exact h.crashKeeps_idle hp rfl hcrash

end ProximaDb.CanonicalWal
