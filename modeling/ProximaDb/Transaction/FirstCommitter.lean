/-
  ProximaDb.Transaction.FirstCommitter

  First committer wins, as long as commit calls run by themselves, the clock has moved on when a
  commit takes its time, the history keeps what live transactions still have to be checked
  against, and no record is deleted by two transactions that do not write it.
-/
import ProximaDb.Transaction.Isolation

namespace ProximaDb.Isolation

open ProximaDb.Lib List AList Discipline.Keeps
open Meets (perform_within)

/-! ## Write sets of transactions -/

def WriteSet.record (ws : WriteSet) : Act → WriteSet
  | .write k => ws.recordWrite k
  | .delete k => ws.recordDelete k
  | .checkConflicts => ws

/-- What a transaction has recorded when it commits. -/
def writeSetOf (acts : List Act) : WriteSet := acts.foldl WriteSet.record .new

theorem keys_eq_nil {acts : List Act} (h : (writeSetOf acts).isEmpty = true) :
    (writeSetOf acts).keys = [] := by
  have hcounts : ((writeSetOf acts).totalWrites = 0 → (writeSetOf acts).writes = []) ∧
      ((writeSetOf acts).totalDeletes = 0 → (writeSetOf acts).deletes = []) := by
    clear h
    induction acts using List.reverseRecOn with
    | nil => exact ⟨fun _ => rfl, fun _ => rfl⟩
    | append_singleton acts act ih =>
      unfold writeSetOf at ih ⊢
      rw [foldl_append]
      cases act with
      | write k => exact ⟨fun hzero => absurd hzero (Nat.succ_ne_zero _), ih.2⟩
      | delete k => exact ⟨ih.1, fun hzero => absurd hzero (Nat.succ_ne_zero _)⟩
      | checkConflicts => exact ih
  rw [WriteSet.isEmpty, Bool.and_eq_true, beq_iff_eq, beq_iff_eq] at h
  rw [WriteSet.keys, hcounts.1 h.1, hcounts.2 h.2, append_nil]

theorem WriteSet.not_mem_of_not_conflictsWith {ws other : WriteSet}
    (h : ws.conflictsWith other = false)
    (hdeletes : ∀ k ∈ ws.deletes, k ∈ other.deletes → k ∈ ws.writes ∨ k ∈ other.writes) :
    ∀ k ∈ ws.keys, k ∉ other.keys := by
  rw [WriteSet.conflictsWith, Bool.or_eq_false_iff, any_eq_false, any_eq_false] at h
  obtain ⟨hwrites, hdels⟩ := h
  have hww : ∀ k ∈ ws.writes, k ∉ other.writes ∧ k ∉ other.deletes := fun k hk => by
    simpa using hwrites k hk
  have hdw : ∀ k ∈ ws.deletes, k ∉ other.writes := fun k hk => by
    simpa using hdels k hk
  intro k hk hother
  rcases mem_append.1 hk with hk | hk <;> rcases mem_append.1 hother with ho | ho
  · exact (hww k hk).1 ho
  · exact (hww k hk).2 ho
  · exact hdw k hk ho
  · rcases hdeletes k hk ho with hw | hw
    · exact (hww k hw).2 ho
    · exact hdw k hk hw

/-! ## The property -/

variable {ι : Type}

/-- Each of two transactions began before the other committed. -/
def Overlap (log : List (LogEvent ι)) (i j : ι) : Prop :=
  [.began i, .committed j].Sublist log ∧ [.began j, .committed i].Sublist log

theorem Overlap.symm {log : List (LogEvent ι)} {i j : ι} (h : Overlap log i j) :
    Overlap log j i := ⟨h.2, h.1⟩

def FirstCommitterWins (acts : ι → List Act) (log : List (LogEvent ι)) : Prop :=
  ∀ i j, i ≠ j → Overlap log i j →
    ∀ k ∈ (writeSetOf (acts i)).keys, k ∉ (writeSetOf (acts j)).keys

/-- No record is deleted by two transactions of which neither writes it. -/
def NoSharedDelete (acts : ι → List Act) : Prop :=
  ∀ i j, i ≠ j → ∀ k ∈ (writeSetOf (acts i)).deletes, k ∈ (writeSetOf (acts j)).deletes →
    k ∈ (writeSetOf (acts i)).writes ∨ k ∈ (writeSetOf (acts j)).writes

theorem sublist_of_concat_ne {α : Type} {a b c : α} {l : List α} (h : [a, b].Sublist (l ++ [c]))
    (hne : b ≠ c) : [a, b].Sublist l := by
  have hrev := reverse_sublist.2 h
  rw [reverse_append] at hrev
  have hrev : [b, a].Sublist (c :: l.reverse) := hrev
  have hdrop := List.Sublist.of_cons_of_ne hne hrev
  simpa using reverse_sublist.2 hdrop

variable {t : Nat} {history : List (Entry ι)} {ws : WriteSet}

/-! ## The invariant -/

structure Inv (acts : ι → List Act) [DecidableEq ι] (m : Manager ι) : Prop where
  calm : m.calm = true
  recent : ∀ i t, m.live.lookup i = some t → ∀ j, [.began i, .committed j].Sublist m.log →
    (writeSetOf (acts j)).isEmpty = false →
      ∃ ts, ⟨j, ts, writeSetOf (acts j)⟩ ∈ m.commitHistory ∧ t < ts
  wins : FirstCommitterWins acts m.log

structure Own [DecidableEq ι] (i : ι) (m n : Manager ι) : Prop where
  writeSet : n.activeWriteSets.lookup i = m.activeWriteSets.lookup i
  snapshot : n.activeSnapshots.lookup i = m.activeSnapshots.lookup i
  live : n.live.lookup i = m.live.lookup i
  began : .began i ∈ n.log → .began i ∈ m.log
  /-- during its commit call a transaction is alone -/
  committing : m.committing = some i → n.committing = some i ∧ n.log = m.log ∧
    n.commitHistory = m.commitHistory ∧
      ∀ k t, n.live.lookup k = some t → m.live.lookup k = some t

variable [DecidableEq ι] {i : ι}

theorem Own.refl (i : ι) (m : Manager ι) : Own i m m :=
  ⟨rfl, rfl, rfl, fun h => h, fun h => ⟨h, rfl, rfl, fun _ _ hk => hk⟩⟩

theorem Own.trans {m n o : Manager ι} (h : Own i m n) (h' : Own i n o) : Own i m o where
  writeSet := h'.writeSet.trans h.writeSet
  snapshot := h'.snapshot.trans h.snapshot
  live := h'.live.trans h.live
  began hb := h.began (h'.began hb)
  committing hm := by
    obtain ⟨hn, hlog, hhistory, hlive⟩ := h.committing hm
    obtain ⟨ho, hlog', hhistory', hlive'⟩ := h'.committing hn
    exact ⟨ho, hlog'.trans hlog, hhistory'.trans hhistory, fun k t hk => hlive k t (hlive' k t hk)⟩

def manage (acts : ι → List Act) : Discipline ι (Manager ι) where
  inv := Inv acts
  moves _ _ := True
  own := Own
  moves_refl _ := trivial
  moves_trans _ _ := trivial
  own_refl := Own.refl
  own_trans _ _ _ _ := Own.trans

/-! ## What a step keeps -/

section Steps

variable {acts : ι → List Act} {m : Manager ι} {i : ι}

theorem keeps_mine (h : Inv acts m) {n : Manager ι}
    (hws : ∀ j, j ≠ i → n.activeWriteSets.lookup j = m.activeWriteSets.lookup j)
    (hsnap : ∀ j, j ≠ i → n.activeSnapshots.lookup j = m.activeSnapshots.lookup j)
    (hlog : n.log = m.log) (hlive : n.live = m.live) (hhistory : n.commitHistory = m.commitHistory)
    (hcommitting : n.committing = m.committing) (hcalm : n.calm = m.calm) :
    (manage acts).Keeps i m n := by
  refine ⟨⟨by rw [hcalm]; exact h.calm, ?_, by rw [hlog]; exact h.wins⟩, trivial, fun j hj => ?_⟩
  · rw [hlog, hlive, hhistory]
    exact h.recent
  · refine ⟨hws j hj, hsnap j hj, by rw [hlive], by rw [hlog]; exact id, fun hm => ?_⟩
    rw [hcommitting, hlog, hhistory, hlive]
    exact ⟨hm, rfl, rfl, fun _ _ hk => hk⟩

variable {calm : Bool}

theorem keeps_snapshotTime (h : Inv acts m) (hnew : .began i ∉ m.log)
    (hcalm : calm = true) (halone : m.committing = none) : (manage acts).Keeps i m { m with
      log := m.log ++ [.began i]
      live := m.live.insert i m.clock
      calm := calm } := by
  refine ⟨⟨hcalm, fun k t hk j hsub => ?_, fun a b hab hover => ?_⟩, trivial, fun j hj => ?_⟩
  · have hsub' : [.began k, .committed j].Sublist m.log :=
      sublist_of_concat_ne hsub (by intro heq; cases heq)
    by_cases hki : k = i
    · subst hki
      exact absurd (hsub'.subset mem_cons_self) hnew
    · exact h.recent k t ((lookup_insert_ne hki).symm.trans hk) j hsub'
  · exact h.wins a b hab ⟨sublist_of_concat_ne hover.1 (by intro heq; cases heq),
      sublist_of_concat_ne hover.2 (by intro heq; cases heq)⟩
  · refine ⟨rfl, rfl, lookup_insert_ne hj, fun hb => ?_, fun hm => ?_⟩
    · rcases mem_append.1 hb with hb | hb
      · exact hb
      · exact absurd (LogEvent.began.inj (mem_singleton.1 hb)) hj
    · rw [halone] at hm
      cases hm

theorem keeps_enter (h : Inv acts m) (hcalm : calm = true) (halone : m.committing = none) :
    (manage acts).Keeps i m { m with committing := some i, calm := calm } := by
  refine ⟨⟨hcalm, h.recent, h.wins⟩, trivial, fun j _ => ⟨rfl, rfl, rfl, id, fun hm => ?_⟩⟩
  rw [halone] at hm
  cases hm

theorem keeps_calm (h : Inv acts m) (hcalm : calm = true) :
    (manage acts).Keeps i m { m with calm := calm } :=
  ⟨⟨hcalm, h.recent, h.wins⟩, trivial,
    fun _ _ => ⟨rfl, rfl, rfl, id, fun hm => ⟨hm, rfl, rfl, fun _ _ hk => hk⟩⟩⟩

theorem lookup_erase_eq_some {ν : Type} {l : KeyMap ι ν} {i k : ι} {t : ν}
    (h : (l.erase i).lookup k = some t) : k ≠ i ∧ l.lookup k = some t := by
  by_cases hki : k = i
  · subst hki
    rw [lookup_erase] at h
    cases h
  · rw [lookup_erase_ne hki] at h
    exact ⟨hki, h⟩

theorem keeps_discard (h : Inv acts m) : (manage acts).Keeps i m { m with
      activeWriteSets := m.activeWriteSets.erase i
      live := m.live.erase i
      committing := if m.committing = some i then none else m.committing } := by
  refine ⟨⟨h.calm, fun k t hk => h.recent k t (lookup_erase_eq_some hk).2, h.wins⟩, trivial,
    fun j hj => ⟨lookup_erase_ne hj, rfl, lookup_erase_ne hj, id, fun hm => ?_⟩⟩
  refine ⟨?_, rfl, rfl, fun k t hk => (lookup_erase_eq_some hk).2⟩
  rw [hm, if_neg (fun heq => hj (Option.some.inj heq))]

/-- A transaction commits: whatever has committed since it began is in the history, and its check
    has found no conflict there. -/
theorem keeps_commit (hacts : NoSharedDelete acts) (h : Inv acts m)
    (hlive : m.live.lookup i = some t) (hmine : m.committing = some i)
    (hcheck : ∀ e ∈ m.commitHistory, t < e.commitTs →
      (writeSetOf (acts i)).conflictsWith e.writeSet = false)
    {writeSets : KeyMap ι WriteSet}
    (hws : ∀ j, j ≠ i → writeSets.lookup j = m.activeWriteSets.lookup j)
    (hcalm : calm = true)
    (hkept : ∀ k t', k ≠ i → m.live.lookup k = some t' →
      (∀ e ∈ m.commitHistory, t' < e.commitTs → e ∈ history) ∧
      ((writeSetOf (acts i)).isEmpty = false →
        ∃ ts, ⟨i, ts, writeSetOf (acts i)⟩ ∈ history ∧ t' < ts)) :
    (manage acts).Keeps i m { m with
      activeWriteSets := writeSets
      commitHistory := history
      log := m.log ++ [.committed i]
      live := m.live.erase i
      committing := none
      calm := calm } := by
  have hmine' : ∀ j, j ≠ i → Overlap (m.log ++ [.committed i]) i j →
      ∀ k ∈ (writeSetOf (acts i)).keys, k ∉ (writeSetOf (acts j)).keys := by
    intro j hj hover
    cases hempty : (writeSetOf (acts j)).isEmpty with
    | true =>
      rw [keys_eq_nil hempty]
      exact fun k _ => not_mem_nil
    | false =>
      have hsub := sublist_of_concat_ne hover.1 (fun heq => hj (LogEvent.committed.inj heq))
      obtain ⟨ts, hmem, hlt⟩ := h.recent i t hlive j hsub hempty
      exact WriteSet.not_mem_of_not_conflictsWith (hcheck _ hmem hlt) (hacts i j (Ne.symm hj))
  refine ⟨⟨hcalm, fun k t' hk j hsub hempty => ?_, fun a b hab hover => ?_⟩, trivial,
    fun j hj => ⟨hws j hj, rfl, lookup_erase_ne hj, fun hb => ?_, fun hm => ?_⟩⟩
  · obtain ⟨hki, hk⟩ := lookup_erase_eq_some hk
    obtain ⟨hold, hnew⟩ := hkept k t' hki hk
    by_cases hji : j = i
    · subst hji
      exact hnew hempty
    · have hsub : [.began k, .committed j].Sublist m.log :=
        sublist_of_concat_ne hsub (fun heq => hji (LogEvent.committed.inj heq))
      obtain ⟨ts, hmem, hlt⟩ := h.recent k t' hk j hsub hempty
      exact ⟨ts, hold _ hmem hlt, hlt⟩
  · by_cases ha : a = i
    · subst ha
      exact hmine' b (Ne.symm hab) hover
    · by_cases hb : b = i
      · subst hb
        exact fun k hka hkb => hmine' a ha hover.symm k hkb hka
      · exact h.wins a b hab
          ⟨sublist_of_concat_ne hover.1 (fun heq => hb (LogEvent.committed.inj heq)),
            sublist_of_concat_ne hover.2 (fun heq => ha (LogEvent.committed.inj heq))⟩
  · rcases mem_append.1 hb with hb | hb
    · exact hb
    · cases mem_singleton.1 hb
  · rw [hmine] at hm
    exact absurd (Option.some.inj hm).symm hj

end Steps

/-! ## The calls -/

/-- The manager's runs in which the conditions hold. -/
noncomputable abbrev calmSystem (ι : Type) [DecidableEq ι] :
    System ι (Manager ι) (IsoOp ι) IsoOp.Answer Tick :=
  (isoSystem ι).within (fun m => m.calm = true)

/-- A transaction between its begin and its commit. -/
structure Active (i : ι) (t : Nat) (ws : WriteSet) (m : Manager ι) : Prop where
  live : m.live.lookup i = some t
  snapshot : ∃ active, m.activeSnapshots.lookup i = some (.serializable, ⟨t, active⟩)
  writeSet : m.activeWriteSets.lookup i = some ws

variable {m n : Manager ι} {now : Nat}

theorem Active.stable (h : Active i t ws m) (hown : Own i m n) : Active i t ws n :=
  ⟨hown.live.trans h.live, by rw [hown.snapshot]; exact h.snapshot, hown.writeSet.trans h.writeSet⟩

/-- A transaction in its commit call, when its check has passed. -/
structure Checked (i : ι) (t : Nat) (ws : WriteSet) (m : Manager ι) : Prop where
  live : m.live.lookup i = some t
  committing : m.committing = some i
  clear : ∀ e ∈ m.commitHistory, t < e.commitTs → ws.conflictsWith e.writeSet = false

theorem Checked.stable (h : Checked i t ws m) (hown : Own i m n) : Checked i t ws n := by
  obtain ⟨hmine, -, hhistory, -⟩ := hown.committing h.committing
  exact ⟨hown.live.trans h.live, hmine, by rw [hhistory]; exact h.clear⟩

/-- A time that is later than every live transaction's snapshot. -/
def Later (now : Nat) (m : Manager ι) : Prop := ∀ k t, m.live.lookup k = some t → t < now

theorem Later.stable (h : Later now m)
    (hmine : m.committing = some i) (hown : Own i m n) : Later now n :=
  fun k t hk => h k t ((hown.committing hmine).2.2.2 k t hk)

/-- What a call that came through has established. -/
def Ends (P : Manager ι → Prop) : Except (IsolationError ι) Unit → Manager ι → Prop
  | .ok _, m => P m
  | .error _, _ => True

section Calls

variable {acts : ι → List Act} {i : ι} {t : Nat} {ws : WriteSet} {s : Manager ι}

/-- A check that passes has found no conflict in the history, which stays as it is if the
    transaction is committing. -/
theorem checkConflicts_meets (h : Active i t ws s) : Meets (calmSystem ι) (manage acts) i
      (Gives (manage acts) i s (fun _ u => s.committing = some i →
        ∀ e ∈ u.commitHistory, t < e.commitTs → ws.conflictsWith e.writeSet = false))
      (checkConflicts i) s := by
  refine perform_within (fun s1 h1 hinv1 c r u hr _ => ?_)
  cases hr
  refine ⟨refl hinv1, ?_⟩
  have ha1 := h.stable h1.2
  obtain ⟨active, hsnap⟩ := ha1.snapshot
  rw [hsnap]
  refine perform_within (fun s2 h2 hinv2 c r u hr _ => ?_)
  cases hr
  refine ⟨refl hinv2, ?_⟩
  rw [(ha1.stable h2.2).writeSet]
  refine perform_within (fun s3 h3 hinv3 c r u hr _ => ?_)
  cases hr
  refine ⟨refl hinv3, ?_⟩
  have hrely := (h1.trans h2).trans h3
  cases hfind : findConflict t ws s3.commitHistory with
  | some e =>
    exact Meets.fail_gives hrely
  | none =>
    refine Meets.ret_gives hrely (fun u _ _ hu hmine => ?_)
    have hmine3 := (hrely.2.committing hmine).1
    rw [(hu.2.committing hmine3).2.2.1]
    intro e he hlt
    have hno := List.find?_eq_none.1 hfind e he
    simpa [Nat.not_le.2 hlt] using hno

theorem removeSnapshot_meets {P : Except (IsolationError ι) Unit → Manager ι → Prop}
    (hP : ∀ r m, P r m) : Meets (calmSystem ι) (manage acts) i P
      (Prog.perform IsoOp.removeSnapshot : IsoProg ι Unit) s := by
  intro s1 h1 hinv1 c r u hr
  cases (System.respond_within.1 hr).1
  exact ⟨keeps_mine hinv1 (fun _ _ => rfl) (fun j hj => lookup_erase_ne hj)
    rfl rfl rfl rfl rfl, fun _ _ _ => hP _ _⟩

variable {m : Manager ι}

theorem mem_pushed {e x : Entry ι} {k : ι} (hkept : (m.dropped e).all (fun d =>
      (m.live.erase i).entries.all (fun l => decide (d.commitTs ≤ l.2))) = true)
    (hki : k ≠ i) (hk : m.live.lookup k = some t) (hx : x ∈ m.commitHistory ++ [e])
    (hlt : t < x.commitTs) : x ∈ m.pushed e := by
  rw [← take_append_drop ((m.commitHistory ++ [e]).length - m.maxHistorySize)
    (m.commitHistory ++ [e])] at hx
  rcases mem_append.1 hx with hdropped | hpushed
  · have hall := all_eq_true.1 (all_eq_true.1 hkept x hdropped) ⟨k, t⟩
      (mem_lookup_iff.1 ((lookup_erase_ne hki).trans hk))
    exact absurd (of_decide_eq_true hall) (Nat.not_le.2 hlt)
  · exact hpushed

theorem finish_meets (hacts : NoSharedDelete acts)
    (hchecked : Checked i t (writeSetOf (acts i)) s) (hlater : Later now s)
    (hws : s.activeWriteSets.lookup i = some (writeSetOf (acts i))) :
    Meets (calmSystem ι) (manage acts) i (fun _ _ => True) ((do
        match ← (Prog.perform IsoOp.removeWriteSet : IsoProg ι (Option WriteSet)) with
        | none => Prog.perform IsoOp.removeSnapshot
        | some writeSet =>
          if writeSet.isEmpty then Prog.perform IsoOp.removeSnapshot
          else do
            Prog.perform (IsoOp.push now writeSet)
            Prog.perform IsoOp.removeSnapshot) : IsoProg ι Unit) s := by
  refine perform_within (fun s1 h1 hinv1 c r u hr hcalm => ?_)
  have hc1 := hchecked.stable h1.2
  have hl1 := hlater.stable hchecked.committing h1.2
  have hws1 := h1.2.writeSet.trans hws
  have hsets : ∀ j, j ≠ i → (s1.activeWriteSets.erase i).lookup j = s1.activeWriteSets.lookup j :=
    fun j hj => lookup_erase_ne hj
  change Manager.respond i s1 .removeWriteSet c = _ at hr
  simp only [Manager.respond, hws1] at hr
  cases hempty : (writeSetOf (acts i)).isEmpty with
  | true =>
    rw [hempty, if_pos rfl] at hr
    cases hr
    refine ⟨keeps_commit hacts hinv1 hc1.live hc1.committing hc1.clear hsets hinv1.calm
      (fun k t' _ _ => ⟨fun e he _ => he, fun hne => ?_⟩), ?_⟩
    · rw [hempty] at hne
      cases hne
    · simp only [hempty, if_true]
      exact removeSnapshot_meets (fun _ _ => trivial)
  | false =>
    rw [hempty, if_neg Bool.false_ne_true] at hr
    cases hr
    refine ⟨keeps_mine hinv1 hsets (fun _ _ => rfl) rfl rfl rfl rfl rfl, ?_⟩
    simp only [hempty, Bool.false_eq_true, if_false]
    have hc1' : Checked i t (writeSetOf (acts i))
        { s1 with activeWriteSets := s1.activeWriteSets.erase i } :=
      ⟨hc1.live, hc1.committing, hc1.clear⟩
    have hl1' : Later now { s1 with activeWriteSets := s1.activeWriteSets.erase i } := hl1
    refine perform_within (fun s2 h2 hinv2 c r u hr hcalm => ?_)
    have hc2 := hc1'.stable h2.2
    have hl2 := hl1'.stable hc1'.committing h2.2
    cases hr
    have hkept := (Bool.and_eq_true_iff.1 hcalm).2
    refine ⟨keeps_commit hacts hinv2 hc2.live hc2.committing hc2.clear (fun _ _ => rfl) hcalm
      (fun k t' hki hk => ⟨fun e he hlt => ?_, fun _ => ⟨now, ?_, hl2 k t' hk⟩⟩), ?_⟩
    · exact mem_pushed hkept hki hk (mem_append_left _ he) hlt
    · exact mem_pushed hkept hki hk (mem_append_right _ mem_cons_self) (hl2 k t' hk)
    · exact removeSnapshot_meets (fun _ _ => trivial)

theorem commitTransaction_meets (hacts : NoSharedDelete acts)
    (h : Active i t (writeSetOf (acts i)) s) :
    Meets (calmSystem ι) (manage acts) i (fun _ _ => True) (commitTransaction i) s := by
  refine perform_within (fun s1 h1 hinv1 c r u hr hcalm => ?_)
  cases hr
  have halone := Option.isNone_iff_eq_none.1 (Bool.and_eq_true_iff.1 hcalm).2
  have hkeeps := keeps_enter (i := i) hinv1 hcalm halone
  refine ⟨hkeeps, ?_⟩
  have ha1 := h.stable h1.2
  have ha1' : Active i t (writeSetOf (acts i)) { s1 with
      committing := some i
      calm := s1.calm && s1.committing.isNone } := ⟨ha1.live, ha1.snapshot, ha1.writeSet⟩
  refine Meets.seq (checkConflicts_meets ha1') (fun s2 a h2 _ hclear => ?_) (fun _ _ _ _ => trivial)
  have ha2 := ha1'.stable h2.2
  have hmine2 := (h2.2.committing rfl).1
  have hc2 : Checked i t (writeSetOf (acts i)) s2 := ⟨ha2.live, hmine2, hclear rfl⟩
  refine perform_within (fun s3 h3 hinv3 c r u hr hcalm => ?_)
  cases hr
  have hc3 := hc2.stable h3.2
  refine ⟨keeps_calm hinv3 hcalm, finish_meets (t := t) hacts ⟨hc3.live, hc3.committing, hc3.clear⟩
    (fun k t' hk => ?_) (ha2.stable h3.2).writeSet⟩
  exact of_decide_eq_true (all_eq_true.1 (Bool.and_eq_true_iff.1 hcalm).2 ⟨k, t'⟩
    (mem_lookup_iff.1 hk))

theorem Active.insert (h : Active i t ws m) (ws' : WriteSet) :
    Active i t ws' { m with activeWriteSets := m.activeWriteSets.insert i ws' } :=
  ⟨h.live, h.snapshot, lookup_insert _⟩

theorem keeps_insert (h : Inv acts m) (ws' : WriteSet) :
    (manage acts).Keeps i m { m with activeWriteSets := m.activeWriteSets.insert i ws' } :=
  keeps_mine h (fun _ hj => lookup_insert_ne hj) (fun _ _ => rfl) rfl rfl rfl rfl rfl

theorem runActs_meets (rest : List Act) (h : Active i t ws s) :
    Meets (calmSystem ι) (manage acts) i (Ends (Active i t (rest.foldl WriteSet.record ws)))
      (runActs i rest) s := by
  induction rest generalizing ws s with
  | nil => exact fun s1 h1 _ => h.stable h1.2
  | cons act rest ih =>
    cases act with
    | write k | delete k =>
      refine perform_within (fun s1 h1 hinv1 c r u hr _ => ?_)
      have ha1 := h.stable h1.2
      simp only [isoSystem, Manager.respond, ha1.writeSet] at hr
      cases hr
      exact ⟨keeps_insert hinv1 _, ih (ha1.insert _)⟩
    | checkConflicts =>
      exact Meets.seq (Meets.attempt_gives (checkConflicts_meets h))
        (fun s1 _ h1 _ _ => ih (h.stable h1.2)) (fun _ _ _ _ => trivial)

theorem beginTransaction_meets (hnew : .began i ∉ s.log) :
    Meets (calmSystem ι) (manage acts) i (Ends (fun m => ∃ t, Active i t .new m))
      (beginTransaction i .serializable) s := by
  refine perform_within (fun s1 h1 hinv1 c r u hr hcalm => ?_)
  cases hr
  have halone := Option.isNone_iff_eq_none.1 (Bool.and_eq_true_iff.1 hcalm).2
  refine ⟨keeps_snapshotTime hinv1 (fun hb => hnew (h1.2.began hb)) hcalm halone, ?_⟩
  refine perform_within (fun s2 h2 hinv2 c r u hr _ => ?_)
  cases hr
  have hlive2 : s2.live.lookup i = some s1.clock := h2.2.live.trans (lookup_insert _)
  refine ⟨refl hinv2, ?_⟩
  refine perform_within (fun s3 h3 hinv3 c r u hr _ => ?_)
  cases hr
  have hlive3 := h3.2.live.trans hlive2
  refine ⟨keeps_mine hinv3 (fun _ _ => rfl) (fun j hj => lookup_insert_ne hj)
    rfl rfl rfl rfl rfl, ?_⟩
  intro s4 h4 hinv4 c r u hr
  cases (System.respond_within.1 hr).1
  refine ⟨keeps_insert hinv4 _, fun s5 h5 _ => ⟨s1.clock, ?_⟩⟩
  refine Active.stable ⟨?_, ?_, lookup_insert _⟩ h5.2
  · exact h4.2.live.trans hlive3
  · exact ⟨_, h4.2.snapshot.trans (lookup_insert _)⟩

theorem transaction_meets (hacts : NoSharedDelete acts) (hnew : .began i ∉ s.log) :
    Meets (calmSystem ι) (manage acts) i (fun _ _ => True) (transaction i (acts i)) s := by
  refine Meets.bind ((beginTransaction_meets hnew).mono (fun r s1 _ hr => ?_))
  cases r with
  | error e => trivial
  | ok a =>
    obtain ⟨t, hactive⟩ := hr
    refine Meets.bind ((runActs_meets (acts i) hactive).mono (fun r s2 _ hr => ?_))
    cases r with
    | error e => trivial
    | ok a =>
      refine Meets.bind (Meets.attempt ((commitTransaction_meets hacts hr).mono
        (fun r s3 _ _ => ?_)))
      cases r with
      | ok a => exact fun _ _ _ => trivial
      | error e =>
        refine perform_within (fun s4 h4 hinv4 c r u hr _ => ?_)
        cases hr
        exact ⟨keeps_discard hinv4, removeSnapshot_meets (fun _ _ => trivial)⟩

end Calls

/-! ## The result -/

theorem inv_new (acts : ι → List Act) (maxHistorySize : Nat) :
    Inv acts (Manager.new ι maxHistorySize) where
  calm := rfl
  recent _ _ hlive := by cases hlive
  wins _ _ _ hover := by cases hover.1

/-- No two transactions that have both committed, each of which began before the other committed,
    have written or deleted the same record. -/
theorem first_committer_wins {acts : ι → List Act} (hacts : NoSharedDelete acts)
    {maxHistorySize : Nat} {q : IsoPool ι}
    (hrun : ReachesWithin (isoSystem ι) (fun m => m.calm = true)
      (transactions maxHistorySize acts) q) :
    FirstCommitterWins acts q.shared.log := by
  have hinv := inv_new acts maxHistorySize
  have hdrift : (manage acts).AllowsDrift (calmSystem ι) := by
    intro s c s' hs hd
    cases (System.drift_within.1 hd).1
    exact ⟨⟨hs.calm, hs.recent, hs.wins⟩, trivial,
      fun _ => ⟨rfl, rfl, rfl, id, fun hm => ⟨hm, rfl, rfl, fun _ _ hk => hk⟩⟩⟩
  exact (hrun.reaches.meets hdrift hinv (fun i => transaction_meets hacts (not_mem_nil))).1.wins

def stepsOf (i : Fin 2) (n : Nat) : List (Turn (Fin 2) Tick) := List.replicate n (.act i 0)

def commits (i : Fin 2) : List (Turn (Fin 2) Tick) := stepsOf i 8

def apart : Fin 2 → List Act
  | 0 => [.write ("vector", "a"), .delete ("graph", "b")]
  | 1 => [.write ("graph", "a")]

/-- Two transactions overlap, write and delete different records, and both commit. -/
theorem first_committer_wins_apart : ∃ q : IsoPool (Fin 2),
      ReachesWithin (isoSystem (Fin 2)) (fun m => m.calm = true) (transactions 10000 apart) q ∧
      q.shared.log = [.began 0, .began 1, .committed 0, .committed 1] ∧
      FirstCommitterWins apart q.shared.log := by
  have hrun : (Pool.playWithin (isoSystem (Fin 2)) (fun m => m.calm) (transactions 10000 apart)
      (stepsOf 0 6 ++ stepsOf 1 5 ++ [.drift 1] ++ commits 0 ++ [.drift 1] ++ commits 1)).map
        (fun q => q.shared.log) = some [.began 0, .began 1, .committed 0, .committed 1] := by
    rfl
  obtain ⟨q, hplay, hlog⟩ := Option.map_eq_some_iff.1 hrun
  have hreach := Pool.reachesWithin_of_playWithin (fun _ h => h) hplay
  exact ⟨q, hreach, hlog, first_committer_wins (by unfold NoSharedDelete; decide) hreach⟩

/-- After a schedule of two transactions that both do one thing, both have committed it although
    they overlapped. -/
def LosesUpdate (act : Act) (turns : List (Turn (Fin 2) Tick)) : Prop :=
  ∃ q : IsoPool (Fin 2),
    Pool.play (isoSystem (Fin 2)) (transactions 10000 (fun _ => [act])) turns = some q ∧
      ¬ FirstCommitterWins (fun _ => [act]) q.shared.log

theorem losesUpdate_of_log {act : Act} {k : Key} (hk : k ∈ (writeSetOf [act]).keys)
    {turns : List (Turn (Fin 2) Tick)}
    (hrun : (Pool.play (isoSystem (Fin 2)) (transactions 10000 (fun _ => [act])) turns).map
      (fun q => q.shared.log) = some [.began 0, .began 1, .committed 0, .committed 1]) :
    LosesUpdate act turns := by
  obtain ⟨q, hplay, hlog⟩ := Option.map_eq_some_iff.1 hrun
  refine ⟨q, hplay, fun hwins => ?_⟩
  rw [hlog] at hwins
  have hover : Overlap [.began (0 : Fin 2), .began 1, .committed 0, .committed 1] 0 1 := by
    unfold Overlap
    decide
  exact hwins 0 1 (by decide) hover k hk hk

/-- Two transactions delete the same record, one commit call after the other and the clock moving;
    two write the same record and check before either is in the history; or they commit one after
    the other while the clock stands still. -/
theorem overlapping_commits_share_record : LosesUpdate (.delete ("vector", "a"))
      (stepsOf 0 5 ++ stepsOf 1 5 ++ [.drift 1] ++ commits 0 ++ [.drift 1] ++ commits 1) ∧
    LosesUpdate (.write ("vector", "a"))
      (stepsOf 0 5 ++ stepsOf 1 5 ++ [.drift 1] ++ stepsOf 0 4 ++ stepsOf 1 4 ++ stepsOf 0 4 ++
        stepsOf 1 4) ∧
    LosesUpdate (.write ("vector", "a"))
      (stepsOf 0 5 ++ stepsOf 1 5 ++ commits 0 ++ commits 1) := by
  have hdelete : ("vector", "a") ∈ (writeSetOf [.delete ("vector", "a")]).keys := by decide
  have hwrite : ("vector", "a") ∈ (writeSetOf [.write ("vector", "a")]).keys := by decide
  exact ⟨losesUpdate_of_log hdelete (by rfl),
    losesUpdate_of_log hwrite (by rfl), losesUpdate_of_log hwrite (by rfl)⟩

end ProximaDb.Isolation
