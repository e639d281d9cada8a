/-
  ProximaDb.Transaction.Phases

  The phases of a commit, an abort and a recovery, each followed on the view of its transaction.
  Programs that cannot fail are stated together with what follows them; the others say what holds
  after a success and after a failure.
-/
import ProximaDb.Transaction.Steps

namespace ProximaDb.Transaction

open ProximaDb.Lib List Parts.Triple

theorem ensureDurableParticipants_eq_ok {registry : Registry} {ids : List ParticipantId} :
    ensureDurableParticipants registry ids = .ok () ↔ ∀ p ∈ ids, registry p = some true := by
  induction ids with
  | nil => simp [ensureDurableParticipants]
  | cons p rest ih =>
    rw [forall_mem_cons, ← ih, ensureDurableParticipants]
    cases registry p with
    | none => simp
    | some durable => cases durable <;> simp

/-! ## Stages of a transaction -/

/-- Begun, and not yet told anything but to prepare. -/
structure Fresh (ids : List ParticipantId) (l : Ledger) (logged : Option WalTransactionState) :
    Prop where
  listed : l.listed = some ids
  unsent : l.commitSent = []
  unapplied : l.commitApplied = []
  unrolled : l.rollbackSent = []
  unreturned : l.returnedOk = false
  logged : logged = some .begun

theorem Fresh.quiet {ids : List ParticipantId} {l : Ledger} {logged : Option WalTransactionState}
    (h : Fresh ids l logged) : Quiet l logged where
  unsent := h.unsent
  unapplied := h.unapplied
  unreturned := h.unreturned
  settled n ids hlog := by
    rw [h.logged] at hlog
    cases hlog
  uncommitted hlog := by
    rw [h.logged] at hlog
    cases hlog

/-- Agreed, and as much of the list in the log as `done`. -/
structure Staged (registry : Registry) (ids done : List ParticipantId) (l : Ledger)
    (logged : Option WalTransactionState) : Prop where
  agreed : Agreed registry l ids
  unsent : l.commitSent = []
  unapplied : l.commitApplied = []
  unrolled : l.rollbackSent = []
  unreturned : l.returnedOk = false
  logged : logged = some (loggedAfter ids.length done)

/-- Agreed and in the log as such: the participants may be told to commit. -/
structure Ready (registry : Registry) (ids : List ParticipantId) (l : Ledger)
    (logged : Option WalTransactionState) : Prop where
  agreed : Agreed registry l ids
  unrolled : l.rollbackSent = []
  logged : ∀ p ∈ ids, ∃ n, logged = some (.prepared n ids)

variable {registry : Registry} {ids done : List ParticipantId} {l : Ledger}
  {logged : Option WalTransactionState}

theorem Staged.sound {rest : List ParticipantId} (h : Staged registry ids done l logged)
    (hids : ids = done ++ rest) (hgood : l.Cooperative) : Sound registry l logged where
  cooperative := hgood
  applied := h.unapplied.trans h.unsent.symm
  sent hne := absurd h.unsent hne
  rolled hne := absurd h.unrolled hne
  prepared n ids' hlog := by
    -- the log calls it prepared only when the whole list is in it
    rw [h.logged] at hlog
    unfold loggedAfter at hlog
    split_ifs at hlog with hnil hlength
    · cases hlog
    · have hrest : rest = [] := by
        rw [hids, length_append] at hlength
        exact length_eq_zero_iff.1 (by omega)
      rw [hrest, append_nil] at hids
      cases hlog
      rw [← hids]
      exact h.agreed
    · cases hlog
  committed hlog := by
    rw [h.logged] at hlog
    unfold loggedAfter at hlog
    split_ifs at hlog <;> cases hlog
  returned hok := by
    rw [h.unreturned] at hok
    cases hok

theorem Staged.ready (h : Staged registry ids ids l logged) : Ready registry ids l logged where
  agreed := h.agreed
  unrolled := h.unrolled
  logged p hp := by
    refine ⟨ids.length, ?_⟩
    rw [h.logged, loggedAfter, if_neg (ne_nil_of_mem hp), if_pos le_rfl]

/-- Agreement reads the list and the votes only. -/
theorem Agreed.frame {l' : Ledger} (h : Agreed registry l ids) (hlisted : l'.listed = l.listed)
    (hvotes : l'.votedYes = l.votedYes) : Agreed registry l' ids :=
  ⟨hlisted.trans h.listed, h.durable, hvotes ▸ h.voted⟩

theorem Sound.commit (h : Sound registry l logged) (hready : Ready registry ids l logged)
    {p : ParticipantId} (hp : p ∈ ids) : Sound registry { l with
      commitSent := p :: l.commitSent
      commitApplied := p :: l.commitApplied } logged where
  cooperative := h.cooperative
  applied := congrArg (p :: ·) h.applied
  sent _ := ⟨ids, hready.agreed.frame rfl rfl, .inr (hready.logged p hp)⟩
  rolled hne := absurd hready.unrolled hne
  prepared n ids' hlog := (h.prepared n ids' hlog).frame rfl rfl
  committed hlog := by
    obtain ⟨n, hprepared⟩ := hready.logged p hp
    rw [hprepared] at hlog
    cases hlog
  returned := h.returned

theorem Sound.logCommit (h : Sound registry l logged) (hready : Ready registry ids l logged)
    (happlied : ∀ p ∈ ids, p ∈ l.commitApplied) : Sound registry l (some .committed) where
  cooperative := h.cooperative
  applied := h.applied
  sent _ := ⟨ids, hready.agreed, .inl rfl⟩
  rolled hne := absurd hready.unrolled hne
  prepared n ids' hlog := by cases hlog
  committed _ := ⟨ids, hready.agreed, happlied⟩
  returned _ := rfl

theorem Sound.answered (h : Sound registry l logged) {ok : Bool}
    (hok : ok = true → logged = some .committed) :
    Sound registry { l with returnedOk := ok } logged where
  cooperative := h.cooperative
  applied := h.applied
  sent hne := by
    obtain ⟨ids, hagreed, hlog⟩ := h.sent hne
    exact ⟨ids, hagreed.frame rfl rfl, hlog⟩
  rolled := h.rolled
  prepared n ids hlog := (h.prepared n ids hlog).frame rfl rfl
  committed hlog := by
    obtain ⟨ids, hagreed, happlied⟩ := h.committed hlog
    exact ⟨ids, hagreed.frame rfl rfl, happlied⟩
  returned := hok

/-! ## Programs that cannot fail -/

/-- A view of a transaction that no participant was told to commit. -/
abbrev QuietView (v : TxView) : Prop := Quiet v.ledger v.logged

abbrev FreshView (ids : List ParticipantId) (v : TxView) : Prop := Fresh ids v.ledger v.logged

/-- Ready, and applied at the participants of `done`. -/
abbrev AppliedAt (registry : Registry) (ids done : List ParticipantId) (v : TxView) : Prop :=
  Ready registry ids v.ledger v.logged ∧ ∀ p ∈ done, p ∈ v.ledger.commitApplied

abbrev Finished (r : Except TransactionError Unit) (v : TxView) : Prop :=
  r = .ok () ∧ Settled v.logged

section Programs

variable {ι : Type} [DecidableEq ι] {D : Discipline ι (World ι)} {i : ι} {txId : TransactionId}
  {α : Type} {Post : Except TransactionError α → TxView → Prop} {f : Unit → TxProg α}
  (hD : Governed registry D)

include hD

theorem triple_setState {state : TransactionState}
    (Pre : Ledger → Option WalTransactionState → Prop)
    (hf : TxTriple D i txId (fun v => Pre v.ledger v.logged ∧ v.state = some state) (f ()) Post) :
    TxTriple D i txId (fun v => Pre v.ledger v.logged)
      (Prog.perform (TxOp.setState txId state) >>= f) Post := by
  refine triple_step hD (fun _ v => Pre v.ledger v.logged ∧ v.state = some state) rfl ?_
    (fun _ => hf)
  rintro r v v' hsound hpre rfl -
  exact ⟨hsound, hpre, rfl⟩

theorem triple_write (record : WalRecord) (note : TxOp)
    (hrecord : record.txId = txId) (hnote : note.txId = some txId)
    (heffect : ∀ r v v', note.Effect r v v' → ∃ noted, v' = { v with noted := noted })
    {Pre : TxView → Prop}
    (Mid : Ledger → Option WalTransactionState → Option TransactionState → Prop)
    (h : ∀ v, Sound registry v.ledger v.logged → Pre v →
      Sound registry v.ledger (some (record.next v.logged)) ∧
        Mid v.ledger (some (record.next v.logged)) v.state)
    {f : note.Answer → TxProg α}
    (hf : ∀ a, TxTriple D i txId (fun v => Mid v.ledger v.logged v.state) (f a) Post) :
    TxTriple D i txId Pre
      (Prog.perform (TxOp.append record) >>= fun _ => Prog.perform note >>= f) Post := by
  refine triple_step hD (fun _ v => Mid v.ledger v.logged v.state) (congrArg some hrecord) ?_
    (fun _ => triple_step hD (fun _ v => Mid v.ledger v.logged v.state) hnote ?_ hf)
  · rintro r v v' hsound hpre rfl -
    exact h v hsound hpre
  · rintro r v v' hsound hmid heff -
    obtain ⟨noted, rfl⟩ := heffect r v v' heff
    exact ⟨hsound, hmid⟩

section

variable (hf : TxTriple D i txId QuietView (f ()) Post)

include hf

theorem triple_writeTxAbort : TxTriple D i txId QuietView (writeTxAbort txId >>= f) Post := by
  rw [writeTxAbort, Prog.bind_assoc]
  refine triple_write hD (.txAbort txId) (.insertTxState txId .aborted) rfl rfl
    (fun _ _ _ h => h) (fun l logged _ => Quiet l logged)
    (fun v hsound hquiet => ?_) (fun _ => hf)
  have hnext : Quiet v.ledger (some .aborted) :=
    { hquiet with settled := nofun, uncommitted := nofun }
  exact ⟨hnext.sound hsound.cooperative, hnext⟩

theorem triple_tellToRollback (ids : List ParticipantId) : TxTriple D i txId QuietView
      (tellToRollback registry txId ids >>= f) Post := by
  induction ids with
  | nil => exact hf
  | cons p rest ih =>
    unfold tellToRollback
    cases registry p with
    | none => exact ih
    | some durable =>
      refine triple_step hD (fun _ => QuietView) rfl ?_ (fun _ => ih)
      rintro r v v' hsound hquiet rfl hgood
      have hnext : Quiet { v.ledger with rollbackSent := p :: v.ledger.rollbackSent }
          v.logged := { hquiet with }
      exact ⟨hnext.sound hgood, hnext⟩

theorem triple_abort : TxTriple D i txId QuietView (abort registry txId ids >>= f) Post := by
  rw [abort, Prog.bind_assoc]
  refine triple_setState hD Quiet ?_
  exact (triple_tellToRollback hD hf ids).pre (fun v hv => hv.1)

end

theorem triple_writePrepares (hf : TxTriple D i txId
      (fun v => Ready registry ids v.ledger v.logged ∧ v.state = some .prepared) (f ()) Post)
    (rest done : List ParticipantId) (index : Nat) (hids : ids = done ++ rest)
    (hnodup : ids.Nodup) : TxTriple D i txId
      (fun v => Staged registry ids done v.ledger v.logged ∧ v.state = some .prepared)
      (writePrepares txId ids.length index rest >>= f) Post := by
  induction rest generalizing done index with
  | nil =>
    rw [append_nil] at hids
    subst hids
    exact hf.pre (fun v hv => ⟨hv.1.ready, hv.2⟩)
  | cons p rest ih =>
    have hids' : ids = (done ++ [p]) ++ rest := by
      rw [hids, append_assoc, singleton_append]
    have hnew : p ∉ done := by
      rw [hids', append_assoc] at hnodup
      have hdisjoint := (nodup_append.1 hnodup).2.2
      exact fun hmem => hdisjoint p hmem p (by simp) rfl
    rw [writePrepares, writeTxPrepare, Prog.bind_assoc, Prog.bind_assoc]
    refine triple_write hD (.txPrepare txId p ids.length)
      (.applyPrepareState txId p (index + 1) ids.length) rfl rfl (fun _ _ _ h => h)
      (fun l logged state => Staged registry ids (done ++ [p]) l logged ∧ state = some .prepared)
      (fun v hsound hpre => ?_) (fun _ => ih (done ++ [p]) (index + 1) hids')
    obtain ⟨hstaged, hstate⟩ := hpre
    have hnext : Staged registry ids (done ++ [p]) v.ledger
        (some ((WalRecord.txPrepare txId p ids.length).next v.logged)) := by
      refine { hstaged with logged := ?_ }
      rw [hstaged.logged, next_loggedAfter hnew]
    exact ⟨hnext.sound hids' hsound.cooperative, hnext, hstate⟩

theorem triple_lastAbort : TxTriple D i txId QuietView (writeTxAbort txId)
      Finished := by
  rw [← Prog.bind_ret (writeTxAbort txId)]
  exact triple_writeTxAbort hD (ret hD.parts (fun v hv => ⟨rfl, hv.settled⟩))

theorem triple_lastCommit (ids : List ParticipantId) :
    TxTriple D i txId (AppliedAt registry ids ids) (writeTxCommit txId)
      (fun r v => Finished r v ∧ v.logged = some .committed) := by
  rw [← Prog.bind_ret (writeTxCommit txId), writeTxCommit, Prog.bind_assoc]
  refine triple_write hD (.txCommit txId) (.insertTxState txId .committed) rfl rfl
    (fun _ _ _ h => h) (fun _ logged _ => logged = some .committed)
    (fun v hsound hpre => ⟨hsound.logCommit hpre.1 hpre.2, rfl⟩)
    (fun _ => ret hD.parts (fun v hv => ⟨⟨rfl, fun n ids h => ?_⟩, hv⟩))
  rw [hv] at h
  cases h

/-! ## Programs that may fail -/

theorem triple_askToPrepare (rest done : List ParticipantId) : TxTriple D i txId
      (fun v => Fresh ids v.ledger v.logged ∧ ∀ p ∈ done, p ∈ v.ledger.votedYes)
      (askToPrepare registry txId rest)
      (fun r v => Fresh ids v.ledger v.logged ∧
        (r = .ok () → ∀ p ∈ done ++ rest, p ∈ v.ledger.votedYes)) := by
  induction rest generalizing done with
  | nil =>
    refine ret hD.parts (fun v hv => ⟨hv.1, fun _ => ?_⟩)
    rw [append_nil]
    exact hv.2
  | cons p rest ih =>
    unfold askToPrepare
    cases registry p with
    | none => exact fail hD.parts (fun v hv => ⟨hv.1, nofun⟩)
    | some durable =>
      refine triple_step hD (fun r v => Fresh ids v.ledger v.logged ∧
        (r = .ok .yes → ∀ q ∈ done ++ [p], q ∈ v.ledger.votedYes)) rfl ?_ (fun reply => ?_)
      · rintro r v v' hsound ⟨hfresh, hvoted⟩ heffect hgood
        rcases heffect with ⟨rfl, rfl⟩ | ⟨hr, rfl⟩
        · have hnext : Fresh ids { v.ledger with votedYes := p :: v.ledger.votedYes }
              v.logged := { hfresh with }
          refine ⟨hnext.quiet.sound hgood, hnext, fun _ q hq => ?_⟩
          rcases mem_append.1 hq with hq | hq
          · exact mem_cons_of_mem p (hvoted q hq)
          · exact mem_cons.2 (.inl (mem_singleton.1 hq))
        · exact ⟨hsound, hfresh, fun h => absurd h hr⟩
      · rcases reply with error | vote
        · exact fail hD.parts (fun v hv => ⟨hv.1, nofun⟩)
        · cases vote with
          | no => exact fail hD.parts (fun v hv => ⟨hv.1, nofun⟩)
          | yes =>
            refine (ih (done ++ [p])).mono (fun v hv => ⟨hv.1, hv.2 rfl⟩)
              (fun r v hv => ⟨hv.1, fun hr q hq => hv.2 hr q ?_⟩)
            rwa [append_assoc]

theorem triple_prepare : TxTriple D i txId (FreshView ids) (prepare registry txId ids)
      (fun r v => Fresh ids v.ledger v.logged ∧
        (r = .ok () → v.state = some .prepared ∧ ∀ p ∈ ids, p ∈ v.ledger.votedYes)) := by
  refine triple_setState hD (Fresh ids) ?_
  refine bind _ ((triple_askToPrepare hD ids []).pre
    (fun v hv => ⟨hv.1, by simp⟩)) (fun _ => ?_) (fun e v hv => ⟨hv.1, nofun⟩)
  rw [← Prog.bind_ret (Prog.perform (TxOp.setState txId .prepared))]
  refine (triple_setState hD (fun l logged => Fresh ids l logged ∧ ∀ p ∈ ids, p ∈ l.votedYes)
    (ret hD.parts (fun v hv => ?_))).pre (fun v hv => ⟨hv.1, hv.2 rfl⟩)
  exact ⟨hv.1.1, fun _ => ⟨hv.2, hv.1.2⟩⟩

theorem triple_tellToCommit (rest done : List ParticipantId) (hids : ids = done ++ rest) :
    TxTriple D i txId (AppliedAt registry ids done) (tellToCommit registry txId rest)
      (fun r v => r = .ok () ∧ AppliedAt registry ids ids v) := by
  induction rest generalizing done with
  | nil =>
    rw [append_nil] at hids
    subst hids
    exact ret hD.parts (fun v hv => ⟨rfl, hv⟩)
  | cons p rest ih =>
    have hids' : ids = (done ++ [p]) ++ rest := by
      rw [hids, append_assoc, singleton_append]
    have hp : p ∈ ids := by
      rw [hids]
      simp
    unfold tellToCommit
    cases hreg : registry p with
    | none =>
      -- a participant of the list is registered
      refine fail hD.parts (fun v hv => ?_)
      rw [hv.1.agreed.durable p hp] at hreg
      cases hreg
    | some durable =>
      refine triple_step hD (fun r v => r = .ok () ∧ AppliedAt registry ids (done ++ [p]) v) rfl
        ?_ (fun reply => ?_)
      · rintro r v v' hsound ⟨hready, happlied⟩ heffect hgood
        rcases heffect with ⟨rfl, rfl⟩ | hrefused
        · refine ⟨hsound.commit hready hp, rfl, ?_, fun q hq => ?_⟩
          · exact ⟨hready.agreed.frame rfl rfl, hready.unrolled, hready.logged⟩
          · rcases mem_append.1 hq with hq | hq
            · exact mem_cons_of_mem p (happlied q hq)
            · exact mem_cons.2 (.inl (mem_singleton.1 hq))
        · rw [hgood.1] at hrefused
          cases hrefused
      · rcases reply with error | answer
        · refine fail hD.parts (fun v hv => ?_)
          cases hv.1
        · exact (ih (done ++ [p]) hids').pre (fun v hv => hv.2)

theorem triple_commitPrepared : TxTriple D i txId
      (fun v => Ready registry ids v.ledger v.logged ∧ v.state = some .prepared)
      (commitPrepared registry txId ids)
      (fun r v => r = .ok () ∧ AppliedAt registry ids ids v) := by
  refine triple_step hD (fun r v => r = some .prepared ∧ Ready registry ids v.ledger v.logged)
    rfl ?_ (fun state => ?_)
  · rintro r v v' hsound ⟨hready, hstate⟩ ⟨rfl, rfl⟩ -
    exact ⟨hsound, hstate, hready⟩
  by_cases hstate : state = some .prepared
  · rw [if_pos (.inl hstate), commitPhase, Prog.bind_assoc]
    refine (triple_setState hD (Ready registry ids) ?_).pre (fun v hv => hv.2)
    refine bind _ ((triple_tellToCommit hD ids [] rfl).pre
      (fun v hv => ⟨hv.1, by simp⟩)) (fun _ => ?_) (fun e v hv => ?_)
    · rw [← Prog.bind_ret (Prog.perform (TxOp.setState txId .committed))]
      refine (triple_setState hD (fun l logged => Ready registry ids l logged ∧
        ∀ p ∈ ids, p ∈ l.commitApplied) (ret hD.parts (fun v hv => ?_))).pre
        (fun v hv => hv.2)
      exact ⟨rfl, hv.1⟩
    · cases hv.1
  · intro s _ _ hv
    exact absurd hv.1 hstate

theorem triple_runPhases (hdurable : ∀ p ∈ ids, registry p = some true) :
    TxTriple D i txId (FreshView ids) (runPhases registry txId ids)
      (fun r v => (r = .ok () ∧ AppliedAt registry ids ids v) ∨
        ((∃ e, r = .error e) ∧ QuietView v)) := by
  by_cases hnodup : ids.Nodup
  · refine bind_attempt _ (triple_prepare hD) (fun r => ?_)
    rcases r with error | answer
    · refine (triple_abort hD ?_).pre (fun v hv => hv.1.quiet)
      exact fail hD.parts (fun v hv => .inr ⟨⟨_, rfl⟩, hv⟩)
    · refine (triple_writePrepares hD ?_ ids [] 0 rfl hnodup).pre (fun v hv => ?_)
      · exact (triple_commitPrepared hD).mono (fun _ hv => hv) (fun _ _ h => .inl h)
      · obtain ⟨hfresh, hok⟩ := hv
        obtain ⟨hstate, hvoted⟩ := hok rfl
        exact ⟨⟨⟨hfresh.listed, hdurable, hvoted⟩, hfresh.unsent, hfresh.unapplied,
          hfresh.unrolled, hfresh.unreturned, hfresh.logged⟩, hstate⟩
  · intro s hinv _ hv
    have hsound := ((hD.inv s).1 hinv).sound txId
    exact absurd (hsound.cooperative.2 ids hv.listed) hnodup

/-! ## The calls -/

theorem triple_commitTransaction : TxTriple D i txId (FreshView ids)
      (commitTransaction registry txId ids)
      (fun r v => Settled v.logged ∧ (r = .ok () → v.logged = some .committed)) := by
  unfold commitTransaction
  cases hensure : ensureDurableParticipants registry ids with
  | error e =>
    exact fail hD.parts (fun v hv => ⟨hv.quiet.settled, nofun⟩)
  | ok answer =>
    have hdurable := ensureDurableParticipants_eq_ok.1 hensure
    refine bind_attempt _ (triple_runPhases hD hdurable) (fun r => ?_)
    rcases r with error | answer
    · refine (triple_abort hD ?_).pre (fun v hv => ?_)
      · refine triple_writeTxAbort hD ?_
        exact fail hD.parts (fun v hv => ⟨hv.settled, nofun⟩)
      · rcases hv with ⟨hr, -⟩ | ⟨-, hquiet⟩
        · cases hr
        · exact hquiet
    · refine (triple_lastCommit hD ids).mono (fun v hv => ?_) (fun _ _ h => ⟨h.1.2, fun _ => h.2⟩)
      rcases hv with ⟨-, hready⟩ | ⟨⟨e, he⟩, -⟩
      · exact hready
      · cases he

theorem triple_recoverPrepared : TxTriple D i txId (fun v => Ready registry ids v.ledger v.logged)
      (recoverPrepared registry txId ids) Finished := by
  unfold recoverPrepared
  cases hensure : ensureDurableParticipants registry ids with
  | error e =>
    -- the participants were durable when the transaction was agreed
    intro s _ _ hready
    rw [ensureDurableParticipants_eq_ok.2 hready.agreed.durable] at hensure
    cases hensure
  | ok answer =>
    refine triple_setState hD (Ready registry ids) ?_
    refine bind_attempt _ (triple_commitPrepared hD) (fun r => ?_)
    rcases r with error | answer
    · intro s _ _ hv
      cases hv.1
    · exact (triple_lastCommit hD ids).mono (fun v hv => hv.2) (fun _ _ h => h.1)

theorem triple_recoverTransaction : TxTriple D i txId
      (fun v => v.noted = v.logged ∧ ∃ state, v.logged = some state ∧ isIncomplete state = true)
      (recoverTransaction registry txId) Finished := by
  refine triple_step hD (fun r v =>
    (∀ n ids, r = some (.prepared n ids) → Ready registry ids v.ledger v.logged) ∧
      (Settled r → Quiet v.ledger v.logged)) rfl ?_ (fun walState => ?_)
  · rintro r v v' hsound ⟨hnoted, state, hlogged, hincomplete⟩ ⟨rfl, rfl⟩ -
    rw [hnoted]
    refine ⟨hsound, fun n ids hlog => ?_, fun hsettled => hsound.quiet hsettled ?_⟩
    · refine ⟨hsound.prepared n ids hlog, ?_, fun _ _ => ⟨n, hlog⟩⟩
      by_contra hne
      exact (hsound.rolled hne).2.1 n ids hlog
    · intro hcommitted
      rw [hlogged] at hcommitted
      cases hcommitted
      cases hincomplete
  have hothers : ∀ {p : TxProg Unit}, Settled walState →
      TxTriple D i txId QuietView p Finished →
      TxTriple D i txId (fun v =>
        (∀ n ids, walState = some (.prepared n ids) → Ready registry ids v.ledger v.logged) ∧
          (Settled walState → Quiet v.ledger v.logged)) p Finished :=
    fun hsettled h => h.pre (fun v hv => hv.2 hsettled)
  have hdecided : TxTriple D i txId QuietView
      (Prog.perform (TxOp.setState txId .aborted) >>= fun _ => writeTxAbort txId)
      Finished :=
    triple_setState hD Quiet ((triple_lastAbort hD).pre (fun v hv => hv.1))
  rcases walState with _ | walState
  · exact hothers nofun (ret hD.parts (fun v hv => ⟨rfl, hv.settled⟩))
  cases walState with
  | prepared n ids =>
    exact (triple_recoverPrepared hD).pre (fun v hv => hv.1 n ids rfl)
  | preparing k n ids =>
    exact hothers nofun (triple_abort hD (triple_lastAbort hD))
  | begun | committed | aborted => exact hothers nofun hdecided

theorem triple_returned (ok : Bool) :
    TxTriple D i txId (fun v => Settled v.logged ∧ (ok = true → v.logged = some .committed))
      (Prog.perform (TxOp.returned txId ok)) (fun _ v => Settled v.logged) := by
  rw [← Prog.bind_ret (Prog.perform (TxOp.returned txId ok))]
  refine triple_step hD (fun _ v => Settled v.logged) rfl ?_
    (fun _ => ret hD.parts (fun _ hv => hv))
  rintro r v v' hsound ⟨hsettled, hok⟩ rfl -
  exact ⟨hsound.answered hok, hsettled⟩

theorem triple_endTransaction (request : Request) :
    TxTriple D i txId (fun v => Quiet v.ledger v.logged ∧ v.ledger.rollbackSent = [] ∧
        v.logged = some .begun)
      (endTransaction registry txId request) (fun _ v => Settled v.logged) := by
  cases request with
  | leave => exact ret hD.parts (fun v hv => hv.1.settled)
  | rollback ids =>
    exact (triple_abort hD (triple_lastAbort hD)).mono (fun v hv => hv.1) (fun _ _ h => h.2)
  | commit ids =>
    refine triple_step hD (fun _ => FreshView ids) rfl ?_ (fun _ => ?_)
    · rintro r v v' hsound ⟨hquiet, hunrolled, hbegun⟩ rfl hgood
      have hfresh : Fresh ids { v.ledger with listed := some ids } v.logged :=
        ⟨rfl, hquiet.unsent, hquiet.unapplied, hunrolled, hquiet.unreturned, hbegun⟩
      exact ⟨hfresh.quiet.sound hgood, hfresh⟩
    · refine bind_attempt _ (triple_commitTransaction hD) (fun r => ?_)
      rcases r with error | answer
      · exact (triple_returned hD false).pre (fun v hv => ⟨hv.1, nofun⟩)
      · exact (triple_returned hD true).pre (fun v hv => ⟨hv.1, fun _ => hv.2 rfl⟩)

theorem triple_begun (request : Request) :
    TxTriple D i txId (fun v => Quiet v.ledger v.logged ∧ v.ledger.rollbackSent = [])
      (Prog.perform (TxOp.setState txId .initialized) >>= fun _ =>
        writeTxBegin txId >>= fun _ => endTransaction registry txId request)
      (fun _ v => Settled v.logged) := by
  refine triple_setState hD (fun l logged => Quiet l logged ∧ l.rollbackSent = []) ?_
  rw [writeTxBegin, Prog.bind_assoc]
  refine triple_write hD (.txBegin txId) (.insertTxState txId .begun) rfl rfl (fun _ _ _ h => h)
    (fun l logged _ => Quiet l logged ∧ l.rollbackSent = [] ∧ logged = some .begun)
    (fun v hsound hv => ?_) (fun _ => triple_endTransaction hD request)
  obtain ⟨⟨hquiet, hunrolled⟩, -⟩ := hv
  have hnext : Quiet v.ledger (some .begun) :=
    { hquiet with settled := nofun, uncommitted := nofun }
  exact ⟨hnext.sound hsound.cooperative, hnext, hunrolled, rfl⟩

end Programs

end ProximaDb.Transaction
