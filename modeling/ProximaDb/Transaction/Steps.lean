/-
  ProximaDb.Transaction.Steps

  What one step does to a transaction. Every operation but the id counter and the log's read is
  about one transaction (`TxOp.Effect`), which only its client or the recovery touches.
-/
import ProximaDb.Transaction.TwoPhaseCommit

namespace ProximaDb.Transaction

open ProximaDb.Lib World

/-! ## One transaction -/

/-- What the world holds about one transaction. -/
structure TxView where
  ledger : Ledger
  /-- its state as the log will be read back -/
  logged : Option WalTransactionState
  state : Option TransactionState
  noted : Option WalTransactionState

def World.view {ι : Type} (w : World ι) (txId : TransactionId) : TxView where
  ledger := w.ledger txId
  logged := (replay w.wal).lookup txId
  state := w.transactions.lookup txId
  noted := w.txStates.lookup txId

def txParts (ι : Type) : Parts ι (World ι) TransactionId TxView where
  view := World.view
  owner := World.owner

def TxOp.txId : TxOp → Option TransactionId
  | .setState txId _ => some txId
  | .getState txId => some txId
  | .prepare txId _ => some txId
  | .commit txId _ => some txId
  | .rollback txId _ => some txId
  | .append record => some record.txId
  | .insertTxState txId _ => some txId
  | .applyPrepareState txId _ _ _ => some txId
  | .getTxState txId => some txId
  | .called txId _ => some txId
  | .returned txId _ => some txId
  | .generateTxId => none
  | .getIncompleteTransactions => none
  | .readWal => none

/-- What an operation answers and makes of its transaction. -/
def TxOp.Effect : (o : TxOp) → o.Answer → TxView → TxView → Prop
  | .setState _ state, _, v, v' => v' = { v with state := some state }
  | .getState _, r, v, v' => v' = v ∧ r = v.state
  | .prepare _ p, r, v, v' =>
    (r = .ok .yes ∧
      v' = { v with ledger := { v.ledger with votedYes := p :: v.ledger.votedYes } }) ∨
    (r ≠ .ok .yes ∧ v' = v)
  | .commit _ p, r, v, v' =>
    (r = .ok () ∧
      v' = { v with ledger := { v.ledger with
        commitSent := p :: v.ledger.commitSent
        commitApplied := p :: v.ledger.commitApplied } }) ∨
    p ∈ v'.ledger.commitRefused
  | .rollback _ p, _, v, v' =>
    v' = { v with ledger := { v.ledger with rollbackSent := p :: v.ledger.rollbackSent } }
  | .append record, _, v, v' => v' = { v with logged := some (record.next v.logged) }
  | .insertTxState _ _, _, v, v' => ∃ noted, v' = { v with noted := noted }
  | .applyPrepareState _ _ _ _, _, v, v' => ∃ noted, v' = { v with noted := noted }
  | .getTxState _, r, v, v' => v' = v ∧ r = v.noted
  | .called _ ids, _, v, v' => v' = { v with ledger := { v.ledger with listed := some ids } }
  | .returned _ ok, _, v, v' => v' = { v with ledger := { v.ledger with returnedOk := ok } }
  | .generateTxId, _, _, _ => False
  | .getIncompleteTransactions, _, _, _ => False
  | .readWal, _, _, _ => False

section Effects

variable {ι : Type} {w : World ι} {txId : TransactionId} {txStates : WalStates}

theorem touches_setLedger (f : Ledger → Ledger) :
    (txParts ι).Touches txId w (w.setLedger txId f) := by
  refine ⟨rfl, fun tx hne => ?_⟩
  show view _ tx = view w tx
  simp only [view, setLedger, Store.ledger, AList.lookup_insert_ne hne]

theorem view_setLedger (f : Ledger → Ledger) :
    (w.setLedger txId f).view txId = { w.view txId with ledger := f (w.ledger txId) } := by
  simp only [view, setLedger, Store.ledger, AList.lookup_insert, Option.getD_some]

theorem touches_txStates (h : ∀ tx, tx ≠ txId → txStates.lookup tx = w.txStates.lookup tx) :
    (txParts ι).Touches txId w { w with txStates := txStates } := by
  refine ⟨rfl, fun tx hne => ?_⟩
  show view _ tx = view w tx
  simp only [view, h tx hne]

theorem respond_effect [DecidableEq ι] {i : ι} {o : TxOp} {c : Reply} {r : o.Answer} {u : World ι}
    (h : respond i w o c = some (r, u)) (ho : o.txId = some txId) :
    (txParts ι).Touches txId w u ∧ u.nextTxId = w.nextTxId ∧
      o.Effect r (w.view txId) (u.view txId) := by
  cases o with
  | generateTxId | getIncompleteTransactions | readWal => cases ho
  | setState tx state =>
    cases ho
    cases h
    refine ⟨⟨rfl, fun tx hne => ?_⟩, rfl, ?_⟩
    · show view _ tx = view w tx
      simp only [view, AList.lookup_insert_ne hne]
    · simp only [TxOp.Effect, view, AList.lookup_insert]
  | getState | getTxState =>
    cases ho
    cases h
    exact ⟨⟨rfl, fun _ _ => rfl⟩, rfl, rfl, rfl⟩
  | prepare tx p =>
    cases ho
    cases c with
    | yes =>
      cases h
      exact ⟨touches_setLedger _, rfl, .inl ⟨rfl, view_setLedger _⟩⟩
    | no | failed =>
      cases h
      exact ⟨⟨rfl, fun _ _ => rfl⟩, rfl, .inr ⟨by simp, rfl⟩⟩
    | done | order => cases h
  | commit tx p =>
    cases ho
    cases c with
    | done =>
      cases h
      exact ⟨touches_setLedger _, rfl, .inl ⟨rfl, view_setLedger _⟩⟩
    | failed text =>
      cases h
      refine ⟨touches_setLedger _, rfl, .inr ?_⟩
      rw [view_setLedger]
      exact List.mem_cons_self
    | yes | no | order => cases h
  | rollback tx p =>
    cases ho
    cases c with
    | done | failed =>
      cases h
      exact ⟨touches_setLedger _, rfl, view_setLedger _⟩
    | yes | no | order => cases h
  | append record =>
    cases ho
    cases h
    refine ⟨⟨rfl, fun tx hne => ?_⟩, rfl, ?_⟩
    · show view _ tx = view w tx
      simp only [view, Store.ledger, replay_concat, lookup_applyRecord, if_neg hne]
    · simp only [TxOp.Effect, view, Store.ledger, replay_concat, lookup_applyRecord, if_true]
  | insertTxState tx state =>
    cases ho
    cases h
    exact ⟨touches_txStates (fun _ hne => AList.lookup_insert_ne hne), rfl, _, rfl⟩
  | applyPrepareState tx p preparedCount totalCount =>
    cases ho
    cases h
    refine ⟨touches_txStates (fun _ hne => ?_), rfl, _, rfl⟩
    unfold Transaction.applyPrepareState
    split_ifs <;> exact AList.lookup_insert_ne hne
  | called | returned =>
    cases ho
    cases h
    exact ⟨touches_setLedger _, rfl, view_setLedger _⟩

end Effects

/-! ## The invariant -/

/-- No commit has failed, and the list names no participant twice. -/
def Ledger.Cooperative (l : Ledger) : Prop :=
  l.commitRefused = [] ∧ ∀ ids ∈ l.listed, ids.Nodup

instance (l : Ledger) : Decidable l.Cooperative :=
  inferInstanceAs (Decidable (l.commitRefused = [] ∧ ∀ ids ∈ l.listed, ids.Nodup))

def Store.Cooperative (d : Store) : Prop := ∀ txId, (d.ledger txId).Cooperative

/-- Every participant of the list is durable and voted yes. -/
structure Agreed (registry : Registry) (l : Ledger) (ids : List ParticipantId) : Prop where
  listed : l.listed = some ids
  durable : ∀ p ∈ ids, registry p = some true
  voted : ∀ p ∈ ids, p ∈ l.votedYes

/-- A restart would not commit the transaction. -/
def Settled (logged : Option WalTransactionState) : Prop :=
  ∀ n ids, logged ≠ some (.prepared n ids)

/-- What holds of a transaction at every step. -/
structure Sound (registry : Registry) (l : Ledger) (logged : Option WalTransactionState) : Prop where
  cooperative : l.Cooperative
  applied : l.commitApplied = l.commitSent
  sent : l.commitSent ≠ [] → ∃ ids, Agreed registry l ids ∧
    (logged = some .committed ∨ ∃ n, logged = some (.prepared n ids))
  rolled : l.rollbackSent ≠ [] →
    l.commitSent = [] ∧ Settled logged ∧ logged ≠ some .committed
  prepared : ∀ n ids, logged = some (.prepared n ids) → Agreed registry l ids
  committed : logged = some .committed →
    ∃ ids, Agreed registry l ids ∧ ∀ p ∈ ids, p ∈ l.commitApplied
  returned : l.returnedOk = true → logged = some .committed

/-- A transaction that nobody was told to commit and that is not decided. -/
structure Quiet (l : Ledger) (logged : Option WalTransactionState) : Prop where
  unsent : l.commitSent = []
  unapplied : l.commitApplied = []
  unreturned : l.returnedOk = false
  settled : Settled logged
  uncommitted : logged ≠ some .committed

variable {registry : Registry} {logged : Option WalTransactionState} {l : Ledger}

theorem Quiet.sound (h : Quiet l logged) (hgood : l.Cooperative) : Sound registry l logged where
  cooperative := hgood
  applied := h.unapplied.trans h.unsent.symm
  sent hne := absurd h.unsent hne
  rolled _ := ⟨h.unsent, h.settled, h.uncommitted⟩
  prepared n ids hlog := absurd hlog (h.settled n ids)
  committed hlog := absurd hlog h.uncommitted
  returned hok := by
    rw [h.unreturned] at hok
    cases hok

theorem Sound.quiet
    (h : Sound registry l logged) (hsettled : Settled logged) (hopen : logged ≠ some .committed) :
    Quiet l logged := by
  have hunsent : l.commitSent = [] := by
    by_contra hne
    obtain ⟨ids, -, hlog | ⟨n, hlog⟩⟩ := h.sent hne
    · exact hopen hlog
    · exact hsettled n ids hlog
  refine ⟨hunsent, h.applied.trans hunsent, ?_, hsettled, hopen⟩
  cases hok : l.returnedOk with
  | false => rfl
  | true => exact absurd (h.returned hok) hopen

structure Inv (registry : Registry) {ι : Type} (w : World ι) : Prop where
  sound : ∀ txId, Sound registry (w.view txId).ledger (w.view txId).logged
  unused : ∀ txId, w.nextTxId ≤ txId →
    w.ledger txId = .blank ∧ (w.view txId).logged = none ∧ w.owner txId = none
  settled : ∀ txId, w.owner txId = none → Settled (w.view txId).logged

theorem Inv.touches {ι : Type} {w u : World ι} {txId : TransactionId} {i : ι}
    (h : Inv registry w) (hown : w.owner txId = some i) (htouches : (txParts ι).Touches txId w u)
    (hnext : u.nextTxId = w.nextTxId)
    (hsound : Sound registry (u.view txId).ledger (u.view txId).logged) : Inv registry u := by
  have howner : u.owner = w.owner := htouches.owner
  have hview : ∀ tx, tx ≠ txId → u.view tx = w.view tx := htouches.view
  have hother : ∀ tx, w.owner tx = none → tx ≠ txId := by
    rintro tx hnone rfl
    rw [hown] at hnone
    cases hnone
  refine ⟨fun tx => ?_, fun tx htx => ?_, fun tx hnone => ?_⟩
  · by_cases heq : tx = txId
    · rw [heq]
      exact hsound
    · rw [hview tx heq]
      exact h.sound tx
  · rw [hnext] at htx
    obtain ⟨hblank, hlogged, hnone⟩ := h.unused tx htx
    have heq := hview tx (hother tx hnone)
    refine ⟨(congrArg TxView.ledger heq).trans hblank, ?_, by rw [howner]; exact hnone⟩
    rw [heq]
    exact hlogged
  · rw [howner] at hnone
    rw [hview tx (hother tx hnone)]
    exact h.settled tx hnone

/-! ## Triples -/

/-- The steps of the system that keep the condition. -/
noncomputable def goodSystem (ι : Type) [DecidableEq ι] :
    System ι (World ι) TxOp TxOp.Answer Reply :=
  (txSystem ι).within (fun w => w.toStore.Cooperative)

section Triples

variable {ι : Type} [DecidableEq ι] {registry : Registry} {D : Discipline ι (World ι)} {i : ι}
  {txId : TransactionId} {α : Type} {Pre : TxView → Prop}
  {Post : Except TransactionError α → TxView → Prop}

def TxTriple (D : Discipline ι (World ι)) (i : ι) (txId : TransactionId) (Pre : TxView → Prop)
    (p : TxProg α) (Post : Except TransactionError α → TxView → Prop) : Prop :=
  (txParts ι).Triple (goodSystem ι) D i txId Pre p Post

/-- A discipline with the invariant, in which a transaction belongs to its owner. -/
structure Governed (registry : Registry) (D : Discipline ι (World ι)) : Prop where
  parts : (txParts ι).Governs D
  inv : ∀ w, D.inv w ↔ Inv registry w

theorem triple_step (hD : Governed registry D) {o : TxOp} {f : o.Answer → TxProg α}
    (Mid : o.Answer → TxView → Prop) (ho : o.txId = some txId)
    (h : ∀ r v v', Sound registry v.ledger v.logged → Pre v → o.Effect r v v' →
      v'.ledger.Cooperative → Sound registry v'.ledger v'.logged ∧ Mid r v')
    (hf : ∀ r, TxTriple D i txId (Mid r) (f r) Post) :
    TxTriple D i txId Pre (Prog.perform o >>= f) Post := by
  refine Parts.Triple.bind (fun r v => ∃ a, r = .ok a ∧ Mid a v)
    (Parts.Triple.perform hD.parts (fun s c r u hinv hown hpre hr => ?_)) (fun r => ?_)
    (fun e v hv => ?_)
  · obtain ⟨hr, hgood⟩ := System.respond_within.1 hr
    obtain ⟨htouches, hnext, heffect⟩ := respond_effect hr ho
    have hinv := (hD.inv s).1 hinv
    obtain ⟨hsound, hmid⟩ := h r _ _ (hinv.sound txId) hpre heffect (hgood txId)
    exact ⟨htouches, (hD.inv u).2 (hinv.touches hown htouches hnext hsound), r, rfl, hmid⟩
  · refine (hf r).pre (fun v hv => ?_)
    obtain ⟨a, ha, hmid⟩ := hv
    cases ha
    exact hmid
  · obtain ⟨a, ha, -⟩ := hv
    cases ha

end Triples

end ProximaDb.Transaction
