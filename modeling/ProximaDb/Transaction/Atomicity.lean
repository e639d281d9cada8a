/-
  ProximaDb.Transaction.Atomicity

  Cross-model commit is atomic as long as no participant's commit fails and no list names a
  participant twice, over every number of clients, crashes and recoveries. Where a commit fails
  the coordinator rolls back participants that other participants have already gone ahead of.
-/
import ProximaDb.Transaction.Phases

namespace ProximaDb.Transaction

open ProximaDb.Lib Option Function Parts

variable {registry : Registry} {w : World Unit}

/-! ## A recovery -/

/-- The recovery settles the transactions it takes up and leaves the others alone. -/
theorem meets_recoverEach (txIds : List TransactionId) (hnodup : txIds.Nodup)
    (hinv : Inv registry w)
    (h : ∀ txId ∈ txIds, w.owner txId = some () ∧ (w.view txId).noted = (w.view txId).logged ∧
      ∃ state, (w.view txId).logged = some state ∧ isIncomplete state = true) :
    Meets (goodSystem Unit) (alone (World Unit) (Inv registry)) ()
      (fun r u => r = .ok () ∧ ∀ txId, (u.owner txId = some () ↔ w.owner txId = some ()) ∧
        (txId ∈ txIds → Settled (u.view txId).logged) ∧
        (txId ∉ txIds → w.owner txId = some () → u.view txId = w.view txId))
      (recoverEach registry txIds) w := by
  induction txIds generalizing w with
  | nil =>
    rintro u ⟨-, rfl⟩ -
    exact ⟨rfl, fun txId => ⟨Iff.rfl, fun hmem => absurd hmem List.not_mem_nil, fun _ _ => rfl⟩⟩
  | cons tx rest ih =>
    obtain ⟨hfirst, hrest⟩ := List.forall_mem_cons.1 h
    obtain ⟨hnew, hnodup⟩ := List.nodup_cons.1 hnodup
    refine Meets.bind ((triple_recoverTransaction ⟨governs_alone _ _, fun _ => Iff.rfl⟩ w hinv hfirst.1
      hfirst.2).mono (fun r u hinvu hu => ?_))
    obtain ⟨hframe, rfl, hsettled⟩ := hu
    -- the rest of the list is as it was before this transaction
    have hother : ∀ txId, w.owner txId = some () → txId ≠ tx →
        u.view txId = w.view txId := fun txId hown hne => (hframe txId).2 hown hne
    have howner : ∀ txId, u.owner txId = some () ↔ w.owner txId = some () :=
      fun txId => (hframe txId).1
    refine (ih hnodup hinvu (fun txId hmem => ?_)).mono (fun r v _ hv => ⟨hv.1, ?_⟩)
    · have hne : txId ≠ tx := fun heq => hnew (heq ▸ hmem)
      obtain ⟨hown, hnoted⟩ := hrest txId hmem
      rw [hother txId hown hne]
      exact ⟨(howner txId).2 hown, hnoted⟩
    · intro txId
      obtain ⟨hownv, hin, hout⟩ := hv.2 txId
      refine ⟨hownv.trans (howner txId), fun hmem => ?_, fun hmem hown => ?_⟩
      · rcases List.mem_cons.1 hmem with rfl | hmem
        · rw [hout hnew ((howner txId).2 hfirst.1)]
          exact hsettled
        · exact hin hmem
      · rw [hout (fun hmem' => hmem (List.mem_cons_of_mem tx hmem')) ((howner txId).2 hown)]
        exact hother txId hown (fun heq => hmem (heq ▸ List.mem_cons_self))

theorem meets_initializeCoordinator (hinv : Inv registry w)
    (hown : ∀ txId, txId < w.nextTxId → w.owner txId = some ()) :
    Meets (goodSystem Unit) (alone (World Unit) (Inv registry)) ()
      (fun r u => r = .ok () ∧ ∀ txId, Settled (u.view txId).logged)
      (initializeCoordinator registry) w := by
  refine Meets.perform_within ?_
  rintro t ⟨-, rfl⟩ - c r u hr -
  cases hr
  have hinvu : Inv registry { t with txStates := replay t.wal } := { hinv with }
  refine ⟨⟨hinvu, trivial, fun j hj => absurd rfl hj⟩, Meets.perform_within ?_⟩
  rintro t' ⟨-, rfl⟩ - c txIds u hr -
  cases c with
  | order order =>
    replace hr : (if order.Perm (incompleteTransactions (replay t.wal)) then
        some (order, ({ t with txStates := replay t.wal } : World Unit)) else none) =
          some (txIds, u) := hr
    split_ifs at hr with hperm
    cases hr
    refine ⟨⟨hinvu, trivial, fun j hj => absurd rfl hj⟩, ?_⟩
    have hnodup : txIds.Nodup := hperm.nodup_iff.2 (nodup_incompleteTransactions _)
    have hmem : ∀ txId, txId ∈ txIds ↔ ∃ state, (t.view txId).logged = some state ∧
        isIncomplete state = true :=
      fun txId => hperm.mem_iff.trans mem_incompleteTransactions
    refine (meets_recoverEach txIds hnodup hinvu (fun txId htx => ?_)).mono
      (fun r u hinvu hu => ⟨hu.1, fun txId => ?_⟩)
    · obtain ⟨state, hlogged, hincomplete⟩ := (hmem txId).1 htx
      refine ⟨hown txId (Nat.lt_of_not_le (fun hle => ?_)), rfl, state, hlogged, hincomplete⟩
      rw [(hinv.unused txId hle).2.1] at hlogged
      cases hlogged
    · obtain ⟨howner, hin, hout⟩ := hu.2 txId
      by_cases htx : txId ∈ txIds
      · exact hin htx
      cases hownu : u.owner txId with
      | none => exact hinvu.settled txId hownu
      | some _ =>
        rw [hout htx (howner.1 hownu)]
        intro n ids hlogged
        exact htx ((hmem txId).2 ⟨_, hlogged, rfl⟩)
  | yes | no | done => cases hr
  | failed text => cases hr

/-! ## Clients -/

section Clients

variable {ι : Type}

/-- A transaction id is given out once, to a client that then owns its transaction. -/
theorem Inv.generateTxId {w : World ι} (h : Inv registry w) (i : ι) :
    ((txParts ι).shared (Inv registry)).Keeps i w { w with
      nextTxId := w.nextTxId + 1
      owner := update w.owner w.nextTxId (some i) } := by
  obtain ⟨-, -, hnone⟩ := h.unused w.nextTxId le_rfl
  refine ⟨⟨h.sound, fun txId hle => ?_, fun txId hown => ?_⟩, trivial, fun j hj txId => ?_⟩
  · obtain ⟨hblank, hlogged, hown⟩ := h.unused txId (Nat.le_of_succ_le hle)
    have hne : txId ≠ w.nextTxId := Nat.ne_of_gt hle
    exact ⟨hblank, hlogged, (update_of_ne hne _ _).trans hown⟩
  · by_cases heq : txId = w.nextTxId
    · subst heq
      exact h.settled _ hnone
    · exact h.settled txId ((update_of_ne heq _ _).symm.trans hown)
  · refine ⟨?_, fun _ => rfl⟩
    show update w.owner w.nextTxId (some i) txId = some j ↔ w.owner txId = some j
    by_cases heq : txId = w.nextTxId
    · subst heq
      rw [update_self, hnone]
      constructor
      · intro hij
        exact absurd (some.inj hij).symm hj
      · intro hij
        cases hij
    · rw [update_of_ne heq]

theorem meets_client [DecidableEq ι] {w : World ι} {i : ι} (hnone : ∀ txId, w.owner txId ≠ some i)
    (request : Request) : Meets (goodSystem ι) ((txParts ι).shared (Inv registry)) i
      (fun _ u => ∀ txId, u.owner txId = some i → Settled (u.view txId).logged)
      (client registry request) w := by
  show Meets _ _ _ _ (Prog.perform TxOp.generateTxId >>= fun txId =>
    Prog.perform (TxOp.setState txId .initialized) >>= fun _ =>
      writeTxBegin txId >>= fun _ => endTransaction registry txId request) w
  refine Meets.perform_within (fun t hwt hinv c txId u hr _ => ?_)
  cases hr
  have hkeeps := hinv.generateTxId i
  refine ⟨hkeeps, ?_⟩
  obtain ⟨hblank, hlogged, -⟩ := Inv.unused hinv t.nextTxId le_rfl
  have hquiet : Quiet (t.ledger t.nextTxId) (t.view t.nextTxId).logged := by
    rw [hblank, hlogged]
    exact ⟨rfl, rfl, rfl, nofun, nofun⟩
  have hunrolled : (t.ledger t.nextTxId).rollbackSent = [] := by
    rw [hblank]
    rfl
  refine (triple_begun ⟨governs_shared _ _, fun _ => Iff.rfl⟩ request _ hkeeps.1 (update_self _ _ _)
    ⟨hquiet, hunrolled⟩).mono (fun r v _ hv txId hown => ?_)
  -- the client owns no other transaction
  have hown' := (hv.1 txId).1.1 hown
  by_cases heq : txId = t.nextTxId
  · subst heq
    exact hv.2
  · have hownt : t.owner txId = some i := (update_of_ne heq _ _).symm.trans hown'
    exact absurd ((hwt.2 txId).1.1 hownt) (hnone txId)

end Clients

/-! ## Runs -/

/-- What a crash leaves is sound, and no id at or beyond the clock is in use. -/
structure Store.Sound (registry : Registry) (d : Store) : Prop where
  sound : ∀ txId, Transaction.Sound registry (d.ledger txId) ((replay d.wal).lookup txId)
  unused : ∀ txId, d.nextTxId ≤ txId →
    d.ledger txId = .blank ∧ (replay d.wal).lookup txId = none

theorem Inv.store {ι : Type} {w : World ι} (h : Inv registry w) : w.toStore.Sound registry where
  sound := h.sound
  unused txId hle := ⟨(h.unused txId hle).1, (h.unused txId hle).2.1⟩

theorem Store.sound_fresh (registry : Registry) : Store.fresh.Sound registry where
  sound _ := by
    refine Quiet.sound ⟨rfl, rfl, rfl, fun _ _ h => ?_, fun h => ?_⟩ ⟨rfl, fun _ h => ?_⟩
    · cases h
    · cases h
    · cases h
  unused _ _ := ⟨rfl, rfl⟩

variable {d : Store} {logged : Option WalTransactionState} {l : Ledger}

theorem Store.Sound.inv_recovering (h : d.Sound registry) {seed : TransactionId}
    (hseed : d.nextTxId ≤ seed) : Inv registry (recovering registry d seed).shared where
  sound := h.sound
  unused txId hle := by
    obtain ⟨hblank, hlogged⟩ := h.unused txId (le_trans hseed hle)
    exact ⟨hblank, hlogged, if_neg (Nat.not_lt.2 hle)⟩
  settled txId hown := by
    have hle : seed ≤ txId := by
      by_contra hlt
      have hsome : (recovering registry d seed).shared.owner txId = some () :=
        if_pos (Nat.lt_of_not_le hlt)
      rw [hsome] at hown
      cases hown
    intro n ids hlogged
    cases (h.unused txId (le_trans hseed hle)).2.symm.trans hlogged

theorem Store.Sound.recovers (h : d.Sound registry) {q : TxPool Unit}
    (hq : Recovers registry Store.Cooperative d q) : Inv registry q.shared ∧
      ∀ r, (q.procs ()).outcome = some r → ∀ txId, Settled (q.shared.view txId).logged := by
  obtain ⟨seed, hseed, hsteps⟩ := hq
  have hreaches := ReachesWithin.reaches hsteps
  have hinv := h.inv_recovering hseed
  have hmeets : ∀ i : Unit, Meets (goodSystem Unit) (alone (World Unit) (Inv registry)) i
      (fun r u => r = .ok () ∧ ∀ txId, Settled (u.view txId).logged)
      ((recovering registry d seed).procs i) (recovering registry d seed).shared :=
    fun _ => meets_initializeCoordinator hinv (fun txId hlt => if_pos hlt)
  have hdrift : (alone (World Unit) (Inv registry)).AllowsDrift (goodSystem Unit) := by
    intro s c s' _ hs
    cases (System.drift_within.1 hs).1
  exact ⟨(hreaches.meets hdrift hinv hmeets).1,
    fun r hr => (hreaches.outcome hdrift hinv hmeets hr).2⟩

theorem Store.Sound.serves (h : d.Sound registry) {ι : Type} [DecidableEq ι]
    {p : TxPool ι} (hp : Serves registry Store.Cooperative d p) :
    Inv registry p.shared ∧ ((∀ i, (p.procs i).outcome.isSome) →
      ∀ txId, Settled (p.shared.view txId).logged) := by
  obtain ⟨q, requests, hq, hdone, hsteps⟩ := hp
  obtain ⟨hinvq, hsettled⟩ := h.recovers hq
  have hreaches := ReachesWithin.reaches hsteps
  have hinv : Inv registry (serving registry q.shared requests).shared :=
    ⟨hinvq.sound, fun txId hle => ⟨(hinvq.unused txId hle).1, (hinvq.unused txId hle).2.1, rfl⟩,
      fun txId _ => hsettled _ hdone txId⟩
  have hmeets : ∀ i, Meets (goodSystem ι) ((txParts ι).shared (Inv registry)) i
      (fun _ u => ∀ txId, u.owner txId = some i → Settled (u.view txId).logged)
      ((serving registry q.shared requests).procs i) (serving registry q.shared requests).shared :=
    fun i => meets_client (fun _ h => by cases h) (requests i)
  have hdrift : ((txParts ι).shared (Inv registry)).AllowsDrift (goodSystem ι) := by
    intro s c s' _ hs
    cases (System.drift_within.1 hs).1
  have hinvp := (hreaches.meets hdrift hinv hmeets).1
  refine ⟨hinvp, fun hends txId => ?_⟩
  cases hown : p.shared.owner txId with
  | none => exact hinvp.settled txId hown
  | some i =>
    obtain ⟨r, hr⟩ := isSome_iff_exists.1 (hends i)
    exact hreaches.outcome hdrift hinv hmeets hr txId hown

theorem Reached.sound (h : Reached registry Store.Cooperative d) : d.Sound registry := by
  induction h with
  | fresh => exact Store.sound_fresh registry
  | recovering _ hq ih => exact (ih.recovers hq).1.store
  | serving _ hp ih => exact (ih.serves hp).1.store

theorem Over.settled (h : Over registry Store.Cooperative d) :
    d.Sound registry ∧ ∀ txId, Settled ((replay d.wal).lookup txId) := by
  cases h with
  | recovered hd hq hdone =>
    obtain ⟨hinv, hsettled⟩ := hd.sound.recovers hq
    obtain ⟨r, hr⟩ := isSome_iff_exists.1 hdone
    exact ⟨hinv.store, hsettled r hr⟩
  | served hd hp hdone =>
    obtain ⟨hinv, hsettled⟩ := hd.sound.serves hp
    exact ⟨hinv.store, hsettled hdone⟩

/-! ## Atomicity -/

/-- Only what every participant of the list voted for is told to commit; an answer `Ok` means that
    every one of them has; and a participant that has committed is not joined by one that was told
    to roll back. -/
def Ledger.Agrees (l : Ledger) : Prop :=
  (l.commitSent ≠ [] → ∃ ids, l.listed = some ids ∧ ∀ p ∈ ids, p ∈ l.votedYes) ∧
  (l.returnedOk = true → ∃ ids, l.listed = some ids ∧ ∀ p ∈ ids, p ∈ l.commitApplied) ∧
  (l.commitApplied ≠ [] → l.rollbackSent = [])

/-- If one participant has committed, every one of the list was told to and has. -/
def Ledger.Whole (l : Ledger) : Prop :=
  l.commitApplied ≠ [] →
    ∃ ids, l.listed = some ids ∧ ∀ p ∈ ids, p ∈ l.commitSent ∧ p ∈ l.commitApplied

theorem Sound.agrees (h : Sound registry l logged) : l.Agrees := by
  refine ⟨fun hsent => ?_, fun hok => ?_, fun happlied => ?_⟩
  · obtain ⟨ids, hagreed, -⟩ := h.sent hsent
    exact ⟨ids, hagreed.listed, hagreed.voted⟩
  · obtain ⟨ids, hagreed, happlied⟩ := h.committed (h.returned hok)
    exact ⟨ids, hagreed.listed, happlied⟩
  · by_contra hrolled
    rw [h.applied] at happlied
    exact happlied (h.rolled hrolled).1

theorem Sound.whole (h : Sound registry l logged) (hsettled : Settled logged) : l.Whole := by
  intro happlied
  rw [h.applied] at happlied
  obtain ⟨_, -, hlogged | ⟨n, hlogged⟩⟩ := h.sent happlied
  · obtain ⟨ids, hagreed, hall⟩ := h.committed hlogged
    refine ⟨ids, hagreed.listed, fun p hp => ⟨?_, hall p hp⟩⟩
    rw [← h.applied]
    exact hall p hp
  · exact absurd hlogged (hsettled n _)

def Store.test (ok : Ledger → Bool) (d : Store) : Bool := d.ledgers.entries.all (fun e => ok e.2)

section Played

variable {ok : Ledger → Bool} {Good : Store → Prop} (hgood : ∀ d : Store, d.test ok = true → Good d)
  {d : Store} {seed : TransactionId} {replies : List Reply} {q p : TxPool Unit}

include hgood

end Played

end ProximaDb.Transaction
