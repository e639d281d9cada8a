/-
  ProximaDb.Transaction.DecisionLog

  The transaction log as a file. A record is appended as its bincode bytes, with no length and no
  checksum; a start reads records off the front until the bytes end, and leaves the file as it is.
  So a record cut by a crash stays, and whatever is written behind it is read shifted.
-/
import ProximaDb.Lib.Framing
import ProximaDb.Lib.Traces
import ProximaDb.Transaction.TwoPhaseCommit

namespace ProximaDb.Transaction

open ProximaDb.Lib List WalRecord Reader

/-! ## Records as bytes -/

/-- The integers of the record are of 64 bits. -/
def WalRecord.Fits : WalRecord → Prop
  | .txBegin txId => txId < 256 ^ 8
  | .txPrepare txId participantId totalCount =>
    txId < 256 ^ 8 ∧ (utf8 participantId).length < 256 ^ 8 ∧ totalCount < 256 ^ 8
  | .txCommit txId => txId < 256 ^ 8
  | .txAbort txId => txId < 256 ^ 8

structure WalCodec where
  serialize : WalRecord → Bytes
  deserializeFrom : Reader WalRecord
  reads : ∀ record, record.Fits → deserializeFrom.Reads (serialize record) record
  consumes : deserializeFrom.Consumes 1

theorem WalCodec.serialize_ne_nil (codec : WalCodec) {record : WalRecord} (h : record.Fits) :
    codec.serialize record ≠ [] := by
  intro hnil
  have hread := codec.consumes _ _ _ ((codec.reads record h).whole [])
  rw [hnil] at hread
  cases hread

/-! ## `WALCoordinator` -/

structure WalCoordinator where
  /-- `transactions.wal`, if it exists -/
  file : Option Bytes
  txStates : WalStates

def WalCoordinator.new (file : Option Bytes) : WalCoordinator := ⟨file, ∅⟩

inductive WalCall
  | writeTxBegin (txId : TransactionId)
  | writeTxPrepare (txId : TransactionId) (participantId : ParticipantId)
      (preparedCount totalCount : Nat)
  | writeTxCommit (txId : TransactionId)
  | writeTxAbort (txId : TransactionId)

def WalCall.record : WalCall → WalRecord
  | .writeTxBegin txId => .txBegin txId
  | .writeTxPrepare txId participantId _ totalCount => .txPrepare txId participantId totalCount
  | .writeTxCommit txId => .txCommit txId
  | .writeTxAbort txId => .txAbort txId

/-- `create(true).append(true)` and `write_all`. -/
def append (file : Option Bytes) (bytes : Bytes) : Option Bytes := some (file.getD [] ++ bytes)

section Coordinator

variable (codec : WalCodec)

def WalCoordinator.call (w : WalCoordinator) (c : WalCall) : WalCoordinator where
  file := append w.file (codec.serialize c.record)
  txStates :=
    match c with
    | .writeTxBegin txId => w.txStates.insert txId .begun
    | .writeTxPrepare txId participantId preparedCount totalCount =>
      applyPrepareState w.txStates txId participantId preparedCount totalCount
    | .writeTxCommit txId => w.txStates.insert txId .committed
    | .writeTxAbort txId => w.txStates.insert txId .aborted

/-- The loop of `recover_transactions`; a read takes a byte at least, so as many rounds as there are
    bytes are enough. -/
def recoverLoop : Nat → WalStates → Bytes → Except String WalStates
  | 0, txStates, _ => .ok txStates
  | fuel + 1, txStates, bytes =>
    if bytes.isEmpty then .ok txStates
    else
      match codec.deserializeFrom bytes with
      | .value record rest => recoverLoop fuel (applyRecord txStates record) rest
      | .eof => .ok txStates
      | .invalid => .error "Failed to recover transaction WAL"

def WalCoordinator.recoverTransactions (w : WalCoordinator) : Except String WalCoordinator :=
  match w.file with
  | none => .ok w
  | some contents =>
    (recoverLoop codec contents.length ∅ contents).map (fun txStates =>
      { w with txStates := txStates })

/-! ## Runs -/

/-- A call that returns, or a restart: the process ends, within the write of a record after its
    first bytes if it was writing one, and a new coordinator is initialized. -/
inductive WalEvent
  | call (c : WalCall)
  | restart (cut : Option (WalCall × Nat))

namespace WalEvent

def bytes : WalEvent → Bytes
  | call c => codec.serialize c.record
  | restart none => []
  | restart (some (c, k)) => (codec.serialize c.record).take k

def kept : WalEvent → List WalRecord
  | call c => [c.record]
  | restart none => []
  | restart (some (c, k)) => if (codec.serialize c.record).length ≤ k then [c.record] else []

def torn (e : WalEvent) : Prop := e.kept codec = [] ∧ e.bytes codec ≠ []

def Fits : WalEvent → Prop
  | call c => c.record.Fits
  | restart none => True
  | restart (some (c, _)) => c.record.Fits

end WalEvent

def WalCoordinator.step (w : WalCoordinator) : WalEvent → Except String WalCoordinator
  | .call c => .ok (w.call codec c)
  | .restart none => (WalCoordinator.new w.file).recoverTransactions codec
  | .restart (some (c, k)) =>
    (WalCoordinator.new (append w.file ((codec.serialize c.record).take k))).recoverTransactions
      codec

def runLog (events : List WalEvent) : Except String WalCoordinator :=
  events.foldlM (WalCoordinator.step codec) (.new none)

def written (events : List WalEvent) : List WalRecord := events.flatMap (WalEvent.kept codec)

def Unbroken (events : List WalEvent) : Prop :=
  events.Pairwise (fun e e' => e.torn codec → e'.bytes codec = [])

end Coordinator

/-! ## What a log says -/

def WalRecord.isDecision : WalRecord → Bool
  | .txBegin _ => false
  | .txPrepare _ _ _ => false
  | .txCommit _ => true
  | .txAbort _ => true

def lastDecision (txId : TransactionId) (records : List WalRecord) : Option WalRecord :=
  (records.filter (fun r => decide (r.txId = txId) && r.isDecision)).getLast?

/-- No transaction is begun or prepared after it was decided. -/
def Closed (records : List WalRecord) : Prop :=
  records.Pairwise (fun r r' => r.isDecision = true → r'.txId = r.txId → r'.isDecision = true)

structure Reports (records : List WalRecord) (txStates : WalStates) : Prop where
  committed : ∀ txId, txStates.lookup txId = some .committed ↔
    lastDecision txId records = some (.txCommit txId)
  aborted : ∀ txId, txStates.lookup txId = some .aborted ↔
    lastDecision txId records = some (.txAbort txId)
  prepared : ∀ txId totalCount ids, txStates.lookup txId = some (.prepared totalCount ids) →
    ids.Nodup ∧ totalCount ≤ ids.length ∧ ∀ p ∈ ids, ∃ n, WalRecord.txPrepare txId p n ∈ records

theorem lastDecision_concat (txId : TransactionId) (records : List WalRecord) (r : WalRecord) :
    lastDecision txId (records ++ [r]) =
      if r.txId = txId ∧ r.isDecision = true then some r else lastDecision txId records := by
  unfold lastDecision
  rw [filter_append]
  split_ifs with h
  · rw [filter_cons_of_pos (by simp [h]), filter_nil, List.getLast?_concat]
  · rw [filter_cons_of_neg (by simpa using h), filter_nil, append_nil]

variable {records : List WalRecord} {r : WalRecord}

theorem Closed.lastDecision_eq_none (h : Closed (records ++ [r]))
    (hr : r.isDecision = false) : lastDecision r.txId records = none := by
  unfold lastDecision
  rw [List.getLast?_eq_none_iff, filter_eq_nil_iff]
  intro d hd
  have hpair := (pairwise_append.1 h).2.2 d hd r mem_cons_self
  simp only [Bool.and_eq_true, decide_eq_true_eq, not_and]
  intro htx hdec
  rw [hpair hdec htx.symm] at hr
  cases hr

def WalRecord.outcome : WalRecord → Option WalTransactionState
  | .txCommit _ => some .committed
  | .txAbort _ => some .aborted
  | _ => none

theorem lookup_replay_eq_outcome (h : Closed records) (txId : TransactionId)
    {state : WalTransactionState} (hstate : isIncomplete state = false) :
    (replay records).lookup txId = some state ↔
      (lastDecision txId records).bind outcome = some state := by
  induction records using List.reverseRecOn with
  | nil => simp [replay, lastDecision]
  | append_singleton records r ih =>
    have hclosed : Closed records := (pairwise_append.1 h).1
    rw [replay_concat, lookup_applyRecord, lastDecision_concat]
    by_cases htx : txId = r.txId
    · subst htx
      -- a record that is no decision leads to an incomplete state, and follows none
      have hnone := h.lastDecision_eq_none
      cases r with
      | txBegin tx =>
        rw [hnone rfl]
        simp only [WalRecord.next, isDecision, if_true]
        constructor
        · rintro ⟨⟩
          cases hstate
        · intro hbind
          cases hbind
      | txPrepare tx p n =>
        rw [hnone rfl]
        simp only [WalRecord.next, isDecision, if_true]
        constructor
        · intro hnext
          split_ifs at hnext <;> cases hnext <;> cases hstate
        · intro hbind
          cases hbind
      | txCommit | txAbort => simp [WalRecord.next, isDecision, outcome]
    · rw [if_neg htx, if_neg (fun hr => htx hr.1.symm)]
      exact ih hclosed

variable {txId : TransactionId}

theorem txId_of_lastDecision (h : lastDecision txId records = some r) : r.txId = txId := by
  have hmem := mem_of_getLast? h
  obtain ⟨-, hr⟩ := mem_filter.1 hmem
  rw [Bool.and_eq_true] at hr
  exact of_decide_eq_true hr.1

theorem preparedIds_replay (records : List WalRecord) (txId : TransactionId) :
    (preparedIds ((replay records).lookup txId)).Nodup ∧
      (∀ p ∈ preparedIds ((replay records).lookup txId),
        ∃ n, txPrepare txId p n ∈ records) ∧
      ∀ totalCount ids, (replay records).lookup txId = some (.prepared totalCount ids) →
        totalCount ≤ ids.length := by
  induction records using List.reverseRecOn with
  | nil => simp [replay, preparedIds]
  | append_singleton records r ih =>
    obtain ⟨hnodup, hlogged, hcount⟩ := ih
    have hbefore : ∀ p ∈ preparedIds ((replay records).lookup txId),
        ∃ n, txPrepare txId p n ∈ records ++ [r] := by
      intro p hp
      obtain ⟨n, hn⟩ := hlogged p hp
      exact ⟨n, mem_append_left _ hn⟩
    rw [replay_concat, lookup_applyRecord]
    by_cases htx : txId = r.txId
    · rw [if_pos htx]
      cases r with
      | txBegin | txCommit | txAbort => simp [WalRecord.next, preparedIds]
      | txPrepare tx p n =>
        obtain rfl : txId = tx := htx
        obtain ⟨ids, hids⟩ : ∃ ids, ids = if p ∈ preparedIds ((replay records).lookup txId)
            then preparedIds ((replay records).lookup txId)
            else preparedIds ((replay records).lookup txId) ++ [p] := ⟨_, rfl⟩
        have hnodup' : ids.Nodup := by
          rw [hids]
          split_ifs with hmem
          · exact hnodup
          · exact nodup_append.2 ⟨hnodup, nodup_singleton p, fun q hq q' hq' heq =>
              hmem (by rw [← mem_singleton.1 hq', ← heq]; exact hq)⟩
        have hlogged' : ∀ q ∈ ids,
            ∃ m, txPrepare txId q m ∈ records ++ [.txPrepare txId p n] := by
          rw [hids]
          split_ifs with hmem
          · exact hbefore
          · intro q hq
            rcases mem_append.1 hq with hq | hq
            · exact hbefore q hq
            · rw [mem_singleton.1 hq]
              exact ⟨n, mem_append_right _ mem_cons_self⟩
        simp only [WalRecord.next, ← hids]
        split_ifs with hcount
        · refine ⟨hnodup', hlogged', fun totalCount ids' heq => ?_⟩
          cases heq
          exact hcount
        · refine ⟨hnodup', hlogged', fun totalCount ids' heq => ?_⟩
          cases heq
    · rw [if_neg htx]
      exact ⟨hnodup, hbefore, hcount⟩

theorem reports_replay (h : Closed records) : Reports records (replay records) := by
  constructor <;> intro txId
  case prepared =>
    intro totalCount ids hlookup
    obtain ⟨hnodup, hlogged, hcount⟩ := preparedIds_replay records txId
    rw [hlookup] at hnodup hlogged
    exact ⟨hnodup, hcount totalCount ids hlookup, hlogged⟩
  all_goals
    rw [lookup_replay_eq_outcome h txId rfl]
    cases hlast : lastDecision txId records with
    | none => simp
    | some r =>
      obtain rfl := txId_of_lastDecision hlast
      cases r <;> simp [outcome, txId]

/-! ## What a start reads -/

section Reading

variable {codec : WalCodec} {tail : Bytes}

/-- The end of a file: nothing, or a part of a record. -/
def TornTail (codec : WalCodec) (tail : Bytes) : Prop :=
  tail = [] ∨ codec.deserializeFrom tail = .eof

theorem recoverLoop_eq (hfits : ∀ r ∈ records, r.Fits) (htail : TornTail codec tail)
    {fuel : Nat} (txStates : WalStates)
    (hfuel : (records.flatMap codec.serialize ++ tail).length ≤ fuel) :
    recoverLoop codec fuel txStates (records.flatMap codec.serialize ++ tail) =
      .ok (records.foldl applyRecord txStates) := by
  induction records generalizing fuel txStates with
  | nil =>
    rw [flatMap_nil, nil_append]
    cases fuel with
    | zero => rfl
    | succ fuel =>
      rw [recoverLoop]
      rcases htail with rfl | heof
      · rfl
      · split_ifs
        · rfl
        · rw [heof]
          rfl
  | cons r records ih =>
    obtain ⟨hr, hrest⟩ := forall_mem_cons.1 hfits
    rw [flatMap_cons, append_assoc] at hfuel ⊢
    have hpos := length_pos_iff.2 (codec.serialize_ne_nil hr)
    cases fuel with
    | zero =>
      rw [length_append] at hfuel
      omega
    | succ fuel =>
      have hne : (codec.serialize r ++ (records.flatMap codec.serialize ++ tail)).isEmpty =
          false := by
        rw [isEmpty_eq_false_iff]
        exact append_ne_nil_of_left_ne_nil (codec.serialize_ne_nil hr) _
      rw [recoverLoop, hne, if_neg Bool.false_ne_true, (codec.reads r hr).whole]
      refine ih hrest (applyRecord txStates r) ?_
      rw [length_append] at hfuel
      omega

theorem recoverTransactions_eq (hfits : ∀ r ∈ records, r.Fits)
    (htail : TornTail codec tail) {file : Option Bytes}
    (hfile : file.getD [] = records.flatMap codec.serialize ++ tail) :
    (WalCoordinator.new file).recoverTransactions codec = .ok ⟨file, replay records⟩ := by
  cases file with
  | some contents =>
    replace hfile : contents = records.flatMap codec.serialize ++ tail := hfile
    show (recoverLoop codec contents.length ∅ contents).map _ = _
    rw [hfile, recoverLoop_eq hfits htail ∅ le_rfl]
    rfl
  | none =>
    have hnil : records = [] := by
      cases records with
      | nil => rfl
      | cons r records =>
        have hempty := (append_eq_nil_iff.1 hfile.symm).1
        rw [flatMap_cons] at hempty
        exact absurd (append_eq_nil_iff.1 hempty).1 (codec.serialize_ne_nil (hfits r mem_cons_self))
    rw [hnil]
    rfl

end Reading

/-! ## Runs -/

section Logs

variable {codec : WalCodec} {e : WalEvent}

theorem written_concat (events : List WalEvent) (e : WalEvent) :
    written codec (events ++ [e]) = written codec events ++ e.kept codec := by
  simp [written]

theorem WalEvent.kept_cases (codec : WalCodec) (h : e.Fits) :
    (∃ r, r.Fits ∧ e.kept codec = [r] ∧ e.bytes codec = codec.serialize r) ∨
      (e.kept codec = [] ∧ TornTail codec (e.bytes codec)) := by
  cases e with
  | call c => exact .inl ⟨c.record, h, rfl, rfl⟩
  | restart cut =>
    rcases cut with _ | ⟨c, k⟩
    · exact .inr ⟨rfl, .inl rfl⟩
    · by_cases hk : (codec.serialize c.record).length ≤ k
      · exact .inl ⟨c.record, h, if_pos hk, take_of_length_le hk⟩
      · refine .inr ⟨if_neg hk, .inr ?_⟩
        exact (codec.reads c.record h).torn k (Nat.lt_of_not_le hk)

variable {events : List WalEvent}

theorem fits_written (h : ∀ e ∈ events, e.Fits) : ∀ r ∈ written codec events, r.Fits := by
  intro r hr
  obtain ⟨e, he, hmem⟩ := mem_flatMap.1 hr
  rcases WalEvent.kept_cases codec (h e he) with ⟨r', hfits, hkept, -⟩ | ⟨hkept, -⟩
  · rw [hkept] at hmem
    rw [mem_singleton.1 hmem]
    exact hfits
  · rw [hkept] at hmem
    cases hmem

/-- The file holds the records written in full, and behind them what a torn one left. -/
def Holds (codec : WalCodec) (events : List WalEvent) (file : Option Bytes) : Prop :=
  ∃ tail, file.getD [] = (written codec events).flatMap codec.serialize ++ tail ∧
    TornTail codec tail ∧ (tail ≠ [] → ∃ e ∈ events, e.torn codec)

theorem Holds.append {file file' : Option Bytes} (h : Holds codec events file)
    (hfile : file'.getD [] = file.getD [] ++ e.bytes codec) (hfits : e.Fits)
    (hunbroken : Unbroken codec (events ++ [e])) : Holds codec (events ++ [e]) file' := by
  obtain ⟨tail, hcontents, htorn, hcause⟩ := h
  unfold Holds
  rw [hfile, hcontents, written_concat, flatMap_append]
  by_cases htail : tail = []
  · subst htail
    rw [append_nil]
    rcases WalEvent.kept_cases codec hfits with ⟨r, hr, hkept, hbytes⟩ | ⟨hkept, hbytes⟩
    · refine ⟨[], ?_, .inl rfl, fun hne => absurd rfl hne⟩
      rw [hkept, hbytes, flatMap_singleton, append_nil]
    · refine ⟨e.bytes codec, ?_, hbytes, fun hne => ?_⟩
      · rw [hkept, flatMap_nil, append_nil]
      · exact ⟨e, mem_append_right _ mem_cons_self, hkept, hne⟩
  · -- behind a torn record nothing is written
    obtain ⟨e', he', htorn'⟩ := hcause htail
    have hbytes : e.bytes codec = [] :=
      (pairwise_append.1 hunbroken).2.2 e' he' e mem_cons_self htorn'
    have hkept : e.kept codec = [] := by
      rcases WalEvent.kept_cases codec hfits with ⟨r, hr, -, hr'⟩ | ⟨hkept, -⟩
      · exact absurd (hr'.symm.trans hbytes) (codec.serialize_ne_nil hr)
      · exact hkept
    refine ⟨tail, ?_, htorn, fun _ => ⟨e', mem_append_left _ he', htorn'⟩⟩
    rw [hkept, hbytes, flatMap_nil, append_nil, append_nil]

theorem step_holds {w : WalCoordinator} (h : Holds codec events w.file)
    (hfits : ∀ e' ∈ events ++ [e], e'.Fits) (hunbroken : Unbroken codec (events ++ [e])) :
    ∃ w', w.step codec e = .ok w' ∧ Holds codec (events ++ [e]) w'.file ∧
      ∀ cut, e = .restart cut → w'.txStates = replay (written codec (events ++ [e])) := by
  have he : e.Fits := hfits e (mem_append_right _ mem_cons_self)
  -- a restart reads the file that the event leaves
  have hrestart : ∀ file : Option Bytes, file.getD [] = w.file.getD [] ++ e.bytes codec →
      Holds codec (events ++ [e]) file ∧
        (WalCoordinator.new file).recoverTransactions codec =
          .ok ⟨file, replay (written codec (events ++ [e]))⟩ := by
    intro file hfile
    have hholds := h.append hfile he hunbroken
    obtain ⟨tail, hcontents, htail, -⟩ := id hholds
    exact ⟨hholds, recoverTransactions_eq (fits_written hfits) htail hcontents⟩
  cases e with
  | call c =>
    refine ⟨w.call codec c, rfl, h.append rfl he hunbroken, fun cut hcut => ?_⟩
    cases hcut
  | restart cut =>
    rcases cut with _ | ⟨c, k⟩
    · obtain ⟨hholds, hrecover⟩ := hrestart w.file (append_nil _).symm
      exact ⟨_, hrecover, hholds, fun _ _ => rfl⟩
    · obtain ⟨hholds, hrecover⟩ := hrestart (append w.file _) rfl
      exact ⟨_, hrecover, hholds, fun _ _ => rfl⟩

/-- In every run in which nothing is written behind a torn record and no transaction goes on after
    its decision, every start succeeds and finds the decisions written in full. -/
theorem decisions_survive (codec : WalCodec) (events : List WalEvent)
    (hfits : ∀ e ∈ events, e.Fits) (hunbroken : Unbroken codec events)
    (hclosed : Closed (written codec events)) :
    ∃ w, runLog codec events = .ok w ∧ ∀ before cut, events = before ++ [.restart cut] →
      Reports (written codec events) w.txStates := by
  let Along : List WalEvent → WalCoordinator → Prop := fun done w =>
    Holds codec done w.file ∧ ∀ before cut, done = before ++ [.restart cut] →
      w.txStates = replay (written codec done)
  have hstart : Along [] (.new none) :=
    ⟨⟨[], rfl, .inl rfl, fun hne => absurd rfl hne⟩, fun before cut hnil => by simp at hnil⟩
  have hstep : ∀ done e rest w, events = done ++ e :: rest → Along done w →
      ∃ w', w.step codec e = .ok w' ∧ Along (done ++ [e]) w' := by
    intro done e rest w hevents hw
    have hsplit : events = (done ++ [e]) ++ rest := by
      rw [hevents, append_assoc, singleton_append]
    have hfits' : ∀ e' ∈ done ++ [e], e'.Fits := fun e' he' =>
      hfits e' (by rw [hsplit]; exact mem_append_left _ he')
    have hunbroken' : Unbroken codec (done ++ [e]) := by
      rw [hsplit] at hunbroken
      exact (pairwise_append.1 hunbroken).1
    obtain ⟨w', hw', hholds, hreplay⟩ := step_holds hw.1 hfits' hunbroken'
    refine ⟨w', hw', hholds, fun before cut hlast => hreplay cut ?_⟩
    exact singleton_inj.1 (append_inj' hlast rfl).2
  obtain ⟨w, hrun, -, hstates⟩ := foldlM_ok_of_step hstart hstep
  refine ⟨w, hrun, fun before cut hlast => ?_⟩
  rw [hstates before cut hlast]
  exact reports_replay hclosed

end Logs

/-! ## bincode -/

/-- A tag of four bytes, then the fields: integers of eight bytes, a text behind its length. -/
def bincodeSerialize : WalRecord → Bytes
  | .txBegin txId => leBytes 4 0 ++ leBytes 8 txId
  | .txPrepare txId participantId totalCount =>
    leBytes 4 1 ++ (leBytes 8 txId ++ (leBytes 8 (utf8 participantId).length ++
      (utf8 participantId ++ leBytes 8 totalCount)))
  | .txCommit txId => leBytes 4 2 ++ leBytes 8 txId
  | .txAbort txId => leBytes 4 3 ++ leBytes 8 txId

def bincodeTx (record : TransactionId → WalRecord) : Reader WalRecord :=
  (Reader.nat 8).bind (fun txId => .ret (record txId))

def bincodePrepare : Reader WalRecord :=
  (Reader.nat 8).bind (fun txId =>
    (Reader.nat 8).bind (fun length =>
      (Reader.take length).bind (fun text =>
        match ofUtf8 text with
        | none => .invalid
        | some participantId =>
          (Reader.nat 8).bind (fun totalCount =>
            .ret (.txPrepare txId participantId totalCount)))))

def bincodeDeserializeFrom : Reader WalRecord :=
  (Reader.nat 4).bind (fun tag =>
    if tag = 0 then bincodeTx .txBegin
    else if tag = 1 then bincodePrepare
    else if tag = 2 then bincodeTx .txCommit
    else if tag = 3 then bincodeTx .txAbort
    else .invalid)

theorem reads_bincodeTx (record : TransactionId → WalRecord)
    (h : txId < 256 ^ 8) : (bincodeTx record).Reads (leBytes 8 txId) (record txId) := by
  have hread := (reads_nat h).bind (f := fun txId => .ret (record txId)) (reads_ret (record txId))
  rwa [append_nil] at hread

theorem reads_bincodePrepare {participantId : ParticipantId}
    {totalCount : Nat} (h : (txPrepare txId participantId totalCount).Fits) :
    bincodePrepare.Reads (leBytes 8 txId ++ (leBytes 8 (utf8 participantId).length ++
      (utf8 participantId ++ leBytes 8 totalCount))) (.txPrepare txId participantId totalCount) := by
  obtain ⟨htx, hlength, htotal⟩ := h
  refine (reads_nat htx).bind ((reads_nat hlength).bind ((reads_take (utf8 participantId)).bind ?_))
  rw [ofUtf8_utf8]
  have hread := (reads_nat htotal).bind
    (f := fun totalCount => .ret (txPrepare txId participantId totalCount))
    (reads_ret (txPrepare txId participantId totalCount))
  rwa [append_nil] at hread

theorem reads_bincode (record : WalRecord) (h : record.Fits) :
    bincodeDeserializeFrom.Reads (bincodeSerialize record) record := by
  cases record with
  | txBegin txId =>
    exact (reads_nat (n := 0) (by decide)).bind (reads_bincodeTx .txBegin h)
  | txPrepare =>
    exact (reads_nat (n := 1) (by decide)).bind (reads_bincodePrepare h)
  | txCommit txId =>
    exact (reads_nat (n := 2) (by decide)).bind (reads_bincodeTx .txCommit h)
  | txAbort txId =>
    exact (reads_nat (n := 3) (by decide)).bind (reads_bincodeTx .txAbort h)

theorem consumes_bincode : bincodeDeserializeFrom.Consumes 1 := by
  have htx : ∀ record, (bincodeTx record).Consumes 0 := fun record =>
    (((consumes_nat 8).bind (fun _ => consumes_ret _)).mono (Nat.zero_le _))
  have hprepare : bincodePrepare.Consumes 0 := by
    refine (((consumes_nat 8).bind (n := 0) (fun txId => ?_)).mono (Nat.zero_le _))
    refine (((consumes_nat 8).bind (n := 0) (fun length => ?_)).mono (Nat.zero_le _))
    refine (((consumes_take length).bind (n := 0) (fun text => ?_)).mono (Nat.zero_le _))
    cases ofUtf8 text with
    | none => exact consumes_invalid 0
    | some =>
      exact ((consumes_nat 8).bind (fun _ => consumes_ret _)).mono (Nat.zero_le _)
  refine ((consumes_nat 4).bind (n := 0) (fun tag => ?_)).mono (by decide)
  split_ifs
  · exact htx .txBegin
  · exact hprepare
  · exact htx .txCommit
  · exact htx .txAbort
  · exact consumes_invalid 0

def bincode : WalCodec where
  serialize := bincodeSerialize
  deserializeFrom := bincodeDeserializeFrom
  reads := reads_bincode
  consumes := consumes_bincode

/-! ## Runs that are played out -/

/-- A commit that was written, and an abort of another transaction that was cut. -/
theorem decisions_survive_cut :
    ∃ w, runLog bincode [.call (.writeTxBegin 1), .call (.writeTxCommit 1),
        .restart (some (.writeTxAbort 2, 3))] = .ok w ∧
      Reports [.txBegin 1, .txCommit 1] w.txStates := by
  obtain ⟨w, hrun, hreports⟩ := decisions_survive bincode
    [.call (.writeTxBegin 1), .call (.writeTxCommit 1), .restart (some (.writeTxAbort 2, 3))]
    (by simp [WalEvent.Fits, WalCall.record, WalRecord.Fits])
    (by
      have hwhole : ∀ c e, WalEvent.torn bincode (.call c) → WalEvent.bytes bincode e = [] :=
        fun c e h => absurd h.1 (cons_ne_nil _ _)
      exact pairwise_cons.2 ⟨fun e _ => hwhole _ e, pairwise_cons.2
        ⟨fun e _ => hwhole _ e, pairwise_singleton _ _⟩⟩)
    (by
      have hwritten : written bincode [.call (.writeTxBegin 1), .call (.writeTxCommit 1),
          .restart (some (.writeTxAbort 2, 3))] = [.txBegin 1, .txCommit 1] := by rfl
      rw [hwritten]
      unfold Closed
      decide)
  exact ⟨w, hrun, hreports [.call (.writeTxBegin 1), .call (.writeTxCommit 1)] _ rfl⟩

/-- The commit of transaction 1 is cut after its first byte, and transaction 2 is begun behind it:
    the next start reads a commit of transaction 512, which was never written. With the begin of
    transaction 1 cut and a commit behind it, the next start fails. And a transaction that is begun
    again after its commit is not reported as committed. -/
theorem torn_record_is_read_on :
    (∃ w, runLog bincode [.restart (some (.writeTxCommit 1, 1)), .call (.writeTxBegin 2),
        .restart none] = .ok w ∧ w.txStates.lookup 512 = some .committed ∧
      written bincode [.restart (some (.writeTxCommit 1, 1)), .call (.writeTxBegin 2),
        .restart none] = [.txBegin 2]) ∧
    runLog bincode [.restart (some (.writeTxBegin 1, 1)), .call (.writeTxCommit 2),
        .restart none] = .error "Failed to recover transaction WAL" ∧
    (∃ w, runLog bincode [.call (.writeTxCommit 1), .call (.writeTxBegin 1), .restart none] =
        .ok w ∧ w.txStates.lookup 1 = some .begun ∧
      lastDecision 1 (written bincode [.call (.writeTxCommit 1), .call (.writeTxBegin 1),
        .restart none]) = some (.txCommit 1)) := by
  refine ⟨⟨_, rfl, ?_, ?_⟩, rfl, ⟨_, rfl, ?_, ?_⟩⟩
  · rfl
  · rfl
  · rfl
  · rfl

end ProximaDb.Transaction
