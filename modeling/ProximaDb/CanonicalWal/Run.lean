/-
  ProximaDb.CanonicalWal.Run

  Runs of one log: operations of the process that has it open, crashes in the middle of them and
  restarts; and a codec to run the log with, whose entries end with the text of their tenant.
-/
import ProximaDb.CanonicalWal.Appender
import ProximaDb.Lib.Format

namespace ProximaDb.CanonicalWal

open ProximaDb.Lib List

inductive Operation where
  | openLog (io : OpenIo)
  | append (io : AppendIo) (now : Nat) (operations : List (CanonicalOperation × Option String))
      (group : Bool)
  | truncate (io : TruncateIo) (floor : Nat)
  | pin (snapshotLsn : Nat → Nat)
  | unpin (lsn : Nat)
  | advance (floor : Nat)
  | fence (covered marked : List TenantCollection)
  | enableRotation (bytes : Nat)
  | enableAtomicGroups

/-- `acked`: entries acknowledged, or recovered by an open. `inflight`: the frames of an append
    whose outcome nobody was told. `issued`: every entry that was ever acknowledged or readable, in
    order of first appearance. `pinned`: the snapshots held. -/
structure World where
  disk : Disk
  process : Option Appender
  acked : List CanonicalWalEntry
  inflight : List Frame
  issued : List CanonicalWalEntry
  pinned : List Nat

def World.initial : World := ⟨Disk.empty, none, [], [], [], []⟩

def remember (seen : List CanonicalWalEntry) (e : CanonicalWalEntry) : List CanonicalWalEntry :=
  if e ∈ seen then seen else seen ++ [e]

variable (C : WalCodec)

/-- The entries a reader sees; none when the read fails. -/
def readable (d : Disk) : List CanonicalWalEntry :=
  match readEntries C d with
  | .error _ => []
  | .ok entries => entries

/-- Record what was acknowledged and what can be read. -/
def World.observe (w : World) (acknowledged : List CanonicalWalEntry) : World :=
  { w with issued := (acknowledged ++ readable C w.disk).foldl remember w.issued }

/-- The actions an operation takes in this world. -/
def planOf (w : World) (op : Operation) : List Action :=
  match op, w.process with
  | .openLog io, none => (openWal C io w.disk).1
  | .append io now operations group, some a => (appendEntries C io now operations group a w.disk).plan
  | .truncate io floor, some a => (truncateBelow io floor a).plan
  | _, _ => []

/-- The frames an append would write in this world. -/
def framesWritten (w : World) (op : Operation) : List Frame :=
  match op, w.process with
  | .append _ now operations group, some a =>
    framesOf group (assignSequences now (a.nextSequence + 1) operations)
  | _, _ => []

def ackedBy (result : Except AppendError (List CanonicalWalEntry)) : List CanonicalWalEntry :=
  match result with
  | .ok entries => entries
  | .error _ => []

/-- The process and what it tells the outside, after an operation. -/
def processAfter (w : World) (op : Operation) : World :=
  match op, w.process with
  | .openLog io, none =>
    match (openWal C io w.disk).2 with
    | .error _ => w
    | .ok a =>
      { w with
        process := some a
        acked := (readable C (w.disk.applyAll (openWal C io w.disk).1)).foldl remember w.acked
        inflight := [] }
  | .append io now operations group, some a =>
    let outcome := appendEntries C io now operations group a w.disk
    { w with
      process := some outcome.appender
      acked := w.acked ++ ackedBy outcome.result
      inflight :=
        if outcome.result = .error .indeterminate then framesWritten w op else w.inflight }
  | .truncate io floor, some a => { w with process := some (truncateBelow io floor a).appender }
  | .pin snapshotLsn, some a =>
    match pinHistory snapshotLsn a with
    | .error _ => w
    | .ok (lsn, a') => { w with process := some a', pinned := lsn :: w.pinned }
  | .unpin lsn, some a =>
    if lsn ∈ w.pinned then
      { w with process := some (dropPin (saturatingSucc lsn) a), pinned := w.pinned.erase lsn }
    else w
  | .advance floor, some a => { w with process := some (advanceSequenceFloor floor a) }
  | .fence covered marked, some a =>
    { w with process := some { a with branchFence := some ⟨covered, marked⟩ } }
  | .enableRotation bytes, some a => { w with process := some { a with segmentBytes := bytes } }
  | .enableAtomicGroups, some a => { w with process := some { a with atomicGroups := true } }
  | _, _ => w

def complete (w : World) (op : Operation) : World :=
  World.observe C
    { processAfter C w op with disk := w.disk.applyAll (planOf C w op) }
    ((processAfter C w op).acked.drop w.acked.length)

/-- A crash after `steps` actions of the operation, with all but `len` bytes of the active file lost
    where they were not synced. -/
def crashIn (w : World) (op : Operation) (steps len : Nat) : World :=
  World.observe C
    { w with
      disk := (w.disk.applyAll ((planOf C w op).take steps)).cut len
      process := none
      inflight := if planOf C w op = [] ∨ framesWritten w op = [] then w.inflight
        else framesWritten w op
      pinned := [] }
    []

inductive Label where
  | complete (op : Operation)
  | crash (op : Operation) (steps len : Nat)

def exec (w : World) : Label → World
  | .complete op => complete C w op
  | .crash op steps len => crashIn C w op steps len

/-! ## An append of the process -/

section Append

variable {C} {w : World} {a : Appender} {io : AppendIo} {now : Nat}
  {operations : List (CanonicalOperation × Option String)} {group : Bool}

theorem planOf_append (hp : w.process = some a) : planOf C w (.append io now operations group) =
      (appendEntries C io now operations group a w.disk).plan := by
  simp only [planOf, hp]

theorem framesWritten_append (hp : w.process = some a) :
    framesWritten w (.append io now operations group) =
      framesOf group (assignSequences now (a.nextSequence + 1) operations) := by
  simp only [framesWritten, hp]

theorem complete_append_process (hp : w.process = some a) :
    (complete C w (.append io now operations group)).process =
      some (appendEntries C io now operations group a w.disk).appender := by
  rw [complete, World.observe]
  simp only [processAfter, hp]

end Append

/-! ## Clean runs

The runs in which the log keeps its promises.  The conditions name what the code does not
check: an active file that ends like a section, a section too large to be found again, a
torn section, and I/O failures that leave bytes or a floor behind. -/

def framesPart (bytes : Bytes) : Bytes :=
  match scanWalBytes C.toFrameCodec bytes with
  | .error _ => bytes
  | .ok scan => bytes.take scan.validLen

/-- Neither the file nor its whole frames end like a section. -/
def Plain (bytes : Bytes) : Prop :=
  splitSummaryTrailer C bytes = none ∧ splitSummaryTrailer C (framesPart C bytes) = none

/-- A section is small enough to be found again; one whose write fails is rolled back, and not to a
    length that was never read. -/
def CleanSection (io : SectionIo) (summary : SegmentSummary) : Prop :=
  match io with
  | .skipped => True
  | .written => SectionFits C summary
  | .unopened rolledBack => rolledBack = false
  | .failed _ rolledBack => rolledBack = true ∧ SectionFits C summary

/-- A write of frames that leaves a file which does not end like a section, and fails only in ways
    that leave no whole frame. -/
def CleanWrite (io : AppendIo) (a : Appender) (d : Disk) (frames : List Frame) : Prop :=
  match io.write with
  | .done =>
    splitSummaryTrailer C (d.activeBytes ++ framesBytes C.toFrameCodec frames) = none ∧
      (0 < a.segmentBytes ∧ a.segmentBytes ≤
          d.activeBytes.length + (framesBytes C.toFrameCodec frames).length →
        CleanSection C io.rotate.summarySection (acknowledge a (framesEntries frames)).active)
  | .writeFails n .setLenFails =>
    (∀ f ∈ frames.head?, n < (f.bytes C.toFrameCodec).length) ∧
      splitSummaryTrailer C (d.activeBytes ++ (framesBytes C.toFrameCodec frames).take n) = none
  | .syncFails .setLenFails => False
  | _ => True

/-- A clean append has room below the top of the counter, and starts from a file that does not end
    like a section. -/
def CleanAppend (io : AppendIo) (now : Nat)
    (operations : List (CanonicalOperation × Option String)) (group : Bool) (a : Appender)
    (d : Disk) : Prop :=
  a.nextSequence + operations.length + 1 < 2 ^ 64 ∧
    splitSummaryTrailer C d.activeBytes = none ∧
    CleanWrite C io a d (framesOf group (assignSequences now (a.nextSequence + 1) operations))

def CleanOperation (w : World) (op : Operation) : Prop :=
  match op, w.process with
  | .openLog io, none => io.renames = true ∨ splitSummaryTrailer C w.disk.activeBytes = none
  | .append io now operations group, some a =>
    planOf C w op = [] ∨ CleanAppend C io now operations group a w.disk
  | .truncate io _, some _ => io.marker ≠ .directorySyncFails
  | _, _ => True

/-- The section a rotation after this append writes. -/
def sectionWritten (w : World) (op : Operation) : Bytes :=
  match op, w.process with
  | .append _ now operations _, some a =>
    encodeSummaryTrailer C
      (acknowledge a (assignSequences now (a.nextSequence + 1) operations)).active
  | _, _ => []

/-- A crash after the actions `taken`, which led from an active file `origin` to `d`, leaves a file
    the recovery can tell apart: a section whole or shorter than a frame header, and otherwise a
    plain file. -/
def CleanCut (summarySection origin : Bytes) (taken : List Action) (d : Disk) (len : Nat) : Prop :=
  match taken.getLast? with
  | some (.writeSection bytes) =>
    (bytes = summarySection ∧ (d.cut len).activeBytes = d.activeBytes) ∨
      (Plain C (d.cut len).activeBytes ∧
        (d.cut len).activeBytes.length < d.synced + frameHeaderLen)
  | _ => (d.cut len).activeBytes = origin ∨ Plain C (d.cut len).activeBytes

def CleanCrash (w : World) (op : Operation) (steps len : Nat) : Prop :=
  CleanCut C (sectionWritten C w op) w.disk.activeBytes ((planOf C w op).take steps)
    (w.disk.applyAll ((planOf C w op).take steps)) len

def CleanLabel (w : World) : Label → Prop
  | .complete op => CleanOperation C w op
  | .crash op steps len => CleanOperation C w op ∧ CleanCrash C w op steps len

def CleanStep (w w' : World) : Prop := ∃ label, CleanLabel C w label ∧ w' = exec C w label

def CleanReachable (w : World) : Prop :=
  Relation.ReflTransGen (CleanStep C) World.initial w

/-! ## Runs of given labels -/

def runFrom (w : World) : List Label → World
  | [] => w
  | label :: labels => runFrom (exec C w label) labels

def CleanRun (w : World) : List Label → Prop
  | [] => True
  | label :: labels => CleanLabel C w label ∧ CleanRun (exec C w label) labels

variable {C} in
theorem CleanRun.reflTransGen {w : World} {labels : List Label} (h : CleanRun C w labels) :
    Relation.ReflTransGen (CleanStep C) w (runFrom C w labels) := by
  induction labels generalizing w with
  | nil => exact Relation.ReflTransGen.refl
  | cons label labels ih =>
    exact Relation.ReflTransGen.head ⟨label, h.1, rfl⟩ (ih h.2)

instance (bytes : Bytes) : Decidable (splitSummaryTrailer C bytes = none) :=
  decidable_of_iff ((splitSummaryTrailer C bytes).isNone = true) Option.isNone_iff_eq_none

instance (bytes : Bytes) : Decidable (Plain C bytes) := by
  unfold Plain
  infer_instance

instance (io : SectionIo) (summary : SegmentSummary) : Decidable (CleanSection C io summary) :=
  match io with
  | .skipped => inferInstanceAs (Decidable True)
  | .written => inferInstanceAs (Decidable (SectionFits C summary))
  | .unopened rolledBack => inferInstanceAs (Decidable (rolledBack = false))
  | .failed _ rolledBack => inferInstanceAs (Decidable (rolledBack = true ∧ SectionFits C summary))

instance (io : AppendIo) (a : Appender) (d : Disk) (frames : List Frame) :
    Decidable (CleanWrite C io a d frames) := by
  unfold CleanWrite
  split <;> infer_instance

instance (io : AppendIo) (now : Nat) (operations : List (CanonicalOperation × Option String))
    (group : Bool) (a : Appender) (d : Disk) :
    Decidable (CleanAppend C io now operations group a d) := by
  unfold CleanAppend
  infer_instance

instance (w : World) (op : Operation) : Decidable (CleanOperation C w op) := by
  unfold CleanOperation
  split <;> infer_instance

instance (summarySection origin : Bytes) (taken : List Action) (d : Disk) (len : Nat) :
    Decidable (CleanCut C summarySection origin taken d len) := by
  unfold CleanCut
  split <;> infer_instance

instance (w : World) (op : Operation) (steps len : Nat) : Decidable (CleanCrash C w op steps len) := by
  unfold CleanCrash
  infer_instance

instance (w : World) (label : Label) : Decidable (CleanLabel C w label) :=
  match label with
  | .complete op => inferInstanceAs (Decidable (CleanOperation C w op))
  | .crash op steps len =>
    inferInstanceAs (Decidable (CleanOperation C w op ∧ CleanCrash C w op steps len))

instance decidableCleanRun (w : World) : (labels : List Label) → Decidable (CleanRun C w labels)
  | [] => inferInstanceAs (Decidable True)
  | label :: labels =>
    have := decidableCleanRun (exec C w label) labels
    inferInstanceAs (Decidable (CleanLabel C w label ∧ CleanRun C (exec C w label) labels))

/-! ## A text up to the end of the payload -/

/-- A character is its own byte; beyond 254 it is escaped. -/
def putChar (c : Char) : Bytes :=
  if c.toNat < 255 then [UInt8.ofNat c.toNat] else 255 :: Format.nat.put c.toNat

def putText (cs : List Char) : Bytes := cs.flatMap putChar

/-- Read characters to the end; `fuel` bounds their number. -/
def getText : Nat → Bytes → Option (List Char)
  | _, [] => some []
  | 0, _ :: _ => none
  | fuel + 1, b :: rest =>
    if b = 255 then
      (Format.nat.get rest).bind (fun p => (getText fuel p.2).map (fun cs => Char.ofNat p.1 :: cs))
    else (getText fuel rest).map (fun cs => Char.ofNat b.toNat :: cs)

theorem getText_putText (cs : List Char) {fuel : Nat} (h : cs.length ≤ fuel) :
    getText fuel (putText cs) = some cs := by
  induction cs generalizing fuel with
  | nil => cases fuel <;> rfl
  | cons c cs ih =>
    rw [length_cons] at h
    obtain ⟨fuel, rfl⟩ : ∃ k, fuel = k + 1 := ⟨fuel - 1, by omega⟩
    have hrest := @ih fuel (by omega)
    unfold putText at hrest ⊢
    rw [flatMap_cons]
    unfold putChar
    split_ifs with hsmall
    · obtain ⟨hnat, hne⟩ := Format.toNat_ofNat_of_lt_255 hsmall
      rw [singleton_append, getText, if_neg hne]
      show ((getText fuel (cs.flatMap putChar)).map _) = _
      rw [hrest, hnat]
      simp
    · rw [cons_append, getText, if_pos rfl, Format.nat.get_put]
      show ((getText fuel (cs.flatMap putChar)).map _) = _
      rw [hrest]
      simp

theorem length_le_length_putText (cs : List Char) : cs.length ≤ (putText cs).length := by
  have hpos : ∀ c, 1 ≤ (putChar c).length := by
    intro c
    unfold putChar
    split_ifs <;> simp
  have h := length_le_sum_of_one_le (cs.map (fun c => (putChar c).length)) (by simp [hpos])
  rwa [length_map, ← length_flatMap] at h

/-! ## Entries -/

/-- An operation's kind and fields; fields a kind does not have are empty. -/
def operationFields : CanonicalOperation → Nat × String × Option String × String × Nat × Bytes
  | .recordUpsert c branch carried => (0, c, branch, "", 0, carried)
  | .recordDelete c oid carried => (1, c, none, oid, 0, carried)
  | .recordPartitionDrop c => (2, c, none, "", 0, [])
  | .checkpoint manifest => (3, "", none, "", 0, manifest)
  | .cdcBarrier barrier events => (4, "", none, "", barrier, events)
  | .catalogMutation key bytes => (5, "", none, key, 0, bytes)

def operationOfFields : Nat × String × Option String × String × Nat × Bytes → CanonicalOperation
  | (0, c, branch, _, _, carried) => .recordUpsert c branch carried
  | (1, c, _, oid, _, carried) => .recordDelete c oid carried
  | (2, c, _, _, _, _) => .recordPartitionDrop c
  | (3, _, _, _, _, manifest) => .checkpoint manifest
  | (4, _, _, _, barrier, events) => .cdcBarrier barrier events
  | (_, _, _, key, _, bytes) => .catalogMutation key bytes

def operationFormat : Format CanonicalOperation :=
  (Format.pair Format.nat (Format.pair Format.string (Format.pair (Format.option Format.string)
    (Format.pair Format.string (Format.pair Format.nat Format.bytes))))).iso
    operationFields operationOfFields (by intro op; cases op <;> rfl)

/-- The fields of an entry before its tenant. -/
def entryHeadFormat : Format (Nat × Nat × CanonicalOperation) :=
  Format.pair Format.nat (Format.pair Format.nat operationFormat)

def putEntry (e : CanonicalWalEntry) : Bytes :=
  entryHeadFormat.put (e.sequenceNumber, e.timestampMs, e.operation) ++
    match e.tenantId with
    | none => [0]
    | some tenant => 1 :: putText tenant.toList

def getTenant : Bytes → Option (Option String)
  | [0] => some none
  | 1 :: text => (getText text.length text).map (fun cs => some (String.ofList cs))
  | _ => none

def getEntry (bs : Bytes) : Option CanonicalWalEntry :=
  (entryHeadFormat.get bs).bind (fun p =>
    (getTenant p.2).map (fun tenant => ⟨p.1.1, p.1.2.1, p.1.2.2, tenant⟩))

theorem getEntry_putEntry (e : CanonicalWalEntry) : getEntry (putEntry e) = some e := by
  obtain ⟨seq, ts, op, tenant⟩ := e
  unfold getEntry putEntry
  rw [entryHeadFormat.get_put]
  cases tenant with
  | none => rfl
  | some tenant =>
    simp only [Option.bind_some, getTenant,
      getText_putText tenant.toList (length_le_length_putText _), Option.map_some,
      String.ofList_toList]

def sizedEntryFormat : Format CanonicalWalEntry where
  put e := Format.nat.put (putEntry e).length ++ putEntry e
  get bs := (Format.nat.get bs).bind (fun p =>
    (takeExact p.1 p.2).bind (fun q => (getEntry q.1).map (fun e => (e, q.2))))
  get_put e rest := by
    rw [append_assoc, Format.nat.get_put]
    simp [takeExact_append rfl, getEntry_putEntry]

/-! ## Summaries -/

/-- A map from its entries; entries with a repeated key are none. -/
def mapOfEntries {ν : Type} (l : List (String × ν)) : KeyMap String ν :=
  if h : (l.map (fun p => (⟨p.1, p.2⟩ : Sigma (fun _ : String => ν)))).keys.Nodup then ⟨_, h⟩
  else ∅

def mapFormat {ν : Type} (f : Format ν) : Format (KeyMap String ν) :=
  (Format.list (Format.pair Format.string f)).iso (fun m => m.entries.map (fun e => (e.1, e.2)))
    mapOfEntries (by
      intro m
      have hentries : (m.entries.map (fun e => (e.1, e.2))).map
          (fun p => (⟨p.1, p.2⟩ : Sigma (fun _ : String => ν))) = m.entries := by
        rw [map_map]
        exact map_id _
      unfold mapOfEntries
      rw [dif_pos (by rw [hentries]; exact m.nodupKeys)]
      exact AList.ext hentries)

def boolFormat : Format Bool :=
  Format.nat.iso (fun b => if b then 1 else 0) (fun n => decide (n = 1)) (by intro b; cases b <;> rfl)

def tenantCollectionFormat : Format TenantCollection :=
  (Format.pair Format.string Format.string).iso (fun c => (c.tenant, c.collection))
    (fun p => ⟨p.1, p.2⟩) (by intro c; rfl)

def summaryFormat : Format SummaryData :=
  (Format.pair (Format.option Format.nat) (Format.pair Format.nat (Format.pair (mapFormat Format.nat)
    (Format.pair boolFormat (Format.pair (Format.option Format.nat)
      (Format.pair (Format.list tenantCollectionFormat)
        (mapFormat (Format.list Format.string)))))))).iso
    (fun s => (s.firstSeq, s.lastSeq, s.collectionMax, s.hasUncollected, s.firstBranchSeq,
      s.branched, s.tenants))
    (fun p => ⟨p.1, p.2.1, p.2.2.1, p.2.2.2.1, p.2.2.2.2.1, p.2.2.2.2.2.1, p.2.2.2.2.2.2⟩)
    (by intro s; rfl)

def codec : WalCodec where
  encodeEntry := putEntry
  decodeEntry := getEntry
  decode_entry := getEntry_putEntry
  encodeGroup es := (Format.list sizedEntryFormat).put es
  decodeGroup bs := ((Format.list sizedEntryFormat).get bs).map (fun p => p.1)
  decode_group es := by
    have := (Format.list sizedEntryFormat).get_put es []
    rw [append_nil] at this
    rw [this]
    rfl
  crc32 := crc32
  crc32_lt := crc32_lt
  encodeSummary := summaryFormat.put
  decodeSummary bs := (summaryFormat.get bs).map (fun p => p.1)
  decode_summary s := by
    have := summaryFormat.get_put s []
    rw [append_nil] at this
    rw [this]
    rfl

/-! ## Operations whose I/O goes well -/

def smoothOpen : Operation := .openLog ⟨true, true, fun _ => true, true⟩

def smoothIo : AppendIo := ⟨true, .done, ⟨.written, true⟩⟩

/-- Upserts into collections, for one tenant. -/
def smoothAppend (tenantId : Option String) (collections : List String) : Operation :=
  .append smoothIo 0 (collections.map (fun c => (.recordUpsert c none [], tenantId))) false

end ProximaDb.CanonicalWal
