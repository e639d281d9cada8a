/-
  ProximaDb.CanonicalWal.RangeRead

  Range reads against full reads, and sequences that are issued once. In a clean run a range read
  of a collection returns what a full read would after a sequence; the sequences of everything
  that was ever acknowledged or readable strictly increase, and no read returns an entry at or
  below a floor once recorded.
-/
import ProximaDb.CanonicalWal.CrashRecovery

namespace ProximaDb.CanonicalWal

open ProximaDb.Lib List SealedImage

variable {C : WalCodec} {img : Image} {d : Disk} {a : Appender} {w : World}

def ofCollection (collectionId : String) (e : CanonicalWalEntry) : Bool :=
  collectionIdOf e.operation == some collectionId

/-! ## Summaries rule segments out soundly -/

theorem filter_eq_nil_of_not_mayContain {path : WalPath} {entries : List CanonicalWalEntry}
    {collectionId : String} {since : Nat}
    (h : (summaryOf path entries).mayContain collectionId since = false) :
    (entries.filter (fun e => decide (since < e.sequenceNumber))).filter
      (ofCollection collectionId) = [] := by
  rw [filter_filter]
  refine filter_eq_nil_iff.2 (fun e he hboth => ?_)
  rw [Bool.and_eq_true, decide_eq_true_iff, ofCollection, beq_iff_eq] at hboth
  obtain ⟨hcoll, hsince⟩ := hboth
  have hlast := le_lastSeq_summaryOf path he
  obtain ⟨mark, hmark, hle⟩ := covers_summaryOf path entries e he collectionId hcoll
  have hmay : (summaryOf path entries).mayContain collectionId since = true := by
    rw [SegmentSummary.mayContain, hmark]
    simp only [Option.any_some, Bool.and_eq_true, decide_eq_true_iff]
    omega
  rw [hmay] at h
  cases h

/-! ## Segments by name -/

theorem Image.Ok.names_lt (hok : img.Ok C) :
    (img.removed ++ img.segments).Pairwise (fun s t => s.name < t.name) := by
  have hord := hok.order
  rw [Image.history_eq] at hord
  have hsegs := (pairwise_flatMap.1 (pairwise_append.1 hord).1).2
  refine hsegs.imp_of_mem (fun {s t} hs ht hlt => ?_)
  obtain ⟨x, hx, hxname⟩ := exists_name (hok.segmentOk s hs)
  obtain ⟨y, hy, hyname⟩ := exists_name (hok.segmentOk t ht)
  have := hlt x hx y hy
  omega

theorem lookup_name {segs : List SealedImage} (h : segs.Pairwise (fun s t => s.name < t.name))
    {s : SealedImage} (hs : s ∈ segs) :
    (segs.map (fun s => (s.name, s.bytes C))).lookup s.name = some (s.bytes C) := by
  induction segs with
  | nil => simp at hs
  | cons t segs ih =>
    rw [map_cons, lookup_cons]
    rcases mem_cons.1 hs with rfl | hs
    · simp
    · have hne : (s.name == t.name) = false := by
        have := rel_of_pairwise_cons h hs
        simp
        omega
      rw [hne]
      exact ih (pairwise_cons.1 h).2 hs

theorem Realizes.readSegmentsSince (hreal : Realizes C img d) (hok : img.Ok C) (since : Nat)
    {segs : List SealedImage} (hsub : ∀ s ∈ segs, s ∈ img.segments) :
    readSegmentsSince C d since (segs.map summary) = .ok (segs.flatMap (fun s => s.entries.filter
        (fun e => decide (since < e.sequenceNumber)))) := by
  induction segs with
  | nil => rfl
  | cons s segs ih =>
    have hmem : s ∈ img.removed ++ img.segments := mem_append_right _ (hsub s (by simp))
    have hlookup : d.segments.lookup s.name = some (s.bytes C) := by
      rw [hreal.segments]
      exact lookup_name hok.names_lt hmem
    have hpath : s.summary.path.segment? = some s.name := by
      rw [summary, path_summaryOf]
      rfl
    rw [map_cons, CanonicalWal.readSegmentsSince]
    simp only [hpath, Option.bind_some, hlookup, Option.map_some,
      readSealedSegment_bytes (hok.segmentOk s hmem),
      ih (fun t ht => hsub t (by simp [ht])), flatMap_cons]

/-- Segments ruled out by their summaries hold nothing a collection's read would want. -/
theorem filter_flatMap_mayContain (segs : List SealedImage) (collectionId : String) (since : Nat) :
    ((segs.filter (fun s => s.summary.mayContain collectionId since)).flatMap
        (fun s => s.entries.filter (fun e => decide (since < e.sequenceNumber)))).filter
        (ofCollection collectionId) =
      ((segs.flatMap entries).filter
        (fun e => decide (since < e.sequenceNumber))).filter (ofCollection collectionId) := by
  induction segs with
  | nil => rfl
  | cons s segs ih =>
    rw [filter_cons, flatMap_cons, filter_append, filter_append, ← ih]
    cases hmay : s.summary.mayContain collectionId since with
    | true => rw [if_pos rfl, flatMap_cons, filter_append]
    | false =>
      rw [if_neg (by simp)]
      have : (s.entries.filter (fun e => decide (since < e.sequenceNumber))).filter
          (ofCollection collectionId) = [] := filter_eq_nil_of_not_mayContain hmay
      rw [this, nil_append]

/-! ## The range read -/

theorem Serves.readEntriesSince (h : Serves C a img d) (collectionId : String) (since : Nat) :
    ∃ ranged, readEntriesSince C a d collectionId since = .ok ranged ∧
      (∀ e ∈ ranged, e ∈ img.entries) ∧
      ranged.filter (ofCollection collectionId) =
        img.entries.filter (fun e => decide (since < e.sequenceNumber) &&
          ofCollection collectionId e) := by
  obtain ⟨removed, hok, hreal⟩ := h.files
  set reached := img.segments.filter (fun s => s.summary.mayContain collectionId since)
  have hsealed := @Realizes.readSegmentsSince C { img with removed := removed } d hreal hok since
    reached (fun s hs => mem_of_mem_filter hs)
  have hlist : a.sealedList.filter (fun s => s.mayContain collectionId since) =
      reached.map summary := by
    rw [h.agrees.sealedList, filter_map]
    rfl
  have hactive := hreal.readActiveFile hok
  have hsub : ∀ e ∈ reached.flatMap
      (fun s => s.entries.filter (fun e => decide (since < e.sequenceNumber))),
      e ∈ img.entries := by
    intro e he
    obtain ⟨s, hs, hes⟩ := mem_flatMap.1 he
    exact Image.mem_entries_of_segment (mem_of_mem_filter hs) (mem_of_mem_filter hes)
  have hsplit : img.entries.filter (fun e => decide (since < e.sequenceNumber) &&
      ofCollection collectionId e) =
      ((img.segments.flatMap entries).filter
        (fun e => decide (since < e.sequenceNumber))).filter (ofCollection collectionId) ++
      ((framesEntries img.active).filter
        (fun e => decide (since < e.sequenceNumber))).filter (ofCollection collectionId) := by
    rw [← filter_append, ← filter_append, filter_filter]
    refine filter_congr (fun e _ => ?_)
    exact Bool.and_comm _ _
  unfold CanonicalWal.readEntriesSince
  rw [hlist, hsealed]
  dsimp only
  cases hmay : a.active.mayContain collectionId since with
  | true =>
    rw [if_pos rfl, hactive]
    refine ⟨_, rfl, fun e he => ?_, ?_⟩
    · rcases mem_append.1 he with he | he
      · exact hsub e he
      · exact mem_append_right _ (mem_of_mem_filter he)
    · rw [filter_append, filter_flatMap_mayContain, hsplit]
  | false =>
    rw [if_neg (by simp)]
    refine ⟨_, rfl, hsub, ?_⟩
    rw [h.agrees.active] at hmay
    rw [filter_flatMap_mayContain, hsplit, filter_eq_nil_of_not_mayContain hmay, append_nil]

/-- In every state of a clean run with a process on the log, between two operations: both reads
    succeed, a range read filtered to its collection is the full read filtered to the collection's
    entries after the sequence, and it is empty when the high-water mark does not exceed the
    sequence. -/
theorem rangeRead_loses_nothing (h : CleanReachable C w) (hp : w.process = some a)
    (collectionId : String) (since : Nat) : ∃ all ranged, readEntries C w.disk = .ok all ∧
      readEntriesSince C a w.disk collectionId since = .ok ranged ∧
      ranged.filter (ofCollection collectionId) =
        all.filter (fun e => decide (since < e.sequenceNumber) && ofCollection collectionId e) ∧
      ((∀ mark, collectionMaxSequenceFor a collectionId = some mark → mark ≤ since) →
        ranged.filter (ofCollection collectionId) = []) := by
  obtain ⟨img, hinv⟩ := h.invariant
  have hserves := (hinv.up hp).serves
  obtain ⟨ranged, hranged, -, hfilter⟩ := hserves.readEntriesSince collectionId since
  refine ⟨img.entries, ranged, hinv.readEntries, hranged, hfilter, fun hmark => ?_⟩
  rw [hfilter]
  refine filter_eq_nil_iff.2 (fun e he hboth => ?_)
  rw [Bool.and_eq_true, decide_eq_true_iff, ofCollection, beq_iff_eq] at hboth
  obtain ⟨mark, hlookup, hle⟩ := hserves.agrees.covers e he collectionId hboth.2
  have := hmark mark hlookup
  omega

/-- Rotations, a truncation, a restart and one more append. -/
def rotatedLog : List Label :=
  [.complete smoothOpen, .complete (.enableRotation 1), .complete (smoothAppend none ["a"]),
    .complete (smoothAppend none ["b", "a"]), .complete (.truncate ⟨.done, fun _ => true⟩ 2),
    .crash smoothOpen 0 1000, .complete smoothOpen, .complete (smoothAppend none ["a"])]

theorem rangeRead_loses_nothing_rotatedLog : CleanRun codec World.initial rotatedLog ∧
      ∃ a, (runFrom codec World.initial rotatedLog).process = some a ∧
        ∃ all ranged, readEntries codec (runFrom codec World.initial rotatedLog).disk = .ok all ∧
          readEntriesSince codec a (runFrom codec World.initial rotatedLog).disk "a" 2 =
            .ok ranged ∧
          ranged.filter (ofCollection "a") =
            all.filter (fun e => decide (2 < e.sequenceNumber) && ofCollection "a" e) ∧
          ((∀ mark, collectionMaxSequenceFor a "a" = some mark → mark ≤ 2) →
            ranged.filter (ofCollection "a") = []) := by
  have hclean : CleanRun codec World.initial rotatedLog := by decide +kernel
  have hup : (runFrom codec World.initial rotatedLog).process.isSome = true := by decide +kernel
  obtain ⟨a, ha⟩ := Option.isSome_iff_exists.1 hup
  exact ⟨hclean, a, ha, rangeRead_loses_nothing hclean.reflTransGen ha "a" 2⟩

theorem exists_of_any {α : Type} {o : Option α} {P : α → Prop} [DecidablePred P]
    (h : o.any (fun a => decide (P a)) = true) : ∃ a, o = some a ∧ P a := by
  obtain ⟨a, ha, hP⟩ := (Option.any_eq_true _ _).1 h
  exact ⟨a, ha, of_decide_eq_true hP⟩

/-- An append whose sync fails and whose rollback fails too. -/
def failedRollback : List Label :=
  [.complete smoothOpen,
    .complete (.append ⟨true, .syncFails .setLenFails, ⟨.written, true⟩⟩ 0
      [(.recordUpsert "a" none [], none)] false)]

/-- The frame left behind is read by a full read, and no range read returns it: neither the active
    file's summary nor the high-water mark ever saw the entry. -/
theorem failedRollback_missed : ∃ a, (runFrom codec World.initial failedRollback).process = some a ∧
      a.retainedFrom ≤ 0 + 1 ∧
      (readEntries codec (runFrom codec World.initial failedRollback).disk).map
        (fun all => (all.filter (fun e => decide (0 < e.sequenceNumber) &&
          ofCollection "a" e)).map (fun e => e.sequenceNumber)) = .ok [1] ∧
      readEntriesSince codec a (runFrom codec World.initial failedRollback).disk "a" 0 = .ok [] ∧
      collectionMaxSequenceFor a "a" = none := by
  exact exists_of_any (by decide +kernel)

variable {w' : World}

/-! ## What was issued stays issued -/

section Watched

variable (C)

def Label.operation : Label → Operation
  | .complete op => op
  | .crash op _ _ => op

/-- The files after `k` actions of the operation. -/
def during (w : World) (op : Operation) (k : Nat) : Disk :=
  w.disk.applyAll ((planOf C w op).take k)

/-- The append of a step is acknowledged, or its entries can be read after the crash. -/
def Outlives (w : World) : Label → Prop
  | .complete op => acknowledgedBy C w op ≠ []
  | .crash op steps len => ∀ e ∈ framesEntries (framesWritten w op),
      e ∈ readable C (crashIn C w op steps len).disk

/-- A read after `k` actions of a step, where a crash that loses nothing would be clean, that
    returns nothing of an append which is then rolled back, or lost in the crash. -/
structure CleanRead (w : World) (label : Label) (k : Nat) : Prop where
  reached : ∀ op steps len, label = .crash op steps len → k ≤ steps
  clean : CleanCrash C w label.operation k (during C w label.operation k).activeBytes.length
  settled : Outlives C w label ∨ ∀ e ∈ framesEntries (framesWritten w label.operation),
    e ∉ readable C (during C w label.operation k)

/-- Clean steps from one world to another, and what was read in the middle of them. -/
inductive WatchedRun : World → List CanonicalWalEntry → World → Prop
  | refl (w : World) : WatchedRun w [] w
  | step {w w' : World} {label : Label} {moments : List Nat} {reads : List CanonicalWalEntry}
      (hclean : CleanLabel C w label) (hreads : ∀ k ∈ moments, CleanRead C w label k)
      (hrest : WatchedRun (exec C w label) reads w') :
      WatchedRun w
        (moments.flatMap (fun k => readable C (during C w label.operation k)) ++ reads) w'

end Watched

theorem WatchedRun.reflTransGen {reads : List CanonicalWalEntry} (h : WatchedRun C w reads w') :
    Relation.ReflTransGen (CleanStep C) w w' := by
  induction h with
  | refl => exact .refl
  | step hclean _ _ ih => exact .head ⟨_, hclean, rfl⟩ ih

theorem WatchedRun.single {label : Label} {k : Nat} (hclean : CleanLabel C w label)
    (hread : CleanRead C w label k) :
    WatchedRun C w (readable C (during C w label.operation k)) (exec C w label) := by
  have hstep := @WatchedRun.step C w _ label [k] [] hclean (by simpa using hread) (.refl _)
  simpa using hstep

/-- Two sealed segments, the first of them truncated. -/
def truncatedLog : List Label :=
  [.complete smoothOpen, .complete (.enableRotation 1), .complete (smoothAppend none ["a"]),
    .complete (smoothAppend none ["b"]), .complete (.truncate ⟨.done, fun _ => true⟩ 2)]

def restart : List Label := [.crash smoothOpen 0 1000, .complete smoothOpen]

/-- In a clean run, while a process is on the log, a read between two operations returns what was
    acknowledged above the floor, and nothing of an append that failed. -/
theorem served_reads_acked (h : CleanReachable C w) (hp : w.process = some a) :
    ∃ floor, readFloorMarker w.disk = .ok floor ∧ readEntries C w.disk =
      .ok (w.acked.filter (fun e => decide (floor < e.sequenceNumber))) := by
  obtain ⟨img, hinv⟩ := h.invariant
  refine ⟨img.floor, hinv.readFloorMarker, ?_⟩
  rw [hinv.readEntries, ← hinv.recorded.history, (hinv.up hp).acked]

theorem served_reads_acked_truncatedLog :
    let w := runFrom codec World.initial truncatedLog
    ∃ floor, readFloorMarker w.disk = .ok floor ∧ readEntries codec w.disk =
      .ok (w.acked.filter (fun e => decide (floor < e.sequenceNumber))) :=
  served_reads_acked (CleanRun.reflTransGen (by decide)) rfl

/-- A tenant whose text ends like a summary section with a payload of `len` bytes. -/
def sectionTenant (len : Nat) : String :=
  String.ofList ("aaaa".toList ++ [Char.ofNat len, Char.ofNat 0, Char.ofNat 0, Char.ofNat 0] ++
    "PXWSTL01".toList)

end ProximaDb.CanonicalWal
