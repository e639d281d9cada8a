/-
  ProximaDb.Queue.DiskTier

  A partition's directory and the writer of its segments: the segment files with what of them is
  synced, the archive and the markers of uploaded segments, and the progress of every group.
-/
import ProximaDb.Lib.KeyedFold
import ProximaDb.Queue.MemoryTier

namespace ProximaDb.Queue

open ProximaDb.Lib List

/-! ## The directory -/

/-- A segment file; its first `synced` bytes survive a crash. -/
structure SegmentFile where
  bytes : Bytes := []
  synced : Nat := 0
  deriving DecidableEq

structure PartitionDir where
  segments : OrdMap Nat SegmentFile := ∅
  archive : OrdMap Nat Bytes := ∅
  /-- the segments with an `.uploaded` marker -/
  uploaded : List Nat := []
  /-- the registered groups, with the committed offset of those that have one -/
  groups : KeyMap String (Option Nat) := ∅

/-- The least progress; a group without any is below all others. -/
def leastProgress (seen : List (Option Nat)) : Option Nat :=
  if none ∈ seen then none else (seen.filterMap id).min?

namespace PartitionDir

/-- `QueueFs::append` on a segment file, which creates it if it is absent. -/
def append (dir : PartitionDir) (id : Nat) (data : Bytes) : PartitionDir :=
  let file := (dir.segments.get? id).getD {}
  { dir with segments := dir.segments.insert id { file with bytes := file.bytes ++ data } }

/-- `QueueFs::fsync` on a segment file. -/
def fsync (dir : PartitionDir) (id : Nat) : PartitionDir :=
  { dir with segments := dir.segments.map (fun k file =>
      if k = id then { file with synced := file.bytes.length } else file) }

/-! ## Group progress -/

/-- `offset_store::read`. -/
def committed (dir : PartitionDir) (group : String) : Option Nat := (dir.groups.lookup group).join

/-- A group with a lease and possibly no progress. -/
def register (dir : PartitionDir) (group : String) : PartitionDir :=
  { dir with groups := dir.groups.insert group (dir.committed group) }

/-- `offset_store::commit`: progress never goes back. -/
def commit (dir : PartitionDir) (group : String) (offset : Nat) : PartitionDir :=
  { dir with
    groups := dir.groups.insert group (some ((dir.committed group).elim offset (max · offset))) }

def progress (dir : PartitionDir) : List (Option Nat) := dir.groups.entries.map Sigma.snd

/-- The least committed offset. -/
def minCommitted (dir : PartitionDir) : Option Nat := leastProgress dir.progress

def maxCommitted (dir : PartitionDir) : Option Nat := (dir.progress.filterMap id).max?

end PartitionDir

/-! ## The writer -/

structure PartitionDiskWriter where
  rotationBytes : Nat
  activeSegmentId : Nat
  activeSegmentSize : Nat
  nextOffset : Nat := 0
  deriving DecidableEq

namespace PartitionDiskWriter

/-- Resume at the highest segment, or touch the first. -/
def openOn (rotationBytes : Nat) (dir : PartitionDir) : PartitionDiskWriter × PartitionDir :=
  match dir.segments.entries.getLast? with
  | some (id, file) =>
    ({ rotationBytes, activeSegmentId := id, activeSegmentSize := file.bytes.length }, dir)
  | none => ({ rotationBytes, activeSegmentId := 0, activeSegmentSize := 0 }, dir.append 0 [])

def setNextOffset (w : PartitionDiskWriter) (value : Nat) : PartitionDiskWriter :=
  { w with nextOffset := value }

/-- `none` if the segment ids are exhausted. -/
def advancePastRecoveredSegment (w : PartitionDiskWriter) (recovered : Nat) (dir : PartitionDir) :
    Option (PartitionDiskWriter × PartitionDir) :=
  if recovered < w.activeSegmentId then some (w, dir)
  else
    (checkedSucc recovered).map (fun id =>
      ({ w with activeSegmentId := id, activeSegmentSize := 0 }, dir.append id []))

/-- The first part of `append`: the offset of a message, `none` if they are exhausted. -/
def reserve (w : PartitionDiskWriter) : Option (Nat × PartitionDiskWriter) :=
  (checkedSucc w.nextOffset).map (fun next => (w.nextOffset, { w with nextOffset := next }))

/-- Seal the active segment if a frame of this length would pass the rotation size. -/
def rotate (w : PartitionDiskWriter) (frameLen : Nat) (dir : PartitionDir) :
    PartitionDiskWriter × PartitionDir :=
  if 0 < w.activeSegmentSize ∧ w.rotationBytes < w.activeSegmentSize + frameLen then
    ({ w with activeSegmentId := w.activeSegmentId + 1, activeSegmentSize := 0 },
      dir.append (w.activeSegmentId + 1) [])
  else (w, dir)

/-- The second part of `append`, under the lock: the frame goes to the active segment. -/
def writeFrame (w : PartitionDiskWriter) (framed : Bytes) (dir : PartitionDir) :
    PartitionDiskWriter × PartitionDir :=
  let (w, dir) := w.rotate framed.length dir
  ({ w with activeSegmentSize := w.activeSegmentSize + framed.length },
    dir.append w.activeSegmentId framed)

end PartitionDiskWriter

/-! ## Uploads and reaping -/

/-- The highest position's offset in a segment, read by the frame headers alone. -/
def lastOffsetInSegment (bytes : Bytes) : Option Nat := (frames bytes).getLast?.map Prod.fst

namespace PartitionDir

/-- `upload_segment` of a sealed segment: an uploaded or empty one is left alone. -/
def uploadSegment (dir : PartitionDir) (id : Nat) : PartitionDir :=
  match dir.segments.get? id with
  | none => dir
  | some file =>
    if id ∈ dir.uploaded ∨ file.bytes = [] then dir
    else { dir with archive := dir.archive.insert id file.bytes, uploaded := id :: dir.uploaded }

/-- The file of a segment and its marker are unlinked. -/
def unlink (dir : PartitionDir) (id : Nat) : PartitionDir :=
  { dir with segments := dir.segments.erase id, uploaded := dir.uploaded.filter (· ≠ id) }

/-- `maybe_reap` of a sealed segment, with the least progress the scan has read. -/
def maybeReapAt (dir : PartitionDir) (archiveConfigured : Bool)
    (committed : Option Nat) (id : Nat) : PartitionDir :=
  match dir.segments.get? id with
  | none => dir
  | some file =>
    if archiveConfigured = true ∧ id ∉ dir.uploaded then dir
    else
      match committed, lastOffsetInSegment file.bytes with
      | none, _ => dir
      | some _, none => dir.unlink id
      | some committed, some last => if committed < last then dir else dir.unlink id

/-- `maybe_reap` of a sealed segment, with the least progress there is. -/
def maybeReap (dir : PartitionDir) (archiveConfigured : Bool) (id : Nat) : PartitionDir :=
  dir.maybeReapAt archiveConfigured dir.minCommitted id

/-- The bytes of a segment; one that is absent has none. -/
def bytesOf (dir : PartitionDir) (id : Nat) : Bytes := ((dir.segments.get? id).getD {}).bytes

/-! ## What the operations do -/

section Lemmas

variable {dir : PartitionDir} {id : Nat} {group : String} {offset : Nat} {k : Nat}

theorem mem_append {data : Bytes} {e : Nat × SegmentFile} :
    e ∈ (dir.append id data).segments.entries ↔
      e = (id, { (dir.segments.get? id).getD {} with
        bytes := ((dir.segments.get? id).getD {}).bytes ++ data }) ∨
      (e ∈ dir.segments.entries ∧ e.1 ≠ id) := OrdMap.mem_insert

theorem mem_fsync {file : SegmentFile} :
    (k, file) ∈ (dir.fsync id).segments.entries ↔ ∃ old, (k, old) ∈ dir.segments.entries ∧
      (if k = id then { old with synced := old.bytes.length } else old) = file := OrdMap.mem_map

theorem committed_commit (dir : PartitionDir) (group : String) (offset : Nat) (group' : String) :
    (dir.commit group offset).committed group' =
      if group' = group then some ((dir.committed group).elim offset (max · offset))
      else dir.committed group' := by
  unfold committed commit
  rw [lookup_insert_eq]
  split_ifs <;> rfl

theorem committed_of_commit {offset c : Nat}
    (h : (dir.commit group offset).committed group = some c) :
    dir.committed group = some c ∨ c = offset := by
  rw [committed_commit, if_pos rfl] at h
  cases hprev : dir.committed group with
  | none =>
    rw [hprev] at h
    exact .inr (Option.some.inj h).symm
  | some prev =>
    rw [hprev] at h
    rcases max_choice prev offset with hmax | hmax
    · exact .inl (by rw [← hmax]; exact h)
    · exact .inr (by rw [← hmax]; exact (Option.some.inj h).symm)

theorem committed_register (dir : PartitionDir) (group group' : String) :
    (dir.register group).committed group' = dir.committed group' := by
  unfold register committed
  rw [lookup_insert_eq]
  split_ifs with h
  · subst h
    cases dir.groups.lookup group' <;> rfl
  · rfl

theorem mem_progress : some offset ∈ dir.progress ↔ ∃ group, dir.committed group = some offset := by
  unfold progress committed
  constructor
  · intro h
    obtain ⟨⟨group, value⟩, hmem, hvalue⟩ := mem_map.1 h
    subst hvalue
    exact ⟨group, by rw [AList.mem_lookup_iff.2 hmem]; rfl⟩
  · rintro ⟨group, h⟩
    have hlookup := Option.join_eq_some_iff.1 h
    exact mem_map.2 ⟨⟨group, some offset⟩, AList.mem_lookup_iff.1 hlookup, rfl⟩

theorem le_maxCommitted (h : dir.committed group = some offset) :
    ∃ top, dir.maxCommitted = some top ∧ offset ≤ top := by
  have hmem : offset ∈ dir.progress.filterMap id :=
    mem_filterMap.2 ⟨some offset, mem_progress.2 ⟨group, h⟩, rfl⟩
  cases htop : dir.maxCommitted with
  | none =>
    rw [max?_eq_none_iff.1 htop] at hmem
    cases hmem
  | some top => exact ⟨top, rfl, (max?_eq_some_iff.1 htop).2 offset hmem⟩

theorem minCommitted_attained {least : Nat} (h : dir.minCommitted = some least) :
    ∃ group, dir.committed group = some least := by
  unfold minCommitted leastProgress at h
  split_ifs at h with hnone
  have hmem := (min?_eq_some_iff.1 h).1
  obtain ⟨value, hvalue, hid⟩ := mem_filterMap.1 hmem
  exact mem_progress.1 (hid ▸ hvalue)

/-! ## What leaves group progress alone -/

@[simp] theorem groups_uploadSegment : (dir.uploadSegment id).groups = dir.groups := by
  unfold uploadSegment
  split
  · rfl
  · split_ifs <;> rfl

theorem segments_uploadSegment : (dir.uploadSegment id).segments = dir.segments := by
  unfold uploadSegment
  split
  · rfl
  · split_ifs <;> rfl

theorem archive_uploadSegment (h : k ≠ id) :
    (dir.uploadSegment id).archive.get? k = dir.archive.get? k := by
  unfold uploadSegment
  split
  · rfl
  · split_ifs
    · rfl
    · exact (OrdMap.get?_insert _ _ _ _).trans (if_neg h)

/-- A segment is left alone, or unlinked: it is uploaded if it has to be, and its last frame is
    behind the progress. -/
theorem maybeReapAt_cases (dir : PartitionDir) (archiveConfigured : Bool) (committed : Option Nat)
    (id : Nat) : dir.maybeReapAt archiveConfigured committed id = dir ∨
      (dir.maybeReapAt archiveConfigured committed id = dir.unlink id ∧
        (archiveConfigured = true → id ∈ dir.uploaded) ∧ ∃ c, committed = some c ∧
          ∀ last, lastOffsetInSegment (dir.bytesOf id) = some last → last ≤ c) := by
  unfold maybeReapAt bytesOf
  cases dir.segments.get? id with
  | none => exact .inl rfl
  | some file =>
    dsimp only [Option.getD_some]
    split_ifs with hpending
    · exact .inl rfl
    · have huploaded : archiveConfigured = true → id ∈ dir.uploaded := by
        intro harchive
        by_contra hnot
        exact hpending ⟨harchive, hnot⟩
      split
      case h_1 => exact .inl rfl
      case h_2 c hlast =>
        refine .inr ⟨rfl, huploaded, c, rfl, fun last hl => ?_⟩
        rw [hlast] at hl
        cases hl
      case h_3 c last hlast =>
        split_ifs with hbehind
        · exact .inl rfl
        · refine .inr ⟨rfl, huploaded, c, rfl, fun last' hl => ?_⟩
          rw [hlast] at hl
          cases hl
          exact Nat.le_of_not_lt hbehind

theorem maybeReap_cases (dir : PartitionDir) (archiveConfigured : Bool) (id : Nat) :
    dir.maybeReap archiveConfigured id = dir ∨ (dir.maybeReap archiveConfigured id = dir.unlink id ∧
      (archiveConfigured = true → id ∈ dir.uploaded) ∧ ∃ c, dir.minCommitted = some c ∧
        ∀ last, lastOffsetInSegment (dir.bytesOf id) = some last → last ≤ c) :=
  maybeReapAt_cases dir archiveConfigured dir.minCommitted id

@[simp] theorem groups_maybeReap (archiveConfigured : Bool) :
    (dir.maybeReap archiveConfigured id).groups = dir.groups := by
  rcases maybeReap_cases dir archiveConfigured id with h | ⟨h, -⟩
  · rw [h]
  · rw [h]
    rfl

end Lemmas

end PartitionDir

namespace PartitionDiskWriter

variable (w : PartitionDiskWriter) (framed : Bytes) (dir : PartitionDir)

@[simp] theorem groups_writeFrame : (w.writeFrame framed dir).2.groups = dir.groups := by
  unfold writeFrame rotate
  split_ifs <;> rfl

@[simp] theorem nextOffset_writeFrame : (w.writeFrame framed dir).1.nextOffset = w.nextOffset := by
  unfold writeFrame rotate
  split_ifs <;> rfl

theorem archive_writeFrame : (w.writeFrame framed dir).2.archive = dir.archive := by
  unfold writeFrame rotate
  split_ifs <;> rfl

end PartitionDiskWriter

end ProximaDb.Queue
