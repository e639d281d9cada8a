/-
  ProximaDb.CanonicalWal.Truncated

  Truncating the log an appender serves. The victims are the oldest segments, the floor is the
  last sequence among them, and what stays is the history above it, before and after any of the
  deletes.
-/
import ProximaDb.CanonicalWal.Appended

namespace ProximaDb.CanonicalWal

open ProximaDb.Lib List SealedImage Image

variable {C : WalCodec} {img : Image} {d : Disk} {a : Appender}

/-! ## The victims -/

/-- The segments a truncation at `floor` removes. -/
def Image.victims (img : Image) (floor : Nat) : List SealedImage :=
  img.segments.takeWhile (fun s => s.summary.whollyBelow floor)

def Image.survivors (img : Image) (floor : Nat) : List SealedImage :=
  img.segments.dropWhile (fun s => s.summary.whollyBelow floor)

theorem Image.victims_append_survivors (floor : Nat) :
    img.victims floor ++ img.survivors floor = img.segments :=
  takeWhile_append_dropWhile

theorem Matches.victimsBelow (hm : Matches a img) (floor : Nat) :
    victimsBelow a floor = (img.victims (pinnedFloor a floor)).map summary := by
  rw [CanonicalWal.victimsBelow, hm.sealedList, takeWhile_map]
  rfl

/-- The image after a truncation that recorded `through`. -/
def Image.truncate (img : Image) (floor through : Nat) : Image :=
  { img with
    removed := img.removed ++ img.victims floor
    segments := img.survivors floor
    floor := through }

theorem Image.history_truncate (floor through : Nat) :
    (img.truncate floor through).removedEntries ++ (img.truncate floor through).entries =
      img.removedEntries ++ img.entries := by
  rw [history_eq, history_eq, truncate, append_assoc, victims_append_survivors]

/-- What the recorded floor says about the victims. -/
structure Image.Through (img : Image) (floor through : Nat) : Prop where
  reached : ∃ s ∈ img.victims floor, ∃ e ∈ s.entries, e.sequenceNumber = through
  covers : ∀ s ∈ img.victims floor, ∀ e ∈ s.entries, e.sequenceNumber ≤ through
  lt_floor : through < floor

theorem Image.Ok.through (hok : img.Ok C) {floor through : Nat}
    (h : ((img.victims floor).map (fun s => s.summary.lastSeq)).max? = some through) :
    img.Through floor through := by
  obtain ⟨hmem, hle⟩ := List.max?_eq_some_iff.1 h
  obtain ⟨s, hs, hlast⟩ := mem_map.1 hmem
  have hseg : s ∈ img.segments := takeWhile_subset _ hs
  have hsok := hok.segmentOk s (mem_append_right _ hseg)
  obtain ⟨e, he, heq⟩ := lastSeq_mem hsok
  refine ⟨⟨s, hs, e, he, heq.symm.trans hlast⟩, fun t ht x hx => ?_, ?_⟩
  · have hx' : x.sequenceNumber ≤ t.summary.lastSeq := le_lastSeq_summaryOf _ hx
    exact hx'.trans (hle _ (mem_map.2 ⟨t, ht, rfl⟩))
  · have hbelow : s.summary.whollyBelow floor = true :=
      mem_takeWhile_imp (p := fun s : SealedImage => s.summary.whollyBelow floor) hs
    have hfirst : s.summary.firstSeq.isNone = false :=
      firstSeq_summaryOf_isNone _ (entries_ne_nil hsok)
    rw [SegmentSummary.whollyBelow, hfirst, Bool.false_or, decide_eq_true_iff] at hbelow
    omega

section Through

variable {floor through : Nat} (hok : img.Ok C) (hthrough : img.Through floor through)

include hok hthrough

theorem Image.Ok.lt_of_survivor {e : CanonicalWalEntry}
    (he : e ∈ (img.truncate floor through).entries) : through < e.sequenceNumber := by
  obtain ⟨s, hs, x, hx, hxseq⟩ := hthrough.reached
  have hord := hok.order
  rw [← @Image.history_truncate img floor through] at hord
  have hmem : x ∈ (img.truncate floor through).removedEntries :=
    mem_flatMap.2 ⟨s, mem_append_right _ hs, hx⟩
  have := (pairwise_append.1 hord).2.2 x hmem e he
  omega

theorem Image.Ok.floor_lt_through : img.floor < through := by
  obtain ⟨s, hs, x, hx, hxseq⟩ := hthrough.reached
  rw [← hxseq]
  exact hok.above x (mem_entries_of_segment (takeWhile_subset _ hs) hx)

theorem Image.Ok.through_bounded : through + 1 < 2 ^ 64 := by
  obtain ⟨s, hs, x, hx, hxseq⟩ := hthrough.reached
  rw [← hxseq]
  exact hok.bounded x (mem_append_right _ (mem_entries_of_segment (takeWhile_subset _ hs) hx))

theorem Image.Ok.truncate : (img.truncate floor through).Ok C := by
  have hhistory := @Image.history_truncate img floor through
  have hsegs : (img.truncate floor through).removed ++ (img.truncate floor through).segments =
      img.removed ++ img.segments := by
    rw [Image.truncate, append_assoc, Image.victims_append_survivors]
  refine ⟨?_, hok.activeValid, hok.tailOk, ?_, ?_, ?_, ?_, ?_, hok.through_bounded hthrough⟩
  · rw [hsegs]
    exact hok.segmentOk
  · rw [hhistory]
    exact hok.order
  · rw [hhistory]
    exact hok.positive
  · intro e he
    obtain ⟨s, hs, hes⟩ := mem_flatMap.1 he
    rcases mem_append.1 hs with hs | hs
    · have := hok.below e (mem_removedEntries hs hes)
      have := hok.floor_lt_through hthrough
      show e.sequenceNumber ≤ through
      omega
    · exact hthrough.covers s hs e hes
  · exact fun e he => hok.lt_of_survivor hthrough he
  · rw [hhistory]
    exact hok.bounded

theorem Image.Ok.entries_truncate : (img.truncate floor through).entries =
      img.entries.filter (fun e => decide (through < e.sequenceNumber)) := by
  have hsplit : img.entries =
      (img.victims floor).flatMap SealedImage.entries ++ (img.truncate floor through).entries := by
    rw [entries, sealedEntries, ← @Image.victims_append_survivors img floor,
      flatMap_append, append_assoc]
    rfl
  have hgone : ((img.victims floor).flatMap SealedImage.entries).filter
      (fun e => decide (through < e.sequenceNumber)) = [] := by
    refine filter_eq_nil_iff.2 (fun e he => ?_)
    obtain ⟨s, hs, hes⟩ := mem_flatMap.1 he
    have := hthrough.covers s hs e hes
    simp
    omega
  have hkept : (img.truncate floor through).entries.filter
      (fun e => decide (through < e.sequenceNumber)) = (img.truncate floor through).entries :=
    filter_eq_self.2 (fun e he => by simpa using hok.lt_of_survivor hthrough he)
  rw [hsplit, filter_append, hgone, hkept, nil_append]

end Through

/-! ## The files and the memory -/

theorem Realizes.setFloor (h : Realizes C img d) {floor through : Nat}
    (hbound : through + 1 < 2 ^ 64) : Realizes C (img.truncate floor through)
      (Action.apply d (.setFloor (floorText through))) := by
  refine ⟨?_, h.active, readFloorMarker_floorText (by omega)⟩
  show d.segments = _
  rw [h.segments, truncate, append_assoc, victims_append_survivors]

variable (h : Serves C a img d)

include h

theorem Serves.remove {firstSeq : Nat} (hle : firstSeq ≤ img.floor) :
    Serves C a img (Action.apply d (.remove firstSeq)) := by
  obtain ⟨removed, hok, hreal⟩ := h.files
  exact ⟨⟨_, hok.remove firstSeq, hreal.remove hok hle⟩, h.durable, h.sectionDurable, h.synced_le,
    h.agrees⟩

theorem Serves.along_remove {names : List Nat} (hle : ∀ n ∈ names, n ≤ img.floor) :
    Along Action.apply (Serves C a img) d (names.map .remove) := by
  refine along_of_preserves h ?_
  intro action haction t ht
  obtain ⟨n, hn, rfl⟩ := mem_map.1 haction
  exact ht.remove (hle n hn)

theorem Serves.disarm : Serves C { a with branchFence := none } img d :=
  { h with agrees := { h.agrees with } }

theorem Serves.setFloor {floor through : Nat}
    (hthrough : img.Through (pinnedFloor a floor) through) : Serves C { a with
        branchFence := none
        sealedList := a.sealedList.drop (victimsBelow a floor).length
        retainedFrom := max a.retainedFrom (saturatingSucc through) }
      (img.truncate (pinnedFloor a floor) through)
      (Action.apply d (.setFloor (floorText through))) := by
  obtain ⟨removed, hok, hreal⟩ := h.files
  have hthrough' : ({ img with removed := removed } : Image).Through (pinnedFloor a floor) through :=
    { hthrough with }
  have hbound := hok.through_bounded hthrough'
  have hfloor : img.floor < through := hok.floor_lt_through hthrough'
  have hsub : ∀ e ∈ (img.truncate (pinnedFloor a floor) through).entries, e ∈ img.entries := by
    intro e he
    have := hok.entries_truncate hthrough'
    exact mem_of_mem_filter (this ▸ he : e ∈ List.filter _ _)
  refine ⟨⟨_, hok.truncate hthrough', hreal.setFloor hbound⟩, h.durable, h.sectionDurable,
    h.synced_le, ?_⟩
  refine ⟨?_, h.agrees.active, fun e he => h.agrees.counter e (hsub e he), ?_, ?_,
    h.agrees.covers.subset hsub, h.agrees.tail⟩
  · show a.sealedList.drop (CanonicalWal.victimsBelow a floor).length = _
    rw [h.agrees.victimsBelow, h.agrees.sealedList, length_map, ← map_drop,
      ← @Image.victims_append_survivors img (pinnedFloor a floor), drop_left]
    rfl
  · obtain ⟨s, hs, x, hx, hxseq⟩ := hthrough.reached
    have := h.agrees.counter x (mem_entries_of_segment (takeWhile_subset _ hs) hx)
    show through ≤ a.nextSequence
    omega
  · show max a.retainedFrom (saturatingSucc through) = if 0 < through then through + 1 else 0
    rw [h.agrees.retained, saturatingSucc, min_eq_left (by omega)]
    split_ifs <;> omega

/-! ## `truncate_below` -/

omit h in
theorem filterMap_victims (victims : List SealedImage) :
    (victims.map summary).filterMap (fun s => s.path.segment?) = victims.map name := by
  rw [filterMap_map, ← filterMap_eq_map]
  exact filterMap_congr (fun s _ => by simp [summary, WalPath.segment?])

theorem Serves.truncateBelow_idle :
    img.entries = img.entries.filter (fun e => decide (img.floor < e.sequenceNumber)) ∧
      Serves C { a with branchFence := none } img (d.applyAll []) ∧
      ∀ n, Serves C a img (d.applyAll (([] : List Action).take n)) ∨
        Serves C { a with branchFence := none } img (d.applyAll (([] : List Action).take n)) := by
  obtain ⟨removed, hok, -⟩ := h.files
  refine ⟨(filter_eq_self.2 (fun e he => ?_)).symm, h.disarm, fun n => ?_⟩
  · simpa using hok.above e he
  · rw [take_nil]
    exact Or.inl h

/-- What a clean truncation leaves: the history above a floor that no pin forbids. At each of its
    points the appender serves the files from before or from after. -/
theorem Serves.truncateBelow {io : TruncateIo} {floor : Nat}
    (hmarker : io.marker ≠ .directorySyncFails) : ∃ img' : Image, (img'.floor = img.floor ∨
        img.floor < img'.floor ∧ img'.floor < pinnedFloor a floor ∧
          ∃ e ∈ img.entries, e.sequenceNumber = img'.floor) ∧
      img'.entries = img.entries.filter (fun e => decide (img'.floor < e.sequenceNumber)) ∧
      Serves C (truncateBelow io floor a).appender img'
        (d.applyAll (truncateBelow io floor a).plan) ∧
      ∀ n, Serves C a img (d.applyAll ((truncateBelow io floor a).plan.take n)) ∨
        Serves C (truncateBelow io floor a).appender img'
          (d.applyAll ((truncateBelow io floor a).plan.take n)) := by
  have hidle := h.truncateBelow_idle
  unfold CanonicalWal.truncateBelow
  cases hmax : ((victimsBelow a floor).map (fun s => s.lastSeq)).max? with
  | none =>
    simp only [hmax]
    exact ⟨img, Or.inl rfl, hidle⟩
  | some through =>
    cases hfence : fenceRefuses a (victimsBelow a floor) through with
    | some refused =>
      simp only [hmax, hfence]
      exact ⟨img, Or.inl rfl, hidle⟩
    | none =>
      cases hm : io.marker with
      | fails =>
        simp only [hmax, hfence]
        exact ⟨img, Or.inl rfl, hidle⟩
      | directorySyncFails => exact absurd hm hmarker
      | done =>
        simp only [hmax, hfence]
        obtain ⟨removed, hok, hreal⟩ := h.files
        rw [h.agrees.victimsBelow, map_map] at hmax
        have hthrough' := hok.through hmax
        have hthrough : img.Through (pinnedFloor a floor) through := { hthrough' with }
        have hset := h.setFloor hthrough
        have hnames : ∀ n ∈ ((victimsBelow a floor).filterMap
            (fun s => s.path.segment?)).filter io.deletes, n ≤ through := by
          intro n hn
          rw [h.agrees.victimsBelow, filterMap_victims] at hn
          obtain ⟨s, hs, rfl⟩ := mem_map.1 (mem_filter.1 hn).1
          have hseg : s ∈ img.segments := takeWhile_subset _ hs
          obtain ⟨e, he, hname⟩ :=
            exists_name (hok.segmentOk s (mem_append_right _ hseg))
          exact hname ▸ hthrough.covers s hs e he
        have halong := hset.along_remove hnames
        obtain ⟨s, hs, e, he, hseq⟩ := hthrough.reached
        have hmem : e ∈ img.entries := mem_entries_of_segment (takeWhile_subset _ hs) he
        refine ⟨img.truncate (pinnedFloor a floor) through,
          Or.inr ⟨hok.floor_lt_through hthrough', hthrough.lt_floor, e, hmem, hseq⟩,
          hok.entries_truncate hthrough', halong.last, fun n => ?_⟩
        cases n with
        | zero => exact Or.inl h
        | succ n => exact Or.inr (halong n)

omit h in
theorem truncateBelow_active {io : TruncateIo} {floor : Nat} (n : Nat) :
    (d.applyAll ((truncateBelow io floor a).plan.take n)).active = d.active ∧
      ∀ bytes, ((truncateBelow io floor a).plan.take n).getLast? ≠ some (.writeSection bytes) := by
  have hkeep : ∀ action ∈ (CanonicalWal.truncateBelow io floor a).plan,
      (∃ text, action = .setFloor text) ∨ ∃ name, action = .remove name := by
    unfold CanonicalWal.truncateBelow
    intro action haction
    dsimp only at haction
    split at haction
    · simp at haction
    · split at haction
      · simp at haction
      · split at haction
        · simp at haction
        · exact Or.inl ⟨_, mem_singleton.1 haction⟩
        · rcases mem_cons.1 haction with rfl | haction
          · exact Or.inl ⟨_, rfl⟩
          · obtain ⟨name, -, rfl⟩ := mem_map.1 haction
            exact Or.inr ⟨name, rfl⟩
  refine ⟨?_, fun bytes hlast => ?_⟩
  · have halong : Along Action.apply (fun t => t.active = d.active) d
        (CanonicalWal.truncateBelow io floor a).plan := by
      refine along_of_preserves rfl (fun action haction t ht => ?_)
      rcases hkeep action haction with ⟨text, rfl⟩ | ⟨name, rfl⟩ <;> exact ht
    exact halong n
  · have hmem := mem_of_mem_take (mem_of_getLast? hlast)
    rcases hkeep _ hmem with ⟨text, h⟩ | ⟨name, h⟩ <;> cases h

end ProximaDb.CanonicalWal
