/-
  ProximaDb.Queue.Consumer

  The subscription of a consumer to one partition: the deliveries that are not yet committed, in
  the order they were read, and the offset the next read starts at. An acknowledgement commits the
  offset of the last delivery of the acknowledged front.
-/
import ProximaDb.Queue.MemoryTier

namespace ProximaDb.Queue

open ProximaDb.Lib List

structure Pending where
  memo : MemoryEntry
  acknowledged : Bool
  retry : Bool
  deriving DecidableEq

open Pending

structure InFlight where
  pending : List Pending := []
  nextReadOffset : Nat := 0
  deriving DecidableEq

/-- What of a pending delivery a retry leaves as it is. -/
def Pending.key (p : Pending) : MessageId × Nat × Bool :=
  (p.memo.messageId, p.memo.offset, p.acknowledged)

def Pending.delivery (p : Pending) : Delivery := ⟨p.memo.messageId, p.memo.message⟩

def Pending.retried (p : Pending) : Pending :=
  { p with
    memo := { p.memo with
      message := { p.memo.message with attemptCount := p.memo.message.attemptCount + 1 } }
    retry := false }

def Pending.first (memo : MemoryEntry) : Pending := ⟨memo, false, false⟩

namespace InFlight

/-- The first loop of `poll_locked`: deliveries marked for a retry, up to the room; the flag says
    that an attempt count could not be raised. -/
def redeliver : List Pending → Nat → List Delivery × List Pending × Bool
  | [], _ => ([], [], false)
  | p :: rest, room =>
    if p.retry = false then
      ((redeliver rest room).1, p :: (redeliver rest room).2.1, (redeliver rest room).2.2)
    else if room = 0 then ([], p :: rest, false)
    else if p.memo.message.attemptCount + 1 < 2 ^ 32 then
      (p.retried.delivery :: (redeliver rest (room - 1)).1,
        p.retried :: (redeliver rest (room - 1)).2.1, (redeliver rest (room - 1)).2.2)
    else ([], p :: rest, true)

/-- The second loop: what was read becomes pending and moves the cursor; the flag says that an
    offset has no successor. -/
def admitBatch : List MemoryEntry → InFlight → List Delivery × InFlight × Bool
  | [], t => ([], t, false)
  | memo :: rest, t =>
    match checkedSucc memo.offset with
    | none => ([], t, true)
    | some next =>
      let t' : InFlight := ⟨t.pending ++ [.first memo], next⟩
      ((Pending.first memo).delivery :: (admitBatch rest t').1, (admitBatch rest t').2)

def pollLocked (t : InFlight) (memory : PartitionMemory) (maxBatch : Nat) :
    Except String (List Delivery) × InFlight :=
  let (out, pending, exhausted) := redeliver t.pending maxBatch
  let t : InFlight := { t with pending }
  if exhausted then (.error "delivery attempt count overflow", t)
  else
    let batch := memory.readFrom t.nextReadOffset (maxBatch - out.length)
    let (fresh, t, overflow) := admitBatch batch t
    if overflow then (.error "delivery offset overflow", t)
    else (.ok (out ++ fresh), t)

/-- Whether an acknowledgement of `ids` covers a delivery. -/
def covers (ids : List MessageId) (p : Pending) : Bool :=
  p.acknowledged || decide (p.memo.messageId ∈ ids)

/-- The front of the deliveries that an acknowledgement completes. -/
def completed (t : InFlight) (ids : List MessageId) : List Pending :=
  t.pending.takeWhile (covers ids)

/-- The offset an acknowledgement commits, if it completes a front. -/
def commitPoint (t : InFlight) (ids : List MessageId) : Option Nat :=
  (t.completed ids).getLast?.map (fun p => p.memo.offset)

/-- Whether an acknowledgement names a pending delivery at all. -/
def names (t : InFlight) (ids : List MessageId) : Bool :=
  t.pending.any (fun p => decide (p.memo.messageId ∈ ids))

/-- The subscription behind an acknowledgement that went through. -/
def ackLocked (t : InFlight) (ids : List MessageId) : InFlight :=
  { t with
    pending := (t.pending.map (fun p =>
      if p.memo.messageId ∈ ids then { p with acknowledged := true, retry := false } else p)).drop
        (t.completed ids).length }

def nackLocked (t : InFlight) (ids : List MessageId) : InFlight :=
  { t with
    pending := t.pending.map (fun p =>
      if p.memo.messageId ∈ ids then { p with acknowledged := false, retry := true } else p) }

/-! ## What a poll does -/

theorem redeliver_keys (l : List Pending) (room : Nat) :
    (redeliver l room).2.1.map key = l.map key := by
  induction l generalizing room with
  | nil => rfl
  | cons p rest ih =>
    rw [redeliver]
    split_ifs with hretry hroom hattempt
    · simp [ih]
    · rfl
    · simp only [map_cons, ih]
      rfl
    · rfl

theorem mem_redeliver {l : List Pending} {room : Nat} {d : Delivery}
    (h : d ∈ (redeliver l room).1) : ∃ p ∈ l, d.messageId = p.memo.messageId := by
  fun_induction redeliver l room with
  | case1 | case3 | case5 => cases h
  | case2 p rest room hretry ih => exact exists_mem_cons_of_exists (ih h)
  | case4 p rest room hretry hroom hattempt ih =>
    rcases mem_cons.1 h with rfl | hd
    · exact ⟨p, mem_cons_self, rfl⟩
    · exact exists_mem_cons_of_exists (ih hd)

def cursorAfter (batch : List MemoryEntry) (cursor : Nat) : Nat :=
  (batch.getLast?.map (fun memo => memo.offset + 1)).getD cursor

theorem admitBatch_eq {batch : List MemoryEntry} (t : InFlight)
    (h : ∀ memo ∈ batch, memo.offset + 1 < 2 ^ 64) :
    admitBatch batch t = (batch.map (fun memo => (first memo).delivery),
      ⟨t.pending ++ batch.map first, cursorAfter batch t.nextReadOffset⟩, false) := by
  induction batch generalizing t with
  | nil => simp [admitBatch, cursorAfter]
  | cons memo rest ih =>
    have hsucc := checkedSucc_eq_some.2 ⟨h memo mem_cons_self, rfl⟩
    rw [admitBatch, hsucc]
    dsimp only
    rw [ih _ (fun m hm => h m (mem_cons_of_mem _ hm))]
    have hcursor : cursorAfter rest (memo.offset + 1) =
        cursorAfter (memo :: rest) t.nextReadOffset := by
      cases rest with
      | nil => rfl
      | cons next rest =>
        rw [cursorAfter, cursorAfter, List.getLast?_cons_cons,
          List.getLast?_eq_some_getLast (cons_ne_nil next rest)]
        rfl
    simp [hcursor]

/-- A poll: the pending deliveries keep what they are; either nothing else happens, or a front of
    the messages from the cursor on is read, becomes pending and moves the cursor. -/
theorem pollLocked_cases (t : InFlight) (memory : PartitionMemory) (maxBatch : Nat)
    (hbound : ∀ e ∈ memory.entries.entries, e.2.offset + 1 < 2 ^ 64) :
    ∃ pending, pending.map key = t.pending.map key ∧
      ((∃ error, t.pollLocked memory maxBatch = (.error error, { t with pending })) ∨
      ∃ out batch, (∀ d ∈ out, ∃ p ∈ t.pending, d.messageId = p.memo.messageId) ∧
        batch <+: (memory.entries.entries.filter
          (fun e => decide (t.nextReadOffset ≤ e.1))).map Prod.snd ∧
        t.pollLocked memory maxBatch = (.ok (out ++ batch.map (fun memo => (first memo).delivery)),
            ⟨pending ++ batch.map first, cursorAfter batch t.nextReadOffset⟩)) := by
  refine ⟨(redeliver t.pending maxBatch).2.1, redeliver_keys _ _, ?_⟩
  unfold pollLocked
  cases hexhausted : (redeliver t.pending maxBatch).2.2 with
  | true => exact .inl ⟨"delivery attempt count overflow", by simp [hexhausted]⟩
  | false =>
    have hfront := memory.readFrom_prefix t.nextReadOffset
      (maxBatch - (redeliver t.pending maxBatch).1.length)
    refine .inr ⟨(redeliver t.pending maxBatch).1, _, fun d hd => mem_redeliver hd, hfront, ?_⟩
    have hoffsets : ∀ memo ∈ memory.readFrom t.nextReadOffset
        (maxBatch - (redeliver t.pending maxBatch).1.length), memo.offset + 1 < 2 ^ 64 := by
      intro memo hmemo
      obtain ⟨e, he, rfl⟩ := mem_map.1 (hfront.subset hmemo)
      exact hbound e (mem_filter.1 he).1
    simp [hexhausted, admitBatch_eq _ hoffsets]

variable {p : Pending}

theorem mem_of_keys {l l' : List Pending} (h : l'.map key = l.map key)
    (hp : p ∈ l') : ∃ q ∈ l, q.memo.messageId = p.memo.messageId ∧
      q.memo.offset = p.memo.offset ∧ q.acknowledged = p.acknowledged := by
  have hkey : p.key ∈ l.map key := h ▸ mem_map_of_mem hp
  obtain ⟨q, hq, heq⟩ := mem_map.1 hkey
  simp only [key, Prod.mk.injEq] at heq
  exact ⟨q, hq, heq⟩

theorem cursorAfter_cases (batch : List MemoryEntry) (cursor : Nat) :
    (batch = [] ∧ cursorAfter batch cursor = cursor) ∨
      ∃ memo, batch.getLast? = some memo ∧ cursorAfter batch cursor = memo.offset + 1 := by
  unfold cursorAfter
  cases hlast : batch.getLast? with
  | none => exact .inl ⟨List.getLast?_eq_none_iff.1 hlast, rfl⟩
  | some memo => exact .inr ⟨memo, rfl, rfl⟩

/-! ## What an acknowledgement does -/

section Acks

variable {t : InFlight} {ids : List MessageId}

theorem mem_ackLocked (h : p ∈ (t.ackLocked ids).pending) : ∃ q ∈ t.pending, p.memo = q.memo ∧
      (p.acknowledged = true → q.acknowledged = true ∨ q.memo.messageId ∈ ids) := by
  obtain ⟨q, hq, rfl⟩ := mem_map.1 (mem_of_mem_drop h)
  refine ⟨q, hq, ?_, fun hacked => ?_⟩
  · split_ifs <;> rfl
  · by_cases hid : q.memo.messageId ∈ ids
    · exact .inr hid
    · rw [if_neg hid] at hacked
      exact .inl hacked

theorem mem_nackLocked (h : p ∈ (t.nackLocked ids).pending) :
    ∃ q ∈ t.pending, p.memo = q.memo ∧ (p.acknowledged = true → q.acknowledged = true) := by
  obtain ⟨q, hq, rfl⟩ := mem_map.1 h
  refine ⟨q, hq, ?_, fun hacked => ?_⟩
  · split_ifs <;> rfl
  · by_cases hid : q.memo.messageId ∈ ids
    · rw [if_pos hid] at hacked
      cases hacked
    · rwa [if_neg hid] at hacked

theorem commitPoint_eq_some {offset : Nat} (h : t.commitPoint ids = some offset) :
    ∃ p ∈ t.completed ids, p ∈ t.pending ∧ p.memo.offset = offset := by
  obtain ⟨p, hp, rfl⟩ := Option.map_eq_some_iff.1 h
  have hmem := mem_of_getLast? hp
  exact ⟨p, hmem, (List.takeWhile_prefix _).subset hmem, rfl⟩

/-- Deliveries in order of their offsets: those up to the committed one are completed. -/
theorem mem_completed_of_le (hsorted : (t.pending.map (fun p => p.memo.offset)).Pairwise (· < ·))
    {offset : Nat} (hpoint : t.commitPoint ids = some offset) (hp : p ∈ t.pending)
    (hle : p.memo.offset ≤ offset) : p ∈ t.completed ids := by
  obtain ⟨last, hlast, -, rfl⟩ := commitPoint_eq_some hpoint
  have hsplit : t.completed ids ++ t.pending.dropWhile (covers ids) = t.pending :=
    takeWhile_append_dropWhile
  rw [← hsplit] at hp hsorted
  rcases mem_append.1 hp with hin | hin
  · exact hin
  · rw [map_append, pairwise_append] at hsorted
    have hlt := hsorted.2.2 last.memo.offset (mem_map.2 ⟨last, hlast, rfl⟩) p.memo.offset
      (mem_map.2 ⟨p, hin, rfl⟩)
    exact absurd hle (Nat.not_le.2 hlt)

theorem covered_of_completed (h : p ∈ t.completed ids) :
    p.acknowledged = true ∨ p.memo.messageId ∈ ids := by
  have hcovered := mem_takeWhile_imp h
  rcases Bool.or_eq_true_iff.1 hcovered with hacked | hnamed
  · exact .inl hacked
  · exact .inr (of_decide_eq_true hnamed)

theorem completed_or_mem_ackLocked (h : p ∈ t.pending) :
    p ∈ t.completed ids ∨ ∃ q ∈ (t.ackLocked ids).pending, q.memo = p.memo := by
  have hsplit : t.pending = t.completed ids ++ t.pending.dropWhile (covers ids) :=
    takeWhile_append_dropWhile.symm
  rw [hsplit] at h
  rcases mem_append.1 h with hin | hin
  · exact .inl hin
  · right
    let f : Pending → Pending := fun p =>
      if p.memo.messageId ∈ ids then { p with acknowledged := true, retry := false } else p
    have hrest : (t.ackLocked ids).pending = (t.pending.dropWhile (covers ids)).map f := by
      show (t.pending.map f).drop (t.completed ids).length = _
      conv_lhs => rw [hsplit, map_append]
      rw [drop_left' (length_map f)]
    rw [hrest]
    refine ⟨f p, mem_map_of_mem hin, ?_⟩
    show (if p.memo.messageId ∈ ids then _ else p).memo = p.memo
    split_ifs <;> rfl

theorem ackLocked_sorted (hsorted : (t.pending.map (fun p => p.memo.offset)).Pairwise (· < ·)) :
    ((t.ackLocked ids).pending.map (fun p => p.memo.offset)).Pairwise (· < ·) := by
  unfold ackLocked
  rw [map_drop, map_map]
  refine List.Pairwise.sublist (drop_sublist _ _) ?_
  rwa [show ((fun p => p.memo.offset) ∘ fun p =>
      if p.memo.messageId ∈ ids then { p with acknowledged := true, retry := false } else p) =
        (fun p : Pending => p.memo.offset) from funext (fun p => by
          dsimp only [Function.comp]
          split_ifs <;> rfl)]

theorem nackLocked_offsets : (t.nackLocked ids).pending.map (fun p => p.memo.offset) =
    t.pending.map (fun p => p.memo.offset) := by
  unfold nackLocked
  rw [map_map]
  refine map_congr_left (fun p _ => ?_)
  dsimp only [Function.comp]
  split_ifs <;> rfl

theorem mem_nackLocked_of_mem (h : p ∈ t.pending) :
    ∃ q ∈ (t.nackLocked ids).pending, q.memo = p.memo := by
  refine ⟨_, mem_map_of_mem h, ?_⟩
  split_ifs <;> rfl

end Acks

end InFlight

end ProximaDb.Queue
