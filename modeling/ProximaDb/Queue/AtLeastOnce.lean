/-
  ProximaDb.Queue.AtLeastOnce

  Delivery to one group with one consumer. A read takes the first message at or above the cursor,
  wherever it is, and the cursor moves behind what was read.
-/
import ProximaDb.Queue.Sound

namespace ProximaDb.Queue

open ProximaDb.Lib List InFlight Running PartitionDir PartitionMemory Pending MemoryEntry

variable {C : MessageCodec} {cfg : TopicConfig} {group : String} {batch : List MemoryEntry}
  {offset : Nat} {r : Running}

/-- A process that has just opened a partition nobody has used. -/
def fresh (cfg : TopicConfig) : Running := openPartition cfg {} {}

/-- Every message at or below the committed offset whose send returned a receipt was delivered to
    the group and acknowledged by it. -/
def AtLeastOnce (cfg : TopicConfig) (group : String) (r : Running) : Prop :=
  ∀ c offset message strict, r.dir.committed group = some c → offset ≤ c →
    (offset, message, strict) ∈ r.history.receipts →
    (⟨.new cfg.partition 0 offset, message⟩ : Delivery) ∈ r.history.delivered group ∧
      MessageId.new cfg.partition 0 offset ∈ r.history.acked group

/-- The message with this offset was enqueued when the group's cursor was above it. -/
def Late (C : MessageCodec) (cfg : TopicConfig) (group : String) (events : List SessionEvent)
    (offset : Nat) : Prop :=
  ∃ before after r k, events = before ++ .enqueue offset :: after ∧
    play (Running.step C cfg) (fresh cfg) before = some r ∧ r.consumers group = some k ∧
    offset < k.tracker.nextReadOffset

section Concat

variable {events : List SessionEvent} {e : SessionEvent} {r : Running} {offset : Nat}
  (hrun : play (Running.step C cfg) (fresh cfg) events = some r)

include hrun

theorem late_concat : Late C cfg group (events ++ [e]) offset ↔ Late C cfg group events offset ∨
      (e = .enqueue offset ∧ ∃ k, r.consumers group = some k ∧ offset < k.tracker.nextReadOffset) := by
  constructor
  · rintro ⟨before, after, s, k, heq, hs, hk, hlt⟩
    induction after using List.reverseRecOn with
    | nil =>
      obtain ⟨hevents, he⟩ := append_inj' heq rfl
      subst hevents
      rw [hrun] at hs
      cases hs
      exact .inr ⟨singleton_inj.1 he, k, hk, hlt⟩
    | append_singleton after d _ =>
      have hsplit : events ++ [e] = (before ++ .enqueue offset :: after) ++ [d] := by
        rw [heq, append_assoc]
        rfl
      obtain ⟨hevents, -⟩ := append_inj' hsplit rfl
      exact .inl ⟨before, after, s, k, hevents, hs, hk, hlt⟩
  · rintro (⟨before, after, s, k, rfl, hs, hk, hlt⟩ | ⟨rfl, k, hk, hlt⟩)
    · exact ⟨before, after ++ [e], s, k, by simp, hs, hk, hlt⟩
    · exact ⟨events, [], r, k, rfl, hrun, hk, hlt⟩

theorem late_concat_of_ne (he : ∀ offset, e ≠ .enqueue offset) :
    Late C cfg group (events ++ [e]) offset ↔ Late C cfg group events offset := by
  rw [late_concat hrun]
  exact or_iff_left (fun hnew => he offset hnew.1)

end Concat

/-! ## Messages in memory -/

/-- A send that has not reached the memory tier. -/
def SendStage.early : SendStage → Prop
  | .reserved => True
  | .written _ => True
  | _ => False

/-- The memory tier holds the messages of the sends that got that far, and of no others. -/
structure Kept (cfg : TopicConfig) (r : Running) : Prop where
  partition : r.memory.partition = cfg.partition
  early : ∀ offset send, r.sends offset = some send → send.stage.early →
    ∀ e ∈ r.memory.entries.entries, e.1 ≠ offset
  arrived : ∀ offset send, r.sends offset = some send → ¬ send.stage.early →
    (offset, r.memory.entryOf send.message offset) ∈ r.memory.entries.entries
  receipts : ∀ offset message strict, (offset, message, strict) ∈ r.history.receipts →
    (offset, r.memory.entryOf message offset) ∈ r.memory.entries.entries

namespace Kept

variable {r r' : Running} {e : SessionEvent}

variable (h : Kept cfg r)

include h

theorem of_eq (hpartition : r'.memory.partition = r.memory.partition)
    (hentries : r'.memory.entries = r.memory.entries) (hsends : r'.sends = r.sends)
    (hreceipts : r'.history.receipts = r.history.receipts) : Kept cfg r' := by
  have hentryOf := entryOf_congr hpartition
  refine ⟨hpartition.trans h.partition, ?_, ?_, ?_⟩
  · rw [hentries, hsends]
    exact h.early
  · simp only [hentries, hsends, hentryOf]
    exact h.arrived
  · simp only [hentries, hreceipts, hentryOf]
    exact h.receipts

theorem setSend {send : Option Send} (hearly : ∀ s, send = some s → s.stage.early →
      ∀ e ∈ r.memory.entries.entries, e.1 ≠ offset)
    (harrived : ∀ s, send = some s → ¬ s.stage.early →
      (offset, r.memory.entryOf s.message offset) ∈ r.memory.entries.entries) :
    Kept cfg (r.setSend offset send) := by
  refine ⟨h.partition, fun offset' s hs => ?_, fun offset' s hs => ?_, h.receipts⟩
  · rw [sends_setSend] at hs
    split_ifs at hs with heq
    · subst heq
      exact hearly s hs
    · exact h.early offset' s hs
  · rw [sends_setSend] at hs
    split_ifs at hs with heq
    · subst heq
      exact harrived s hs
    · exact h.arrived offset' s hs

theorem setSend_none (offset : Nat) : Kept cfg (r.setSend offset none) :=
  h.setSend nofun nofun

theorem receipted {send : Send}
    (hsend : r.sends offset = some send) (hlate : ¬ send.stage.early) (strict : Bool) :
    Kept cfg (r.receipted offset send.message strict) := by
  have hover := h.setSend_none offset
  refine ⟨h.partition, hover.early, hover.arrived, fun o m strict hm => ?_⟩
  rcases mem_append.1 hm with hold | hnew
  · exact h.receipts o m strict hold
  · cases mem_singleton.1 hnew
    exact h.arrived offset send hsend hlate

theorem moves (hsound : r.Sound) (hmoves : r.Moves C cfg e r') : Kept cfg r' := by
  cases hmoves with
  | reserve message hnext =>
    have hraised : Kept cfg ({ r with writer := { r.writer with
        nextOffset := r.writer.nextOffset + 1 } } : Running) := h.of_eq rfl rfl rfl rfl
    refine hraised.setSend (fun s _ _ e he => ?_) (fun s hs hlate => ?_)
    · exact ne_of_lt (hsound.memory e he).2
    · cases hs
      exact absurd trivial hlate
  | write offset message hsend =>
    have hwritten : ∀ segment, Kept cfg (r.setSend offset (some ⟨message, .written segment⟩)) := by
      intro segment
      refine h.setSend (fun s _ _ => h.early offset _ hsend trivial) (fun s hs hlate => ?_)
      cases hs
      exact absurd trivial hlate
    exact (hwritten _).of_eq rfl rfl rfl rfl
  | abandon offset => exact h.setSend_none offset
  | enqueue offset segment message entry memory hsend henqueue =>
    obtain ⟨-, hpartition, -, hentries⟩ := enqueueWithOffset_ok henqueue
    have hentryOf := entryOf_congr hpartition
    have hnew := h.early offset _ hsend trivial
    have hstays : ∀ e ∈ r.memory.entries.entries, e ∈ memory.entries.entries := by
      intro e he
      rw [hentries]
      exact OrdMap.mem_insert.2 (.inr ⟨he, hnew e he⟩)
    refine ⟨hpartition.trans h.partition, fun o s hs hearly e he => ?_, fun o s hs hlate => ?_,
      fun o m strict hreceipt => ?_⟩
    · rw [sends_setSend] at hs
      split_ifs at hs with heq
      · cases hs
        exact absurd hearly id
      · have he' : e ∈ (r.memory.entries.insert offset
            (r.memory.entryOf message offset)).entries := hentries ▸ he
        rcases OrdMap.mem_insert.1 he' with rfl | ⟨hold, -⟩
        · exact Ne.symm heq
        · exact h.early o s hs hearly e hold
    · show (o, memory.entryOf s.message o) ∈ memory.entries.entries
      rw [hentryOf]
      rw [sends_setSend] at hs
      split_ifs at hs with heq
      · cases hs
        subst heq
        rw [hentries]
        exact OrdMap.mem_insert.2 (.inl rfl)
      · exact hstays _ (h.arrived o s hs hlate)
    · show (o, memory.entryOf m o) ∈ memory.entries.entries
      rw [hentryOf]
      exact hstays _ (h.receipts o m strict hreceipt)
  | full offset segment message message' memory hsend henqueue =>
    obtain ⟨hpartition, -, hentries⟩ := enqueueWithOffset_error henqueue
    have hkept : Kept cfg ({ r with memory } : Running) := h.of_eq hpartition hentries rfl rfl
    exact hkept.setSend_none offset
  | wait offset segment message hsend =>
    refine h.setSend (fun s hs hearly => ?_) (fun s hs _ => ?_)
    · cases hs
      exact absurd hearly id
    · cases hs
      exact h.arrived offset ⟨message, .enqueued segment⟩ hsend id
  | fsync segment answered =>
    -- an answered send has the message it had, and was in memory already
    have hback : ∀ o s, (r.synced segment answered).sends o = some s →
        ∃ s', r.sends o = some s' ∧ s'.message = s.message ∧ (s'.stage.early ↔ s.stage.early) := by
      intro o s hs
      unfold synced at hs
      dsimp only at hs
      split at hs
      case h_1 message waited hwaiting =>
        split_ifs at hs
        · cases hs
          exact ⟨_, hwaiting, rfl, Iff.rfl⟩
        · cases hs
          exact ⟨_, hwaiting, rfl, Iff.rfl⟩
      case h_2 => exact ⟨s, hs, rfl, Iff.rfl⟩
    refine ⟨h.partition, fun o s hs hearly => ?_, fun o s hs hlate => ?_, h.receipts⟩
    · obtain ⟨s', hs', -, hiff⟩ := hback o s hs
      exact h.early o s' hs' (hiff.2 hearly)
    · obtain ⟨s', hs', hmessage, hiff⟩ := hback o s hs
      rw [← hmessage]
      exact h.arrived o s' hs' (fun hearly => hlate (hiff.1 hearly))
  | lazyReceipt offset segment message hsend => exact h.receipted hsend id false
  | strictReceipt offset message hsend => exact h.receipted hsend id true
  | ackNothing => exact h
  | subscribe | exhausted | poll | pollFailed | ackBehind | ack | ackLost | nack | upload | reap =>
    exact h.of_eq rfl rfl rfl rfl

end Kept

/-! ## The subscription of the group -/

section Batch

variable (hsound : r.Sound) {cursor : Nat} (hbatch : batch <+: (r.memory.entries.entries.filter
    (fun e => decide (cursor ≤ e.1))).map Prod.snd)

include hsound hbatch

theorem mem_batch_of_le {last : MemoryEntry} (hlast : last ∈ batch) {e : Nat × MemoryEntry}
    (he : e ∈ r.memory.entries.entries) (hcursor : cursor ≤ e.1) (hle : e.1 ≤ last.offset) :
    e.2 ∈ batch := by
  obtain ⟨rest, hrest⟩ := hbatch
  obtain ⟨front, back, hsplit, hfront, hback⟩ := map_eq_append_iff.1 hrest.symm
  have hmem : e ∈ front ++ back := hsplit ▸ mem_filter.2 ⟨he, decide_eq_true hcursor⟩
  rcases mem_append.1 hmem with hin | hin
  · exact hfront ▸ mem_map_of_mem hin
  · -- behind the batch every offset is above the last one
    have hsorted := r.memory.entries.sorted.filter (fun e => decide (cursor ≤ e.1))
    rw [hsplit, pairwise_append] at hsorted
    obtain ⟨d, hd, hdlast⟩ := mem_map.1 (hfront ▸ hlast : last ∈ front.map Prod.snd)
    have hdmem : d ∈ r.memory.entries.entries := by
      have : d ∈ front ++ back := mem_append_left _ hd
      rw [← hsplit] at this
      exact (mem_filter.1 this).1
    have hoffset : d.2.offset = d.1 := congrArg offset (hsound.memory d hdmem).1
    have hlt := hsorted.2.2 d hd e hin
    rw [← hdlast, hoffset] at hle
    omega

theorem le_cursorAfter : cursor ≤ cursorAfter batch cursor := by
  rcases cursorAfter_cases batch cursor with ⟨-, hsame⟩ | ⟨memo, hlast, hmoved⟩
  · rw [hsame]
  · rw [hmoved]
    exact (hsound.offset_of_batch hbatch (mem_of_getLast? hlast)).2.1.trans (Nat.le_succ _)

theorem pairwise_offset_batch : (batch.map (·.offset)).Pairwise (· < ·) := by
  have hsorted : ((r.memory.entries.entries.filter
      (fun e => decide (cursor ≤ e.1))).map Prod.snd).Pairwise
        (fun a b => a.offset < b.offset) := by
    rw [pairwise_map]
    refine (r.memory.entries.sorted.filter _).imp_of_mem (fun {a b} ha hb hab => ?_)
    have ha' := congrArg offset (hsound.memory a (mem_filter.1 ha).1).1
    have hb' := congrArg offset (hsound.memory b (mem_filter.1 hb).1).1
    rw [ha', hb']
    exact hab
  exact pairwise_map.2 (hsorted.sublist hbatch.sublist)

theorem lt_cursorAfter {memo : MemoryEntry} (hmemo : memo ∈ batch) :
    memo.offset < cursorAfter batch cursor := by
  rcases cursorAfter_cases batch cursor with ⟨hnil, -⟩ | ⟨last, hlast, hmoved⟩
  · rw [hnil] at hmemo
    cases hmemo
  · have hoffsets := pairwise_offset_batch hsound hbatch
    rw [hmoved]
    obtain ⟨front, rfl⟩ := List.getLast?_eq_some_iff.1 hlast
    rcases mem_append.1 hmemo with hin | hin
    · rw [map_append, pairwise_append] at hoffsets
      have := hoffsets.2.2 memo.offset (mem_map_of_mem hin) last.offset (by simp)
      omega
    · rw [mem_singleton.1 hin]
      exact Nat.lt_succ_self _

end Batch

theorem map_offset_of_keys {l l' : List Pending} (h : l'.map key = l.map key) :
    l'.map (fun p => p.memo.offset) = l.map (fun p => p.memo.offset) := by
  have := congrArg (map (fun k => k.2.1)) h
  rwa [map_map, map_map] at this

/-- What the group's consumer, its deliveries and its progress have to do with each other. -/
structure Tracked (C : MessageCodec) (cfg : TopicConfig) (group : String)
    (events : List SessionEvent) (r : Running) : Prop where
  subscribed : ∀ k, r.consumers group = some k → .subscribe group ∈ events
  unused : r.consumers group = none →
    r.history.delivered group = [] ∧ r.dir.committed group = none
  /-- below the cursor a message was delivered, or came late -/
  seen : ∀ k, r.consumers group = some k → ∀ e ∈ r.memory.entries.entries,
    e.1 < k.tracker.nextReadOffset →
    (⟨e.2.messageId, e.2.message⟩ : Delivery) ∈ r.history.delivered group ∨
      Late C cfg group events e.1
  /-- what was delivered is in memory, below the cursor -/
  read : ∀ d ∈ r.history.delivered group, ∃ e ∈ r.memory.entries.entries,
    d.messageId = .new cfg.partition 0 e.1 ∧
      ∃ k, r.consumers group = some k ∧ e.1 < k.tracker.nextReadOffset
  late : ∀ offset, Late C cfg group events offset →
    (∃ k, r.consumers group = some k ∧ offset < k.tracker.nextReadOffset) ∧
      ∀ d ∈ r.history.delivered group, d.messageId ≠ .new cfg.partition 0 offset
  pending : ∀ k, r.consumers group = some k → ∀ p ∈ k.tracker.pending,
    p.memo.messageId = .new cfg.partition 0 p.memo.offset ∧
      p.memo.offset < k.tracker.nextReadOffset ∧
      (∃ d ∈ r.history.delivered group, d.messageId = p.memo.messageId) ∧
      (p.acknowledged = true → p.memo.messageId ∈ r.history.acked group)
  ascending : ∀ k, r.consumers group = some k →
    (k.tracker.pending.map (fun p => p.memo.offset)).Pairwise (· < ·)
  settled : ∀ d ∈ r.history.delivered group, d.messageId ∈ r.history.acked group ∨
    ∃ k, r.consumers group = some k ∧ ∃ p ∈ k.tracker.pending, p.memo.messageId = d.messageId
  committed : ∀ c, r.dir.committed group = some c → ∃ k, r.consumers group = some k ∧
    c < k.tracker.nextReadOffset ∧ ∀ p ∈ k.tracker.pending, p.memo.offset ≤ c →
      p.memo.messageId ∈ r.history.acked group

namespace Tracked

variable {events : List SessionEvent} {r r' : Running} {e : SessionEvent}
  (hrun : play (Running.step C cfg) (fresh cfg) events = some r) (h : Tracked C cfg group events r)
  {k k' : Consumer}

include hrun h

section Frame

variable (hconsumer : r'.consumers group = r.consumers group)
  (hdelivered : r'.history.delivered group = r.history.delivered group)
  (hacked : r'.history.acked group = r.history.acked group)
  (hcommitted : r'.dir.committed group = r.dir.committed group)

include hconsumer hdelivered hacked hcommitted

theorem enqueue (hfirst : ∀ o, e = .enqueue o → ∀ d ∈ r.memory.entries.entries, d.1 ≠ o)
    (hentries : ∀ d ∈ r'.memory.entries.entries, e = .enqueue d.1 ∨ d ∈ r.memory.entries.entries)
    (hstays : ∀ d ∈ r.memory.entries.entries, d ∈ r'.memory.entries.entries) :
    Tracked C cfg group (events ++ [e]) r' := by
  constructor
  · rw [hconsumer]
    exact fun k hk => mem_append_left _ (h.subscribed k hk)
  · rw [hconsumer, hdelivered, hcommitted]
    exact h.unused
  · rw [hconsumer, hdelivered]
    intro k hk e he hlt
    rcases hentries e he with hnew | hold
    · exact .inr ((late_concat hrun).2 (.inr ⟨hnew, k, hk, hlt⟩))
    · rcases h.seen k hk e hold hlt with hd | hl
      · exact .inl hd
      · exact .inr ((late_concat hrun).2 (.inl hl))
  · rw [hconsumer, hdelivered]
    intro d hd
    obtain ⟨e, he, hread⟩ := h.read d hd
    exact ⟨e, hstays e he, hread⟩
  · rw [hconsumer, hdelivered]
    intro o ho
    rcases (late_concat hrun).1 ho with hl | ⟨heq, k, hk, hlt⟩
    · exact h.late o hl
    · refine ⟨⟨k, hk, hlt⟩, fun d hd hid => ?_⟩
      -- what was delivered was in memory, and this message is only now
      obtain ⟨e, he, hid', -⟩ := h.read d hd
      exact hfirst o heq e he (MessageId.new_inj (hid'.symm.trans hid))
  · rw [hconsumer, hdelivered, hacked]
    exact h.pending
  · rw [hconsumer]
    exact h.ascending
  · rw [hconsumer, hdelivered, hacked]
    exact h.settled
  · rw [hconsumer, hcommitted, hacked]
    exact h.committed

theorem of_eq (he : ∀ offset, e ≠ .enqueue offset)
    (hentries : r'.memory.entries = r.memory.entries) : Tracked C cfg group (events ++ [e]) r' :=
  h.enqueue hrun hconsumer hdelivered hacked hcommitted (fun o ho => absurd ho (he o))
    (fun _ hd => .inr (hentries ▸ hd)) (fun _ hd => hentries.symm ▸ hd)

end Frame

theorem subscribe (hone : .subscribe group ∉ events) {next : Nat}
    (hnext : next = (r.dir.committed group).elim 0 (· + 1))
    (hk' : r'.consumers group = some ⟨true, { nextReadOffset := next }⟩)
    (hdelivered : r'.history.delivered group = r.history.delivered group)
    (hcommitted : r'.dir.committed group = r.dir.committed group) :
    Tracked C cfg group (events ++ [.subscribe group]) r' := by
  have hnone : r.consumers group = none := by
    cases hk : r.consumers group with
    | none => rfl
    | some k => exact absurd (h.subscribed k hk) hone
  obtain ⟨hnothing, hunset⟩ := h.unused hnone
  rw [hnothing] at hdelivered
  rw [hunset] at hcommitted hnext
  have hlate : ∀ offset, ¬ Late C cfg group (events ++ [.subscribe group]) offset := by
    intro offset hl
    rcases (late_concat hrun).1 hl with hold | ⟨heq, -⟩
    · obtain ⟨⟨k, hk, -⟩, -⟩ := h.late offset hold
      rw [hnone] at hk
      cases hk
    · cases heq
  have hself : ∀ k, r'.consumers group = some k →
      k.tracker.pending = [] ∧ k.tracker.nextReadOffset = 0 := by
    intro k hk
    rw [hk'] at hk
    cases hk
    exact ⟨rfl, hnext⟩
  constructor
  · exact fun k hk => mem_append_right _ mem_cons_self
  · intro hk
    rw [hk'] at hk
    cases hk
  · intro k hk e he hlt
    rw [(hself k hk).2] at hlt
    exact absurd hlt (Nat.not_lt_zero _)
  · rw [hdelivered]
    exact nofun
  · exact fun offset hl => absurd hl (hlate offset)
  · intro k hk p hp
    rw [(hself k hk).1] at hp
    cases hp
  · intro k hk
    rw [(hself k hk).1]
    exact List.Pairwise.nil
  · rw [hdelivered]
    exact nofun
  · rw [hcommitted]
    exact nofun

omit hrun h in
/-- What was below the cursor stays there as long as the cursor does not go back. -/
theorem below (hk : r.consumers group = some k) (hk' : r'.consumers group = some k')
    (hforward : k.tracker.nextReadOffset ≤ k'.tracker.nextReadOffset)
    (h : ∃ k, r.consumers group = some k ∧ offset < k.tracker.nextReadOffset) :
    ∃ k, r'.consumers group = some k ∧ offset < k.tracker.nextReadOffset := by
  obtain ⟨k₀, hk₀, hlt⟩ := h
  rw [hk] at hk₀
  cases hk₀
  exact ⟨k', hk', lt_of_lt_of_le hlt hforward⟩

theorem of_tracker (he : ∀ offset, e ≠ .enqueue offset) (hk : r.consumers group = some k)
    (hk' : r'.consumers group = some k') (hmemory : r'.memory = r.memory)
    (hcursor : k'.tracker.nextReadOffset = k.tracker.nextReadOffset)
    (hdelivered : r'.history.delivered group = r.history.delivered group)
    (hpending : ∀ p ∈ k'.tracker.pending, ∃ q ∈ k.tracker.pending, p.memo.messageId = q.memo.messageId ∧
      p.memo.offset = q.memo.offset ∧
      (p.acknowledged = true → p.memo.messageId ∈ r'.history.acked group))
    (hascending : (k'.tracker.pending.map (fun p => p.memo.offset)).Pairwise (· < ·))
    (hsettled : ∀ p ∈ k.tracker.pending, p.memo.messageId ∈ r'.history.acked group ∨
      ∃ q ∈ k'.tracker.pending, q.memo.messageId = p.memo.messageId)
    (hacked : r.history.acked group ⊆ r'.history.acked group)
    (hcommitted : ∀ c, r'.dir.committed group = some c → c < k.tracker.nextReadOffset ∧
      ∀ p ∈ k'.tracker.pending, p.memo.offset ≤ c → p.memo.messageId ∈ r'.history.acked group) :
    Tracked C cfg group (events ++ [e]) r' := by
  have hlate := fun offset => @late_concat_of_ne _ _ group _ _ _ offset hrun he
  have hsame : ∀ k'', r'.consumers group = some k'' → k'' = k' :=
    fun _ hk'' => Option.some.inj (hk''.symm.trans hk')
  constructor
  · exact fun _ _ => mem_append_left _ (h.subscribed k hk)
  · intro hnone
    rw [hk'] at hnone
    cases hnone
  · intro k'' hk'' e' he' hlt
    rw [hsame k'' hk'', hcursor] at hlt
    rw [hmemory] at he'
    rw [hdelivered, hlate]
    exact h.seen k hk e' he' hlt
  · rw [hdelivered, hmemory]
    intro d hd
    obtain ⟨e', he', hid, hbelow'⟩ := h.read d hd
    exact ⟨e', he', hid, below hk hk' hcursor.ge hbelow'⟩
  · rw [hdelivered]
    intro offset hl
    obtain ⟨hbelow', hnot⟩ := h.late offset ((hlate offset).1 hl)
    exact ⟨below hk hk' hcursor.ge hbelow', hnot⟩
  · intro k'' hk'' p hp
    rw [hsame k'' hk''] at hp ⊢
    obtain ⟨q, hq, hid, hoffset, hack⟩ := hpending p hp
    obtain ⟨hqid, hqlt, hqd, -⟩ := h.pending k hk q hq
    rw [hdelivered, hid, hoffset, hcursor]
    exact ⟨hqid, hqlt, hqd, hid ▸ hack⟩
  · intro k'' hk''
    rw [hsame k'' hk'']
    exact hascending
  · rw [hdelivered]
    intro d hd
    rcases h.settled d hd with hack | ⟨k₀, hk₀, p, hp, hid⟩
    · exact .inl (hacked hack)
    · rw [hk] at hk₀
      cases hk₀
      rcases hsettled p hp with hack | ⟨q, hq, hqid⟩
      · exact .inl (hid ▸ hack)
      · exact .inr ⟨k', hk', q, hq, hqid.trans hid⟩
  · intro c hc
    obtain ⟨hlt, hpend⟩ := hcommitted c hc
    exact ⟨k', hk', by rw [hcursor]; exact hlt, hpend⟩

/-- What a poll of the group's consumer leaves: redeliveries keep the keys of what is pending, and a
    batch is read from the cursor on. -/
structure Polled (group : String) (r r' : Running) (u : Bool) (t : InFlight)
    (pending : List Pending) (out : List Delivery) (batch : List MemoryEntry) : Prop where
  before : r.consumers group = some ⟨u, t⟩
  keys : pending.map key = t.pending.map key
  retries : ∀ d ∈ out, ∃ p ∈ t.pending, d.messageId = p.memo.messageId
  read : batch <+: (r.memory.entries.entries.filter
    (fun e => decide (t.nextReadOffset ≤ e.1))).map Prod.snd
  after : r'.consumers group = some ⟨u, ⟨pending ++ batch.map first,
    cursorAfter batch t.nextReadOffset⟩⟩
  memory : r'.memory = r.memory
  delivered : r'.history.delivered group = r.history.delivered group ++
    (out ++ batch.map (fun memo => (first memo).delivery))
  acked : r'.history.acked group = r.history.acked group
  committed : r'.dir.committed group = r.dir.committed group

section Poll

variable {u : Bool} {t : InFlight} {pending : List Pending} {out : List Delivery}
  (hpoll : Polled group r r' u t pending out batch) (hsound : r.Sound)

include hpoll

omit hrun h in
theorem Polled.consumer_eq (hk : r'.consumers group = some k) :
    k = ⟨u, ⟨pending ++ batch.map first, cursorAfter batch t.nextReadOffset⟩⟩ :=
  Option.some.inj (hk.symm.trans hpoll.after)

omit hrun in
/-- A message delivered after the poll was delivered before, or is of the batch. -/
theorem delivered_cases {d : Delivery} (hd : d ∈ r'.history.delivered group) :
    (∃ d' ∈ r.history.delivered group, d'.messageId = d.messageId) ∨
      ∃ memo ∈ batch, d = (first memo).delivery := by
  rw [hpoll.delivered] at hd
  rcases mem_append.1 hd with hold | hnew
  · exact .inl ⟨d, hold, rfl⟩
  · rcases mem_append.1 hnew with hretry | hfresh
    · obtain ⟨p, hp, hpid⟩ := hpoll.retries d hretry
      obtain ⟨-, -, ⟨d', hd', hd'id⟩, -⟩ := h.pending _ hpoll.before p hp
      exact .inl ⟨d', hd', hd'id.trans hpid.symm⟩
    · obtain ⟨memo, hmemo, rfl⟩ := mem_map.1 hfresh
      exact .inr ⟨memo, hmemo, rfl⟩

include hsound

omit hrun h in
theorem Polled.mem {memo : MemoryEntry} (hmemo : memo ∈ batch) :
    (memo.offset, memo) ∈ r.memory.entries.entries ∧ t.nextReadOffset ≤ memo.offset ∧
      memo.offset < cursorAfter batch t.nextReadOffset :=
  have hread := hsound.offset_of_batch hpoll.read hmemo
  ⟨hread.1, hread.2.1, lt_cursorAfter hsound hpoll.read hmemo⟩

omit hrun h in
theorem Polled.messageId (hkept : Kept cfg r) {memo : MemoryEntry} (hmemo : memo ∈ batch) :
    memo.messageId = .new cfg.partition 0 memo.offset := by
  rw [← hkept.partition]
  exact congrArg MemoryEntry.messageId (hsound.offset_of_batch hpoll.read hmemo).2.2.1

omit hrun in
theorem poll_seen (hk : r'.consumers group = some k) {d : Nat × MemoryEntry}
    (hd : d ∈ r'.memory.entries.entries) (hlt : d.1 < k.tracker.nextReadOffset) :
    (⟨d.2.messageId, d.2.message⟩ : Delivery) ∈ r'.history.delivered group ∨
      Late C cfg group events d.1 := by
  rw [hpoll.consumer_eq hk] at hlt
  rw [hpoll.memory] at hd
  rw [hpoll.delivered]
  by_cases hold : d.1 < t.nextReadOffset
  · exact (h.seen _ hpoll.before d hd hold).imp_left (mem_append_left _)
  · -- between the old cursor and the new one everything was read
    rcases cursorAfter_cases batch t.nextReadOffset with ⟨-, hstill⟩ | ⟨last, hlast, hmoved⟩
    · rw [show nextReadOffset _ = t.nextReadOffset from hstill] at hlt
      exact absurd hlt hold
    · rw [show nextReadOffset _ = last.offset + 1 from hmoved] at hlt
      have hin := mem_batch_of_le hsound hpoll.read (mem_of_getLast? hlast) hd
        (Nat.le_of_not_lt hold) (Nat.le_of_lt_succ hlt)
      refine .inl (mem_append_right _ (mem_append_right _ ?_))
      exact mem_map.2 ⟨d.2, hin, rfl⟩

omit hrun in
theorem poll_read (hkept : Kept cfg r) {d : Delivery} (hd : d ∈ r'.history.delivered group) :
    ∃ e ∈ r'.memory.entries.entries, d.messageId = .new cfg.partition 0 e.1 ∧
      ∃ k, r'.consumers group = some k ∧ e.1 < k.tracker.nextReadOffset := by
  rw [hpoll.memory]
  rcases h.delivered_cases hpoll hd with ⟨d', hd', heq⟩ | ⟨memo, hmemo, rfl⟩
  · obtain ⟨e', he', hid', hbelow'⟩ := h.read d' hd'
    exact ⟨e', he', heq ▸ hid',
      below hpoll.before hpoll.after (le_cursorAfter hsound hpoll.read) hbelow'⟩
  · obtain ⟨hmem, -, hpassed⟩ := hpoll.mem hsound hmemo
    exact ⟨(memo.offset, memo), hmem, hpoll.messageId hsound hkept hmemo, _, hpoll.after, hpassed⟩

omit hrun in
/-- What is read is at or above the cursor, a late message is below it. -/
theorem poll_late (hkept : Kept cfg r) {offset : Nat} (hl : Late C cfg group events offset) :
    (∃ k, r'.consumers group = some k ∧ offset < k.tracker.nextReadOffset) ∧
      ∀ d ∈ r'.history.delivered group, d.messageId ≠ .new cfg.partition 0 offset := by
  obtain ⟨hbelow', hnot⟩ := h.late offset hl
  refine ⟨below hpoll.before hpoll.after (le_cursorAfter hsound hpoll.read) hbelow',
    fun d hd heq => ?_⟩
  rcases h.delivered_cases hpoll hd with ⟨d', hd', hid'⟩ | ⟨memo, hmemo, rfl⟩
  · exact hnot d' hd' (hid'.trans heq)
  · have hoffset : memo.offset = offset :=
      MessageId.new_inj ((hpoll.messageId hsound hkept hmemo).symm.trans heq)
    obtain ⟨k₀, hk₀, hlt⟩ := hbelow'
    rw [hpoll.before] at hk₀
    cases hk₀
    have hge := (hpoll.mem hsound hmemo).2.1
    rw [hoffset] at hge
    exact absurd hlt (Nat.not_lt.2 hge)

omit hrun in
theorem poll_pending (hkept : Kept cfg r) (hk : r'.consumers group = some k) {p : Pending}
    (hp : p ∈ k.tracker.pending) : p.memo.messageId = .new cfg.partition 0 p.memo.offset ∧
      p.memo.offset < k.tracker.nextReadOffset ∧
      (∃ d ∈ r'.history.delivered group, d.messageId = p.memo.messageId) ∧
      (p.acknowledged = true → p.memo.messageId ∈ r'.history.acked group) := by
  rw [hpoll.consumer_eq hk] at hp ⊢
  rw [hpoll.delivered, hpoll.acked]
  rcases mem_append.1 hp with hold | hnew
  · obtain ⟨q, hq, hkid, hkoffset, hkack⟩ := mem_of_keys hpoll.keys hold
    obtain ⟨hqid, hqlt, ⟨d, hd, hdid⟩, hqack⟩ := h.pending _ hpoll.before q hq
    rw [← hkid, ← hkoffset, ← hkack]
    exact ⟨hqid, lt_of_lt_of_le hqlt (le_cursorAfter hsound hpoll.read),
      ⟨d, mem_append_left _ hd, hdid⟩, hqack⟩
  · obtain ⟨memo, hmemo, rfl⟩ := mem_map.1 hnew
    refine ⟨hpoll.messageId hsound hkept hmemo, (hpoll.mem hsound hmemo).2.2,
      ⟨(first memo).delivery, ?_, rfl⟩, nofun⟩
    exact mem_append_right _ (mem_append_right _ (mem_map.2 ⟨memo, hmemo, rfl⟩))

omit hrun in
theorem poll_ascending (hk : r'.consumers group = some k) :
    (k.tracker.pending.map (fun p => p.memo.offset)).Pairwise (· < ·) := by
  rw [hpoll.consumer_eq hk]
  rw [map_append, map_offset_of_keys hpoll.keys, map_map]
  refine pairwise_append.2 ⟨h.ascending _ hpoll.before, pairwise_offset_batch hsound hpoll.read,
    fun a ha b hb => ?_⟩
  obtain ⟨p, hp, rfl⟩ := mem_map.1 ha
  obtain ⟨memo, hmemo, rfl⟩ := mem_map.1 hb
  exact lt_of_lt_of_le (h.pending _ hpoll.before p hp).2.1 (hpoll.mem hsound hmemo).2.1

omit hrun hsound in
theorem poll_settled {d : Delivery} (hd : d ∈ r'.history.delivered group) :
    d.messageId ∈ r'.history.acked group ∨ ∃ k, r'.consumers group = some k ∧
      ∃ p ∈ k.tracker.pending, p.memo.messageId = d.messageId := by
  rw [hpoll.acked]
  rcases h.delivered_cases hpoll hd with ⟨d', hd', heq⟩ | ⟨memo, hmemo, rfl⟩
  · rw [← heq]
    rcases h.settled d' hd' with hack | ⟨k₀, hk₀, p, hp, hpid⟩
    · exact .inl hack
    · rw [hpoll.before] at hk₀
      cases hk₀
      obtain ⟨q, hq, hqid, -⟩ := mem_of_keys hpoll.keys.symm hp
      exact .inr ⟨_, hpoll.after, q, mem_append_left _ hq, hqid.trans hpid⟩
  · exact .inr ⟨_, hpoll.after, .first memo, mem_append_right _ (mem_map.2 ⟨memo, hmemo, rfl⟩), rfl⟩

omit hrun in
theorem poll_committed {c : Nat} (hc : r'.dir.committed group = some c) :
    ∃ k, r'.consumers group = some k ∧ c < k.tracker.nextReadOffset ∧
      ∀ p ∈ k.tracker.pending, p.memo.offset ≤ c → p.memo.messageId ∈ r'.history.acked group := by
  rw [hpoll.committed] at hc
  rw [hpoll.acked]
  obtain ⟨k₀, hk₀, hlt, hpend⟩ := h.committed c hc
  rw [hpoll.before] at hk₀
  cases hk₀
  refine ⟨_, hpoll.after, lt_of_lt_of_le hlt (le_cursorAfter hsound hpoll.read),
    fun p hp hle => ?_⟩
  rcases mem_append.1 hp with hold | hnew
  · obtain ⟨q, hq, hkid, hkoffset, -⟩ := mem_of_keys hpoll.keys hold
    rw [← hkid]
    exact hpend q hq (hkoffset ▸ hle)
  · obtain ⟨memo, hmemo, rfl⟩ := mem_map.1 hnew
    have hge := (hpoll.mem hsound hmemo).2.1
    have hle' : memo.offset ≤ c := hle
    have hlt' : c < t.nextReadOffset := hlt
    omega

theorem poll (hkept : Kept cfg r) (he : ∀ offset, e ≠ .enqueue offset) :
    Tracked C cfg group (events ++ [e]) r' := by
  have hlate := fun offset => @late_concat_of_ne _ _ group _ _ _ offset hrun he
  exact {
    subscribed := fun _ _ => mem_append_left _ (h.subscribed _ hpoll.before)
    unused := fun hnone => by
      rw [hpoll.after] at hnone
      cases hnone
    seen := fun _ hk d hd hlt => by
      rw [hlate]
      exact h.poll_seen hpoll hsound hk hd hlt
    read := fun _ hd => h.poll_read hpoll hsound hkept hd
    late := fun offset hl => h.poll_late hpoll hsound hkept ((hlate offset).1 hl)
    pending := fun _ hk _ hp => h.poll_pending hpoll hsound hkept hk hp
    ascending := fun _ hk => h.poll_ascending hpoll hsound hk
    settled := fun _ hd => h.poll_settled hpoll hd
    committed := fun _ hc => h.poll_committed hpoll hsound hc }

end Poll

/-- An acknowledgement: what it completes is acknowledged, and the progress moves to the last
    completed delivery or stays. -/
theorem ack (he : ∀ offset, e ≠ .enqueue offset) {u u' : Bool} {t t' : InFlight}
    {ids : List MessageId}
    (hk : r.consumers group = some ⟨u, t⟩) (hk' : r'.consumers group = some ⟨u', t'⟩)
    (ht' : t' = t.ackLocked ids ∨ t' = t) (hmemory : r'.memory = r.memory)
    (hdelivered : r'.history.delivered group = r.history.delivered group)
    (hacked : r'.history.acked group = r.history.acked group ++
      (t.pending.map (fun p => p.memo.messageId)).filter (fun id => decide (id ∈ ids)))
    (hcommitted : ∀ c, r'.dir.committed group = some c →
      r.dir.committed group = some c ∨ t.commitPoint ids = some c) :
    Tracked C cfg group (events ++ [e]) r' := by
  have hmore : r.history.acked group ⊆ r'.history.acked group := by
    rw [hacked]
    exact subset_append_left _ _
  have hcovered : ∀ p ∈ t.pending, p.acknowledged = true ∨ p.memo.messageId ∈ ids →
      p.memo.messageId ∈ r'.history.acked group := by
    intro p hp hcover
    rcases hcover with hold | hnamed
    · exact hmore ((h.pending _ hk p hp).2.2.2 hold)
    · rw [hacked]
      exact mem_append_right _ (mem_filter.2
        ⟨mem_map.2 ⟨p, hp, rfl⟩, decide_eq_true hnamed⟩)
  -- the deliveries below the new progress are acknowledged, completed or not
  have hprogress : ∀ c, r'.dir.committed group = some c → c < t.nextReadOffset ∧
      ∀ p ∈ t.pending, p.memo.offset ≤ c → p.memo.messageId ∈ r'.history.acked group := by
    intro c hc
    rcases hcommitted c hc with hold | hpoint
    · obtain ⟨k₀, hk₀, hlt, hpend⟩ := h.committed c hold
      rw [hk] at hk₀
      cases hk₀
      exact ⟨hlt, fun p hp hle => hmore (hpend p hp hle)⟩
    · obtain ⟨last, -, hlast, rfl⟩ := commitPoint_eq_some hpoint
      refine ⟨(h.pending _ hk last hlast).2.1, fun p hp hle => hcovered p hp ?_⟩
      exact covered_of_completed (mem_completed_of_le (h.ascending _ hk) hpoint hp hle)
  rcases ht' with rfl | rfl
  · refine h.of_tracker hrun he hk hk' hmemory rfl hdelivered (fun p hp => ?_)
      (ackLocked_sorted (h.ascending _ hk)) (fun p hp => ?_) hmore (fun c hc => ?_)
    · obtain ⟨q, hq, hmemo, hack⟩ := mem_ackLocked hp
      refine ⟨q, hq, by rw [hmemo], by rw [hmemo], fun hp' => ?_⟩
      rw [hmemo]
      exact hcovered q hq (hack hp')
    · rcases completed_or_mem_ackLocked hp with hin | ⟨q, hq, hmemo⟩
      · exact .inl (hcovered p hp (covered_of_completed hin))
      · exact .inr ⟨q, hq, by rw [hmemo]⟩
    · obtain ⟨hlt, hpend⟩ := hprogress c hc
      refine ⟨hlt, fun p hp hle => ?_⟩
      obtain ⟨q, hq, hmemo, -⟩ := mem_ackLocked hp
      rw [hmemo] at hle ⊢
      exact hpend q hq hle
  · refine h.of_tracker hrun he hk hk' hmemory rfl hdelivered (fun p hp => ?_)
      (h.ascending ⟨u, t'⟩ hk) (fun p hp => .inr ⟨p, hp, rfl⟩) hmore hprogress
    exact ⟨p, hp, rfl, rfl, fun hp' => hcovered p hp (.inl hp')⟩

/-- A refusal: what it names is delivered again. -/
theorem nack (he : ∀ offset, e ≠ .enqueue offset) {u u' : Bool} {t : InFlight}
    {ids : List MessageId} (hk : r.consumers group = some ⟨u, t⟩)
    (hk' : r'.consumers group = some ⟨u', t.nackLocked ids⟩) (hmemory : r'.memory = r.memory)
    (hdelivered : r'.history.delivered group = r.history.delivered group)
    (hacked : r'.history.acked group = r.history.acked group)
    (hcommitted : r'.dir.committed group = r.dir.committed group) :
    Tracked C cfg group (events ++ [e]) r' := by
  refine h.of_tracker hrun he hk hk' hmemory rfl hdelivered (fun p hp => ?_)
    ?_ (fun p hp => ?_) (hacked ▸ List.Subset.refl _) (fun c hc => ?_)
  · obtain ⟨q, hq, hmemo, hack⟩ := mem_nackLocked hp
    refine ⟨q, hq, by rw [hmemo], by rw [hmemo], fun hp' => ?_⟩
    rw [hmemo, hacked]
    exact (h.pending _ hk q hq).2.2.2 (hack hp')
  · rw [nackLocked_offsets]
    exact h.ascending _ hk
  · obtain ⟨q, hq, hmemo⟩ := mem_nackLocked_of_mem hp
    exact .inr ⟨q, hq, by rw [hmemo]⟩
  · obtain ⟨k₀, hk₀, hlt, hpend⟩ := h.committed c (hcommitted ▸ hc)
    rw [hk] at hk₀
    cases hk₀
    refine ⟨hlt, fun p hp hle => ?_⟩
    obtain ⟨q, hq, hmemo, -⟩ := mem_nackLocked hp
    rw [hmemo] at hle ⊢
    rw [hacked]
    exact hpend q hq hle

theorem moves (hsound : r.Sound) (hkept : Kept cfg r)
    (hone : e = .subscribe group → .subscribe group ∉ events) (hmoves : r.Moves C cfg e r') :
    Tracked C cfg group (events ++ [e]) r' := by
  cases hmoves with
  | reserve | abandon | wait | fsync | lazyReceipt | strictReceipt | ackNothing =>
    exact h.of_eq hrun rfl rfl rfl rfl (by simp) rfl
  | write offset message hsend =>
    exact h.of_eq hrun rfl rfl rfl (by simp [PartitionDir.committed, written]) (by simp) rfl
  | enqueue offset segment message entry memory hsend henqueue =>
    obtain ⟨-, -, -, hentries⟩ := enqueueWithOffset_ok henqueue
    have hnew := hkept.early offset _ hsend trivial
    refine h.enqueue hrun rfl rfl rfl rfl (fun o ho => ?_) (fun e he => ?_) (fun e he => ?_)
    · cases ho
      exact hnew
    · have he' : e ∈ (r.memory.entries.insert offset
          (r.memory.entryOf message offset)).entries := hentries ▸ he
      rcases OrdMap.mem_insert.1 he' with rfl | ⟨hold, -⟩
      · exact .inl rfl
      · exact .inr hold
    · show e ∈ memory.entries.entries
      rw [hentries]
      exact OrdMap.mem_insert.2 (.inr ⟨he, hnew e he⟩)
  | full offset segment message message' memory hsend henqueue =>
    obtain ⟨-, -, hentries⟩ := enqueueWithOffset_error henqueue
    refine h.enqueue hrun rfl rfl rfl rfl (fun o ho => ?_) (fun e he => .inr (hentries ▸ he))
      (fun e he => hentries.symm ▸ he)
    cases ho
    exact hkept.early offset _ hsend trivial
  | subscribe group' next hnext =>
    by_cases hgroup : group = group'
    · subst hgroup
      exact h.subscribe hrun (hone rfl) hnext (by simp) rfl (committed_register r.dir group group)
    · exact h.of_eq hrun (by simp [hgroup]) rfl rfl (committed_register r.dir group' group) (by simp) rfl
  | exhausted group' =>
    exact h.of_eq hrun rfl rfl rfl (committed_register r.dir group' group) (by simp) rfl
  | poll group' maxBatch t t' out hconsumer hpoll =>
    by_cases hgroup : group = group'
    · subst hgroup
      obtain ⟨pending, hkeys, hcases⟩ := t.pollLocked_cases r.memory maxBatch hsound.memory_bound
      rcases hcases with ⟨error, heq⟩ | ⟨retries, batch, hretries, hbatch, heq⟩
      · rw [heq] at hpoll
        cases hpoll
      · rw [heq] at hpoll
        cases hpoll
        exact h.poll hrun ⟨hconsumer, hkeys, hretries, hbatch, by simp, rfl, by simp; rfl, rfl, rfl⟩
          hsound hkept (by simp)
    · exact h.of_eq hrun (by simp [hgroup]) (by simp [hgroup]; rfl) rfl rfl (by simp) rfl
  | pollFailed group' maxBatch t t' error hconsumer hpoll =>
    by_cases hgroup : group = group'
    · subst hgroup
      obtain ⟨pending, hkeys, hcases⟩ := t.pollLocked_cases r.memory maxBatch hsound.memory_bound
      rcases hcases with ⟨error', heq⟩ | ⟨retries, batch, -, -, heq⟩
      · rw [heq] at hpoll
        cases hpoll
        -- nothing is read: the poll of an empty batch
        exact h.poll hrun ⟨hconsumer, hkeys, fun d (hd : d ∈ []) => absurd hd not_mem_nil,
          nil_prefix, by simp [cursorAfter], rfl, by simp; rfl, rfl, rfl⟩ hsound hkept (by simp)
      · rw [heq] at hpoll
        cases hpoll
    · exact h.of_eq hrun (by simp [hgroup]) rfl rfl rfl (by simp) rfl
  | ackBehind group' ids publication t hconsumer hpoint =>
    by_cases hgroup : group = group'
    · subst hgroup
      exact h.ack hrun (by simp) hconsumer
        (consumers_setConsumer_self _ group ⟨true, t.ackLocked ids⟩) (.inl rfl) rfl rfl
        (by simp; rfl) (fun c hc => .inl hc)
    · exact h.of_eq hrun (by simp [hgroup]) rfl (by simp [hgroup]; rfl) rfl (by simp) rfl
  | ack group' ids t offset hconsumer hpoint | ackLost group' ids t offset hconsumer hpoint =>
    by_cases hgroup : group = group'
    · subst hgroup
      refine h.ack hrun (by simp) hconsumer (consumers_setConsumer_self _ group _) ?_ rfl rfl
        (by simp; rfl) (fun c hc => ?_)
      · simp
      · rcases committed_of_commit hc with hold | rfl
        · exact .inl hold
        · exact .inr hpoint
    · refine h.of_eq hrun (by simp [hgroup]) rfl (by simp [hgroup]; rfl) ?_ (by simp) rfl
      exact (committed_commit r.dir group' offset group).trans (if_neg hgroup)
  | nack group' ids t hconsumer =>
    by_cases hgroup : group = group'
    · subst hgroup
      exact h.nack hrun (by simp) hconsumer (consumers_setConsumer_self _ _ _) rfl rfl rfl rfl
    · exact h.of_eq hrun (by simp [hgroup]) rfl rfl rfl (by simp) rfl
  | upload | reap =>
    exact h.of_eq hrun rfl rfl rfl (by simp [PartitionDir.committed]) (by simp) rfl

end Tracked

/-! ## Whole runs -/

theorem kept_fresh (cfg : TopicConfig) : Kept cfg (fresh cfg) := by
  refine ⟨rfl, fun offset send hsend => ?_, fun offset send hsend => ?_, fun o m strict hm => ?_⟩
  · cases hsend
  · cases hsend
  · cases hm

theorem tracked_fresh : Tracked C cfg group [] (fresh cfg) := by
  have hlate : ∀ offset, ¬ Late C cfg group [] offset := by
    rintro offset ⟨before, after, r, k, hnil, -⟩
    exact append_ne_nil_of_right_ne_nil before (cons_ne_nil _ after) hnil.symm
  constructor
  · exact nofun
  · exact fun _ => ⟨rfl, rfl⟩
  · exact nofun
  · exact nofun
  · exact fun offset hl => absurd hl (hlate offset)
  · exact nofun
  · exact nofun
  · exact nofun
  · exact nofun

theorem tracked_of_play {events : List SessionEvent}
    (hrun : play (step C cfg) (fresh cfg) events = some r)
    (hone : events.count (.subscribe group) ≤ 1) :
    r.Sound ∧ Kept cfg r ∧ Tracked C cfg group events r := by
  refine play_induction (P := fun events r => events.count (.subscribe group) ≤ 1 →
    r.Sound ∧ Kept cfg r ∧ Tracked C cfg group events r) (fun _ =>
      ⟨sound_openPartition cfg, kept_fresh cfg, tracked_fresh⟩) ?_ hrun hone
  intro events e r r' hplay ih hstep hcount
  rw [count_append] at hcount
  obtain ⟨hsound, hkept, htracked⟩ := ih (by omega)
  have hmoves := moves_of_step hstep
  refine ⟨hsound.moves hmoves, hkept.moves hsound hmoves,
    htracked.moves hplay hsound hkept (fun he hmem => ?_) hmoves⟩
  -- a second consumer would be counted
  subst he
  have hbefore := count_pos_iff.2 hmem
  have hnow : List.count (.subscribe group) [SessionEvent.subscribe group] = 1 := by simp
  omega

/-- In every run with one consumer of the group, from offset 0 on, the group has seen and
    acknowledged every message at or below its committed offset exactly if none of them was enqueued
    when its cursor was above it. -/
theorem atLeastOnce_iff {events : List SessionEvent} {r : Running}
    (hrun : play (Running.step C cfg) (fresh cfg) events = some r)
    (hone : events.count (.subscribe group) ≤ 1) :
    AtLeastOnce cfg group r ↔ ∀ c offset message strict, r.dir.committed group = some c →
      offset ≤ c → (offset, message, strict) ∈ r.history.receipts →
      ¬ Late C cfg group events offset := by
  obtain ⟨-, hkept, htracked⟩ := tracked_of_play hrun hone
  constructor
  · intro h c offset message strict hc hle hreceipt hlate
    exact (htracked.late offset hlate).2 _ (h c offset message strict hc hle hreceipt).1 rfl
  · intro h c offset message strict hc hle hreceipt
    obtain ⟨k, hk, hlt, hacked⟩ := htracked.committed c hc
    have hmem := hkept.receipts offset message strict hreceipt
    have hdelivered : (⟨.new cfg.partition 0 offset, message⟩ : Delivery) ∈
        r.history.delivered group := by
      rw [← hkept.partition]
      rcases htracked.seen k hk _ hmem (lt_of_le_of_lt hle hlt) with hd | hlate
      · exact hd
      · exact absurd hlate (h c offset message strict hc hle hreceipt)
    refine ⟨hdelivered, ?_⟩
    rcases htracked.settled _ hdelivered with hdone | ⟨k', hk', p, hp, hid⟩
    · exact hdone
    · -- still pending, but below the committed offset
      rw [hk] at hk'
      cases hk'
      have hoffset : p.memo.offset = offset :=
        MessageId.new_inj ((htracked.pending k hk p hp).1.symm.trans hid)
      have hdone := hacked p hp (hoffset ▸ hle)
      rw [hid] at hdone
      exact hdone

/-! ## Two messages that change places -/

/-- The messages are enqueued in the order of their offsets. -/
def inOrder : List SessionEvent :=
  [.reserve (note [1]), .reserve (note [2]), .write 0, .write 1, .enqueue 0, .enqueue 1,
    .receipt 0, .receipt 1, .subscribe "g", .poll "g" 8,
    .ack "g" [.new 0 0 0, .new 0 0 1] .done]

/-- Nothing is late in the run in order: nobody has subscribed when the messages are enqueued. -/
theorem not_late_inOrder (offset : Nat) : ¬ Late plainCodec onePartition "g" inOrder offset := by
  rintro ⟨before, after, r, k, heq, hr, hk, -⟩
  have hbefore : before = inOrder.take before.length := by rw [heq, take_left]
  have hthere : inOrder[before.length]? = some (.enqueue offset) := by rw [heq]; simp
  have hlt : before.length < 11 := (List.getElem?_eq_some_iff.1 hthere).1
  have hearly : ∀ n < 11, (inOrder[n]?).all (fun
      | .enqueue _ => (play (step plainCodec onePartition) (fresh onePartition)
          (inOrder.take n)).all (fun r => (r.consumers "g").isNone)
      | _ => true) = true := by
    decide
  have hnone := hearly before.length hlt
  rw [hthere, ← hbefore, hr] at hnone
  simp [hk] at hnone

theorem atLeastOnce_inOrder : ∃ r, play (Running.step plainCodec onePartition)
    (fresh onePartition) inOrder = some r ∧ r.dir.committed "g" = some 1 ∧
      AtLeastOnce onePartition "g" r := by
  have hrun : (play (step plainCodec onePartition) (fresh onePartition) inOrder).map
      (fun r => r.dir.committed "g") = some (some 1) := by rfl
  obtain ⟨r, hr, hcommitted⟩ := Option.map_eq_some_iff.1 hrun
  exact ⟨r, hr, hcommitted, (atLeastOnce_iff hr (by rfl)).2
    (fun _ offset _ _ _ _ _ => not_late_inOrder offset)⟩

/-- The second message is enqueued, delivered and acknowledged before the first one arrives. -/
def overtaken : List SessionEvent :=
  [.reserve (note [1]), .reserve (note [2]), .write 0, .write 1, .enqueue 1, .subscribe "g",
    .poll "g" 8, .ack "g" [.new 0 0 1] .done, .enqueue 0, .receipt 0, .receipt 1, .poll "g" 8]

/-- Offset 0 has a receipt and is committed by the group, which never got it. -/
theorem overtaken_lost : ∃ r, play (Running.step plainCodec onePartition) (fresh onePartition)
      overtaken = some r ∧ overtaken.count (.subscribe "g") ≤ 1 ∧ r.dir.committed "g" = some 1 ∧
      (0, note [1], false) ∈ r.history.receipts ∧
      (⟨.new 0 0 0, note [1]⟩ : Delivery) ∉ r.history.delivered "g" ∧
      ¬ AtLeastOnce onePartition "g" r := by
  have hrun : (play (step plainCodec onePartition) (fresh onePartition) overtaken).map
      (fun r => (r.dir.committed "g", r.history.receipts, r.history.delivered "g")) =
        some (some 1, [(0, note [1], false), (1, note [2], false)], [⟨.new 0 0 1, note [2]⟩]) := by
    rfl
  obtain ⟨r, hr, hview⟩ := Option.map_eq_some_iff.1 hrun
  simp only [Prod.mk.injEq] at hview
  obtain ⟨hcommitted, hreceipts, hdelivered⟩ := hview
  have hreceipt : (0, note [1], false) ∈ r.history.receipts := by
    rw [hreceipts]
    exact mem_cons_self
  have hmissed : (⟨.new 0 0 0, note [1]⟩ : Delivery) ∉ r.history.delivered "g" := by
    rw [hdelivered]
    decide
  exact ⟨r, hr, by rfl, hcommitted, hreceipt, hmissed, fun h =>
    hmissed (h 1 0 (note [1]) false hcommitted (Nat.zero_le _) hreceipt).1⟩

end ProximaDb.Queue
