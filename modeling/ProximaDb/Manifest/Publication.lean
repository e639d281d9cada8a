/-
  ProximaDb.Manifest.Publication

  What is published in a versioned log, and the invariant of its head, its archives and the puts
  in flight. A record is published when a put of the head takes effect.
-/
import ProximaDb.Manifest.Committer

namespace ProximaDb.Manifest

open ProximaDb.Lib List List.Subset Option

variable {ι : Type}

section Published

variable (H : Digest) (log : Bytes)

/-- The snapshot a put publishes when it takes effect, if it is a put of the head. -/
def publication (put : Put ι) : Option (ι × Snapshot) :=
  if put.path = ⟨log, .head⟩ then
    match decode H put.bytes with
    | .ok record => record.snapshot.map (fun snap => (put.writer, snap))
    | .error _ => none
  else none

/-- The snapshots published so far, in order, with the program that published each. -/
def published (s : Shared ι) : List (ι × Snapshot) :=
  s.effects.filterMap (fun ticket => s.puts[ticket]?.bind (publication H log))

end Published

def lastOf (l : List (ι × Snapshot)) : Option Snapshot := l.getLast?.map Prod.snd

section Invariant

variable (H : Digest) (log : Bytes) (a : Uuid) {ticket : Nat} {put : Put ι}

/-- A put that is safe to take effect at any time. -/
def PutSafe (s : Shared ι) (put : Put ι) : Prop :=
  put.path.log = log ∧
    match put.path.file, put.mode with
    | .head, .update eTag =>
      ∃ snap, encode H ⟨a, some snap⟩ = .ok put.bytes ∧
        (put.writer, snap.operation) ∈ s.uuids ∧ eTag < s.nextTag ∧
        ∀ o, s.object ⟨log, .head⟩ = some o → o.eTag = eTag →
          snap.version.toNat = (published H log s).length ∧
            ∀ last ∈ lastOf (published H log s), last.generation ≤ snap.generation
    | .archive version, .create =>
      ∃ x : ι × Snapshot, (published H log s)[version.toNat]? = some x ∧
        encode H ⟨a, some x.2⟩ = .ok put.bytes
    | _, _ => False

structure LogInv (s : Shared ι) : Prop where
  tickets : ∀ ticket ∈ s.effects, ticket < s.puts.length
  tags : ∀ path o, s.object path = some o → o.eTag < s.nextTag
  head : ∃ o, s.object ⟨log, .head⟩ = some o ∧
    encode H ⟨a, lastOf (published H log s)⟩ = .ok o.bytes
  format : ∃ o, s.object ⟨log, .format⟩ = some o ∧ encode H ⟨a, none⟩ = .ok o.bytes
  archives : ∀ version o, s.object ⟨log, .archive version⟩ = some o →
    ∃ x : ι × Snapshot, (published H log s)[version.toNat]? = some x ∧
      encode H ⟨a, some x.2⟩ = .ok o.bytes
  versions : ∀ n (x : ι × Snapshot), (published H log s)[n]? = some x → x.2.version.toNat = n
  generations : (published H log s).Pairwise (fun x y => x.2.generation ≤ y.2.generation)
  safe : ∀ put ∈ s.puts, PutSafe H log a s put
  cells : ∀ cell ∈ s.cells, cell = none ∨ cell = some a
  uuids : (s.uuids.map Prod.snd).Nodup

structure Grows (s t : Shared ι) : Prop where
  grown : published H log s <+: published H log t
  uuids : s.uuids ⊆ t.uuids
  puts : s.puts <+: t.puts
  tags : s.nextTag ≤ t.nextTag
  head : (t.object ⟨log, .head⟩ = s.object ⟨log, .head⟩ ∧
      published H log t = published H log s) ∨
    ∃ o, t.object ⟨log, .head⟩ = some o ∧ s.nextTag ≤ o.eTag

/-- The puts of the head a program has issued. -/
def headPuts [DecidableEq ι] (i : ι) (s : Shared ι) : List (Put ι) :=
  s.puts.filter (fun put => decide (put.writer = i) && decide (put.path.file = .head))

variable {H log a} {s t u : Shared ι} {x : ι × Snapshot}

theorem Grows.refl (s : Shared ι) : Grows H log s s where
  grown := prefix_rfl
  uuids := List.Subset.refl _
  puts := prefix_rfl
  tags := le_refl _
  head := .inl ⟨rfl, rfl⟩

theorem Grows.trans (h : Grows H log s t) (h' : Grows H log t u) : Grows H log s u where
  grown := h.grown.trans h'.grown
  uuids _ hx := h'.uuids (h.uuids hx)
  puts := h.puts.trans h'.puts
  tags := h.tags.trans h'.tags
  head := by
    rcases h'.head with ⟨hobj, hpub⟩ | ⟨o, ho, htag⟩
    · rcases h.head with ⟨hobj', hpub'⟩ | ⟨o, ho, htag⟩
      · exact .inl ⟨hobj.trans hobj', hpub.trans hpub'⟩
      · exact .inr ⟨o, hobj.trans ho, htag⟩
    · exact .inr ⟨o, ho, h.tags.trans htag⟩

theorem Grows.getElem (h : Grows H log s t) {n : Nat}
    (hx : (published H log s)[n]? = some x) : (published H log t)[n]? = some x := by
  obtain ⟨more, hmore⟩ := h.grown
  rw [← hmore, List.getElem?_append_left (List.getElem?_eq_some_iff.1 hx).1]
  exact hx

/-! ## What is known of a loaded head -/

/-- A head that was read: the `n`-th published snapshot, the last one as long as the head's tag is
    the one read. -/
structure Loaded (H : Digest) (log : Bytes) (a : Uuid) (s : Shared ι) (head : LoadedHead) : Prop where
  authority : head.record.authority = a
  bytes : encode H head.record = .ok head.bytes
  tag : head.eTag < s.nextTag
  last : ∃ n, n ≤ (published H log s).length ∧
    lastOf ((published H log s).take n) = head.record.snapshot ∧
    ∀ o, s.object ⟨log, .head⟩ = some o → o.eTag = head.eTag → (published H log s).length = n

variable {head : LoadedHead} {o : Object}

theorem Loaded.mono (h : Loaded H log a s head) (hst : Grows H log s t) :
    Loaded H log a t head where
  authority := h.authority
  bytes := h.bytes
  tag := h.tag.trans_le hst.tags
  last := by
    obtain ⟨n, hn, hlast, hcur⟩ := h.last
    obtain ⟨more, hmore⟩ := hst.grown
    have hlen : (published H log s).length ≤ (published H log t).length := by
      rw [← hmore, length_append]
      omega
    refine ⟨n, hn.trans hlen, ?_, fun o ho htag => ?_⟩
    · rw [← hmore, take_append_of_le_length hn]
      exact hlast
    · rcases hst.head with ⟨hobj, hpub⟩ | ⟨o', ho', htag'⟩
      · rw [hpub]
        exact hcur o (hobj ▸ ho) htag
      · rw [ho'] at ho
        cases ho
        have := h.tag
        omega

theorem Loaded.of_object (hinv : LogInv H log a s) {record : Record}
    (ho : s.object ⟨log, .head⟩ = some o) (hdec : decode H o.bytes = .ok record) :
    Loaded H log a s ⟨record, o.bytes, o.eTag⟩ := by
  obtain ⟨o', ho', henc⟩ := hinv.head
  rw [ho] at ho'
  cases ho'
  have hrec : record = ⟨a, lastOf (published H log s)⟩ := by
    have := (decode_encode henc).symm.trans hdec
    exact (Except.ok.inj this).symm
  subst hrec
  exact
    { authority := rfl
      bytes := henc
      tag := hinv.tags _ _ ho
      last := ⟨_, le_refl _, by rw [take_length], fun _ _ _ => rfl⟩ }

variable {snap : Snapshot} {version : UInt64}

theorem Loaded.getElem (h : Loaded H log a s head) (hinv : LogInv H log a s)
    (hsnap : head.record.snapshot = some snap) :
    ∃ j, (published H log s)[snap.version.toNat]? = some (j, snap) := by
  obtain ⟨n, hn, hlast, -⟩ := h.last
  rw [hsnap] at hlast
  obtain ⟨⟨j, snap'⟩, hget, hsnap'⟩ := map_eq_some_iff.1 hlast
  subst hsnap'
  rw [List.getLast?_eq_getElem?, length_take, Nat.min_eq_left hn] at hget
  have hpos : 0 < n := by
    by_contra hzero
    have : n = 0 := by omega
    subst this
    simp at hget
  rw [List.getElem?_take, if_pos (by omega)] at hget
  have hver := hinv.versions _ _ hget
  refine ⟨j, ?_⟩
  rw [hver]
  exact hget

theorem Loaded.current (h : Loaded H log a s head) (hinv : LogInv H log a s)
    (hver : head.record.version = some version) : ∃ x : ι × Snapshot,
      (published H log s)[version.toNat]? = some x ∧ head.record = ⟨a, some x.2⟩ := by
  obtain ⟨snap, hsnap, rfl⟩ := map_eq_some_iff.1 hver
  obtain ⟨j, hj⟩ := h.getElem hinv hsnap
  refine ⟨(j, snap), hj, ?_⟩
  rw [← h.authority, ← hsnap]

/-! ## How the published snapshots change -/

theorem published_congr (heff : t.effects = s.effects) (hputs : t.puts = s.puts) :
    published H log t = published H log s := by
  unfold published
  rw [heff, hputs]

theorem published_issue (hinv : ∀ ticket ∈ s.effects, ticket < s.puts.length) (put : Put ι) :
    published H log { s with puts := s.puts ++ [put] } = published H log s := by
  refine filterMap_congr (fun ticket hmem => ?_)
  rw [List.getElem?_append_left (hinv ticket hmem)]

theorem published_write (hput : s.puts[ticket]? = some put) (now : Int) :
    published H log (s.write ticket put now) =
      published H log s ++ (publication H log put).toList := by
  show (s.effects ++ [ticket]).filterMap _ = _
  rw [filterMap_append]
  congr 1
  show [ticket].filterMap (fun ticket => s.puts[ticket]?.bind (publication H log)) = _
  rw [filterMap_cons, hput, bind_some]
  cases publication H log put <;> rfl

theorem object_write (now : Int) (path : ObjectPath) : (s.write ticket put now).object path =
      if path = put.path then some ⟨put.bytes, s.nextTag, now⟩ else s.object path := by
  by_cases hpath : path = put.path
  · subst hpath
    rw [if_pos rfl]
    exact AList.lookup_insert _
  · rw [if_neg hpath]
    exact AList.lookup_insert_ne hpath

theorem object_remove (path path' : ObjectPath) :
    (s.remove path).object path' = if path' = path then none else s.object path' := by
  by_cases hpath : path' = path
  · subst hpath
    rw [if_pos rfl]
    exact AList.lookup_erase _ _
  · rw [if_neg hpath]
    exact AList.lookup_erase_ne hpath

/-! ## Safe puts stay safe -/

theorem PutSafe.mono (h : PutSafe H log a s put) (hst : Grows H log s t) :
    PutSafe H log a t put := by
  obtain ⟨hlog, h⟩ := h
  refine ⟨hlog, ?_⟩
  revert h
  cases put.path.file with
  | head =>
    cases put.mode with
    | update eTag =>
      rintro ⟨snap, henc, huuid, htag, hcur⟩
      refine ⟨snap, henc, hst.uuids huuid, htag.trans_le hst.tags, fun o ho hotag => ?_⟩
      rcases hst.head with ⟨hobj, hpub⟩ | ⟨o', ho', htag'⟩
      · rw [hpub]
        exact hcur o (hobj ▸ ho) hotag
      · -- the head has a tag that was given later
        rw [ho'] at ho
        cases ho
        omega
    | create => exact id
  | archive version =>
    cases put.mode with
    | create =>
      rintro ⟨x, hx, henc⟩
      exact ⟨x, hst.getElem hx, henc⟩
    | update eTag => exact id
  | format | manifest => exact id

theorem PutSafe.publication (h : PutSafe H log a s put) (hpath : put.path = ⟨log, .head⟩) :
    ∃ snap, encode H ⟨a, some snap⟩ = .ok put.bytes ∧ (put.writer, snap.operation) ∈ s.uuids ∧
      publication H log put = some (put.writer, snap) := by
  obtain ⟨-, h⟩ := h
  rw [hpath] at h
  cases hmode : put.mode with
  | create =>
    rw [hmode] at h
    exact h.elim
  | update eTag =>
    rw [hmode] at h
    obtain ⟨snap, henc, huuid, -⟩ := h
    refine ⟨snap, henc, huuid, ?_⟩
    unfold Manifest.publication
    rw [if_pos hpath, decode_encode henc]
    rfl

theorem LogInv.exists_put (hinv : LogInv H log a s) (hx : x ∈ published H log s) :
    ∃ put ∈ s.puts, put.path = ⟨log, .head⟩ ∧ put.writer = x.1 ∧
      encode H ⟨a, some x.2⟩ = .ok put.bytes ∧ (x.1, x.2.operation) ∈ s.uuids := by
  obtain ⟨ticket, -, hpub⟩ := mem_filterMap.1 hx
  obtain ⟨put, hput, hpub⟩ := bind_eq_some_iff.1 hpub
  have hmem : put ∈ s.puts := mem_of_getElem? hput
  have hpath : put.path = ⟨log, .head⟩ := by
    unfold publication at hpub
    split_ifs at hpub with hpath
    exact hpath
  obtain ⟨snap, henc, huuid, hsnap⟩ := (hinv.safe put hmem).publication hpath
  rw [hsnap] at hpub
  cases hpub
  exact ⟨put, hmem, hpath, rfl, henc, huuid⟩

theorem LogInv.published_of_effect (hinv : LogInv H log a s)
    (heffect : ticket ∈ s.effects) (hput : s.puts[ticket]? = some put)
    (hpath : put.path = ⟨log, .head⟩) (henc : encode H ⟨a, some snap⟩ = .ok put.bytes) :
    (published H log s)[snap.version.toNat]? = some (put.writer, snap) := by
  have hpub : publication H log put = some (put.writer, snap) := by
    unfold publication
    rw [if_pos hpath, decode_encode henc]
    rfl
  have hmem : (put.writer, snap) ∈ published H log s := by
    refine mem_filterMap.2 ⟨ticket, heffect, ?_⟩
    rw [hput]
    exact hpub
  obtain ⟨n, hn⟩ := mem_iff_getElem?.1 hmem
  rw [hinv.versions n _ hn]
  exact hn

/-- A record computed from the head that was read, and not stale, follows that head. -/
structure Follows (H : Digest) (a : Uuid) (head : LoadedHead) (snap : Snapshot) (bytes : Bytes) :
    Prop where
  bytes : encode H ⟨a, some snap⟩ = .ok bytes
  version : successor head.record.version = .ok snap.version
  generation : ∀ last ∈ head.record.snapshot, last.generation ≤ snap.generation

theorem toNat_successor {parent : Option UInt64} {target : UInt64}
    (h : successor parent = .ok target) : target.toNat = (parent.map (fun p => p.toNat + 1)).getD 0 := by
  cases parent with
  | none =>
    cases h
    rfl
  | some p =>
    simp only [successor] at h
    split_ifs at h with hfit
    cases h
    rw [UInt64.toNat_add]
    exact Nat.mod_eq_of_lt hfit

theorem Follows.putSafe {c : ManifestCommitter} {i : ι}
    {bytes : Bytes} (h : Follows H a head snap bytes) (hc : c.log = log) (hinv : LogInv H log a s)
    (hloaded : Loaded H log a s head)
    (hdrawn : (i, snap.operation) ∈ s.uuids) :
    PutSafe H log a s ⟨i, c.headPath, bytes, .update head.eTag⟩ := by
  refine ⟨hc, snap, h.bytes, hdrawn, hloaded.tag, fun o ho htag => ?_⟩
  obtain ⟨n, hn, hlast, hcur⟩ := hloaded.last
  have hlen := hcur o ho htag
  have hfull : lastOf (published H log s) = head.record.snapshot := by
    rw [← hlast, ← hlen, take_length]
  refine ⟨?_, fun last hmem => h.generation last (hfull ▸ hmem)⟩
  rw [toNat_successor h.version]
  cases hsnap : head.record.snapshot with
  | none =>
    rw [hsnap] at hfull
    have hnil : published H log s = [] := by
      rwa [lastOf, map_eq_none_iff, List.getLast?_eq_none_iff] at hfull
    rw [hnil, Record.version, hsnap]
    rfl
  | some last =>
    obtain ⟨x, hx, hxsnap⟩ := map_eq_some_iff.1 (hfull.trans hsnap)
    have hne : 0 < (published H log s).length := by
      refine length_pos_of_mem (mem_of_getLast? hx)
    rw [List.getLast?_eq_getElem?] at hx
    have hver := hinv.versions _ _ hx
    rw [hxsnap] at hver
    rw [Record.version, hsnap]
    show last.version.toNat + 1 = (published H log s).length
    omega

/-! ## The steps keep the invariant -/

variable (h : LogInv H log a s) {now : Int}

include h

/-- A step that publishes nothing. -/
theorem LogInv.of_published (hst : Grows H log s t) (hpub : published H log t = published H log s)
    (hhead : t.object ⟨log, .head⟩ = s.object ⟨log, .head⟩)
    (hformat : t.object ⟨log, .format⟩ = s.object ⟨log, .format⟩)
    (htags : ∀ path o, t.object path = some o → o.eTag < t.nextTag)
    (harchives : ∀ version o, t.object ⟨log, .archive version⟩ = some o →
      ∃ x : ι × Snapshot, (published H log s)[version.toNat]? = some x ∧
        encode H ⟨a, some x.2⟩ = .ok o.bytes)
    (htickets : ∀ ticket ∈ t.effects, ticket < t.puts.length)
    (hputs : ∀ put ∈ t.puts, put ∈ s.puts ∨ PutSafe H log a t put)
    (hcells : ∀ cell ∈ t.cells, cell = none ∨ cell = some a)
    (huuids : (t.uuids.map Prod.snd).Nodup) : LogInv H log a t where
  tickets := htickets
  tags := htags
  head := by
    rw [hhead, hpub]
    exact h.head
  format := by
    rw [hformat]
    exact h.format
  archives := by
    rw [hpub]
    exact harchives
  versions := by
    rw [hpub]
    exact h.versions
  generations := by
    rw [hpub]
    exact h.generations
  safe put hput := (hputs put hput).elim (fun hold => (h.safe put hold).mono hst) id
  cells := hcells
  uuids := huuids

omit h in
theorem Grows.of_same (hobj : t.objects = s.objects) (htag : t.nextTag = s.nextTag)
    (hpub : published H log t = published H log s) (huuids : s.uuids ⊆ t.uuids)
    (hputs : s.puts <+: t.puts) : Grows H log s t where
  grown := hpub.symm ▸ prefix_rfl
  uuids := huuids
  puts := hputs
  tags := htag.ge
  head := .inl ⟨by unfold Shared.object; rw [hobj], hpub⟩

theorem Grows.issue (put : Put ι) : Grows H log s { s with puts := s.puts ++ [put] } :=
  .of_same rfl rfl (published_issue h.tickets put) (List.Subset.refl _) (prefix_append _ _)

theorem LogInv.issue (hput : PutSafe H log a s put) :
    LogInv H log a { s with puts := s.puts ++ [put] } := by
  have hst := Grows.issue h put
  refine h.of_published hst (published_issue h.tickets put) rfl rfl h.tags h.archives
    (fun ticket hmem => ?_) (fun put' hput' => ?_) h.cells h.uuids
  · have := h.tickets ticket hmem
    rw [length_append]
    omega
  · rcases mem_append.1 hput' with hold | hnew
    · exact .inl hold
    · rw [mem_singleton.1 hnew]
      exact .inr (hput.mono hst)

omit h in
theorem Grows.newUuid (s : Shared ι) (x : ι × Uuid) :
    Grows H log s { s with uuids := s.uuids ++ [x] } :=
  .of_same rfl rfl (published_congr rfl rfl) (subset_append_left _ _) prefix_rfl

theorem LogInv.newUuid {i : ι} {u : Uuid}
    (hu : u ∉ s.uuids.map Prod.snd) : LogInv H log a { s with uuids := s.uuids ++ [(i, u)] } := by
  refine h.of_published (Grows.newUuid s _) (published_congr rfl rfl) rfl rfl h.tags h.archives
    h.tickets (fun _ => .inl) h.cells ?_
  rw [map_append, map_singleton]
  exact List.Nodup.append h.uuids (nodup_singleton u) (by simpa using hu)

theorem initCell_spec (cell : Nat) :
    LogInv H log a (initCell s cell a).2 ∧ Grows H log s (initCell s cell a).2 ∧
      (initCell s cell a).2.puts = s.puts := by
  unfold initCell
  cases hcell : s.cells[cell]? with
  | none => exact ⟨h, .refl s, rfl⟩
  | some content =>
    cases content with
    | some b => exact ⟨h, .refl s, rfl⟩
    | none =>
      have hst : Grows H log s { s with cells := s.cells.set cell (some a) } :=
        .of_same rfl rfl (published_congr rfl rfl) (refl _) prefix_rfl
      refine ⟨h.of_published hst (published_congr rfl rfl) rfl rfl h.tags h.archives h.tickets
        (fun _ => .inl) (fun content hmem => ?_) h.uuids, hst, rfl⟩
      rcases mem_or_eq_of_mem_set hmem with hold | hnew
      · exact h.cells content hold
      · exact .inr hnew

theorem remove_spec (version : UInt64) : LogInv H log a (s.remove ⟨log, .archive version⟩) ∧
      Grows H log s (s.remove ⟨log, .archive version⟩) := by
  have hobj : ∀ path o, (s.remove ⟨log, .archive version⟩).object path = some o →
      s.object path = some o := by
    intro path o ho
    rw [object_remove] at ho
    split_ifs at ho
    exact ho
  have hpub : published H log (s.remove ⟨log, .archive version⟩) = published H log s :=
    published_congr rfl rfl
  have hhead : (s.remove ⟨log, .archive version⟩).object ⟨log, .head⟩ = s.object ⟨log, .head⟩ := by
    rw [object_remove, if_neg (by simp)]
  have hst : Grows H log s (s.remove ⟨log, .archive version⟩) :=
    { grown := hpub.symm ▸ prefix_rfl
      uuids := refl _
      puts := prefix_rfl
      tags := le_refl _
      head := .inl ⟨hhead, hpub⟩ }
  exact ⟨h.of_published hst hpub hhead (by rw [object_remove, if_neg (by simp)])
    (fun path o ho => h.tags path o (hobj path o ho)) (fun v o ho => h.archives v o (hobj _ o ho))
    h.tickets (fun _ => .inl) h.cells h.uuids, hst⟩

theorem LogInv.tickets_write (hput : s.puts[ticket]? = some put) :
    ∀ n ∈ s.effects ++ [ticket], n < s.puts.length :=
  forall_mem_append.2 ⟨h.tickets, forall_mem_singleton.2 (List.getElem?_eq_some_iff.1 hput).1⟩

theorem LogInv.tags_write
    (ho : (s.write ticket put now).object path = some o) : o.eTag < s.nextTag + 1 := by
  rw [object_write] at ho
  split_ifs at ho
  · cases ho
    exact Nat.lt_succ_self _
  · exact (h.tags path o ho).trans (Nat.lt_succ_self _)

omit h in
theorem object_write_ne {file target : LogFile} (hpath : put.path = ⟨log, target⟩)
    (hfile : file ≠ target) :
    (s.write ticket put now).object ⟨log, file⟩ = s.object ⟨log, file⟩ := by
  rw [object_write, hpath, if_neg (by simpa using hfile)]

/-- A put of the head takes effect: its snapshot follows the last published one. -/
theorem LogInv.write_head {eTag : Nat} (hput : s.puts[ticket]? = some put)
    (hpath : put.path = ⟨log, .head⟩) (hmode : put.mode = .update eTag)
    (hadmits : Shared.Admits put.mode (s.object put.path)) (now : Int) :
    LogInv H log a (s.write ticket put now) ∧ Grows H log s (s.write ticket put now) := by
  have hsafe := h.safe put (mem_of_getElem? hput)
  obtain ⟨snap, henc, huuid, hpubl⟩ := hsafe.publication hpath
  have hpub : published H log (s.write ticket put now) =
      published H log s ++ [(put.writer, snap)] := by
    rw [published_write hput, hpubl]
    rfl
  -- the head still has the tag the put names
  obtain ⟨hversion, hgeneration⟩ : snap.version.toNat = (published H log s).length ∧
      ∀ last ∈ lastOf (published H log s), last.generation ≤ snap.generation := by
    obtain ⟨-, hcase⟩ := hsafe
    rw [hpath, hmode] at hcase
    obtain ⟨snap', henc', -, -, hcur⟩ := hcase
    have hsame : snap' = snap := by
      have := encode_inj henc' henc
      simpa using this
    subst hsame
    rw [hmode, hpath] at hadmits
    obtain ⟨o, ho, htag⟩ := map_eq_some_iff.1 hadmits
    exact hcur o ho htag
  have hhead : (s.write ticket put now).object ⟨log, .head⟩ = some ⟨put.bytes, s.nextTag, now⟩ := by
    rw [object_write, hpath, if_pos rfl]
  have hst : Grows H log s (s.write ticket put now) :=
    { grown := by rw [hpub]; exact prefix_append _ _
      uuids := refl _
      puts := prefix_rfl
      tags := Nat.le_succ _
      head := .inr ⟨_, hhead, le_refl _⟩ }
  refine ⟨?_, hst⟩
  exact
    { tickets := h.tickets_write hput
      tags := fun path o ho => h.tags_write ho
      head := by
        refine ⟨_, hhead, ?_⟩
        rw [hpub, lastOf, List.getLast?_concat]
        exact henc
      format := by rw [object_write_ne hpath (by simp)]; exact h.format
      archives := fun v o ho => by
        rw [object_write_ne hpath (by simp)] at ho
        obtain ⟨x, hx, hbytes⟩ := h.archives v o ho
        exact ⟨x, hst.getElem hx, hbytes⟩
      versions := fun n x hx => by
        rw [hpub, List.getElem?_append] at hx
        split_ifs at hx with hlt
        · exact h.versions n x hx
        · rw [List.getElem?_singleton] at hx
          split_ifs at hx with hzero
          cases hx
          show snap.version.toNat = n
          omega
      generations := by
        rw [hpub, pairwise_append]
        refine ⟨h.generations, pairwise_singleton _ _, fun x hx y hy => ?_⟩
        rw [mem_singleton.1 hy]
        -- below the last one, and the last one is not above the new one
        have hlast := List.getLast?_eq_some_getLast (ne_nil_of_mem hx)
        have : Std.Refl (fun x y : ι × Snapshot => x.2.generation ≤ y.2.generation) :=
          ⟨fun x => UInt64.le_refl _⟩
        exact UInt64.le_trans (h.generations.rel_getLast hx)
          (hgeneration _ (by rw [lastOf, hlast]; rfl))
      safe := fun p hp => (h.safe p hp).mono hst
      cells := h.cells
      uuids := h.uuids }

theorem LogInv.write_archive
    (hput : s.puts[ticket]? = some put) (hpath : put.path = ⟨log, .archive version⟩)
    (hmode : put.mode = .create) (now : Int) :
    LogInv H log a (s.write ticket put now) ∧ Grows H log s (s.write ticket put now) := by
  have hpub : published H log (s.write ticket put now) = published H log s := by
    rw [published_write hput, publication, hpath, if_neg (by simp)]
    simp
  have hst : Grows H log s (s.write ticket put now) :=
    { grown := hpub.symm ▸ prefix_rfl
      uuids := refl _
      puts := prefix_rfl
      tags := Nat.le_succ _
      head := .inl ⟨object_write_ne hpath (by simp), hpub⟩ }
  refine ⟨h.of_published hst hpub (object_write_ne hpath (by simp)) (object_write_ne hpath (by simp))
    (fun path o ho => h.tags_write ho) (fun v o ho => ?_) (h.tickets_write hput) (fun _ => .inl)
    h.cells h.uuids, hst⟩
  by_cases hv : v = version
  · subst hv
    rw [object_write, hpath, if_pos rfl] at ho
    cases ho
    obtain ⟨-, hcase⟩ := h.safe put (mem_of_getElem? hput)
    rw [hpath, hmode] at hcase
    exact hcase
  · rw [object_write_ne hpath (by simpa using hv)] at ho
    exact h.archives v o ho

theorem arrive_spec (harrive : s.arrive ticket now = some t) :
    LogInv H log a t ∧ Grows H log s t ∧ t.puts = s.puts := by
  obtain ⟨put, hput, rfl⟩ := map_eq_some_iff.1 harrive
  split_ifs with hadmits
  · obtain ⟨hlog, hcase⟩ := h.safe put (mem_of_getElem? hput)
    have hpath : put.path = ⟨log, put.path.file⟩ := by rw [← hlog]
    split at hcase
    case h_1 eTag hfile hmode =>
      rw [hfile] at hpath
      obtain ⟨hinv, hst⟩ := h.write_head hput hpath hmode hadmits now
      exact ⟨hinv, hst, rfl⟩
    case h_2 version hfile hmode =>
      rw [hfile] at hpath
      obtain ⟨hinv, hst⟩ := h.write_archive hput hpath hmode now
      exact ⟨hinv, hst, rfl⟩
    case h_3 => exact hcase.elim
  · have hst : Grows H log s { s with refused := s.refused ++ [ticket] } :=
      .of_same rfl rfl (published_congr rfl rfl) (refl _) prefix_rfl
    exact ⟨h.of_published hst (published_congr rfl rfl) rfl rfl h.tags h.archives h.tickets
      (fun _ => .inl) h.cells h.uuids, hst, rfl⟩

end Invariant

end ProximaDb.Manifest
