/-
  ProximaDb.Manifest.Linearizable

  Versioned manifest logs under any interleaving of their clients. Each call is a program of a
  pool over the object store; what it may rely on is that the log only grows and that nobody else
  replaces the head in its name.
-/
import ProximaDb.Manifest.Publication

namespace ProximaDb.Manifest

open ProximaDb.Lib List ManifestCommitter Option
open Meets (gives_seq fail_gives ret_gives gives_from)

variable {ι : Type} [DecidableEq ι] {head : LoadedHead} {version : UInt64}

/-- The invariant of the log, and what a client relies on. -/
def logDiscipline (H : Digest) (log : Bytes) (a : Uuid) : Discipline ι (Shared ι) where
  inv := LogInv H log a
  moves := Grows H log
  own i s t := headPuts i t = headPuts i s
  moves_refl := .refl
  moves_trans := .trans
  own_refl _ _ := rfl
  own_trans _ _ _ _ h h' := h'.trans h

section Programs

variable {H : Digest} {log : Bytes} {a : Uuid} {c : ManifestCommitter} {i : ι} {s t : Shared ι}
  {bytes : Bytes}

theorem rely_of_puts (hst : Grows H log s t) (hputs : t.puts = s.puts) (j : ι) :
    (logDiscipline H log a).rely j s t :=
  ⟨hst, by show headPuts j t = headPuts j s; unfold headPuts; rw [hputs]⟩

theorem keeps_of_rely (hinv : LogInv H log a t)
    (h : ∀ j, (logDiscipline H log a).rely j s t) : (logDiscipline H log a).Keeps i s t :=
  ⟨hinv, (h i).1, fun j _ => (h j).2⟩

/-- The program keeps the discipline of the log and gives what `P` says. -/
abbrev LogYields (H : Digest) (log : Bytes) (a : Uuid) (i : ι) {ε α : Type}
    (P : α → Shared ι → Prop) (p : StoreProg ε α) (s : Shared ι) : Prop :=
  Meets (objectStore ι) (logDiscipline H log a) i (Gives (logDiscipline H log a) i s P) p s

/-! ## Reading -/

theorem pinAuthority_gives : LogYields H log a i (fun _ _ => True) (c.pinAuthority a) s := by
  refine meets_initCell (fun t ht hinvt => ?_)
  obtain ⟨hinv', hst, hputs⟩ := initCell_spec hinvt c.cell
  have hrely := rely_of_puts (a := a) hst hputs
  refine ⟨keeps_of_rely hinv' hrely, ?_⟩
  have hsu := ht.trans (hrely i)
  split_ifs
  · exact ret_gives hsu (fun _ _ _ _ => trivial)
  · exact fail_gives hsu

theorem checkMarker_gives (record : Record) :
    LogYields H log a i (fun _ _ => True) (c.checkMarker H record) s := by
  refine gives_seq (getBytes_gives (P := fun _ _ => True) (fun _ _ _ _ _ _ _ => trivial))
    (fun t bytes _ _ _ => ?_)
  refine gives_seq (Meets.ofExcept_gives (P := fun _ _ => True) .refl
    (fun _ _ _ _ _ _ => trivial)) (fun u marker _ _ _ => ?_)
  split_ifs
  · exact fail_gives .refl
  · exact Meets.done

theorem acceptHead_gives {eTag : Nat} {record : Record}
    (hdec : decode H bytes = .ok record) (hloaded : Loaded H log a s ⟨record, bytes, eTag⟩) :
    LogYields H log a i (fun r t => ∃ head, r = some head ∧ Loaded H log a t head)
      (c.acceptHead H bytes eTag) s := by
  unfold acceptHead
  rw [hdec]
  refine meets_readCell (fun t ht _ => gives_from ht ?_)
  have hmarker : LogYields H log a i (fun _ _ => True)
      (if t.cells[c.cell]?.join.isNone then c.checkMarker H record else .ret ()) t := by
    split_ifs
    · exact checkMarker_gives record
    · exact Meets.done
  refine gives_seq hmarker (fun u _ hu _ _ => ?_)
  have hauth : record.authority = a := hloaded.authority
  rw [hauth]
  refine gives_seq pinAuthority_gives (fun v _ hv _ _ => ?_)
  have hsv := (ht.trans hu).trans hv
  exact ret_gives .refl (fun w hvw _ _ => ⟨_, rfl, hloaded.mono (hsv.trans hvw).1⟩)

section

variable (hc : c.log = log)

include hc

/-- `load_head` answers with a published snapshot, or with the empty one of a new log. -/
theorem loadHead_gives :
    LogYields H log a i (fun r t => ∃ head, r = some head ∧ Loaded H log a t head)
      (c.loadHead H) s := by
  refine meets_get (fun t ht hinvt r hr => ?_)
  rcases hr with rfl | ⟨text, rfl⟩
  · obtain ⟨o, ho, henc⟩ := hinvt.head
    have hfound : t.found c.headPath = .ok (o.bytes, o.eTag) := by
      unfold Shared.found headPath
      rw [hc, ho]
    rw [hfound]
    have hdec := decode_encode henc
    exact gives_from ht (acceptHead_gives hdec (Loaded.of_object hinvt ho hdec))
  · exact fail_gives ht

theorem recordAt_gives (hinv : LogInv H log a s)
    (hloaded : Loaded H log a s head) (version : UInt64) : LogYields H log a i (fun record t => ∃ x,
      (published H log t)[version.toNat]? = some x ∧ record = ⟨a, some x.2⟩)
      (c.recordAt H head version) s := by
  have hrefl : (logDiscipline H log a).rely i s s := .refl
  unfold recordAt
  by_cases hcur : head.record.version = some version
  · rw [if_pos hcur]
    obtain ⟨x, hx, hrecord⟩ := hloaded.current hinv hcur
    exact ret_gives hrefl (fun t hst _ _ => ⟨x, hst.1.getElem hx, hrecord⟩)
  · rw [if_neg hcur]
    by_cases hbeyond : head.record.version.all (fun v => decide (v < version)) = true
    · rw [if_pos hbeyond]
      exact fail_gives hrefl
    · rw [if_neg hbeyond]
      refine gives_seq (getBytes_gives (P := fun bytes t => ∃ x : ι × Snapshot,
        (published H log t)[version.toNat]? = some x ∧ encode H ⟨a, some x.2⟩ = .ok bytes)
        (fun t o _ hinvt ho u htu => ?_)) (fun t bytes _ _ hbytes => ?_)
      · unfold archivePath at ho
        rw [hc] at ho
        obtain ⟨x, hx, henc⟩ := hinvt.archives version o ho
        exact ⟨x, htu.1.getElem hx, henc⟩
      · obtain ⟨x, hx, henc⟩ := hbytes
        rw [decode_encode henc]
        show Meets _ _ _ _ (if _ then _ else _) t
        split_ifs
        · exact fail_gives .refl
        · exact ret_gives .refl (fun u htu _ _ => ⟨x, htu.1.getElem hx, rfl⟩)

theorem readVersioned_gives (hinv : LogInv H log a s)
    (hloaded : Loaded H log a s head) (version : UInt64) : LogYields H log a i (fun r t => ∃ x,
      (published H log t)[version.toNat]? = some x ∧ r = (x.2.generation, x.2.payload))
      (c.readVersioned H head version) s := by
  refine gives_seq (recordAt_gives hc hinv hloaded version) (fun t record _ _ hrec => ?_)
  obtain ⟨x, hx, rfl⟩ := hrec
  exact ret_gives .refl (fun u htu _ _ => ⟨x, htu.1.getElem hx, rfl⟩)

/-! ## Archiving and pruning -/

omit hc in
theorem issueArchive (hinv : LogInv H log a t) {put : Put ι}
    (hfile : put.path.file = .archive version) (hsafe : PutSafe H log a t put) :
    LogInv H log a { t with puts := t.puts ++ [put] } ∧
      ∀ j, (logDiscipline H log a).rely j t { t with puts := t.puts ++ [put] } := by
  refine ⟨hinv.issue hsafe, fun j => ⟨Grows.issue hinv put, ?_⟩⟩
  show List.filter _ (t.puts ++ [put]) = List.filter _ t.puts
  rw [filter_append]
  simp [hfile]

theorem archivePredecessor_gives (hinv : LogInv H log a s) (hloaded : Loaded H log a s head) :
    LogYields H log a i (fun _ _ => True) (c.archivePredecessor head) s := by
  unfold archivePredecessor
  cases hver : head.record.version with
  | none => exact Meets.done
  | some version =>
    obtain ⟨x, hx, hrecord⟩ := hloaded.current hinv hver
    refine Meets.bind ?_
    refine meets_issue (fun t ht hinvt => ?_)
    have hsafe : PutSafe H log a t ⟨i, c.archivePath version, head.bytes, .create⟩ := by
      refine ⟨hc, x, ht.1.getElem hx, ?_⟩
      rw [← hrecord]
      exact hloaded.bytes
    obtain ⟨hinv', hrely⟩ := issueArchive hinvt rfl hsafe
    refine ⟨keeps_of_rely hinv' hrely, ?_⟩
    have hsu := ht.trans (hrely i)
    refine meets_await (f := Prog.ret) (fun u hu hinvu r hr _ => ?_)
    intro v hv hinvv
    refine gives_from (hsu.trans (hu.trans hv)) ?_
    match r with
    | .ok () => exact Meets.done
    | .error .alreadyExists =>
      refine gives_seq (getBytes_gives (P := fun _ _ => True)
        (fun _ _ _ _ _ _ _ => trivial)) (fun w bytes _ _ _ => ?_)
      split_ifs
      · exact fail_gives .refl
      · exact Meets.done
    | .error .notFound | .error .precondition | .error (.other _) => exact fail_gives .refl

theorem deleteAged_gives (now minAge : Int) (entries : List (UInt64 × Int)) :
    LogYields H log a i (fun _ _ => True) (c.deleteAged now minAge entries) s := by
  induction entries generalizing s with
  | nil => exact Meets.done
  | cons e rest ih =>
    obtain ⟨version, modified⟩ := e
    unfold deleteAged
    split_ifs
    · exact ih
    · refine meets_delete (fun t ht hinvt => ?_)
      unfold archivePath
      rw [hc]
      obtain ⟨hinv', hst⟩ := remove_spec hinvt version
      have hrely := rely_of_puts (a := a) hst rfl
      refine ⟨keeps_of_rely hinv' hrely, fun r u hu => ?_⟩
      have hsu : (logDiscipline H log a).rely i s u := by
        rcases hu with rfl | rfl
        · exact ht
        · exact ht.trans (hrely i)
      refine gives_from hsu ?_
      cases r with
      | ok _ => exact gives_seq ih (fun _ _ _ _ _ => Meets.done)
      | error e => exact ih

theorem pruneVersioned_gives (head : LoadedHead) (keepK minAgeNs : Nat) :
    LogYields H log a i (fun _ _ => True) (c.pruneVersioned head keepK minAgeNs) s := by
  unfold pruneVersioned
  split_ifs
  · exact fail_gives .refl
  · cases head.record.version with
    | none => exact Meets.done
    | some tip =>
      refine gives_seq (listLog_gives (P := fun _ _ => True) (fun _ _ _ _ _ => trivial))
        (fun t metas _ _ _ => ?_)
      exact meets_now (fun u hu _ now => gives_from hu (deleteAged_gives hc now _ _))

end

/-! ## Publishing -/

/-- What a program knows of the one record it has tried to publish. -/
structure Tried (H : Digest) (a : Uuid) (i : ι) (snap : Snapshot) (s : Shared ι) : Prop where
  only : ∀ put ∈ headPuts i s, encode H ⟨a, some snap⟩ = .ok put.bytes
  drawn : (i, snap.operation) ∈ s.uuids

variable {snap : Snapshot}

theorem Tried.mono (h : Tried H a i snap s)
    (hst : (logDiscipline H log a).rely i s t) : Tried H a i snap t where
  only put hput := by
    have hown : headPuts i t = headPuts i s := hst.2
    exact h.only put (hown ▸ hput)
  drawn := hst.1.uuids h.drawn

variable {x : ι × Snapshot}

theorem Tried.eq_of_writer (h : Tried H a i snap s) (hinv : LogInv H log a s)
    (hx : x ∈ published H log s) (hwriter : x.1 = i) : x.2 = snap := by
  obtain ⟨put, hput, hpath, hput', henc, -⟩ := hinv.exists_put hx
  have hmem : put ∈ headPuts i s := by
    refine mem_filter.2 ⟨hput, ?_⟩
    simp [hput', hwriter, hpath]
  have := encode_inj henc (h.only put hmem)
  simpa using this

def CommitMeans (H : Digest) (log : Bytes) (i : ι) (generation : UInt64) (payload : Bytes) :
    Except StorageError CommitOutcome → Shared ι → Prop
  | .ok (.committed version), s => ∃ x, (published H log s)[version.toNat]? = some x ∧ x.1 = i ∧
      x.2.generation = generation ∧ x.2.payload = payload
  | .ok (.conflict _), s => ∀ x ∈ published H log s, x.1 ≠ i
  | .error _, _ => True

variable {snap : Snapshot}

theorem receipt_meets (htried : Tried H a i snap s)
    (hx : (published H log s)[snap.version.toNat]? = some x) (latest : Option UInt64)
    (error : ObjectError) : Meets (objectStore ι) (logDiscipline H log a) i
      (CommitMeans H log i snap.generation snap.payload)
      (receipt snap.version snap.operation latest error ⟨a, some x.2⟩) s := by
  show Meets _ _ _ _ (if _ then _ else _) s
  split_ifs with hop
  · intro t hst hinv
    have hxt := hst.1.getElem hx
    have hmem := mem_of_getElem? hxt
    obtain ⟨-, -, -, -, -, huuid⟩ := hinv.exists_put hmem
    have hwriter : x.1 = i :=
      congrArg Prod.fst (inj_on_of_nodup_map hinv.uuids huuid (htried.mono hst).drawn hop)
    have hsnap := (htried.mono hst).eq_of_writer hinv hmem hwriter
    exact ⟨x, hxt, hwriter, by rw [hsnap], by rw [hsnap]⟩
  · intro t hst hinv y hy hwriter
    -- a snapshot of this program would be at the version where another one is
    have hxt := hst.1.getElem hx
    have hsnap := (htried.mono hst).eq_of_writer hinv hy hwriter
    obtain ⟨n, hn⟩ := mem_iff_getElem?.1 hy
    have hver := hinv.versions n y hn
    rw [hsnap] at hver
    rw [← hver, hxt] at hn
    cases hn
    exact hop (by rw [hsnap])

variable (hc : c.log = log)

include hc

theorem archivedReceipt_meets (htried : Tried H a i snap s) (head : LoadedHead)
    (error : ObjectError) : Meets (objectStore ι) (logDiscipline H log a) i
      (CommitMeans H log i snap.generation snap.payload)
      (c.archivedReceipt H head snap.version snap.operation error) s := by
  refine meets_get (fun t ht hinvt r hr => ?_)
  rcases hr with rfl | ⟨text, rfl⟩
  · unfold Shared.found archivePath
    rw [hc]
    cases hobj : t.object ⟨log, .archive snap.version⟩ with
    | none => exact fun _ _ _ => trivial
    | some o =>
      obtain ⟨x, hx, henc⟩ := hinvt.archives _ o hobj
      dsimp only
      rw [decode_encode henc]
      dsimp only
      split_ifs
      · exact fun _ _ _ => trivial
      · exact receipt_meets (htried.mono ht) hx _ _
  · exact fun _ _ _ => trivial

theorem resolvePublication_meets (htried : Tried H a i snap s) (error : ObjectError) :
    Meets (objectStore ι) (logDiscipline H log a) i
      (CommitMeans H log i snap.generation snap.payload)
      (c.resolvePublication H snap.version snap.operation error) s := by
  refine Meets.bind (Meets.attempt ((loadHead_gives hc).mono (fun r t hinvt hr => ?_)))
  cases r with
  | error e => exact fun _ _ _ => trivial
  | ok loaded =>
    obtain ⟨hst, head, rfl, hloaded⟩ := hr
    show Meets _ _ _ _ (if _ then _ else _) t
    split_ifs with hcur hbelow
    · obtain ⟨x, hx, hrecord⟩ := hloaded.current hinvt hcur
      rw [hrecord]
      exact receipt_meets (htried.mono hst) hx _ _
    · exact archivedReceipt_meets hc (htried.mono hst) head error
    · exact fun _ _ _ => trivial

theorem publish_meets (hloaded : Loaded H log a s head)
    (hfollows : Follows H a head snap bytes) (hdrawn : (i, snap.operation) ∈ s.uuids)
    (hnone : headPuts i s = []) : Meets (objectStore ι) (logDiscipline H log a) i
      (CommitMeans H log i snap.generation snap.payload)
      (c.publish H head snap.version snap.operation bytes) s := by
  refine Meets.bind ?_
  refine meets_issue (fun t ht hinvt => ?_)
  have hsafe := hfollows.putSafe hc hinvt (hloaded.mono ht.1) (ht.1.uuids hdrawn)
  have hinv' := hinvt.issue hsafe
  let new : Put ι := ⟨i, c.headPath, bytes, .update head.eTag⟩
  have hst := Grows.issue hinvt new
  refine ⟨⟨hinv', hst, fun j hj => ?_⟩, ?_⟩
  · show List.filter _ (t.puts ++ [_]) = List.filter _ t.puts
    rw [filter_append]
    simp [hj.symm]
  have hown : headPuts i t = [] := Eq.trans ht.2 hnone
  have htried : Tried H a i snap { t with puts := t.puts ++ [new] } := by
    refine ⟨fun put hput => ?_, ht.1.uuids hdrawn⟩
    have hsplit : headPuts i { t with puts := t.puts ++ [new] } = headPuts i t ++ [new] := by
      show List.filter _ (t.puts ++ [_]) = List.filter _ t.puts ++ [_]
      rw [filter_append]
      simp [new, headPath]
    rw [hsplit, hown, nil_append, mem_singleton] at hput
    rw [hput]
    exact hfollows.bytes
  refine meets_await (f := Prog.ret) (fun u hu hinvu r hr _ => ?_)
  intro v huv hinvv
  have htv := hu.trans huv
  cases r with
  | error e => exact resolvePublication_meets hc (htried.mono htv) e
  | ok _ =>
    intro w hvw hinvw
    have hput : u.puts[t.puts.length]? = some new := by
      obtain ⟨more, hmore⟩ := hu.1.puts
      rw [← hmore]
      simp [new]
    have hpub := hinvu.published_of_effect (hr rfl) hput
      (by simp only [new, headPath, hc]) hfollows.bytes
    exact ⟨_, hvw.1.getElem (huv.1.getElem hpub), rfl, rfl, rfl⟩

theorem commitVersioned_meets (hloaded : Loaded H log a s head)
    (hnone : headPuts i s = []) (parent : Option UInt64) (generation : UInt64) (payload : Bytes) :
    Meets (objectStore ι) (logDiscipline H log a) i (CommitMeans H log i generation payload)
      (c.commitVersioned H head parent generation payload) s := by
  unfold commitVersioned
  split_ifs with hstale
  · -- nothing was put
    intro t ht hinvt x hx hwriter
    obtain ⟨put, hput, hpath, hput', -, -⟩ := hinvt.exists_put hx
    have hmem : put ∈ headPuts i t := by
      refine mem_filter.2 ⟨hput, ?_⟩
      simp [hput', hwriter, hpath]
    have hown : headPuts i t = [] := Eq.trans ht.2 hnone
    rw [hown] at hmem
    cases hmem
  · simp only [isStale, Bool.or_eq_true, decide_eq_true_eq, not_or,
      not_not, Bool.not_eq_true] at hstale
    obtain ⟨rfl, hgen⟩ := hstale
    have hgen' : ∀ last ∈ head.record.snapshot, last.generation ≤ generation := by
      intro last hlast
      rw [mem_def] at hlast
      rw [hlast] at hgen
      simpa using hgen
    cases htarget : successor head.record.version with
    | error e => exact fun _ _ _ => trivial
    | ok target =>
      refine meets_newUuid (fun t ht hinvt operation hnew => ?_)
      have hst : Grows H log t { t with uuids := t.uuids ++ [(i, operation)] } := Grows.newUuid t _
      have hrely := rely_of_puts (a := a) hst rfl
      have hinvu := hinvt.newUuid (i := i) hnew
      refine ⟨keeps_of_rely hinvu hrely, ?_⟩
      have hsu := ht.trans (hrely i)
      rw [hloaded.authority]
      dsimp only
      cases hbytes : encode H ⟨a, some ⟨target, generation, operation, payload⟩⟩ with
      | error e => exact fun _ _ _ => trivial
      | ok bytes =>
        show Meets _ _ _ _ (c.archivePredecessor head >>= _) _
        refine Meets.seq (archivePredecessor_gives hc hinvu (hloaded.mono hsu.1))
          (fun v _ huv _ _ => ?_) (fun _ _ _ _ => trivial)
        have hsv := hsu.trans huv
        have hown : headPuts i v = [] := Eq.trans hsv.2 hnone
        have hfollows : Follows H a head ⟨target, generation, operation, payload⟩ bytes :=
          ⟨hbytes, htarget, hgen'⟩
        exact publish_meets hc (hloaded.mono hsv.1) hfollows (huv.1.uuids (by simp)) hown

/-- A commit of either kind: the log is a versioned one. -/
theorem commit_meets (hnone : headPuts i s = []) (parent : Option UInt64)
    (generation : UInt64) (payload : Bytes)
    {f : Option LoadedHead → StoreProg StorageError CommitOutcome}
    (hf : ∀ head, f (some head) = c.commitVersioned H head parent generation payload) :
    Meets (objectStore ι) (logDiscipline H log a) i (CommitMeans H log i generation payload)
      (c.loadHead H >>= f) s := by
  refine Meets.seq (loadHead_gives hc) (fun t r ht _ hr => ?_) (fun _ _ _ _ => trivial)
  obtain ⟨head, rfl, hloaded⟩ := hr
  rw [hf]
  exact commitVersioned_meets hc hloaded (Eq.trans ht.2 hnone) parent generation payload

end Programs

/-! ## The calls of the clients -/

inductive Call
  | openVersioned
  | latestVersion
  | readManifest (version : UInt64)
  | readFenced (version : UInt64)
  | commit (parent : Option UInt64) (manifest : Bytes)
  | commitFenced (parent : Option UInt64) (generation : UInt64) (payload : Bytes)
  | pruneRetention (keepK minAgeNs : Nat)

inductive Reply
  | opened
  | latest (version : Option UInt64)
  | manifest (bytes : Bytes)
  | fenced (generation : UInt64) (payload : Bytes)
  | commit (outcome : CommitOutcome)
  | pruned (deleted : Nat)
  deriving DecidableEq

namespace Call

def prog (H : Digest) (c : ManifestCommitter) : Call → StoreProg StorageError Reply
  | openVersioned => c.openVersioned H >>= fun _ => .ret .opened
  | latestVersion => c.latestVersion H >>= fun version => .ret (.latest version)
  | readManifest version => c.readManifest H version >>= fun bytes => .ret (.manifest bytes)
  | readFenced version => c.readFenced H version >>= fun r => .ret (.fenced r.1 r.2)
  | commit parent manifest => c.commit H parent manifest >>= fun o => .ret (.commit o)
  | commitFenced parent generation payload =>
    c.commitFenced H parent generation payload >>= fun o => .ret (.commit o)
  | pruneRetention keepK minAgeNs =>
    c.pruneRetention H keepK minAgeNs >>= fun n => .ret (.pruned n)

/-- The generation and the payload a call is to publish. -/
def writes : Call → Option (UInt64 × Bytes)
  | commit _ manifest => some (0, manifest)
  | commitFenced _ generation payload => some (generation, payload)
  | _ => none

def reads : Call → Option UInt64
  | readManifest version => some version
  | readFenced version => some version
  | _ => none

end Call

section Runs

variable {H : Digest} {log : Bytes} {a : Uuid} {c : ManifestCommitter} {i : ι} {s : Shared ι}
  {call : Call}

def ReplyMeans (H : Digest) (log : Bytes) (i : ι) (call : Call) :
    Except StorageError Reply → Shared ι → Prop
  | .ok (.commit (.committed version)), s => ∃ x, (published H log s)[version.toNat]? = some x ∧
      x.1 = i ∧ call.writes = some (x.2.generation, x.2.payload)
  | .ok (.commit (.conflict _)), s => ∀ x ∈ published H log s, x.1 ≠ i
  | .ok (.manifest bytes), s => ∀ version ∈ call.reads, ∃ x,
      (published H log s)[version.toNat]? = some x ∧ bytes = x.2.payload
  | .ok (.fenced generation payload), s => ∀ version ∈ call.reads, ∃ x,
      (published H log s)[version.toNat]? = some x ∧ (generation, payload) = (x.2.generation, x.2.payload)
  | _, _ => True

omit [DecidableEq ι] in
theorem replyMeans_of_commitMeans {generation : UInt64} {payload : Bytes}
    (hwrites : call.writes = some (generation, payload)) {r : Except StorageError CommitOutcome}
    (h : CommitMeans H log i generation payload r s) :
    ReplyMeans H log i call (r.map Reply.commit) s := by
  cases r with
  | error e => trivial
  | ok outcome =>
    cases outcome with
    | conflict latest => exact h
    | committed version =>
      obtain ⟨x, hx, hwriter, rfl, rfl⟩ := h
      exact ⟨x, hx, hwriter, hwrites⟩

/-- A program that only reads, under any reply that needs no more than its result. -/
theorem Meets.of_gives {α : Type} {p : StoreProg StorageError α} {P : α → Shared ι → Prop}
    {f : α → Reply}
    (h : LogYields H log a i P p s)
    (hf : ∀ x t, P x t → ReplyMeans H log i call (.ok (f x)) t) :
    Meets (objectStore ι) (logDiscipline H log a) i (ReplyMeans H log i call)
      (p >>= fun x => .ret (f x)) s := by
  refine Meets.map (h.mono (fun r t _ hr => ?_))
  cases r with
  | ok x => exact hf x t hr.2
  | error e => trivial

theorem openVersioned_gives (hc : c.log = log) :
    LogYields H log a i (fun _ _ => True) (c.openVersioned H) s := by
  refine gives_seq (getBytes_gives (P := fun bytes _ => encode H ⟨a, none⟩ = .ok bytes)
    (fun t o _ hinvt ho _ _ => ?_)) (fun t bytes _ _ hbytes => ?_)
  · obtain ⟨o', ho', henc⟩ := hinvt.format
    unfold formatPath at ho
    rw [hc, ho'] at ho
    cases ho
    exact henc
  · rw [decode_encode hbytes]
    show Meets _ _ _ _ (c.pinAuthority a >>= _) t
    refine gives_seq pinAuthority_gives (fun u _ _ _ _ => ?_)
    exact gives_seq (loadHead_gives hc) (fun _ _ _ _ _ => Meets.done)

theorem loadHead_then {α : Type} {f : Option LoadedHead → StoreProg StorageError α}
    {P : α → Shared ι → Prop} (hc : c.log = log)
    (hf : ∀ t head, LogInv H log a t → Loaded H log a t head →
      LogYields H log a i P (f (some head)) t) :
    LogYields H log a i P (c.loadHead H >>= f) s := by
  refine gives_seq (loadHead_gives hc) (fun t r _ hinvt hr => ?_)
  obtain ⟨head, rfl, hloaded⟩ := hr
  exact hf t head hinvt hloaded

theorem Call.meets (hc : c.log = log) (hnone : headPuts i s = []) (call : Call) :
    Meets (objectStore ι) (logDiscipline H log a) i (ReplyMeans H log i call) (call.prog H c) s := by
  cases call with
  | openVersioned => exact Meets.of_gives (openVersioned_gives hc) (fun _ _ _ => trivial)
  | latestVersion =>
    refine Meets.of_gives (P := fun _ _ => True) (loadHead_then hc (fun t head _ _ => ?_))
      (fun _ _ _ => trivial)
    exact Meets.done
  | readManifest version =>
    refine Meets.of_gives (loadHead_then hc (fun t head hinvt hloaded => ?_))
      (P := fun bytes t => ∃ x : ι × Snapshot,
        (published H log t)[version.toNat]? = some x ∧ bytes = x.2.payload) ?_
    · refine gives_seq (readVersioned_gives hc hinvt hloaded version) (fun u r _ _ hr => ?_)
      obtain ⟨x, hx, rfl⟩ := hr
      exact ret_gives .refl (fun v huv _ _ => ⟨x, huv.1.getElem hx, rfl⟩)
    · intro bytes t hbytes version' hversion
      cases hversion
      exact hbytes
  | readFenced version =>
    refine Meets.of_gives (loadHead_then hc (fun t head hinvt hloaded =>
      readVersioned_gives hc hinvt hloaded version)) ?_
    intro r t hr version' hversion
    cases hversion
    exact hr
  | commit parent manifest =>
    exact Meets.map ((commit_meets hc hnone parent 0 manifest (fun _ => rfl)).mono
      (fun r t _ hr => replyMeans_of_commitMeans rfl hr))
  | commitFenced parent generation payload =>
    exact Meets.map ((commit_meets hc hnone parent generation payload (fun _ => rfl)).mono
      (fun r t _ hr => replyMeans_of_commitMeans rfl hr))
  | pruneRetention keepK minAgeNs =>
    refine Meets.of_gives (P := fun _ _ => True) (loadHead_then hc
      (fun t head _ _ => pruneVersioned_gives hc head keepK minAgeNs))
      (fun _ _ _ => trivial)

omit [DecidableEq ι] in
/-- A version that is current in a head, or archived, is read as it was published. -/
theorem readVersioned_alone (hc : c.log = log) (hinv : LogInv H log a s)
    (hloaded : Loaded H log a s head)
    (hversion : head.record.version = some version ∨
      (∃ tip, head.record.version = some tip ∧ version ≤ tip) ∧
      (s.object ⟨log, .archive version⟩).isSome) :
    ∃ x, (published H log s)[version.toNat]? = some x ∧
      (c.readVersioned H head version).alone (objectStore ι) i .plain s =
        some (.ok (x.2.generation, x.2.payload), s) := by
  by_cases hcur : head.record.version = some version
  · obtain ⟨x, hx, hrecord⟩ := hloaded.current hinv hcur
    refine ⟨x, hx, ?_⟩
    unfold readVersioned recordAt
    rw [if_pos hcur]
    simp only [hrecord]
    rfl
  · obtain ⟨⟨tip, htip, hle⟩, harchived⟩ := hversion.resolve_left hcur
    obtain ⟨o, ho⟩ := isSome_iff_exists.1 harchived
    obtain ⟨x, hx, henc⟩ := hinv.archives version o ho
    have hver := hinv.versions _ x hx
    refine ⟨x, hx, ?_⟩
    have hbeyond : ¬ head.record.version.all (fun v => decide (v < version)) = true := by
      rw [htip]
      simpa using hle
    have hget : (objectStore ι).respond i s (.get (c.archivePath version)) .plain =
        some (.ok (o.bytes, o.eTag), s) := by
      simp only [objectStore, respond, respondGet, archivePath, hc, ho]
      rfl
    have hsame : (a != head.record.authority ||
        (⟨a, some x.2⟩ : Record).version != some version) = false := by
      rw [hloaded.authority, Record.version, map_some, UInt64.toNat_inj.1 hver]
      simp
    unfold readVersioned recordAt
    rw [if_neg hcur, if_neg hbeyond]
    show (((objectStore ι).respond i s (.get (c.archivePath version)) .plain).bind _) = _
    rw [hget, bind_some]
    show Prog.alone _ _ _ (((Prog.ofExcept (decode H o.bytes)).bind _).bind _) s = _
    rw [decode_encode henc]
    show Prog.alone _ _ _ ((if _ then _ else _ : StoreProg StorageError Record).bind _) s = _
    rw [hsame]
    rfl

/-- A log that `create_versioned` has just provisioned; its committers have pinned its authority or
    have not. -/
structure NewLog (H : Digest) (log : Bytes) (a : Uuid) (s : Shared ι) : Prop where
  head : ∃ o, s.object ⟨log, .head⟩ = some o ∧ encode H ⟨a, none⟩ = .ok o.bytes
  format : ∃ o, s.object ⟨log, .format⟩ = some o ∧ encode H ⟨a, none⟩ = .ok o.bytes
  archives : ∀ version, s.object ⟨log, .archive version⟩ = none
  tags : ∀ path o, s.object path = some o → o.eTag < s.nextTag
  puts : s.puts = []
  effects : s.effects = []
  uuids : s.uuids = []
  cells : ∀ cell ∈ s.cells, cell = none ∨ cell = some a

omit [DecidableEq ι] in
theorem NewLog.logInv (h : NewLog H log a s) : LogInv H log a s := by
  have hpub : published H log s = [] := by
    unfold published
    rw [h.effects]
    rfl
  exact
    { tickets := by rw [h.effects]; simp
      tags := h.tags
      head := by rw [hpub]; exact h.head
      format := h.format
      archives := fun version o ho => by rw [h.archives version] at ho; cases ho
      versions := by rw [hpub]; simp
      generations := by rw [hpub]; exact List.Pairwise.nil
      safe := by rw [h.puts]; simp
      cells := h.cells
      uuids := by rw [h.uuids]; exact nodup_nil }

theorem drift_keeps : (logDiscipline H log a).AllowsDrift (objectStore ι) := by
  intro t choice u hinv hdrift
  cases choice with
  | arrive ticket now =>
    obtain ⟨hinv', hst, hputs⟩ := arrive_spec hinv hdrift
    exact ⟨hinv', hst, fun j => (rely_of_puts (a := a) hst hputs j).2⟩
  | _ => cases hdrift

end Runs

/-! ## Every run -/

/-- In every run of any calls on a new log, interleaved at every object operation, with puts that
    take effect late, more than once or under an error: the published snapshots are versions 0, 1,
    2, ... with non-decreasing generations, and the head is the last of them; `Committed(v)` is
    answered only to the call whose payload was published at `v`; `Conflict` is answered only to a
    call whose payload is not published then or later; a read returns what was published at its
    version; and a version that is current when the head is read, or archived when its archive is
    read, is returned. -/
theorem versionedLog_linearizable {H : Digest} {log : Bytes} {a : Uuid} {start : Shared ι}
    (hnew : NewLog H log a start) (committers : ι → ManifestCommitter)
    (hlog : ∀ i, (committers i).log = log) (calls : ι → Call)
    (P : Pool ι (Shared ι) StoreOp StoreOp.Answer StorageError Reply)
    (hrun : Reaches (objectStore ι) ⟨start, fun i => (calls i).prog H (committers i)⟩ P) :
    (∀ n (x : ι × Snapshot), (published H log P.shared)[n]? = some x → x.2.version.toNat = n) ∧
    (published H log P.shared).Pairwise (fun x y => x.2.generation ≤ y.2.generation) ∧
    (∃ o, P.shared.object ⟨log, .head⟩ = some o ∧
      decode H o.bytes = .ok ⟨a, lastOf (published H log P.shared)⟩) ∧
    (∀ i version, (P.procs i).outcome = some (.ok (.commit (.committed version))) →
      ∃ x, (published H log P.shared)[version.toNat]? = some x ∧ x.1 = i ∧
        (calls i).writes = some (x.2.generation, x.2.payload)) ∧
    (∀ i latest, (P.procs i).outcome = some (.ok (.commit (.conflict latest))) →
      ∀ P', Reaches (objectStore ι) P P' → ∀ x ∈ published H log P'.shared, x.1 ≠ i) ∧
    (∀ i generation payload, (P.procs i).outcome = some (.ok (.fenced generation payload)) →
      ∀ version ∈ (calls i).reads, ∃ x, (published H log P.shared)[version.toNat]? = some x ∧
        (generation, payload) = (x.2.generation, x.2.payload)) ∧
    (∀ o record, P.shared.object ⟨log, .head⟩ = some o → decode H o.bytes = .ok record →
      ∀ P', Reaches (objectStore ι) P P' → ∀ i version, (record.version = some version ∨
          (∃ tip, record.version = some tip ∧ version ≤ tip) ∧
            (P'.shared.object ⟨log, .archive version⟩).isSome) →
        ∃ x, (published H log P'.shared)[version.toNat]? = some x ∧
          ((committers i).readVersioned H ⟨record, o.bytes, o.eTag⟩ version).alone
              (objectStore ι) i .plain P'.shared =
            some (.ok (x.2.generation, x.2.payload), P'.shared)) := by
  have hinv₀ := hnew.logInv
  have hnone : ∀ i, headPuts i start = [] := by
    intro i
    unfold headPuts
    rw [hnew.puts]
    rfl
  have hmeets : ∀ i, Meets (objectStore ι) (logDiscipline H log a) i (ReplyMeans H log i (calls i))
      ((calls i).prog H (committers i)) start :=
    fun i => Call.meets (hlog i) (hnone i) (calls i)
  have hends : ∀ {P'}, Reaches (objectStore ι) ⟨start, fun i => (calls i).prog H (committers i)⟩ P' →
      ∀ {i r}, (P'.procs i).outcome = some r → ReplyMeans H log i (calls i) r P'.shared :=
    fun hrun' => fun hi => hrun'.outcome (D := logDiscipline H log a) drift_keeps hinv₀ hmeets hi
  obtain ⟨hinv, -, hmeetsP⟩ := hrun.meets (D := logDiscipline H log a) drift_keeps hinv₀ hmeets
  refine ⟨hinv.versions, hinv.generations, ?_, ?_, ?_, ?_, ?_⟩
  · obtain ⟨o, ho, henc⟩ := hinv.head
    exact ⟨o, ho, decode_encode henc⟩
  · intro i version hi
    exact hends hrun hi
  · intro i latest hi P' hrun'
    exact hends (hrun.trans hrun') (hrun'.outcome_eq hi)
  · intro i generation payload hi
    exact hends hrun hi
  · intro o record ho hdec P' hrun' i version hversion
    obtain ⟨hinv', hst, -⟩ := hrun'.meets (D := logDiscipline H log a) drift_keeps hinv hmeetsP
    have hloaded := (Loaded.of_object hinv ho hdec).mono hst
    exact readVersioned_alone (hlog i) hinv' hloaded hversion

/-! ## Two clients on a new log -/

def uuidOf (n : UInt8) : Uuid := ⟨List.replicate 16 n, length_replicate⟩

/-- The sum of the bytes, in 32 of them. -/
def tallyDigest : Digest :=
  ⟨fun bytes => leBytes 32 (bytes.map UInt8.toNat).sum, fun _ => length_leBytes _ _⟩

def newObject (eTag : Nat) : Object :=
  let body := serialize ⟨uuidOf 7, none⟩
  ⟨magic ++ (tallyDigest.hash body ++ body), eTag, 0⟩

/-- The path `leases`. -/
def leasesPath : Bytes := [0x6C, 0x65, 0x61, 0x73, 0x65, 0x73]

/-- A new log, and two committers that have not read it. -/
def newLog : Shared Bool where
  objects :=
    (AList.insert ⟨leasesPath, .format⟩ (newObject 0) ∅).insert ⟨leasesPath, .head⟩ (newObject 1)
  nextTag := 2
  cells := [none, none]

theorem newLog_isNew : NewLog tallyDigest leasesPath (uuidOf 7) newLog where
  head := ⟨newObject 1, by decide, by rfl⟩
  format := ⟨newObject 0, by decide, by rfl⟩
  archives version := by
    show AList.lookup _ (AList.insert _ _ _) = none
    rw [AList.lookup_insert_ne (by simp), AList.lookup_insert_ne (by simp)]
    rfl
  tags path o ho := by
    unfold Shared.object newLog at ho
    rw [lookup_insert_eq, lookup_insert_eq] at ho
    split_ifs at ho
    · cases ho
      decide
    · cases ho
      decide
    · cases ho
  puts := rfl
  effects := rfl
  uuids := rfl
  cells := by decide

def raceCommitter (client : Bool) : ManifestCommitter :=
  { log := leasesPath, cell := if client then 1 else 0 }

/-- Both clients read the empty head and try version 0; the put of the second comes late. -/
def race : List (Turn Bool Choice) :=
  [.act false .plain, .act true .plain, .act false .plain, .act false .plain, .act false .plain,
    .act true .plain, .act true .plain, .act true .plain, .act false (.uuid (uuidOf 1)),
    .act true (.uuid (uuidOf 2)), .act false .plain, .act true .plain, .drift (.arrive 0 5),
    .drift (.arrive 1 6), .act false .plain, .act true .refusal, .act true .plain,
    .act true .plain, .act true .plain]

def raceStart : Pool Bool (Shared Bool) StoreOp StoreOp.Answer StorageError Reply :=
  ⟨newLog, fun client => (Call.commitFenced none 3 [if client then 9 else 8]).prog tallyDigest
    (raceCommitter client)⟩

/-- One commits, the other is told of a conflict, and its payload is not published. -/
theorem versionedLog_linearizable_race : ∃ P, Pool.play (objectStore Bool) raceStart race = some P ∧
      (P.procs false).outcome = some (.ok (.commit (.committed 0))) ∧
      (P.procs true).outcome = some (.ok (.commit (.conflict (some 0)))) ∧
      ∀ x ∈ published tallyDigest leasesPath P.shared, x.1 ≠ true := by
  have hrun : (Pool.play (objectStore Bool) raceStart race).map
      (fun P => ((P.procs false).outcome, (P.procs true).outcome)) =
        some (some (.ok (.commit (.committed 0))), some (.ok (.commit (.conflict (some 0))))) := by
    rfl
  obtain ⟨P, hP, hends⟩ := map_eq_some_iff.1 hrun
  obtain ⟨hfirst, hsecond⟩ := Prod.mk.inj hends
  refine ⟨P, hP, hfirst, hsecond, ?_⟩
  obtain ⟨-, -, -, -, hconflict, -, -⟩ := versionedLog_linearizable newLog_isNew raceCommitter
    (fun _ => rfl) (fun client => .commitFenced none 3 [if client then 9 else 8]) P
    (Pool.reaches_of_play hP)
  exact hconflict true (some 0) hsecond P Relation.ReflTransGen.refl

end ProximaDb.Manifest
