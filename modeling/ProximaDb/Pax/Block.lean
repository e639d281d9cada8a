/-
  ProximaDb.Pax.Block

  Writing a block: records are buffered one by one, their shredded properties by column and the
  rest of their properties as a MessagePack tail, and flushed as stripes with a directory of the
  shredded columns.
-/
import ProximaDb.Lib.Traces
import ProximaDb.Pax.Stripe

namespace ProximaDb.Pax

open ProximaDb.Lib List

inductive BlockMode
  | oltp
  | olap
  | pax
  deriving DecidableEq

def BlockMode.hasColumnStripes : BlockMode → Bool
  | .oltp => false
  | .olap => true
  | .pax => true

namespace ColId

def props : Int := 8

def shredDirectory : Int := 15

end ColId

structure Settings where
  codecs : Codecs
  mode : BlockMode
  losslessScalar : Bool
  residualTail : Bool
  shredSpec : List ShredColumn

structure PaxBlockWriter where
  rowCount : Nat
  propsBytes : List (Option Bytes)
  userColBuffers : List (List (Option ProximaValue))
  tailIsResidual : Bool

/-- A block as `PaxBlockReader::open` finds it. -/
structure PaxBlock where
  rowCount : Nat
  columns : List ColumnStripe
  /-- the payload of the shred directory -/
  directory : Bytes
  tailIsResidual : Bool

variable (cfg : Settings)

def PaxBlockWriter.new : PaxBlockWriter := ⟨0, [], cfg.shredSpec.map (fun _ => []), false⟩

/-- The properties that the tail of a record leaves to the columns. -/
def residualKeys (props : ProximaTree) : List String :=
  if cfg.residualTail then
    cfg.shredSpec.filterMap (fun col =>
      match col.declaredType, props.lookup col.key with
      | some t, some (.value v) => if shredsLosslessly v t then some col.key else none
      | _, _ => none)
  else []

/-- Properties in MessagePack; empty ones have no bytes. -/
def packProps (props : ProximaTree) : Except PaxError (Option Bytes) :=
  match props with
  | [] => .ok none
  | props =>
    match cfg.codecs.packTree props with
    | some bytes => .ok (some bytes)
    | none => .error .messagePack

/-- The tail of a record: its properties, all of which are packed first, without the residual
    ones. -/
def tailBytes (props : ProximaTree) (residual : List String) : Except PaxError (Option Bytes) := do
  let complete ← packProps cfg props
  if residual.isEmpty then .ok complete
  else packProps cfg (props.filter (fun e => decide (e.1 ∉ residual)))

def addRecord (w : PaxBlockWriter) (props : ProximaTree) : Except PaxError PaxBlockWriter := do
  let residual := residualKeys cfg props
  let tail ← tailBytes cfg props residual
  .ok {
    rowCount := w.rowCount + 1
    propsBytes := w.propsBytes ++ [tail]
    userColBuffers := List.zipWith (fun buffer col => buffer ++ [shredValue props col.key])
      w.userColBuffers cfg.shredSpec
    tailIsResidual := w.tailIsResidual || !residual.isEmpty }

/-- A length in four bytes before each value; no value is the largest length. -/
def encodeBytesCol (values : List (Option Bytes)) : Bytes :=
  values.flatMap (fun v => v.elim nullBytes (fun b => leBytes 4 b.length ++ b))

def buildBytesStripe (id : Int) (vals : List (Option Bytes)) : ColumnStripe :=
  let (data, isLz4) := cfg.codecs.encodeLosslessScalar cfg.losslessScalar (encodeBytesCol vals)
    (vals.count none) vals.length
  let info : ColumnMeta := {
    columnId := id
    stats := .hash 0 0
    encodingId := rawMarker
    isLz4Compressed := isLz4
    stripeLen := data.length
    nullCount := vals.count none
    distinctHint := distinctCount vals.reduceOption }
  ⟨info, data, []⟩

def directoryStripe : ColumnStripe :=
  ⟨{ columnId := ColId.shredDirectory, stats := .hash 0 0, encodingId := 0,
     isLz4Compressed := false, stripeLen := 0, nullCount := 0, distinctHint := 0 }, [], []⟩

def shredStripes (buffers : List (List (Option ProximaValue))) :
    Except PaxError (List ColumnStripe) :=
  (cfg.shredSpec.zip buffers).mapM (fun e =>
    buildShredStripe cfg.codecs cfg.losslessScalar e.1.columnId e.2 e.1.declaredType)

/-- The stripes of a block with columns; `others` are those of the other fields of the records. -/
def bodyStripes (others : List ColumnStripe) (w : PaxBlockWriter) :
    Except PaxError (List ColumnStripe) :=
  if cfg.mode.hasColumnStripes then do
    let shreds ← shredStripes cfg w.userColBuffers
    .ok (others ++ [buildBytesStripe cfg ColId.props w.propsBytes] ++ shreds)
  else .ok []

def flush (others : List ColumnStripe) (w : PaxBlockWriter) : Except PaxError PaxBlock := do
  let stripes ← bodyStripes cfg others w
  if cfg.shredSpec.isEmpty then .ok ⟨w.rowCount, stripes, [], w.tailIsResidual⟩
  else
    match cfg.codecs.packDirectory cfg.shredSpec with
    | none => .error .messagePack
    | some directory =>
      .ok ⟨w.rowCount, stripes ++ [directoryStripe], directory, w.tailIsResidual⟩

def writeBlock (others : List ColumnStripe) (records : List ProximaTree) :
    Except PaxError PaxBlock := do
  let w ← records.foldlM (addRecord cfg) (PaxBlockWriter.new cfg)
  flush cfg others w

/-! ## What was written -/

def columnValues (records : List ProximaTree) (key : String) : List (Option ProximaValue) :=
  records.map (fun props => shredValue props key)

/-- The tail of a record as `addRecord` writes it. -/
def TailOf (props : ProximaTree) (tail : Option Bytes) : Prop :=
  tailBytes cfg props (residualKeys cfg props) = .ok tail

structure Buffered (records : List ProximaTree) (w : PaxBlockWriter) : Prop where
  rowCount : w.rowCount = records.length
  tails : List.Forall₂ (TailOf cfg) records w.propsBytes
  buffers : w.userColBuffers = cfg.shredSpec.map (fun col => columnValues records col.key)

variable {cfg} {others : List ColumnStripe} {records : List ProximaTree} {block : PaxBlock}

theorem Buffered.new : Buffered cfg [] (PaxBlockWriter.new cfg) := ⟨rfl, .nil, rfl⟩

variable {w : PaxBlockWriter}

theorem Buffered.addRecord {w' : PaxBlockWriter} {props : ProximaTree}
    (h : Buffered cfg records w) (hadd : addRecord cfg w props = .ok w') :
    Buffered cfg (records ++ [props]) w' := by
  obtain ⟨tail, htail, hadd⟩ := exists_of_bind_ok hadd
  cases hadd
  refine ⟨by simp [h.rowCount], rel_append h.tails (.cons htail .nil), ?_⟩
  simp [h.buffers, columnValues, zipWith_map_left]

/-- The stripe of a shredded column of these records. -/
def StripeOf (cfg : Settings) (records : List ProximaTree) (col : ShredColumn)
    (stripe : ColumnStripe) : Prop :=
  buildShredStripe cfg.codecs cfg.losslessScalar col.columnId (columnValues records col.key)
    col.declaredType = .ok stripe

/-- What a flush that went through put into the block. -/
structure Flushed (cfg : Settings) (others : List ColumnStripe) (w : PaxBlockWriter)
    (block : PaxBlock) (stripes : List ColumnStripe) : Prop where
  body : bodyStripes cfg others w = .ok stripes
  rowCount : block.rowCount = w.rowCount
  residual : block.tailIsResidual = w.tailIsResidual
  columns : block.columns = stripes ++ if cfg.shredSpec.isEmpty then [] else [directoryStripe]
  directory : cfg.shredSpec.isEmpty = false →
    cfg.codecs.packDirectory cfg.shredSpec = some block.directory

theorem flush_ok (h : flush cfg others w = .ok block) :
    ∃ stripes, Flushed cfg others w block stripes := by
  obtain ⟨stripes, hbody, h⟩ := exists_of_bind_ok h
  refine ⟨stripes, ?_⟩
  split at h
  · rename_i hempty
    cases h
    exact ⟨hbody, rfl, rfl, by simp [hempty], fun hne => absurd (hempty.symm.trans hne) nofun⟩
  · rename_i hempty
    split at h
    · cases h
    · rename_i directory hdir
      cases h
      exact ⟨hbody, rfl, rfl, by simp [hempty], fun _ => hdir⟩

theorem writeBlock_ok (h : writeBlock cfg others records = .ok block) :
    ∃ w stripes, Buffered cfg records w ∧ Flushed cfg others w block stripes := by
  obtain ⟨w, hloop, h⟩ := exists_of_bind_ok h
  obtain ⟨stripes, hflush⟩ := flush_ok h
  have hbuffered : Buffered cfg records w :=
    foldlM_ok_induction hloop .new (fun _ _ _ _ hdone hadd => hdone.addRecord hadd)
  exact ⟨w, stripes, hbuffered, hflush⟩

theorem bodyStripes_ok {stripes : List ColumnStripe} (hw : Buffered cfg records w)
    (h : bodyStripes cfg others w = .ok stripes) (hmode : cfg.mode.hasColumnStripes = true) :
    ∃ shreds, List.Forall₂ (StripeOf cfg records) cfg.shredSpec shreds ∧
      stripes = others ++ [buildBytesStripe cfg ColId.props w.propsBytes] ++ shreds := by
  rw [bodyStripes, if_pos hmode] at h
  obtain ⟨shreds, hshreds, h⟩ := exists_of_bind_ok h
  cases h
  refine ⟨shreds, ?_, rfl⟩
  have hzip : cfg.shredSpec.zip w.userColBuffers =
      cfg.shredSpec.map (fun col => (col, columnValues records col.key)) := by
    have hboth : (cfg.shredSpec.map id).zip
        (cfg.shredSpec.map (fun col => columnValues records col.key)) = _ := zip_map'
    rwa [map_id, ← hw.buffers] at hboth
  unfold shredStripes at hshreds
  rw [hzip] at hshreds
  have hbuilt := forall₂_of_mapM_ok hshreds
  rwa [forall₂_map_left_iff] at hbuilt

/-! ## Columns by their ids -/

theorem buildShredStripe_columnId {c : Codecs} {lossless : Bool} {id : Int}
    {vals : List (Option ProximaValue)} {declared : Option ProximaType} {stripe : ColumnStripe}
    (h : buildShredStripe c lossless id vals declared = .ok stripe) :
    stripe.info.columnId = id := by
  unfold buildShredStripe at h
  split at h
  · obtain ⟨encoded, -, h⟩ := exists_of_bind_ok h
    cases h
    rfl
  · cases h
    rfl
  · cases h
    rfl

/-- Each shredded column has a key and an id of its own, which no other column has. -/
structure OwnColumns (spec : List ShredColumn) (others : List ColumnStripe) : Prop where
  keys : (spec.map ShredColumn.key).Nodup
  ids : (spec.map ShredColumn.columnId).Nodup
  others : ∀ col ∈ spec, ∀ s ∈ others, s.info.columnId ≠ col.columnId
  props : ∀ col ∈ spec, col.columnId ≠ ColId.props
  directory : ∀ col ∈ spec, col.columnId ≠ ColId.shredDirectory

theorem column_of_writeBlock (h : writeBlock cfg others records = .ok block)
    (hown : OwnColumns cfg.shredSpec others) (hmode : cfg.mode.hasColumnStripes = true)
    {col : ShredColumn} (hcol : col ∈ cfg.shredSpec) :
    ∃ stripe ∈ block.columns, StripeOf cfg records col stripe ∧
      ∀ s ∈ block.columns, s.info.columnId = col.columnId → s = stripe := by
  obtain ⟨w, stripes, hw, hflush⟩ := writeBlock_ok h
  obtain ⟨shreds, hshreds, hstripes⟩ := bodyStripes_ok hw hflush.body hmode
  obtain ⟨stripe, hmem, hstripe⟩ := exists_of_mem_left hshreds hcol
  refine ⟨stripe, ?_, hstripe, fun s hs hid => ?_⟩
  · rw [hflush.columns, hstripes]
    simp [hmem]
  · rw [hflush.columns, hstripes] at hs
    rcases mem_append.1 hs with hs | hs
    · rcases mem_append.1 hs with hs | hs
      · rcases mem_append.1 hs with hs | hs
        · exact absurd hid (hown.others col hcol s hs)
        · rw [mem_singleton.1 hs] at hid
          exact absurd hid.symm (hown.props col hcol)
      · obtain ⟨col', hcol', hbuilt⟩ := exists_of_mem_right hshreds hs
        have hsame : col' = col := inj_on_of_nodup_map hown.ids hcol' hcol
          ((buildShredStripe_columnId hbuilt).symm.trans hid)
        subst hsame
        exact Except.ok.inj (hbuilt.symm.trans hstripe)
    · split at hs
      · exact absurd hs not_mem_nil
      · rw [mem_singleton.1 hs] at hid
        exact absurd hid.symm (hown.directory col hcol)

theorem columns_of_no_stripes (h : writeBlock cfg others records = .ok block)
    (hmode : cfg.mode.hasColumnStripes = false) : ∀ s ∈ block.columns, s = directoryStripe := by
  obtain ⟨w, stripes, -, hflush⟩ := writeBlock_ok h
  have hbody := hflush.body
  rw [bodyStripes, hmode] at hbody
  cases hbody
  intro s hs
  rw [hflush.columns, nil_append] at hs
  split at hs
  · exact absurd hs not_mem_nil
  · exact mem_singleton.1 hs

end ProximaDb.Pax
