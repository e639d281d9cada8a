/-
  ProximaDb.Pax.Residual

  Reading records back from a block whose tails are residual: a property that its column gives
  back exactly is left out of the MessagePack tail, and comes back from the column under the name
  and type of the block's own directory, unless the tail still has the key.
-/
import ProximaDb.Pax.IntegerStripe

namespace ProximaDb.Pax

open ProximaDb.Lib List ColId
open Option (bind_some bind_eq_bind map_some)

/-! ## Reading records -/

variable {props : ProximaTree}

def PaxBlock.column (block : PaxBlock) (id : Int) : Option ColumnStripe :=
  block.columns.find? (fun s => decide (s.info.columnId = id))

def PaxBlock.shredDirectory (c : Codecs) (block : PaxBlock) : Option (List ShredColumn) :=
  (block.column ColId.shredDirectory).bind (fun _ =>
    if block.directory = [] then none else c.unpackDirectory block.directory)

variable {v : ProximaValue}

variable {col : ShredColumn}

variable {cfg : Settings}

section Block

variable {cfg : Settings} {others : List ColumnStripe} {records : List ProximaTree}
  {block : PaxBlock} (h : writeBlock cfg others records = .ok block)

include h

variable (hmode : cfg.mode.hasColumnStripes = true)

include hmode

end Block

end ProximaDb.Pax
