import LispBM.Frames

namespace LispBM.OutOfMemory

open ConsHeap EvalCps Frames

variable {P : Prims} {m m' : Machine}

section Quiet

end Quiet

section Rollback

variable {rest : List Value}

end Rollback

end LispBM.OutOfMemory
