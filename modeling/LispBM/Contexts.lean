import LispBM.EvalCps

namespace LispBM.Contexts

open ConsHeap EvalCps

/-- An `eval_context_t`: the fields `run_eval` reads and writes, `K` as its words, top first. -/
structure Context where
  program : Value
  currExp : Value
  currEnv : Value
  k : List Value

/-- `eval_cps_new_context_inherit_env`: a context with an empty stack and the running context's
environment goes on top of the chain; `none` where the chain is empty and the C code reads
through a null `eval_context`. -/
def newContextInheritEnv (chain : List Context) (program currExp : Value) : Option (List Context) :=
  match chain with
  | [] => none
  | c :: cs => some ({ program, currExp, currEnv := c.currEnv, k := [] } :: c :: cs)

/-- `eval_cps_drop_top_context`. -/
def dropTopContext : List Context → Option (List Context)
  | [] => none
  | _ :: cs => some cs

/-- `run_eval(ctx)` as it starts, the context's fields being the machine's. -/
def runEvalOn (c : Context) (globalEnv : Value) (h : Heap) : Loop :=
  start c.program c.currExp c.currEnv c.k globalEnv h

/-- The words a context can still read. -/
def Context.words (c : Context) : List Value :=
  c.program :: c.currExp :: c.currEnv :: c.k

/-- Modelled from the spec: the cells the collector marks from a root word, every pointer being
marked and traced through car and cdr. -/
inductive Reaches (h : Heap) : Value → Nat → Prop
  | ptr (t : PtrType) (ix : Nat) : Reaches h (.ptr t ix) ix
  | car {t : PtrType} {ix j : Nat} : Reaches h (h.cells ix).1 j → Reaches h (.ptr t ix) j
  | cdr {t : PtrType} {ix j : Nat} : Reaches h (h.cells ix).2 j → Reaches h (.ptr t ix) j

/-- Every cell some context of the chain can read is marked from the roots. -/
def RootsCover (h : Heap) (chain : List Context) (roots : List Value) : Prop :=
  ∀ c ∈ chain, ∀ v ∈ c.words, ∀ ix, Reaches h v ix → ∃ r ∈ roots, Reaches h r ix

/-- Whether a word is no pointer, or points at a cell of `S`. -/
def pointsInto (S : List Nat) : Value → Bool
  | .ptr _ ix => decide (ix ∈ S)
  | _ => true

theorem reaches_mem_of_closed {h : Heap} {S : List Nat}
    (hS : ∀ ix ∈ S, pointsInto S (h.cells ix).1 = true ∧ pointsInto S (h.cells ix).2 = true)
    {v : Value} {ix : Nat} (hr : Reaches h v ix) (hv : pointsInto S v = true) : ix ∈ S := by
  induction hr with
  | ptr t ix => simpa [pointsInto] using hv
  | car _ ih => exact ih (hS _ (by simpa [pointsInto] using hv)).1
  | cdr _ ih => exact ih (hS _ (by simpa [pointsInto] using hv)).2

/-- A context whose program `(7)` sits in cell 0, and above it, in cells 1 to 3, the expression
`(lambda () 1)` of the context a new one is made to evaluate; no cell is free. -/
def twoContextHeap : Heap :=
  .ofCells [(.i 7, nil), (.sym symreprLambda, .ptr .cons 2), (nil, .ptr .cons 3), (.i 1, nil)]

def lowerContext : Context := { program := .ptr .cons 0, currExp := .i 7, currEnv := nil, k := [] }

def topContext : Context := { program := nil, currExp := .ptr .cons 1, currEnv := nil, k := [] }

/-- The closure allocation runs out of cells, so `run_eval` on the new top context collects at its
second iteration, with roots from which the lower context's program cell is not marked. -/
theorem collection_misses_lower_context :
    newContextInheritEnv [lowerContext] nil (.ptr .cons 1) = some [topContext, lowerContext] ∧
      (run Prims.bare 1 (runEvalOn topContext nil twoContextHeap)).map
          (fun s => (s.m.performGc, s.nonGc, s.m.heap.cells, gcRoots s.m)) =
        some (true, 1, twoContextHeap.cells, [nil, nil, .ptr .cons 1, nil, nil, .u kDone]) ∧
      ¬ RootsCover twoContextHeap [topContext, lowerContext]
          [nil, nil, .ptr .cons 1, nil, nil, .u kDone] := by
  refine ⟨rfl, rfl, fun hc => ?_⟩
  obtain ⟨r, hr, hreach⟩ :=
    hc lowerContext (by simp) (.ptr .cons 0) (by simp [Context.words, lowerContext]) 0 (.ptr _ _)
  have hroots : ∀ r ∈ [nil, nil, .ptr .cons 1, nil, nil, .u kDone], pointsInto [1, 2, 3] r = true := by
    decide
  exact absurd (reaches_mem_of_closed (by decide) hreach (hroots r hr)) (by decide)

end LispBM.Contexts
