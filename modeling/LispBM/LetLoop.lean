import LispBM.EvalCps

namespace LispBM.EvalCps

open ConsHeap

/-- The locals of the pre-binding `while` of `let` that its body writes, and the heap. -/
structure Prebind where
  curr : Value
  newEnv : Value
  performGc : Bool
  heap : Heap

/-- One turn of the pre-binding `while` of `let`, as `run_eval` writes it: a failed `cons` sets
`perform_gc` and `continue`s the inner loop with `curr` where it was. -/
def prebindTurn (s : Prebind) : Prebind :=
  let key := car s.heap (car s.heap s.curr)
  let (binding, h1) := cons s.heap key nil
  let (newEnv, h2) := cons h1 binding s.newEnv
  if binding.isSymbol || newEnv.isSymbol then { s with newEnv, performGc := true, heap := h2 }
  else { s with curr := cdr h2 s.curr, newEnv, heap := h2 }

/-- `letPrebind` runs the loop turn by turn, and stops with `none` at the first turn that sets
`perform_gc`. -/
theorem letPrebind_succ (h : Heap) (newEnv : Value) (n ix : Nat) :
    letPrebind h newEnv (n + 1) (.ptr .cons ix) =
      if (prebindTurn ⟨.ptr .cons ix, newEnv, false, h⟩).performGc then none
      else letPrebind (prebindTurn ⟨.ptr .cons ix, newEnv, false, h⟩).heap
        (prebindTurn ⟨.ptr .cons ix, newEnv, false, h⟩).newEnv n (prebindTurn ⟨.ptr .cons ix, newEnv, false, h⟩).curr := by
  rcases hf : h.free with _ | ⟨b, _ | ⟨e, rest⟩⟩ <;> simp [letPrebind, prebindTurn, car, cons, hf]

theorem prebindTurn_no_free {s : Prebind} (hf : s.heap.free = []) :
    prebindTurn s = { s with newEnv := .sym symreprMerror, performGc := true } := by
  simp [prebindTurn, cons_nil_free _ _ _ hf]

/-- From a turn that finds no free cell on, the loop turns forever: `curr` stays the cons it was,
so the loop's test `type_of(curr) == PTR_TYPE_CONS` never fails. -/
theorem prebind_never_exits {s : Prebind} (hf : s.heap.free = []) :
    ∀ n, (prebindTurn^[n] s).curr = s.curr ∧ (prebindTurn^[n] s).heap = s.heap := by
  intro n
  induction n with
  | zero => exact ⟨rfl, rfl⟩
  | succ n ih =>
    rw [Function.iterate_succ_apply', prebindTurn_no_free (ih.2 ▸ hf)]
    exact ih

/-- `(let ((x 1)) x)`, with `x` the symbol 20, in a heap whose six cells are all in use. -/
def letHeap : Heap :=
  .ofCells [(.sym symreprLet, .ptr .cons 1), (.ptr .cons 2, .ptr .cons 4), (.ptr .cons 3, nil),
            (.sym 20, .ptr .cons 5), (.sym 20, nil), (.i 1, nil)]

/-- The first iteration of `run_eval` on `(let ((x 1)) x)` with no free cell never returns: the
pre-binding loop's first `cons` fails, and it turns forever on the same `curr`. -/
theorem let_out_of_memory_never_returns :
    iter Prims.bare (start nil (.ptr .cons 0) nil [] nil letHeap) = none ∧
      ∀ n, (prebindTurn^[n] ⟨.ptr .cons 2, nil, false, letHeap⟩).curr = .ptr .cons 2 := by
  refine ⟨?_, fun n => (prebind_never_exits rfl n).1⟩
  -- the dispatch of the `let` enters the pre-binding loop, whose first turn finds no free cell
  have hpre : letPrebind letHeap nil (letHeap.size + 1) (.ptr .cons 2) = none := by
    rw [letPrebind_succ, prebindTurn_no_free rfl, if_pos rfl]
  have hbinds : car letHeap (cdr letHeap (.ptr .cons 0)) = .ptr .cons 2 := rfl
  have hlet : dispatchLet (start nil (.ptr .cons 0) nil [] nil letHeap).m = none := by
    simp only [dispatchLet, start, hbinds, Value.isCons, Bool.not_true, Bool.false_eq_true, ite_false, hpre,
      Option.map_none']
  show Option.map (fun m' => (⟨m', 0 + 1⟩ : Loop)) (dispatchLet (start nil (.ptr .cons 0) nil [] nil letHeap).m) = none
  rw [hlet, Option.map_none']

end LispBM.EvalCps
