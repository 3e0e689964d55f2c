import LispBM.ConsHeap
import Mathlib.Logic.Function.Iterate

namespace LispBM.EvalCps

open ConsHeap

/-- Continuation kinds of `eval_cps.c`, stored on the stack as `enc_u` words. -/
def kDone : Nat := 1
def kSetGlobalEnv : Nat := 2
def kFunctionApp : Nat := 3
def kFunction : Nat := 4
def kBindToKeyRest : Nat := 5
def kIf : Nat := 6
def kArgList : Nat := 7
def kEval : Nat := 8
def kPrognRest : Nat := 9

/-- The collaborators `eval_cps.c` calls whose code is not in the repository. -/
structure Prims where
  /-- `is_fundamental`. -/
  isFundamental : Value → Bool
  /-- `fundamental_exec` on the argument words pushed on the stack, in push order, with their
  count above them: it replaces all of them by one result word, or fails. -/
  fundamentalExec : Value → List Value → Heap → Option (Value × Heap)
  /-- `heap_perform_gc_aux` on the root words it is passed. -/
  performGc : List Value → Heap → Heap
  /-- `symrepr_is_error` applied to a `VALUE` word. -/
  isErrorWord : Value → Bool

/-- Collaborators with no fundamental operators and a collector that frees nothing. -/
def Prims.bare : Prims where
  isFundamental _ := false
  fundamentalExec _ _ _ := none
  performGc _ h := h
  isErrorWord
    | .sym n => symreprIsError n
    | _ => false

/-- The running context (`program`, `curr_exp`, `curr_env` and the stack `K`, top first), the
locals of `run_eval` its steps read or write, `eval_cps_global_env` and the heap. -/
structure Machine where
  program : Value
  currExp : Value
  currEnv : Value
  k : List Value
  r : Value
  done : Bool
  performGc : Bool
  appCont : Bool
  globalEnv : Value
  heap : Heap

/-- Modelled from the spec: `pop_u32` of `stack.c`. `pop_u32_n` fills its pointers from the top
down and `push_u32_n` pushes its words left to right, so each pair below reads back in order. -/
def pop : List Value → Value × List Value
  | [] => (.u 0, [])
  | v :: vs => (v, vs)

/-- `dec_u` of a continuation word. -/
def decU : Value → Nat
  | .u n => n
  | _ => 0

def eerror : Value := .sym symreprEerror
def merror : Value := .sym symreprMerror

/-- The roots `run_eval` passes to `heap_perform_gc_aux`. -/
def gcRoots (m : Machine) : List Value :=
  [m.globalEnv, m.currEnv, m.currExp, m.program, m.r] ++ m.k

/-- `cont_set_global_env`, after `apply_continuation` popped its tag; the result is the value
it returns. -/
def contSetGlobalEnv (m : Machine) : Option Machine :=
  let (key, stk) := pop m.k
  let val := m.r
  (findBinding m.heap key (m.heap.size + 1) m.globalEnv).map fun
    | some b => { m with k := stk, heap := setCdr m.heap b val, r := .sym symreprTrue }
    | none =>
      match cons m.heap key val with
      | (.ptr .cons kv, h1) =>
        match cons h1 (.ptr .cons kv) m.globalEnv with
        | (.ptr .cons g, h2) => { m with k := stk, heap := h2, globalEnv := .ptr .cons g,
                                         r := .sym symreprTrue }
        | (_, h2) => { m with k := .u kSetGlobalEnv :: key :: stk, heap := h2, performGc := true }
      | (_, h1) => { m with k := .u kSetGlobalEnv :: key :: stk, heap := h1, performGc := true }

/-- The `PROGN_REST` case. -/
def applyPrognRest (P : Prims) (m : Machine) : Machine :=
  let (rest, stk) := pop m.k
  if rest = nil then { m with k := stk, appCont := true }
  else if P.isErrorWord rest then { m with k := stk, r := rest, done := true }
  else { m with k := .u kPrognRest :: cdr m.heap rest :: stk, currExp := car m.heap rest,
                r := .u 0 }

/-- The closure branch of `FUNCTION_APP`: `args` is the accumulated argument list, `argsRev`
its reversal, and the operator `m.r` a cons cell read as `(closure params body env)`. -/
def applyClosure (m : Machine) (stk : List Value) (args argsRev : Value) : Option Machine :=
  let h := m.heap
  let fn := m.r
  let params := car h (cdr h fn)
  let exp := car h (cdr h (cdr h fn))
  let cloEnv := car h (cdr h (cdr h (cdr h fn)))
  match length h params, length h args with
  | some np, some na =>
    if np ≠ na then some { m with k := stk, done := true, r := eerror }
    else (envBuildParamsArgs h params argsRev cloEnv).map fun
      | (none, h1) => { m with k := .u kFunctionApp :: args :: stk, heap := h1,
                               performGc := true, appCont := true }
      | (some env, h1) => { m with k := stk, heap := h1, currExp := exp, currEnv := env,
                                   r := .u 0 }
  | _, _ => none

/-- The fundamental branch of `FUNCTION_APP`: the arguments are pushed, with their count, for
`fundamental_exec`, whose result word is popped back. -/
def applyFundamental (P : Prims) (m : Machine) (stk : List Value) (args : Value) :
    Option Machine :=
  (walk m.heap args).map fun words =>
    match P.fundamentalExec m.r words m.heap with
    | none => { m with k := .u words.length :: words.reverse ++ stk, done := true, r := merror }
    | some (res, h1) =>
      if res = merror then
        { m with k := .u kFunctionApp :: args :: stk, heap := h1, performGc := true,
                 appCont := true }
      else { m with k := stk, heap := h1, appCont := true, r := res }

/-- The `FUNCTION_APP` case: apply the operator `m.r` to the popped argument list. -/
def applyFunctionApp (P : Prims) (m : Machine) : Option Machine :=
  let (args, stk) := pop m.k
  let rev : Option (Value × Heap) :=
    if args.isCons then reverse m.heap args else some (args, m.heap)
  rev.bind fun (argsRev, h1) =>
    if argsRev.isSymbol && args.isCons then
      some { m with k := .u kFunctionApp :: args :: stk, heap := h1, performGc := true,
                    appCont := true }
    else
      let m := { m with heap := h1 }
      match m.r with
      | .ptr .cons _ => applyClosure m stk args argsRev
      | .sym _ => applyFundamental P m stk args
      | _ => some { m with k := stk, done := true, r := eerror }

/-- The `ARG_LIST` case: the value `m.r` joins the accumulator, then the next operand is
evaluated in the saved environment. -/
def applyArgList (m : Machine) : Machine :=
  let (rest, stk) := pop m.k
  let (acc, stk) := pop stk
  let (env, stk) := pop stk
  match cons m.heap m.r acc with
  | (.ptr .cons a, h1) =>
    if rest = nil then { m with k := stk, heap := h1, appCont := true, r := .ptr .cons a }
    else { m with k := .u kArgList :: cdr h1 rest :: .ptr .cons a :: env :: stk, heap := h1,
                  currEnv := env, currExp := car h1 rest, r := .u 0 }
  | (_, h1) => { m with k := .u kArgList :: rest :: acc :: env :: stk, heap := h1,
                        performGc := true, appCont := true }

/-- The `FUNCTION` case: the argument list `m.r` is saved under `FUNCTION_APP`, then the
operator is evaluated, unless it is a fundamental. -/
def applyFunction (P : Prims) (m : Machine) : Machine :=
  let (fn, stk) := pop m.k
  let m := { m with k := .u kFunctionApp :: m.r :: stk }
  if P.isFundamental fn then { m with appCont := true, r := fn }
  else { m with currExp := fn, r := .u 0 }

/-- The `BIND_TO_KEY_REST` case: bind the value `m.r` to the key, then evaluate the next
binding's value or, when none is left, the body kept beneath. -/
def applyBindToKeyRest (m : Machine) : Option Machine :=
  let (key, stk) := pop m.k
  let (env, stk) := pop stk
  let (rest, stk) := pop stk
  (envModifyBinding m.heap env key m.r).map fun h1 =>
    if rest.isCons then
      { m with k := .u kBindToKeyRest :: car h1 (car h1 rest) :: env :: cdr h1 rest :: stk,
               heap := h1, currExp := car h1 (cdr h1 (car h1 rest)), currEnv := env,
               r := .u 0 }
    else
      let (exp, stk) := pop stk
      { m with k := stk, heap := h1, currExp := exp, currEnv := env, r := .u 0 }

/-- The `IF` case. -/
def applyIf (m : Machine) : Machine :=
  let (thenBranch, stk) := pop m.k
  let (elseBranch, stk) := pop stk
  { m with k := stk, r := .u 0,
           currExp := if m.r = .sym symreprTrue then thenBranch else elseBranch }

/-- `apply_continuation`: pop a continuation word and run its case on the value `m.r`. -/
def applyContinuation (P : Prims) (m : Machine) : Option Machine :=
  let (k, stk) := pop m.k
  let m := { m with k := stk, appCont := false }
  match decU k with
  | 1 => some { m with done := true }
  | 8 => some { m with currExp := m.r, r := .u 0 }
  | 2 => (contSetGlobalEnv m).map fun m => { m with appCont := true }
  | 9 => some (applyPrognRest P m)
  | 3 => applyFunctionApp P m
  | 7 => some (applyArgList m)
  | 4 => some (applyFunction P m)
  | 5 => applyBindToKeyRest m
  | 6 => some (applyIf m)
  | _ => some { m with done := true, r := eerror }

/-- A symbol evaluates to its binding in the local, then in the global environment. -/
def dispatchSymbol (m : Machine) : Option Machine :=
  (envLookup m.heap m.currExp m.currEnv).bind fun
    | some v => some { m with appCont := true, r := v }
    | none => (envLookup m.heap m.currExp m.globalEnv).map fun
      | some v => { m with appCont := true, r := v }
      | none => { m with r := eerror, done := true }

/-- `lambda`: a shallow copy of the environment, then the four cells of
`(closure params body env)`. -/
def dispatchLambda (m : Machine) : Option Machine :=
  let e := m.currExp
  (envCopyShallow m.heap m.currEnv).map fun
    | (none, h1) => { m with heap := h1, performGc := true, appCont := false }
    | (some envCpy, h1) =>
      let (envEnd, h2) := cons h1 envCpy nil
      let (body, h3) := cons h2 (car h2 (cdr h2 (cdr h2 e))) envEnd
      let (params, h4) := cons h3 (car h3 (cdr h3 e)) body
      let (closure, h5) := cons h4 (.sym symreprClosure) params
      if envEnd.isSymbol || body.isSymbol || params.isSymbol || closure.isSymbol then
        { m with heap := h5, performGc := true, appCont := false }
      else { m with heap := h5, appCont := true, r := closure }

/-- The pre-binding loop of `let`: each key gets a fresh `(key . nil)` binding in front of
`newEnv`. A failed `cons` sets `perform_gc` and re-enters this inner loop with the free list
still empty, so the loop never exits: `none`. -/
def letPrebind (h : Heap) (newEnv : Value) : Nat → Value → Option (Value × Heap)
  | 0, _ => none
  | n + 1, .ptr .cons ix =>
    match cons h (car h (h.cells ix).1) nil with
    | (.ptr .cons b, h1) =>
      match cons h1 (.ptr .cons b) newEnv with
      | (.ptr .cons e, h2) => letPrebind h2 (.ptr .cons e) n (cdr h2 (.ptr .cons ix))
      | _ => none
    | _ => none
  | _ + 1, _ => some (newEnv, h)

/-- `let`: pre-bind every key to `nil`, then evaluate the first value under
`BIND_TO_KEY_REST`, with the body kept beneath it. -/
def dispatchLet (m : Machine) : Option Machine :=
  let h := m.heap
  let e := m.currExp
  let binds := car h (cdr h e)
  let exp := car h (cdr h (cdr h e))
  if !binds.isCons then some { m with currExp := exp }
  else (letPrebind h m.currEnv (h.size + 1) binds).map fun (newEnv, h1) =>
    { m with k := .u kBindToKeyRest :: car h1 (car h1 binds) :: newEnv :: cdr h1 binds ::
             exp :: m.k,
             heap := h1, currExp := car h1 (cdr h1 (car h1 binds)), currEnv := newEnv }

/-- An application: the operator waits under `FUNCTION` while the operands are evaluated left
to right under `ARG_LIST`. -/
def dispatchApp (m : Machine) (head : Value) : Machine :=
  let h := m.heap
  let e := m.currExp
  let m := { m with k := .u kFunction :: head :: m.k }
  if cdr h e = nil then { m with appCont := true, r := nil }
  else { m with k := .u kArgList :: cdr h (cdr h e) :: nil :: m.currEnv :: m.k,
                currExp := car h (cdr h e) }

/-- The `PTR_TYPE_CONS` case of the dispatch: special forms by their head symbol, and
applications. -/
def dispatchCons (P : Prims) (m : Machine) : Option Machine :=
  let h := m.heap
  let e := m.currExp
  let head := car h e
  match head with
  | .sym s =>
    if s = symreprQuote then some { m with appCont := true, r := car h (cdr h e) }
    else if s = symreprDefine then
      let key := car h (cdr h e)
      if !key.isSymbol || key = nil then some { m with done := true, r := eerror }
      else some { m with k := .u kSetGlobalEnv :: key :: m.k, currExp := car h (cdr h (cdr h e)) }
    else if s = symreprProgn then
      let exps := cdr h e
      if exps = nil then some { m with r := nil, appCont := true }
      else if P.isErrorWord exps then some { m with r := exps, done := true }
      else some { m with k := .u kPrognRest :: cdr h exps :: m.k, currExp := car h exps }
    else if s = symreprLambda then dispatchLambda m
    else if s = symreprIf then
      some { m with k := .u kIf :: car h (cdr h (cdr h e)) :: car h (cdr h (cdr h (cdr h e))) :: m.k,
                    currExp := car h (cdr h e) }
    else if s = symreprLet then dispatchLet m
    else some (dispatchApp m head)
  | _ => some (dispatchApp m head)

theorem dispatchCons_cases {P : Prims} {m m' : Machine} (h : dispatchCons P m = some m') :
    (∃ v, (v = car m.heap (cdr m.heap m.currExp) ∨ v = nil) ∧ m' = { m with appCont := true, r := v }) ∨
    (∃ v, (v = eerror ∨ v = cdr m.heap m.currExp) ∧ m' = { m with done := true, r := v }) ∨
    m' = { m with
      k := .u kSetGlobalEnv :: car m.heap (cdr m.heap m.currExp) :: m.k,
      currExp := car m.heap (cdr m.heap (cdr m.heap m.currExp)) } ∨
    m' = { m with
      k := .u kPrognRest :: cdr m.heap (cdr m.heap m.currExp) :: m.k,
      currExp := car m.heap (cdr m.heap m.currExp) } ∨
    m' = { m with
      k := .u kIf :: car m.heap (cdr m.heap (cdr m.heap m.currExp)) ::
        car m.heap (cdr m.heap (cdr m.heap (cdr m.heap m.currExp))) :: m.k,
      currExp := car m.heap (cdr m.heap m.currExp) } ∨
    dispatchLambda m = some m' ∨ dispatchLet m = some m' ∨ m' = dispatchApp m (car m.heap m.currExp) := by
  dsimp only [dispatchCons] at h
  split at h
  · rename_i s _
    by_cases hq : s = symreprQuote
    · rw [if_pos hq] at h
      cases h
      exact .inl ⟨_, .inl rfl, rfl⟩
    rw [if_neg hq] at h
    by_cases hd : s = symreprDefine
    · rw [if_pos hd] at h
      split at h <;> cases h
      exacts [.inr <| .inl ⟨_, .inl rfl, rfl⟩, .inr <| .inr <| .inl rfl]
    rw [if_neg hd] at h
    by_cases hp : s = symreprProgn
    · rw [if_pos hp] at h
      split at h
      · cases h
        exact .inl ⟨_, .inr rfl, rfl⟩
      split at h <;> cases h
      exacts [.inr <| .inl ⟨_, .inr rfl, rfl⟩, .inr <| .inr <| .inr <| .inl rfl]
    rw [if_neg hp] at h
    by_cases hl : s = symreprLambda
    · rw [if_pos hl] at h
      exact .inr <| .inr <| .inr <| .inr <| .inr <| .inl h
    rw [if_neg hl] at h
    by_cases hi : s = symreprIf
    · rw [if_pos hi] at h
      cases h
      exact .inr <| .inr <| .inr <| .inr <| .inl rfl
    rw [if_neg hi] at h
    split at h
    · exact .inr <| .inr <| .inr <| .inr <| .inr <| .inr <| .inl h
    · cases h
      exact .inr <| .inr <| .inr <| .inr <| .inr <| .inr <| .inr rfl
  · cases h
    exact .inr <| .inr <| .inr <| .inr <| .inr <| .inr <| .inr rfl

/-- The dispatch on the type of `curr_exp`. -/
def dispatch (P : Prims) (m : Machine) : Option Machine :=
  match m.currExp with
  | .sym _ => dispatchSymbol m
  | .ptr .cons _ => dispatchCons P m
  | .ptr .ref _ | .ptr .stream _ => some { m with r := eerror, done := true }
  | e => some { m with appCont := true, r := e }

/-- What one iteration does after its collection check: apply a continuation or dispatch. -/
def evalStep (P : Prims) (m : Machine) : Option Machine :=
  if m.appCont then applyContinuation P m else dispatch P m

/-- The loop of `run_eval` keeps `non_gc`, the number of iterations since the last collection,
beside the machine its steps work on. -/
structure Loop where
  m : Machine
  nonGc : UInt32

/-- One iteration of the loop of `run_eval`; `none` when it never returns. -/
def iter (P : Prims) (s : Loop) : Option Loop :=
  let m := s.m
  if m.performGc then
    if s.nonGc = 0 then some ⟨{ m with done := true, r := merror }, s.nonGc⟩
    else (evalStep P { m with heap := P.performGc (gcRoots m) m.heap, performGc := false }).map
      fun m' => ⟨m', 0⟩
  else (evalStep P m).map fun m' => ⟨m', s.nonGc + 1⟩

/-- The state on entry to the loop: `DONE` pushed on the context's stack. -/
def start (program exp env : Value) (k : List Value) (globalEnv : Value) (h : Heap) : Loop :=
  ⟨{ program, currExp := exp, currEnv := env, k := .u kDone :: k, r := nil, done := false,
     performGc := false, appCont := false, globalEnv, heap := h }, 0⟩

/-- One turn of `while (!done)`: a finished run stays where it is. -/
def next (P : Prims) (s : Loop) : Option Loop :=
  if s.m.done then some s else iter P s

/-- The state after `n` turns of the loop, `none` when an iteration never returns. -/
def run (P : Prims) (n : Nat) (s : Loop) : Option Loop :=
  (fun o => o.bind (next P))^[n] (some s)

/-- `run_eval`'s result when the loop has finished within `n` turns. -/
def runEval (P : Prims) (n : Nat) (s : Loop) : Option Value :=
  (run P n s).bind fun s' => if s'.m.done then some s'.m.r else none

/-- The loop of `eval_cps_program` over the forms: each is run by `run_eval` with `curr_env` nil
on a cleared stack, within `n` turns of its loop, and the next form is read through the `cdr` of
the heap the run leaves. `none` when a form does not finish within `n` turns, or the program has
more than `fuel` forms. -/
def evalForms (P : Prims) (n : Nat) (program : Value) :
    Nat → Value → Value → Value → Heap → Option (Value × Value × Heap)
  | 0, _, _, _, _ => none
  | fuel + 1, curr, res, genv, h =>
    if curr.isCons then
      (run P n (start program (car h curr) nil [] genv h)).bind fun s =>
        if s.m.done then evalForms P n program fuel (cdr s.m.heap curr) s.m.r s.m.globalEnv s.m.heap
        else none
    else some (res, genv, h)

/-- `eval_cps_program`: the value of the last form, with the global environment and the heap the
forms leave. -/
def evalCpsProgram (P : Prims) (n fuel : Nat) (lisp genv : Value) (h : Heap) : Option (Value × Value × Heap) :=
  if P.isErrorWord lisp then some (lisp, genv, h) else evalForms P n lisp fuel lisp nil genv h

/-- `eval_cps_init`: the global environment becomes the one binding `(nil . nil)`; the result is 0
when a `cons` fails. -/
def evalCpsInit (h : Heap) : Nat × Value × Heap :=
  let (nilEntry, h1) := cons h nil nil
  let (genv, h2) := cons h1 nilEntry nil
  (if nilEntry.isSymbol || genv.isSymbol then 0 else 1, genv, h2)

theorem run_succ (P : Prims) (n : Nat) (s : Loop) :
    run P (n + 1) s = (run P n s).bind (next P) :=
  Function.iterate_succ_apply' _ n (some s)

theorem run_invariant {P : Prims} {Inv : Loop → Prop}
    (hstep : ∀ s s', Inv s → next P s = some s' → Inv s') {s : Loop} (h0 : Inv s) :
    ∀ {n s'}, run P n s = some s' → Inv s'
  | 0, _, h => by cases h; exact h0
  | n + 1, s', h => by
    rw [run_succ, Option.bind_eq_some] at h
    obtain ⟨s₁, h₁, h₂⟩ := h
    exact hstep s₁ s' (run_invariant hstep h0 h₁) h₂

end LispBM.EvalCps
