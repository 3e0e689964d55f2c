import LispBM.EvalCps

namespace LispBM.EvalCps

open ConsHeap

/-- `cont_set_global_env` on the value `v` of a `define` of `key`, as a big-step evaluator sees
it: the symbol `t`, and the global environment and heap it leaves; `none` when a `cons` fails,
where the code asks for a collection. -/
def defineFo (key v genv : Value) (h : Heap) : Option (Value × Value × Heap) :=
  (findBinding h key (h.size + 1) genv).bind fun
    | some b => some (.sym symreprTrue, genv, setCdr h b v)
    | none =>
      match cons h key v with
      | (.ptr .cons kv, h1) =>
        match cons h1 (.ptr .cons kv) genv with
        | (.ptr .cons g, h2) => some (.sym symreprTrue, .ptr .cons g, h2)
        | _ => none
      | _ => none

/-- What a big-step evaluation gives: the value, the environment `curr_env` is left holding, the
global environment and the heap; `none` for an error that ends the run, a `cons` that fails (where
the code asks for a collection) and a run that never returns. -/
abbrev Outcome : Type := Option (Value × Value × Value × Heap)

/-- `lambda` as `run_eval` evaluates `e` in the environment `env`: a shallow copy of the
environment, then the four cells of `(closure params body env)`, consed in the code's order. -/
def lambdaFo (h : Heap) (env e : Value) : Option (Value × Heap) :=
  (envCopyShallow h env).bind fun
    | (none, _) => none
    | (some envCpy, h1) =>
      let (envEnd, h2) := cons h1 envCpy nil
      let (body, h3) := cons h2 (car h2 (cdr h2 (cdr h2 e))) envEnd
      let (params, h4) := cons h3 (car h3 (cdr h3 e)) body
      let (closure, h5) := cons h4 (.sym symreprClosure) params
      if envEnd.isSymbol || body.isSymbol || params.isSymbol || closure.isSymbol then none
      else some (closure, h5)

/-- The expressions of a `progn` from `first`, `rest` holding those after it, each evaluated by
`ev` in turn, in the environment the one before it left: `PROGN_REST` does not restore
`curr_env`. The value of the last one is the result. -/
def prognFo (P : Prims) (ev : Value → Value → Value → Heap → Outcome) :
    Nat → Value → Value → Value → Value → Heap → Outcome
  | 0, _, _, _, _, _ => none
  | fuel + 1, env, first, rest, genv, h => (ev env first genv h).bind fun (v, env1, g, h1) =>
    if rest = nil then some (v, env1, g, h1)
    else if P.isErrorWord rest then none
    else prognFo P ev fuel env1 (car h1 rest) (cdr h1 rest) g h1

/-- The operands of an application from `first`, `rest` holding those after it, each evaluated by
`ev` in the environment `env` that `ARG_LIST` keeps, and its value consed onto the list `acc`: the
list of the values, the last one first, and the environment the last operand left. -/
def argsFo (ev : Value → Value → Value → Heap → Outcome) :
    Nat → Value → Value → Value → Value → Value → Heap → Outcome
  | 0, _, _, _, _, _, _ => none
  | fuel + 1, env, first, rest, acc, genv, h => (ev env first genv h).bind fun (v, env1, g, h1) =>
    match cons h1 v acc with
    | (.ptr .cons a, h2) =>
      if rest = nil then some (.ptr .cons a, env1, g, h2)
      else argsFo ev fuel env (car h2 rest) (cdr h2 rest) (.ptr .cons a) g h2
    | _ => none

/-- The bindings of a `let` from the one of `key`, whose value expression is `exp`, `rest` holding
those after it: each value evaluated by `ev` in the `let`'s environment `env` and bound there by
`env_modify_binding`, as `BIND_TO_KEY_REST` does; then the body `body` in `env`. -/
def bindsFo (ev : Value → Value → Value → Heap → Outcome) :
    Nat → Value → Value → Value → Value → Value → Value → Heap → Outcome
  | 0, _, _, _, _, _, _, _ => none
  | fuel + 1, env, key, exp, rest, body, genv, h => (ev env exp genv h).bind fun (v, _, g, h1) =>
    (envModifyBinding h1 env key v).bind fun h2 =>
      if rest.isCons then
        bindsFo ev fuel env (car h2 (car h2 rest)) (car h2 (cdr h2 (car h2 rest))) (cdr h2 rest) body g h2
      else ev env body g h2

/-- The closure branch of `FUNCTION_APP` on the operator `fn`, read as `(closure params body env)`:
the body evaluated by `ev` in the closure's environment extended with the parameters bound to the
arguments; `none` when the counts differ. -/
def closureFo (ev : Value → Value → Value → Heap → Outcome) (fn args argsRev genv : Value) (h : Heap) :
    Outcome :=
  let params := car h (cdr h fn)
  let exp := car h (cdr h (cdr h fn))
  let cloEnv := car h (cdr h (cdr h (cdr h fn)))
  match length h params, length h args with
  | some np, some na =>
    if np ≠ na then none
    else (envBuildParamsArgs h params argsRev cloEnv).bind fun
      | (some env, h1) => ev env exp genv h1
      | (none, _) => none
  | _, _ => none

/-- `FUNCTION_APP` on the operator `fn` and the argument list `args`, in the environment `env`: a
closure's body, or the result of `fundamental_exec`, which leaves `env` as it is. -/
def applyFo (P : Prims) (ev : Value → Value → Value → Heap → Outcome) (fn args env genv : Value)
    (h : Heap) : Outcome :=
  let rev : Option (Value × Heap) := if args.isCons then reverse h args else some (args, h)
  rev.bind fun (argsRev, h1) =>
    if argsRev.isSymbol && args.isCons then none
    else match fn with
      | .ptr .cons _ => closureFo ev fn args argsRev genv h1
      | .sym _ => (walk h1 args).bind fun words =>
        match P.fundamentalExec fn words h1 with
        | some (res, h2) => if res = merror then none else some (res, env, genv, h2)
        | none => none
      | _ => none

/-- An application `e` in the environment `env`: its operands left to right under `ARG_LIST`, then
its operator under `FUNCTION`, in the environment the last operand left, unless it is a
fundamental, then `FUNCTION_APP`. -/
def appFo (P : Prims) (ev : Value → Value → Value → Heap → Outcome) (fuel : Nat)
    (env e genv : Value) (h : Heap) : Outcome :=
  let head := car h e
  let operands : Outcome :=
    if cdr h e = nil then some (nil, env, genv, h)
    else argsFo ev fuel env (car h (cdr h e)) (cdr h (cdr h e)) nil genv h
  operands.bind fun (args, env1, g1, h1) =>
    (if P.isFundamental head then some (head, env1, g1, h1) else ev env1 head g1 h1).bind
      fun (fn, env2, g2, h2) => applyFo P ev fn args env2 g2 h2

/-- `run_eval` as a big-step evaluator over the heap: self-evaluating words, symbols, `quote`,
`define`, `progn`, `lambda`, `if`, `let` and applications of closures and fundamental operators,
each word read from the heap at the point `run_eval` reads it, and `curr_env` passed on as the
code leaves it. -/
def evalBig (P : Prims) : Nat → Value → Value → Value → Heap → Outcome
  | 0, _, _, _, _ => none
  | fuel + 1, env, e, genv, h =>
    match e with
    | .sym _ =>
      (envLookup h e env).bind fun
        | some v => some (v, env, genv, h)
        | none => (envLookup h e genv).bind fun
          | some v => some (v, env, genv, h)
          | none => none
    | .ptr .cons _ =>
      match car h e with
      | .sym s =>
        if s = symreprQuote then some (car h (cdr h e), env, genv, h)
        else if s = symreprDefine then
          let key := car h (cdr h e)
          if !key.isSymbol || key = nil then none
          else (evalBig P fuel env (car h (cdr h (cdr h e))) genv h).bind fun (v, env1, g, h1) =>
            (defineFo key v g h1).map fun (t, g2, h2) => (t, env1, g2, h2)
        else if s = symreprProgn then
          let exps := cdr h e
          if exps = nil then some (nil, env, genv, h)
          else if P.isErrorWord exps then none
          else prognFo P (evalBig P fuel) fuel env (car h exps) (cdr h exps) genv h
        else if s = symreprLambda then (lambdaFo h env e).map fun (clo, h1) => (clo, env, genv, h1)
        else if s = symreprIf then
          let thenBranch := car h (cdr h (cdr h e))
          let elseBranch := car h (cdr h (cdr h (cdr h e)))
          (evalBig P fuel env (car h (cdr h e)) genv h).bind fun (v, env1, g, h1) =>
            evalBig P fuel env1 (if v = .sym symreprTrue then thenBranch else elseBranch) g h1
        else if s = symreprLet then
          let binds := car h (cdr h e)
          let exp := car h (cdr h (cdr h e))
          if !binds.isCons then evalBig P fuel env exp genv h
          else (letPrebind h env (h.size + 1) binds).bind fun (newEnv, h1) =>
            bindsFo (evalBig P fuel) fuel newEnv (car h1 (car h1 binds)) (car h1 (cdr h1 (car h1 binds)))
              (cdr h1 binds) exp genv h1
        else appFo P (evalBig P fuel) fuel env e genv h
      | _ => appFo P (evalBig P fuel) fuel env e genv h
    | .ptr .ref _ | .ptr .stream _ => none
    | e => some (e, env, genv, h)

/-- A run from `s` comes back to the stack `K` in the apply phase, with the value `v`, `curr_env`
holding `env`, the global environment `g` and the heap `h`; of the machine it started from, only
these and the expression have changed. -/
def Returns (P : Prims) (s : Loop) (K : List Value) (v env g : Value) (h : Heap) : Prop :=
  ∃ n c exp, run P n s = some ⟨{ s.m with
    k := K, currExp := exp, currEnv := env, appCont := true, r := v, globalEnv := g, heap := h }, c⟩

/-- A machine about to dispatch its expression. -/
def Ready (m : Machine) : Prop := m.appCont = false ∧ m.done = false ∧ m.performGc = false

/-- What `evalBig` with `fuel` says of `run_eval`: an expression it evaluates comes back to the
stack it was dispatched with, with its value and the environment it leaves. -/
def Sound (P : Prims) (fuel : Nat) : Prop :=
  ∀ {m : Machine} {v env g : Value} {h : Heap}, Ready m →
    evalBig P fuel m.currEnv m.currExp m.globalEnv m.heap = some (v, env, g, h) →
      ∀ c, Returns P ⟨m, c⟩ m.k v env g h

section Runs

variable {P : Prims}

theorem run_one (P : Prims) (s : Loop) : run P 1 s = next P s := rfl

theorem run_add (P : Prims) (a b : Nat) (s : Loop) : run P (a + b) s = (run P a s).bind (run P b) := by
  induction b with
  | zero => rw [Nat.add_zero]; cases run P a s <;> rfl
  | succ b ih =>
    rw [← Nat.add_assoc, run_succ, ih, Option.bind_assoc]
    congr 1
    funext x
    exact (run_succ P b x).symm

theorem next_ready {s : Loop} (hd : s.m.done = false) (hg : s.m.performGc = false) :
    next P s = (evalStep P s.m).map fun m' => ⟨m', s.nonGc + 1⟩ := by
  simp only [next, hd, iter, hg, Bool.false_eq_true, ite_false]

variable {s : Loop} {K : List Value} {v env g : Value} {h : Heap}

theorem Returns.of_run {n : Nat} {k1 : List Value} {e1 env1 r1 g1 : Value} {a1 : Bool} {h1 : Heap}
    {c1 : UInt32} (hrun : run P n s = some ⟨{ s.m with
      k := k1, currExp := e1, currEnv := env1, appCont := a1, r := r1, globalEnv := g1, heap := h1 }, c1⟩)
    (hret : Returns P ⟨{ s.m with
      k := k1, currExp := e1, currEnv := env1, appCont := a1, r := r1, globalEnv := g1, heap := h1 }, c1⟩
      K v env g h) :
    Returns P s K v env g h := by
  obtain ⟨n', c, exp, h'⟩ := hret
  exact ⟨n + n', c, exp, by rw [run_add, hrun]; exact h'⟩

theorem Returns.step {k1 : List Value} {e1 env1 r1 g1 : Value} {a1 : Bool} {h1 : Heap}
    (hd : s.m.done = false) (hg : s.m.performGc = false)
    (hstep : evalStep P s.m = some { s.m with
      k := k1, currExp := e1, currEnv := env1, appCont := a1, r := r1, globalEnv := g1, heap := h1 })
    (hret : Returns P ⟨{ s.m with
      k := k1, currExp := e1, currEnv := env1, appCont := a1, r := r1, globalEnv := g1, heap := h1 },
      s.nonGc + 1⟩ K v env g h) :
    Returns P s K v env g h :=
  Returns.of_run (n := 1) (by rw [run_one, next_ready hd hg, hstep]; rfl) hret

theorem Returns.last {e : Value} (hd : s.m.done = false) (hg : s.m.performGc = false)
    (hstep : evalStep P s.m = some { s.m with
      k := K, currExp := e, currEnv := env, appCont := true, r := v, globalEnv := g, heap := h }) :
    Returns P s K v env g h :=
  ⟨1, s.nonGc + 1, e, by rw [run_one, next_ready hd hg, hstep]; rfl⟩

theorem Returns.bind {K1 : List Value} {v1 env1 g1 : Value} {h1 : Heap}
    (hfirst : Returns P s K1 v1 env1 g1 h1)
    (hthen : ∀ exp c, Returns P ⟨{ s.m with
      k := K1, currExp := exp, currEnv := env1, appCont := true, r := v1, globalEnv := g1, heap := h1 }, c⟩
      K v env g h) :
    Returns P s K v env g h := by
  obtain ⟨n, c, exp, hrun⟩ := hfirst
  exact Returns.of_run hrun (hthen exp c)

end Runs

section Continuations

variable {P : Prims} {m : Machine} {K : List Value}

theorem contSetGlobalEnv_eq {key v g : Value} {h : Heap} (hk : m.k = key :: K)
    (hdef : defineFo key m.r m.globalEnv m.heap = some (v, g, h)) :
    contSetGlobalEnv m = some { m with k := K, r := v, globalEnv := g, heap := h } := by
  obtain ⟨b, hfind, hrest⟩ := Option.bind_eq_some.mp hdef
  cases b with
  | some b =>
    cases hrest
    simp only [contSetGlobalEnv, hk, pop, hfind, Option.map_some']
  | none =>
    dsimp only at hrest
    split at hrest
    next kv h1 hcons =>
      split at hrest
      next g' h2 hcons' =>
        cases hrest
        simp only [contSetGlobalEnv, hk, pop, hfind, Option.map_some', hcons, hcons']
      all_goals cases hrest
    all_goals cases hrest

theorem applyContinuation_setGlobalEnv {key v g : Value} {h : Heap}
    (hk : m.k = .u kSetGlobalEnv :: key :: K) (hdef : defineFo key m.r m.globalEnv m.heap = some (v, g, h)) :
    applyContinuation P m = some { m with k := K, appCont := true, r := v, globalEnv := g, heap := h } := by
  simp only [applyContinuation, hk, pop, decU, kSetGlobalEnv,
    contSetGlobalEnv_eq (m := { m with k := key :: K, appCont := false }) rfl hdef, Option.map_some']

theorem applyContinuation_prognRest_nil (hk : m.k = .u kPrognRest :: nil :: K) :
    applyContinuation P m = some { m with k := K, appCont := true } := by
  simp only [applyContinuation, hk, pop, decU, kPrognRest, applyPrognRest, ite_true]

theorem applyContinuation_prognRest_cons {rest : Value} (hk : m.k = .u kPrognRest :: rest :: K)
    (hnil : rest ≠ nil) (herr : P.isErrorWord rest = false) :
    applyContinuation P m = some { m with
      k := .u kPrognRest :: cdr m.heap rest :: K, currExp := car m.heap rest, appCont := false, r := .u 0 } := by
  simp only [applyContinuation, hk, pop, decU, kPrognRest, applyPrognRest, hnil, herr, ite_false,
    Bool.false_eq_true]

theorem applyContinuation_if {thenBranch elseBranch : Value} (hk : m.k = .u kIf :: thenBranch :: elseBranch :: K) :
    applyContinuation P m = some { m with
      k := K, appCont := false, r := .u 0, currExp := if m.r = .sym symreprTrue then thenBranch else elseBranch } := by
  simp only [applyContinuation, hk, pop, decU, kIf, applyIf]

theorem applyContinuation_argList {rest acc env : Value} {a : Nat} {h1 : Heap}
    (hk : m.k = .u kArgList :: rest :: acc :: env :: K) (hcons : cons m.heap m.r acc = (.ptr .cons a, h1)) :
    applyContinuation P m = some (if rest = nil then { m with k := K, appCont := true, r := .ptr .cons a, heap := h1 }
      else { m with
        k := .u kArgList :: cdr h1 rest :: .ptr .cons a :: env :: K, currExp := car h1 rest, currEnv := env,
        appCont := false, r := .u 0, heap := h1 }) := by
  simp only [applyContinuation, hk, pop, decU, kArgList, applyArgList, hcons]

theorem applyContinuation_function {fn : Value} (hk : m.k = .u kFunction :: fn :: K) :
    applyContinuation P m = some (if P.isFundamental fn then
      { m with k := .u kFunctionApp :: m.r :: K, appCont := true, r := fn }
      else { m with k := .u kFunctionApp :: m.r :: K, currExp := fn, appCont := false, r := .u 0 }) := by
  simp only [applyContinuation, hk, pop, decU, kFunction, applyFunction]

theorem applyContinuation_closure {args argsRev : Value} {h1 : Heap} {ix : Nat} {m' : Machine}
    (hk : m.k = .u kFunctionApp :: args :: K)
    (hrev : (if args.isCons then reverse m.heap args else some (args, m.heap)) = some (argsRev, h1))
    (hsym : (argsRev.isSymbol && args.isCons) = false) (hx : m.r = .ptr .cons ix)
    (hclo : applyClosure { m with k := args :: K, appCont := false, heap := h1 } K args argsRev = some m') :
    applyContinuation P m = some m' := by
  rcases m with ⟨_, _, _, _, r, _⟩
  dsimp only at hx hk hrev hclo ⊢
  subst hx
  simp only [applyContinuation, hk, pop, decU, kFunctionApp, applyFunctionApp, hrev, Option.some_bind, hsym,
    Bool.false_eq_true, ite_false, hclo]

theorem applyContinuation_fundamental {args argsRev res : Value} {words : List Value} {h1 h2 : Heap}
    {x : Nat} (hk : m.k = .u kFunctionApp :: args :: K)
    (hrev : (if args.isCons then reverse m.heap args else some (args, m.heap)) = some (argsRev, h1))
    (hsym : (argsRev.isSymbol && args.isCons) = false) (hx : m.r = .sym x)
    (hwalk : walk h1 args = some words) (hres : P.fundamentalExec m.r words h1 = some (res, h2))
    (hm : res ≠ merror) :
    applyContinuation P m = some { m with k := K, appCont := true, r := res, heap := h2 } := by
  rcases m with ⟨_, _, _, _, r, _⟩
  dsimp only at hx hk hrev hres ⊢
  subst hx
  simp only [applyContinuation, hk, pop, decU, kFunctionApp, applyFunctionApp, hrev, Option.some_bind, hsym,
    Bool.false_eq_true, ite_false, applyFundamental, hwalk, Option.map_some', hres, hm]

theorem applyClosure_of_closureFo {ev : Value → Value → Value → Heap → Outcome} (stk : List Value)
    {args argsRev : Value} {r : Value × Value × Value × Heap}
    (hclo : closureFo ev m.r args argsRev m.globalEnv m.heap = some r) :
    ∃ env h1, applyClosure m stk args argsRev = some { m with
      k := stk, heap := h1, currExp := car m.heap (cdr m.heap (cdr m.heap m.r)), currEnv := env, r := .u 0 } ∧
      ev env (car m.heap (cdr m.heap (cdr m.heap m.r))) m.globalEnv h1 = some r := by
  dsimp only [closureFo] at hclo
  split at hclo
  next np na hp ha =>
    by_cases hne : np ≠ na
    · rw [if_pos hne] at hclo
      cases hclo
    rw [if_neg hne] at hclo
    obtain ⟨⟨oenv, h1⟩, hb, hr⟩ := Option.bind_eq_some.mp hclo
    cases oenv with
    | none => cases hr
    | some env => exact ⟨env, h1, by simp only [applyClosure, hp, ha, if_neg hne, hb, Option.map_some'], hr⟩
  next => cases hclo

theorem dispatchLambda_of_lambdaFo {clo : Value} {h1 : Heap}
    (hlam : lambdaFo m.heap m.currEnv m.currExp = some (clo, h1)) :
    dispatchLambda m = some { m with heap := h1, appCont := true, r := clo } := by
  obtain ⟨⟨o, h0⟩, hcopy, hrest⟩ := Option.bind_eq_some.mp hlam
  cases o with
  | none => cases hrest
  | some envCpy =>
    -- the four `cons` calls are the same on both sides; only the last test differs
    simp only [dispatchLambda, hcopy, Option.map_some']
    dsimp only at hrest ⊢
    split_ifs at hrest ⊢
    cases hrest
    rfl

theorem applyContinuation_bindToKeyRest {key env rest body : Value} {h1 : Heap}
    (hk : m.k = .u kBindToKeyRest :: key :: env :: rest :: body :: K)
    (hmod : envModifyBinding m.heap env key m.r = some h1) :
    applyContinuation P m = some (if rest.isCons then { m with
        k := .u kBindToKeyRest :: car h1 (car h1 rest) :: env :: cdr h1 rest :: body :: K, heap := h1,
        currExp := car h1 (cdr h1 (car h1 rest)), currEnv := env, appCont := false, r := .u 0 }
      else { m with k := K, heap := h1, currExp := body, currEnv := env, appCont := false, r := .u 0 }) := by
  simp only [applyContinuation, hk, pop, decU, kBindToKeyRest, applyBindToKeyRest, hmod, Option.map_some']

end Continuations

theorem evalStep_of_appCont {P : Prims} {m : Machine} (h : m.appCont = true) :
    evalStep P m = applyContinuation P m := by
  simp only [evalStep, h, ite_true]

section Forms

variable {P : Prims} {fuel : Nat} {m : Machine} {c : UInt32} {v env g : Value} {h : Heap}

theorem returns_define (ih : Sound P fuel) {key body v1 env1 g1 : Value} {h1 : Heap} (hr : Ready m)
    (hstep : evalStep P m = some { m with k := .u kSetGlobalEnv :: key :: m.k, currExp := body })
    (hbody : evalBig P fuel m.currEnv body m.globalEnv m.heap = some (v1, env1, g1, h1))
    (hdef : defineFo key v1 g1 h1 = some (v, g, h)) : Returns P ⟨m, c⟩ m.k v env1 g h := by
  obtain ⟨ha, hd, hg⟩ := hr
  refine Returns.step hd hg hstep ?_
  obtain ⟨n, c', exp, hrun⟩ := ih (m := { m with k := .u kSetGlobalEnv :: key :: m.k, currExp := body })
    ⟨ha, hd, hg⟩ hbody (c + 1)
  exact Returns.of_run hrun (Returns.last hd hg
    ((evalStep_of_appCont rfl).trans (applyContinuation_setGlobalEnv rfl hdef)))

theorem returns_if (ih : Sound P fuel) {test thenBranch elseBranch v1 env1 g1 : Value} {h1 : Heap}
    (hr : Ready m)
    (hstep : evalStep P m = some { m with k := .u kIf :: thenBranch :: elseBranch :: m.k, currExp := test })
    (htest : evalBig P fuel m.currEnv test m.globalEnv m.heap = some (v1, env1, g1, h1))
    (hbranch : evalBig P fuel env1 (if v1 = .sym symreprTrue then thenBranch else elseBranch) g1 h1 =
      some (v, env, g, h)) : Returns P ⟨m, c⟩ m.k v env g h := by
  obtain ⟨ha, hd, hg⟩ := hr
  refine Returns.step hd hg hstep ?_
  obtain ⟨n, c', exp, hrun⟩ := ih (m := { m with k := .u kIf :: thenBranch :: elseBranch :: m.k, currExp := test })
    ⟨ha, hd, hg⟩ htest (c + 1)
  refine Returns.of_run hrun
    (Returns.step hd hg ((evalStep_of_appCont rfl).trans (applyContinuation_if rfl)) (ih ?_ ?_ _))
  exacts [⟨rfl, hd, hg⟩, hbranch]

theorem returns_prognFo (ih : Sound P fuel) : ∀ (pf : Nat) {m : Machine} {c : UInt32} {rest : Value}
    {K : List Value} {v env g : Value} {h : Heap}, Ready m → m.k = .u kPrognRest :: rest :: K →
    prognFo P (evalBig P fuel) pf m.currEnv m.currExp rest m.globalEnv m.heap = some (v, env, g, h) →
    Returns P ⟨m, c⟩ K v env g h
  | 0, _, _, _, _, _, _, _, _, _, _, hev => nomatch hev
  | pf + 1, m, c, rest, K, v, env, g, h, ⟨ha, hd, hg⟩, hk, hev => by
    obtain ⟨⟨v1, env1, g1, h1⟩, hfirst, hrest⟩ := Option.bind_eq_some.mp hev
    obtain ⟨n, c', exp, hrun⟩ := ih ⟨ha, hd, hg⟩ hfirst c
    refine Returns.of_run hrun ?_
    dsimp only at hrest
    by_cases hnil : rest = nil
    · -- the last expression: its value comes back
      subst hnil
      rw [if_pos rfl] at hrest
      cases hrest
      exact Returns.last (e := exp) hd hg ((evalStep_of_appCont rfl).trans (applyContinuation_prognRest_nil hk))
    rw [if_neg hnil] at hrest
    cases herr : P.isErrorWord rest
    · rw [herr, if_neg Bool.false_ne_true] at hrest
      refine Returns.step hd hg ((evalStep_of_appCont rfl).trans (applyContinuation_prognRest_cons hk hnil herr))
        (returns_prognFo ih pf ?_ rfl ?_)
      exacts [⟨rfl, hd, hg⟩, hrest]
    · rw [herr, if_pos rfl] at hrest
      cases hrest

theorem returns_argsFo (ih : Sound P fuel) : ∀ (af : Nat) {m : Machine} {c : UInt32} {rest acc : Value}
    {K : List Value} {v env g : Value} {h : Heap}, Ready m → m.k = .u kArgList :: rest :: acc :: m.currEnv :: K →
    argsFo (evalBig P fuel) af m.currEnv m.currExp rest acc m.globalEnv m.heap = some (v, env, g, h) →
    Returns P ⟨m, c⟩ K v env g h
  | 0, _, _, _, _, _, _, _, _, _, _, _, hev => nomatch hev
  | af + 1, m, c, rest, acc, K, v, env, g, h, ⟨ha, hd, hg⟩, hk, hev => by
    obtain ⟨⟨v1, env1, g1, h1⟩, hfirst, hrest⟩ := Option.bind_eq_some.mp hev
    refine (ih ⟨ha, hd, hg⟩ hfirst c).bind fun exp c' => ?_
    dsimp only at hrest
    split at hrest
    next a h2 hcons =>
      have hcont := (evalStep_of_appCont (P := P) (m := { m with
        k := m.k, currExp := exp, currEnv := env1, appCont := true, r := v1, globalEnv := g1, heap := h1 }) rfl).trans
        (applyContinuation_argList hk hcons)
      by_cases hnil : rest = nil
      · -- the last operand: the list comes back
        rw [if_pos hnil] at hrest hcont
        cases hrest
        exact Returns.last (e := exp) hd hg hcont
      · rw [if_neg hnil] at hrest hcont
        exact Returns.step hd hg hcont (returns_argsFo ih af ⟨rfl, hd, hg⟩ rfl hrest)
    next => cases hrest

theorem returns_bindsFo (ih : Sound P fuel) : ∀ (bf : Nat) {m : Machine} {c : UInt32} {key rest body : Value}
    {K : List Value} {v env g : Value} {h : Heap}, Ready m →
    m.k = .u kBindToKeyRest :: key :: m.currEnv :: rest :: body :: K →
    bindsFo (evalBig P fuel) bf m.currEnv key m.currExp rest body m.globalEnv m.heap = some (v, env, g, h) →
    Returns P ⟨m, c⟩ K v env g h
  | 0, _, _, _, _, _, _, _, _, _, _, _, _, hev => nomatch hev
  | bf + 1, m, c, key, rest, body, K, v, env, g, h, ⟨ha, hd, hg⟩, hk, hev => by
    obtain ⟨⟨v1, env1, g1, h1⟩, hval, hrest⟩ := Option.bind_eq_some.mp hev
    refine (ih ⟨ha, hd, hg⟩ hval c).bind fun exp c' => ?_
    dsimp only at hrest
    obtain ⟨h2, hmod, hnext⟩ := Option.bind_eq_some.mp hrest
    have hcont := (evalStep_of_appCont (P := P) (m := { m with
      k := m.k, currExp := exp, currEnv := env1, appCont := true, r := v1, globalEnv := g1, heap := h1 }) rfl).trans
      (applyContinuation_bindToKeyRest hk hmod)
    by_cases hc : rest.isCons = true
    · -- the next binding's value
      rw [if_pos hc] at hnext hcont
      exact Returns.step hd hg hcont (returns_bindsFo ih bf ⟨rfl, hd, hg⟩ rfl hnext)
    · -- the body, in the `let`'s environment
      rw [if_neg hc] at hnext hcont
      refine Returns.step hd hg hcont (ih ?_ ?_ _)
      exacts [⟨rfl, hd, hg⟩, hnext]

/-- The `FUNCTION_APP` frame over the argument list `args`, on the operator `m.r`: the result of a
fundamental comes back at once, the body of a closure once it is dispatched and has come back. -/
theorem returns_functionApp (ih : Sound P fuel) {args : Value} {K : List Value} (ha : m.appCont = true)
    (hd : m.done = false) (hg : m.performGc = false) (hk : m.k = .u kFunctionApp :: args :: K)
    (happ : applyFo P (evalBig P fuel) m.r args m.currEnv m.globalEnv m.heap = some (v, env, g, h)) :
    Returns P ⟨m, c⟩ K v env g h := by
  obtain ⟨⟨argsRev, h1⟩, hrev, hrest⟩ := Option.bind_eq_some.mp happ
  dsimp only at hrest
  cases hsym : (argsRev.isSymbol && args.isCons)
  case true =>
    rw [hsym, if_pos rfl] at hrest
    cases hrest
  rw [hsym, if_neg Bool.false_ne_true] at hrest
  split at hrest
  next ix hx =>
    -- a closure: its body is dispatched on the stack beneath the frame
    obtain ⟨env1, h2, hclo, hbody⟩ :=
      applyClosure_of_closureFo (m := { m with k := args :: K, appCont := false, heap := h1 }) K hrest
    refine Returns.step hd hg ((evalStep_of_appCont ha).trans (applyContinuation_closure hk hrev hsym hx hclo))
      (ih ?_ ?_ _)
    exacts [⟨rfl, hd, hg⟩, hbody]
  next x hx =>
    -- a fundamental: its result comes back at once
    obtain ⟨words, hwalk, hexec⟩ := Option.bind_eq_some.mp hrest
    split at hexec
    next res h2 hres =>
      by_cases hm : res = merror
      · rw [if_pos hm] at hexec
        cases hexec
      rw [if_neg hm] at hexec
      cases hexec
      exact Returns.last (e := m.currExp) hd hg
        ((evalStep_of_appCont ha).trans (applyContinuation_fundamental hk hrev hsym hx hwalk hres hm))
    next => cases hexec
  next => cases hrest

/-- An application comes back with what its operator does to its arguments: its operands come
back to the `FUNCTION` frame as a list, its operator to the `FUNCTION_APP` frame, and that frame
applies the operator. -/
theorem returns_app (ih : Sound P fuel) (hr : Ready m)
    (hstep : evalStep P m = some (dispatchApp m (car m.heap m.currExp)))
    (hev : appFo P (evalBig P fuel) fuel m.currEnv m.currExp m.globalEnv m.heap = some (v, env, g, h)) :
    Returns P ⟨m, c⟩ m.k v env g h := by
  obtain ⟨ha, hd, hg⟩ := hr
  obtain ⟨⟨args, env1, g1, h1⟩, hargs, hrest⟩ := Option.bind_eq_some.mp hev
  obtain ⟨⟨fn, env2, g2, h2⟩, hfn, happ⟩ := Option.bind_eq_some.mp hrest
  -- the operands come back to the `FUNCTION` frame as the argument list
  have hops : Returns P ⟨m, c⟩ (.u kFunction :: car m.heap m.currExp :: m.k) args env1 g1 h1 := by
    by_cases hnil : cdr m.heap m.currExp = nil
    · rw [if_pos hnil] at hargs
      cases hargs
      exact Returns.last (e := m.currExp) hd hg (by rw [hstep]; simp only [dispatchApp, if_pos hnil])
    · rw [if_neg hnil] at hargs
      have hfirst : evalStep P m = some { m with
          k := .u kArgList :: cdr m.heap (cdr m.heap m.currExp) :: nil :: m.currEnv :: .u kFunction ::
            car m.heap m.currExp :: m.k,
          currExp := car m.heap (cdr m.heap m.currExp) } := by
        rw [hstep]; simp only [dispatchApp, if_neg hnil]
      exact Returns.step hd hg hfirst (returns_argsFo ih fuel ⟨ha, hd, hg⟩ rfl hargs)
  refine hops.bind fun exp c' => ?_
  have hfun := (evalStep_of_appCont (P := P) (m := { m with
    k := .u kFunction :: car m.heap m.currExp :: m.k, currExp := exp, currEnv := env1, appCont := true, r := args,
    globalEnv := g1, heap := h1 }) rfl).trans (applyContinuation_function rfl)
  by_cases hfund : P.isFundamental (car m.heap m.currExp) = true
  · -- a fundamental is applied at once
    rw [if_pos hfund] at hfn hfun
    cases hfn
    exact Returns.step hd hg hfun (returns_functionApp ih rfl hd hg rfl happ)
  · -- any other operator is evaluated first, in the environment the operands left
    rw [if_neg hfund] at hfn hfun
    refine Returns.step hd hg hfun ((ih ?_ hfn _).bind fun exp' c'' => returns_functionApp ih rfl hd hg rfl happ)
    exact ⟨rfl, hd, hg⟩

end Forms

/-- Every expression `evalBig` evaluates comes back, in `run_eval`, to the stack it was dispatched
with, with the value, environment, global environment and heap `evalBig` gives: one case per form,
the sub-evaluations being the induction's. -/
theorem sound (P : Prims) : ∀ fuel, Sound P fuel
  | 0 => fun _ hev _ => nomatch hev
  | fuel + 1 => fun hr hev c => by
    rename_i m v env g h
    have ih : Sound P fuel := sound P fuel
    obtain ⟨ha, hd, hg⟩ := hr
    have hdisp : evalStep P m = dispatch P m := by simp only [evalStep, ha, Bool.false_eq_true, ite_false]
    unfold evalBig at hev
    split at hev
    next x hx =>
      -- a symbol: its binding in the local, then in the global environment
      have hsym : evalStep P m = dispatchSymbol m := by rw [hdisp]; simp only [dispatch, hx]
      obtain ⟨o, hlook, hres⟩ := Option.bind_eq_some.mp hev
      cases o with
      | some v' =>
        cases hres
        exact Returns.last (e := m.currExp) hd hg (by simp only [hsym, dispatchSymbol, hlook, Option.some_bind])
      | none =>
        obtain ⟨o', hlook', hres'⟩ := Option.bind_eq_some.mp hres
        cases o' with
        | some v' =>
          cases hres'
          exact Returns.last (e := m.currExp) hd hg
            (by simp only [hsym, dispatchSymbol, hlook, hlook', Option.some_bind, Option.map_some'])
        | none => cases hres'
    next ix hx =>
      have hcons : evalStep P m = dispatchCons P m := by rw [hdisp]; simp only [dispatch, hx]
      split at hev
      next s hhead =>
        by_cases hq : s = symreprQuote
        · -- quote
          rw [if_pos hq] at hev
          cases hev
          exact Returns.last (e := m.currExp) hd hg (by simp only [hcons, dispatchCons, hhead, if_pos hq])
        rw [if_neg hq] at hev
        by_cases hdf : s = symreprDefine
        · -- define, of a key that is a symbol other than `nil`
          rw [if_pos hdf] at hev
          dsimp only at hev
          by_cases hkey : (!(car m.heap (cdr m.heap m.currExp)).isSymbol ||
              decide (car m.heap (cdr m.heap m.currExp) = nil)) = true
          · rw [if_pos hkey] at hev
            cases hev
          rw [if_neg hkey] at hev
          obtain ⟨⟨v1, env1, g1, h1⟩, hbody, hdef⟩ := Option.bind_eq_some.mp hev
          obtain ⟨⟨t, g2, h2⟩, hdef', hres⟩ := Option.map_eq_some'.mp hdef
          cases hres
          refine returns_define ih ⟨ha, hd, hg⟩ ?_ hbody hdef'
          simp only [hcons, dispatchCons, hhead, if_neg hq, if_pos hdf, if_neg hkey]
        rw [if_neg hdf] at hev
        by_cases hp : s = symreprProgn
        · rw [if_pos hp] at hev
          dsimp only at hev
          by_cases hnil : cdr m.heap m.currExp = nil
          · -- an empty progn
            rw [if_pos hnil] at hev
            cases hev
            exact Returns.last (e := m.currExp) hd hg
              (by simp only [hcons, dispatchCons, hhead, if_neg hq, if_neg hdf, if_pos hp, if_pos hnil])
          rw [if_neg hnil] at hev
          by_cases herr : P.isErrorWord (cdr m.heap m.currExp) = true
          · rw [if_pos herr] at hev
            cases hev
          rw [if_neg herr] at hev
          -- progn
          have hstep : evalStep P m = some { m with
              k := .u kPrognRest :: cdr m.heap (cdr m.heap m.currExp) :: m.k,
              currExp := car m.heap (cdr m.heap m.currExp) } := by
            simp only [hcons, dispatchCons, hhead, if_neg hq, if_neg hdf, if_pos hp, if_neg hnil, if_neg herr]
          exact Returns.step hd hg hstep (returns_prognFo ih fuel ⟨ha, hd, hg⟩ rfl hev)
        rw [if_neg hp] at hev
        by_cases hl : s = symreprLambda
        · -- lambda: the closure comes back
          rw [if_pos hl] at hev
          obtain ⟨⟨clo, h1⟩, hlam, hres⟩ := Option.map_eq_some'.mp hev
          cases hres
          exact Returns.last (e := m.currExp) hd hg (by
            simp only [hcons, dispatchCons, hhead, if_neg hq, if_neg hdf, if_neg hp, if_pos hl,
              dispatchLambda_of_lambdaFo hlam])
        rw [if_neg hl] at hev
        by_cases hi : s = symreprIf
        · -- if
          rw [if_pos hi] at hev
          obtain ⟨⟨v1, env1, g1, h1⟩, htest, hbranch⟩ := Option.bind_eq_some.mp hev
          refine returns_if ih ⟨ha, hd, hg⟩ ?_ htest hbranch
          simp only [hcons, dispatchCons, hhead, if_neg hq, if_neg hdf, if_neg hp, if_neg hl, if_pos hi]
        rw [if_neg hi] at hev
        by_cases hlet : s = symreprLet
        · rw [if_pos hlet] at hev
          dsimp only at hev
          by_cases hb : (!(car m.heap (cdr m.heap m.currExp)).isCons) = true
          · -- a let with no binding: its body
            rw [if_pos hb] at hev
            have hstep : evalStep P m = some { m with currExp := car m.heap (cdr m.heap (cdr m.heap m.currExp)) } := by
              simp only [hcons, dispatchCons, hhead, if_neg hq, if_neg hdf, if_neg hp, if_neg hl, if_neg hi,
                if_pos hlet, dispatchLet, if_pos hb]
            refine Returns.step hd hg hstep (ih ?_ ?_ _)
            exacts [⟨ha, hd, hg⟩, hev]
          -- let: every key bound to nil, then the bindings in turn, then the body
          rw [if_neg hb] at hev
          obtain ⟨⟨newEnv, h1⟩, hpre, hbinds⟩ := Option.bind_eq_some.mp hev
          have hstep : evalStep P m = some { m with
              k := .u kBindToKeyRest :: car h1 (car h1 (car m.heap (cdr m.heap m.currExp))) :: newEnv ::
                cdr h1 (car m.heap (cdr m.heap m.currExp)) :: car m.heap (cdr m.heap (cdr m.heap m.currExp)) :: m.k,
              heap := h1, currExp := car h1 (cdr h1 (car h1 (car m.heap (cdr m.heap m.currExp)))),
              currEnv := newEnv } := by
            simp only [hcons, dispatchCons, hhead, if_neg hq, if_neg hdf, if_neg hp, if_neg hl, if_neg hi,
              if_pos hlet, dispatchLet, if_neg hb, hpre, Option.map_some']
          exact Returns.step hd hg hstep (returns_bindsFo ih fuel ⟨ha, hd, hg⟩ rfl hbinds)
        rw [if_neg hlet] at hev
        -- an application whose operator is a symbol
        refine returns_app ih ⟨ha, hd, hg⟩ ?_ hev
        simp only [hcons, dispatchCons, hhead, if_neg hq, if_neg hdf, if_neg hp, if_neg hl, if_neg hi, if_neg hlet]
      next hhead =>
        -- an application whose operator is an expression
        refine returns_app ih ⟨ha, hd, hg⟩ ?_ hev
        rw [hcons, dispatchCons]
        split
        next s hs => exact absurd hs (hhead s)
        next => rfl
    next => cases hev
    next => cases hev
    next _ hsym hcons href hstream =>
      -- a self-evaluating word
      cases hev
      refine Returns.last (e := m.currExp) hd hg ?_
      rw [hdisp, dispatch]
      split
      next x hx => exact absurd hx (hsym x)
      next ix hx => exact absurd hx (hcons ix)
      next ix hx => exact absurd hx (href ix)
      next ix hx => exact absurd hx (hstream ix)
      next => rfl

/-- **`run_eval` refines the big-step evaluator.** Whatever `evalBig` evaluates, `run_eval` started
on it with any stack beneath `DONE` finishes with the same value, environment, global environment
and heap, the stack back as it was: the continuation stack only ever holds the frames of the forms
still being evaluated. -/
theorem run_eval_refines_evalBig {P : Prims} {fuel : Nat} {program e env genv v env' g : Value}
    {k : List Value} {h h' : Heap} (hev : evalBig P fuel env e genv h = some (v, env', g, h')) :
    ∃ n s', run P n (start program e env k genv h) = some s' ∧ s'.m.done = true ∧ s'.m.r = v ∧
      s'.m.currEnv = env' ∧ s'.m.globalEnv = g ∧ s'.m.heap = h' ∧ s'.m.k = k := by
  obtain ⟨n, c, exp, hrun⟩ := sound P fuel (m := (start program e env k genv h).m) ⟨rfl, rfl, rfl⟩ hev 0
  refine ⟨n + 1, ⟨{ (start program e env k genv h).m with
    k := k, currExp := exp, currEnv := env', appCont := false, done := true, r := v, globalEnv := g,
    heap := h' }, c + 1⟩, ?_, rfl, rfl, rfl, rfl, rfl, rfl⟩
  rw [run_succ, show start program e env k genv h = ⟨(start program e env k genv h).m, 0⟩ from rfl, hrun]
  rfl

/-- Collaborators with one fundamental, `+` (the symbol 30), over integer words. -/
def plusPrims : Prims where
  isFundamental v := v = .sym 30
  fundamentalExec fn args h :=
    if fn = .sym 30 then some (.i (args.foldl (fun acc w => match w with | .i n => acc + n | _ => acc) 0), h)
    else none
  performGc _ h := h
  isErrorWord := Prims.bare.isErrorWord

/-- `(let ((f (lambda (x) (+ x 1)))) (f 2))`, `f` and `x` being the symbols 20 and 21, with
seventeen free cells. -/
def letLambdaHeap : Heap where
  size := 32
  cells i := ([(.sym symreprLet, .ptr .cons 1), (.ptr .cons 2, .ptr .cons 3), (.ptr .cons 4, nil),
    (.ptr .cons 9, nil), (.sym 20, .ptr .cons 5), (.ptr .cons 6, nil), (.sym symreprLambda, .ptr .cons 7),
    (.ptr .cons 11, .ptr .cons 8), (.ptr .cons 12, nil), (.sym 20, .ptr .cons 10), (.i 2, nil), (.sym 21, nil),
    (.sym 30, .ptr .cons 13), (.sym 21, .ptr .cons 14), (.i 1, nil)] : List (Value × Value)).getD i (nil, nil)
  free := List.range' 15 17

/-- `run_eval` on the program above ends with 3 on the stack it started with: the closure's body
ran in its own environment, where `x` is bound to 2. -/
theorem let_lambda_runs :
    ∃ n s', run plusPrims n (start nil (.ptr .cons 0) nil [] nil letLambdaHeap) = some s' ∧ s'.m.done = true ∧
      s'.m.r = .i 3 ∧ s'.m.k = [] := by
  obtain ⟨n, s', hrun, hdone, hr, -, -, -, hk⟩ : ∃ n s', run plusPrims n (start nil (.ptr .cons 0) nil [] nil
      letLambdaHeap) = some s' ∧ s'.m.done = true ∧ s'.m.r = .i 3 ∧ s'.m.currEnv = _ ∧ s'.m.globalEnv = _ ∧
      s'.m.heap = _ ∧ s'.m.k = [] :=
    run_eval_refines_evalBig
      (show evalBig plusPrims 8 nil (.ptr .cons 0) nil letLambdaHeap = some (.i 3, _, _, _) from rfl)
  exact ⟨n, s', hrun, hdone, hr, hk⟩

end LispBM.EvalCps
