import LispBM.EvalCps

namespace LispBM.EcEval

open ConsHeap

/-- `exp_kind`. -/
inductive ExpKind
  | expKindError | expSelfEvaluating | expVariable | expQuoted | expDefine | expLambda | expIf
  | expNoArgs | expApplication | expLet
  deriving DecidableEq, Repr

/-- The values of the enum `continuation` that `rm_state.cont` is compared against. -/
def kDefine : Nat := 0
def kSetupNoArgApply : Nat := 1
def kEvalArgs : Nat := 2

/-- `eval_state`. -/
inductive EvalState
  | evalDispatch | evalContinuation | evalArgLoop | evalApplyDispatch
  deriving DecidableEq, Repr

/-- `rm_state` (the seven registers and the stack `S`, top first), `ec_eval_global_env`, the heap,
and the local `es` of `ec_eval`. The register `fun` is `fn` here. -/
structure Machine where
  es : EvalState
  cont : Nat
  env : Value
  unev : Value
  exp : Value
  argl : Value
  val : Value
  fn : Value
  s : List Value
  globalEnv : Value
  heap : Heap

/-- The collaborators `ec_eval.c` calls whose code is not in the repository: `is_special` of
`symrepr`, and `env_lookup` and `env_set` of the environment module it was written against. -/
structure Prims where
  /-- `is_special(exp)` on a symbol. -/
  isSpecial : Value → Bool
  /-- `env_lookup(key, env)`. -/
  envLookup : Heap → Value → Value → Value
  /-- `env_set(env, key, val)`: the environment it returns, and the heap it leaves. -/
  envSet : Heap → Value → Value → Value → Value × Heap

/-- `kind_of(exp)`. Its cons case reads `car(rm_state.exp)`, which is `exp` at its one call. -/
def kindOf (P : Prims) (h : Heap) (exp : Value) : ExpKind :=
  match exp with
  | .sym _ => if !P.isSpecial exp then .expVariable else .expSelfEvaluating
  | .ptr .boxedF _ | .ptr .boxedU _ | .ptr .boxedI _ | .i _ | .u _ | .char _ | .ptr .array _ =>
    .expSelfEvaluating
  | .ptr .cons _ =>
    match car h exp with
    | .sym id =>
      if id = symreprQuote then .expQuoted
      else if id = symreprDefine then .expDefine
      else if id = symreprProgn then .expApplication
      else if id = symreprLambda then .expLambda
      else if id = symreprIf then .expIf
      else if id = symreprLet then .expLet
      else if cdr h exp = nil then .expNoArgs
      else .expApplication
    | _ => .expKindError
  | .ptr .ref _ | .ptr .stream _ => .expKindError

section Handlers

variable (P : Prims) (m : Machine)

def evalSelfEvaluating : Machine := { m with val := m.exp, es := .evalContinuation }

def evalVariable : Machine :=
  { m with val := P.envLookup m.heap m.exp m.env, es := .evalContinuation }

def evalQuoted : Machine := { m with val := car m.heap (cdr m.heap m.exp), es := .evalContinuation }

/-- `eval_define`: `push_u32_3(&S, unev, env, cont)` leaves `cont` on top. The raw `cont` is
pushed as the word `.u cont`. -/
def evalDefine : Machine :=
  let unev := car m.heap (cdr m.heap m.exp)
  { m with unev := unev, exp := car m.heap (cdr m.heap (cdr m.heap m.exp)),
           s := .u m.cont :: m.env :: unev :: m.s, cont := kDefine, es := .evalDispatch }

/-- `cont_define`: `pop_u32_3(&S, &cont, &env, &unev)`, then `env_set` on the global environment;
the value is the key. -/
def contDefine : Machine :=
  let (cont, s1) := EvalCps.pop m.s
  let (env, s2) := EvalCps.pop s1
  let (unev, s3) := EvalCps.pop s2
  let newEnv := P.envSet m.heap m.globalEnv unev m.val
  { m with cont := EvalCps.decU cont, env := env, unev := unev, s := s3, globalEnv := newEnv.1,
           heap := newEnv.2, val := unev, es := .evalContinuation }

theorem contDefine_frame {c : Nat} {env key : Value} {rest : List Value}
    (hs : m.s = .u c :: env :: key :: rest) :
    contDefine P m =
      { m with cont := c, env := env, unev := key, s := rest,
               globalEnv := (P.envSet m.heap m.globalEnv key m.val).1,
               heap := (P.envSet m.heap m.globalEnv key m.val).2, val := key, es := .evalContinuation } := by
  simp only [contDefine, hs, EvalCps.pop, EvalCps.decU]

end Handlers

/-- `mkClosure(exp, env)`: four unchecked conses building `(closure params body env)`. Its body
reads the registers `rm_state.exp` and `rm_state.env`, which are the arguments at its one call. -/
def mkClosure (h : Heap) (exp env : Value) : Value × Heap :=
  let (envEnd, h1) := cons h env nil
  let (body, h2) := cons h1 (car h1 (cdr h1 (cdr h1 exp))) envEnd
  let (params, h3) := cons h2 (car h2 (cdr h2 exp)) body
  cons h3 (.sym symreprClosure) params

section Handlers

variable (m : Machine)

def evalLambda : Machine :=
  let closure := mkClosure m.heap m.exp m.env
  { m with val := closure.1, heap := closure.2, es := .evalContinuation }

def evalNoArgs : Machine :=
  { m with exp := car m.heap m.exp, s := .u m.cont :: m.s, cont := kSetupNoArgApply,
           es := .evalDispatch }

def contSetupNoArgApply : Machine := { m with fn := m.val, argl := nil, es := .evalApplyDispatch }

/-- `eval_application` and `cont_eval_args` are empty (`TODO` in the source). -/
def evalApplication : Machine := m

def contEvalArgs : Machine := m

end Handlers

/-- The `EVAL_DISPATCH` case: it has no case for `EXP_IF`, `EXP_LET` and `EXP_KIND_ERROR`. -/
def dispatch (P : Prims) (m : Machine) : Machine :=
  match kindOf P m.heap m.exp with
  | .expSelfEvaluating => evalSelfEvaluating m
  | .expVariable => evalVariable P m
  | .expQuoted => evalQuoted m
  | .expDefine => evalDefine m
  | .expNoArgs => evalNoArgs m
  | .expApplication => evalApplication m
  | .expLambda => evalLambda m
  | _ => m

/-- The `EVAL_CONTINUATION` case. -/
def continuation (P : Prims) (m : Machine) : Machine :=
  if m.cont = kDefine then contDefine P m
  else if m.cont = kSetupNoArgApply then contSetupNoArgApply m
  else if m.cont = kEvalArgs then contEvalArgs m
  else m

/-- One turn of the `while (1)` loop of `ec_eval`; `EVAL_ARG_LOOP` and `EVAL_APPLY_DISPATCH` do
nothing. -/
def step (P : Prims) (m : Machine) : Machine :=
  match m.es with
  | .evalDispatch => dispatch P m
  | .evalContinuation => continuation P m
  | .evalArgLoop => m
  | .evalApplyDispatch => m

/-- The machine after `n` turns of the loop, which has no exit. -/
def run (P : Prims) (n : Nat) (m : Machine) : Machine := (step P)^[n] m

theorem run_succ (P : Prims) (n : Nat) (m : Machine) : run P (n + 1) m = run P n (step P m) :=
  Function.iterate_succ_apply _ n m

theorem run_succ' (P : Prims) (n : Nat) (m : Machine) : run P (n + 1) m = step P (run P n m) :=
  Function.iterate_succ_apply' _ n m

theorem run_add (P : Prims) (a b : Nat) (m : Machine) : run P (a + b) m = run P a (run P b m) :=
  Function.iterate_add_apply _ a b m

theorem run_fixed {P : Prims} {m : Machine} (h : step P m = m) (n : Nat) : run P n m = m :=
  Function.iterate_fixed h n

theorem step_applyDispatch {P : Prims} {m : Machine} (h : m.es = .evalApplyDispatch) : step P m = m := by
  simp only [step, h]

section Frames

/-! While it evaluates an expression for a caller, the machine keeps the caller's stack below
whole frames: each `define` and each call with no arguments pushes the continuation it replaces,
and `cont_define` pops its frame back. -/

/-- The continuation register and the stack of a machine evaluating for a caller whose
continuation is `k` and whose stack is `S`. -/
inductive Chain (k : Nat) (S : List Value) : Nat → List Value → Prop
  | base : Chain k S k S
  | define {c : Nat} {env key : Value} {rest : List Value} :
      Chain k S c rest → Chain k S kDefine (.u c :: env :: key :: rest)
  | noArgs {c : Nat} {rest : List Value} :
      Chain k S c rest → Chain k S kSetupNoArgApply (.u c :: rest)

variable {k c : Nat} {S st : List Value}

theorem Chain.suffix (h : Chain k S c st) : S <:+ st := by
  induction h with
  | base => exact List.suffix_refl S
  | define _ ih => exact ih.trans (List.suffix_append [_, _, _] _)
  | noArgs _ ih => exact ih.trans (List.suffix_cons _ _)

/-- The machine is back at its caller: about to apply the caller's continuation `k` to the
caller's stack `S`. -/
def Returned (k : Nat) (S : List Value) (m : Machine) : Prop :=
  m.es = .evalContinuation ∧ m.cont = k ∧ m.s = S

instance (k : Nat) (S : List Value) (m : Machine) : Decidable (Returned k S m) :=
  inferInstanceAs (Decidable (_ ∧ _ ∧ _))

/-- The states of an evaluation for the caller `(k, S)` before it returns: dispatching, or
applying a continuation, over whole frames; or stuck in `EVAL_APPLY_DISPATCH` above the frame of
a call with no arguments, which `cont_setup_no_arg_apply` does not pop. -/
def Pending (k : Nat) (S : List Value) (m : Machine) : Prop :=
  (m.es = .evalDispatch ∨ m.es = .evalContinuation) ∧ Chain k S m.cont m.s ∨
    m.es = .evalApplyDispatch ∧ ∃ c rest, m.s = .u c :: rest ∧ Chain k S c rest

theorem Pending.suffix {m : Machine} (h : Pending k S m) : S <:+ m.s := by
  rcases h with ⟨-, hc⟩ | ⟨-, c, rest, hs, hc⟩
  · exact hc.suffix
  · rw [hs]
    exact hc.suffix.trans (List.suffix_cons _ _)

variable {P : Prims} {m : Machine}

theorem pending_dispatch (hes : m.es = .evalDispatch) (hc : Chain k S m.cont m.s) :
    Pending k S (step P m) := by
  simp only [step, hes, dispatch]
  split
  all_goals first
    | exact .inl ⟨.inr rfl, hc⟩
    | exact .inl ⟨.inl rfl, .define hc⟩
    | exact .inl ⟨.inl rfl, .noArgs hc⟩
    | exact .inl ⟨.inl hes, hc⟩

theorem pending_continuation (hes : m.es = .evalContinuation) (hc : Chain k S m.cont m.s)
    (hret : ¬ Returned k S m) : Pending k S (step P m) := by
  obtain ⟨es, cont, env, unev, exp, argl, val, fn, s, genv, heap⟩ := m
  dsimp only at hes hc
  subst hes
  simp only [step, continuation]
  cases hc with
  | base => exact absurd ⟨rfl, rfl, rfl⟩ hret
  | @define c env key rest hc =>
    rw [if_pos rfl]
    exact .inl ⟨.inr rfl, hc⟩
  | @noArgs c rest hc =>
    rw [if_neg (by decide), if_pos rfl]
    exact .inr ⟨rfl, c, rest, rfl, hc⟩

theorem Pending.step (h : Pending k S m) (hret : ¬ Returned k S m) : Pending k S (step P m) := by
  rcases h with ⟨hes | hes, hc⟩ | ⟨hes, hs⟩
  · exact pending_dispatch hes hc
  · exact pending_continuation hes hc hret
  · simpa only [EcEval.step, hes] using Or.inr ⟨hes, hs⟩

/-- The stack discipline of `ec_eval`: from a dispatch for the caller `(k, S)`, every state
before the machine first returns to it has the caller's stack below whole frames. -/
theorem pending_run (hes : m.es = .evalDispatch) :
    ∀ n, (∀ j < n, ¬ Returned m.cont m.s (run P j m)) → Pending m.cont m.s (run P n m)
  | 0, _ => .inl ⟨.inl hes, .base⟩
  | n + 1, hret => by
    rw [run_succ']
    exact (pending_run hes n fun j hj => hret j (by omega)).step (hret n (by omega))

/-- The stack discipline of `ec_eval`, for every expression, those it never finishes included:
until the machine first gets back to its caller, the caller's stack lies untouched below its
own. -/
theorem caller_stack_suffix (hes : m.es = .evalDispatch) (n : Nat)
    (hn : ∀ j < n, ¬ Returned m.cont m.s (run P j m)) : m.s <:+ (run P n m).s :=
  (pending_run hes n hn).suffix

end Frames

/-- Collaborators for the examples: no symbol is special, every variable is bound to `7`, and
`env_set` leaves the environment as it is. -/
def examplePrims : Prims := ⟨fun _ => false, fun _ _ _ => .i 7, fun h env _ _ => (env, h)⟩

/-- `(define x 5)` from cell 0 and the call `(x)` from cell 3, `x` being the symbol `20`. -/
def exampleHeap : Heap :=
  .ofCells [(.sym symreprDefine, .ptr .cons 1), (.sym 20, .ptr .cons 2), (.i 5, nil), (.sym 20, nil)]

/-- A machine about to dispatch on `exp` for a caller with continuation `9` and one word on its
stack. -/
def dispatchOn (exp : Value) : Machine :=
  ⟨.evalDispatch, 9, nil, nil, exp, nil, nil, nil, [.i 1], nil, exampleHeap⟩

/-- The call `(x)` never returns, and three turns in, its caller's word is still on the stack. -/
theorem call_keeps_caller_stack :
    [.i 1] <:+ (run examplePrims 3 (dispatchOn (.ptr .cons 3))).s :=
  caller_stack_suffix (P := examplePrims) (m := dispatchOn (.ptr .cons 3)) rfl 3 (by decide)

end LispBM.EcEval
