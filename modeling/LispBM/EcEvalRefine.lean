import LispBM.EcEval
import Mathlib.Data.Nat.Find

namespace LispBM.EcEval

open ConsHeap

/-- What the register machine is written to compute, as a big-step evaluator of the expressions
it completes: self-evaluating ones, variables, `quote`, `lambda`, and `define` of such an
expression, evaluated in `env` against the heap and the global environment. It gives the value,
the heap and the global environment after it; `none` for every other kind, and when `fuel`
runs out on nested `define`s. -/
def evalRef (P : Prims) : Nat → Value → Value → Heap → Value → Option (Value × Heap × Value)
  | 0, _, _, _, _ => none
  | fuel + 1, exp, env, h, genv =>
    match kindOf P h exp with
    | .expSelfEvaluating => some (exp, h, genv)
    | .expVariable => some (P.envLookup h exp env, h, genv)
    | .expQuoted => some (car h (cdr h exp), h, genv)
    | .expLambda =>
      let closure := mkClosure h exp env
      some (closure.1, closure.2, genv)
    | .expDefine =>
      let key := car h (cdr h exp)
      (evalRef P fuel (car h (cdr h (cdr h exp))) env h genv).map fun r =>
        let newEnv := P.envSet r.2.1 r.2.2 key r.1
        (key, newEnv.2, newEnv.1)
    | _ => none

/-- The machine started at `m` first returns to `m`'s caller after `n` turns. -/
def Returns (P : Prims) (m : Machine) (n : Nat) : Prop :=
  Returned m.cont m.s (run P n m) ∧ ∀ j < n, ¬ Returned m.cont m.s (run P j m)

variable {P : Prims} {m : Machine}

theorem Returns.unique {a b : Nat} (ha : Returns P m a) (hb : Returns P m b) : a = b := by
  rcases Nat.lt_trichotomy a b with h | h | h
  · exact absurd ha.1 (hb.2 a h)
  · exact h
  · exact absurd hb.1 (ha.2 b h)

theorem not_returned_of_dispatch (hes : m.es = .evalDispatch) {k : Nat} {S : List Value} :
    ¬ Returned k S m := fun h => nomatch hes.symm.trans h.1

theorem step_dispatch (hes : m.es = .evalDispatch) : step P m = dispatch P m := by
  simp only [step, hes]

theorem returns_one (hes : m.es = .evalDispatch) (h : Returned m.cont m.s (step P m)) :
    Returns P m 1 :=
  ⟨h, fun j hj => by rw [Nat.lt_one_iff.mp hj]; exact not_returned_of_dispatch hes⟩

theorem simple_step (hes : m.es = .evalDispatch)
    (hk : kindOf P m.heap m.exp = .expSelfEvaluating ∨ kindOf P m.heap m.exp = .expVariable ∨
      kindOf P m.heap m.exp = .expQuoted ∨ kindOf P m.heap m.exp = .expLambda) :
    step P m = { m with es := .evalContinuation, val := (step P m).val, heap := (step P m).heap } ∧
      ∀ fuel, evalRef P (fuel + 1) m.exp m.env m.heap m.globalEnv =
        some ((step P m).val, (step P m).heap, m.globalEnv) := by
  rw [step_dispatch hes]
  rcases hk with hk | hk | hk | hk <;> simp only [dispatch, evalRef, hk] <;> exact ⟨rfl, fun _ => rfl⟩

theorem exists_returns {k : Nat} {S : List Value} (hes : m.es = .evalDispatch)
    (hlen : S.length < m.s.length) {n : Nat} (h : Returned k S (run P n m)) :
    ∃ j < n, Returns P m j := by
  have hex : ∃ j, j < n ∧ Returned m.cont m.s (run P j m) := by
    refine Classical.byContradiction fun hno => ?_
    have := (pending_run hes n fun j hj hr => hno ⟨j, hj, hr⟩).suffix.length_le
    rw [h.2.2] at this
    omega
  obtain ⟨j, hj, hr⟩ := hex
  have hex' : ∃ j, Returned m.cont m.s (run P j m) := ⟨j, hr⟩
  exact ⟨Nat.find hex', lt_of_le_of_lt (Nat.find_min' hex' hr) hj, Nat.find_spec hex',
    fun i hi => Nat.find_min hex' hi⟩

theorem returns_define (hes : m.es = .evalDispatch) (hk : kindOf P m.heap m.exp = .expDefine)
    {n : Nat} (h : Returns P (evalDefine m) n) :
    Returns P m (n + 2) ∧ run P (n + 2) m = contDefine P (run P n (evalDefine m)) := by
  have hrun : ∀ j, run P (j + 1) m = run P j (evalDefine m) := fun j => by
    rw [run_succ, step_dispatch hes, dispatch, hk]
  obtain ⟨hxes, hxcont, hxs⟩ := h.1
  have hpop : run P (n + 2) m = contDefine P (run P n (evalDefine m)) := by
    rw [hrun, run_succ', step, hxes]
    exact if_pos hxcont
  refine ⟨⟨?_, fun j hj => ?_⟩, hpop⟩
  · rw [hpop, contDefine_frame P _ hxs]
    exact ⟨rfl, rfl, rfl⟩
  · cases j with
    | zero => exact not_returned_of_dispatch hes
    | succ i =>
      have hp := (pending_run rfl i fun j hj => h.2 j (by omega)).suffix.length_le
      rw [← hrun] at hp
      rintro ⟨-, -, hs⟩
      rw [hs] at hp
      simp only [evalDefine, List.length_cons] at hp
      omega

/-- From a dispatch on an expression the evaluator evaluates, the machine first returns to its
caller with the evaluator's value, heap and global environment. -/
theorem returns_of_evalRef (P : Prims) : ∀ (fuel : Nat) (m : Machine) {v : Value} {h : Heap} {g : Value},
    m.es = .evalDispatch → evalRef P fuel m.exp m.env m.heap m.globalEnv = some (v, h, g) →
    ∃ n, Returns P m n ∧ ∃ exp unev, run P n m =
      { m with es := .evalContinuation, exp := exp, unev := unev, val := v, heap := h, globalEnv := g }
  | 0, _, _, _, _, _, hev => by cases hev
  | fuel + 1, m, v, h, g, hes, hev => by
    cases hkind : kindOf P m.heap m.exp
    case expSelfEvaluating | expVariable | expQuoted | expLambda =>
      obtain ⟨hst, hev1⟩ := simple_step (P := P) hes (by simp [hkind])
      rw [hev1] at hev
      obtain ⟨rfl, rfl, rfl⟩ : (step P m).val = v ∧ (step P m).heap = h ∧ m.globalEnv = g := by
        simpa using hev
      exact ⟨1, returns_one hes (by rw [hst]; exact ⟨rfl, rfl, rfl⟩), m.exp, m.unev, hst⟩
    case expDefine =>
      simp only [evalRef, hkind] at hev
      obtain ⟨⟨v1, h1, g1⟩, hb, hr⟩ := Option.map_eq_some'.mp hev
      obtain ⟨n1, hret, e1, u1, hrun⟩ := returns_of_evalRef P fuel (evalDefine m) rfl hb
      obtain ⟨hret2, hrun2⟩ := returns_define hes hkind hret
      simp only [Prod.mk.injEq] at hr
      obtain ⟨rfl, rfl, rfl⟩ := hr
      refine ⟨n1 + 2, hret2, e1, car m.heap (cdr m.heap m.exp), ?_⟩
      rw [hrun2, hrun, contDefine_frame P _ rfl]
      rfl
    all_goals
      simp only [evalRef, hkind] at hev
      cases hev

/-- Whenever the machine first gets back to its caller, the evaluator evaluates the expression,
to the value, heap and global environment the machine holds then. -/
theorem evalRef_of_returns (P : Prims) (n : Nat) : ∀ (m : Machine), m.es = .evalDispatch → Returns P m n →
    ∃ fuel, evalRef P fuel m.exp m.env m.heap m.globalEnv =
      some ((run P n m).val, (run P n m).heap, (run P n m).globalEnv) := by
  induction n using Nat.strong_induction_on with
  | _ n ih =>
  intro m hes hret
  cases hkind : kindOf P m.heap m.exp
  case expSelfEvaluating | expVariable | expQuoted | expLambda =>
    obtain ⟨hst, hev1⟩ := simple_step (P := P) hes (by simp [hkind])
    obtain rfl := hret.unique (returns_one hes (by rw [hst]; exact ⟨rfl, rfl, rfl⟩))
    have hg : (step P m).globalEnv = m.globalEnv := by rw [hst]
    exact ⟨1, by rw [hev1 0, ← hg]; rfl⟩
  case expKindError | expIf | expLet | expApplication =>
    have hfix : step P m = m := by simp only [step_dispatch hes, dispatch, hkind, evalApplication]
    have hr := hret.1
    rw [run_fixed hfix] at hr
    exact absurd hr (not_returned_of_dispatch hes)
  case expDefine =>
    cases n with
    | zero => exact absurd hret.1 (not_returned_of_dispatch hes)
    | succ n =>
    have hr := hret.1
    rw [run_succ, step_dispatch hes, dispatch, hkind] at hr
    obtain ⟨j, hj, hjr⟩ := exists_returns rfl (by simp only [evalDefine, List.length_cons]; omega) hr
    obtain ⟨hret2, hrun2⟩ := returns_define hes hkind hjr
    have hn : n + 1 = j + 2 := hret.unique hret2
    obtain ⟨fuel, hev⟩ : ∃ fuel, evalRef P fuel (car m.heap (cdr m.heap (cdr m.heap m.exp))) m.env m.heap
        m.globalEnv = some ((run P j (evalDefine m)).val, (run P j (evalDefine m)).heap,
          (run P j (evalDefine m)).globalEnv) := ih j (by omega) (evalDefine m) rfl hjr
    refine ⟨fuel + 1, ?_⟩
    simp only [evalRef, hkind]
    rw [hev, hn, hrun2, contDefine_frame P _ hjr.1.2.2]
    rfl
  case expNoArgs =>
    cases n with
    | zero => exact absurd hret.1 (not_returned_of_dispatch hes)
    | succ n =>
    have hr := hret.1
    rw [run_succ, step_dispatch hes, dispatch, hkind] at hr
    obtain ⟨j, hj, hjr⟩ := exists_returns rfl (by simp only [evalNoArgs, List.length_cons]; omega) hr
    obtain ⟨hxes, hxcont, -⟩ := hjr.1
    have hY : (step P (run P j (evalNoArgs m))).es = .evalApplyDispatch := by
      have hk : (evalNoArgs m).cont = kSetupNoArgApply := rfl
      rw [step, hxes, continuation, if_neg (by rw [hxcont, hk]; decide), if_pos (hxcont.trans hk)]
      rfl
    have hrunY : run P n (evalNoArgs m) = step P (run P j (evalNoArgs m)) := by
      rw [show n = (n - (j + 1)) + (j + 1) by omega, run_add, run_succ', run_fixed (step_applyDispatch hY)]
    rw [hrunY] at hr
    exact nomatch hY.symm.trans hr.1

/-- `ec_eval` refines the evaluator: from a dispatch, the machine gets back to its caller exactly
when the evaluator evaluates the expression, and the first time it does it holds the evaluator's
value, heap and global environment, with the caller's continuation, environment and stack, and
`argl` and `fun`, as they were. So it never returns from an `if`, a `let`, an application, or a
`define` of one. -/
theorem ecEval_refines_evalRef (hes : m.es = .evalDispatch) {v : Value} {h : Heap} {g : Value} :
    (∃ fuel, evalRef P fuel m.exp m.env m.heap m.globalEnv = some (v, h, g)) ↔
      ∃ n, Returns P m n ∧ ∃ exp unev, run P n m =
        { m with es := .evalContinuation, exp := exp, unev := unev, val := v, heap := h, globalEnv := g } := by
  constructor
  · rintro ⟨fuel, hev⟩
    exact returns_of_evalRef P fuel m hes hev
  · rintro ⟨n, hret, exp, unev, hrun⟩
    obtain ⟨fuel, hev⟩ := evalRef_of_returns P n m hes hret
    rw [hrun] at hev
    exact ⟨fuel, hev⟩

/-- `(define x 5)` returns the key `x` after its two turns. -/
theorem define_returns_key :
    ∃ n, Returns examplePrims (dispatchOn (.ptr .cons 0)) n ∧ ∃ exp unev,
      run examplePrims n (dispatchOn (.ptr .cons 0)) =
        { dispatchOn (.ptr .cons 0) with
            es := .evalContinuation, exp := exp, unev := unev, val := .sym 20, heap := exampleHeap,
            globalEnv := nil } :=
  (ecEval_refines_evalRef rfl).mp ⟨2, rfl⟩

/-- `ec_eval` never carries out a call: on a call with no arguments whose operator the evaluator
evaluates, the machine comes to rest in `EVAL_APPLY_DISPATCH` for good, with the operator's value
in `fun` and in `val`, `nil` in `argl`, and the call's frame, the caller's continuation, still
on the stack. -/
theorem no_args_call_stuck (hes : m.es = .evalDispatch) (hk : kindOf P m.heap m.exp = .expNoArgs)
    {fuel : Nat} {v : Value} {h : Heap} {g : Value}
    (hev : evalRef P fuel (car m.heap m.exp) m.env m.heap m.globalEnv = some (v, h, g)) :
    ∃ n exp unev, ∀ i, run P (n + i) m =
      { m with es := .evalApplyDispatch, cont := kSetupNoArgApply, exp := exp, unev := unev, val := v,
               fn := v, argl := nil, s := .u m.cont :: m.s, heap := h, globalEnv := g } := by
  obtain ⟨n, hret, exp, unev, hrun⟩ := returns_of_evalRef P fuel (evalNoArgs m) rfl hev
  have hk' : (evalNoArgs m).cont = kSetupNoArgApply := rfl
  have hstop : run P (n + 2) m =
      { m with es := .evalApplyDispatch, cont := kSetupNoArgApply, exp := exp, unev := unev, val := v,
               fn := v, argl := nil, s := .u m.cont :: m.s, heap := h, globalEnv := g } := by
    rw [run_succ, step_dispatch hes, dispatch, hk, run_succ', hrun, step, continuation,
      if_neg (by rw [hk']; decide), if_pos hk']
    rfl
  refine ⟨n + 2, exp, unev, fun i => ?_⟩
  rw [Nat.add_comm, run_add, hstop, run_fixed (step_applyDispatch rfl)]

/-- The call `(x)`, with `x` bound to `7`, rests in `EVAL_APPLY_DISPATCH` from its third turn on. -/
theorem call_x_stuck :
    ∃ n exp unev, ∀ i, run examplePrims (n + i) (dispatchOn (.ptr .cons 3)) =
      { dispatchOn (.ptr .cons 3) with
          es := .evalApplyDispatch, cont := kSetupNoArgApply, exp := exp, unev := unev, val := .i 7,
          fn := .i 7, argl := nil, s := [.u 9, .i 1], heap := exampleHeap, globalEnv := nil } :=
  no_args_call_stuck (P := examplePrims) (m := dispatchOn (.ptr .cons 3)) rfl rfl
    (show evalRef examplePrims 1 (.sym 20) nil exampleHeap nil = _ from rfl)

end LispBM.EcEval
