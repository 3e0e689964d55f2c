import LispBM.EvalCps

namespace LispBM.Frames

open ConsHeap EvalCps

/-- A continuation frame as `run_eval` and `apply_continuation` lay it out: its kind and the
operand words pushed beneath the kind's tag. `BIND_TO_KEY_REST` keeps the `let` body
beneath the three words each binding step rewrites. -/
inductive Frame
  | setGlobalEnv (key : Value)
  | prognRest (rest : Value)
  | function (fn : Value)
  | functionApp (args : Value)
  | ifK (thenBranch elseBranch : Value)
  | argList (rest acc env : Value)
  | bindToKeyRest (key env rest body : Value)

/-- The words of a frame on the stack, top first: the tag, then the operands in the order the
`pop_u32_n` calls read them. -/
def Frame.words : Frame → List Value
  | .setGlobalEnv key => [.u kSetGlobalEnv, key]
  | .prognRest rest => [.u kPrognRest, rest]
  | .function fn => [.u kFunction, fn]
  | .functionApp args => [.u kFunctionApp, args]
  | .ifK t e => [.u kIf, t, e]
  | .argList rest acc env => [.u kArgList, rest, acc, env]
  | .bindToKeyRest key env rest body => [.u kBindToKeyRest, key, env, rest, body]

def encode (fs : List Frame) : List Value := fs.flatMap Frame.words

@[simp] theorem encode_nil : encode [] = [] := rfl

@[simp] theorem encode_cons (f : Frame) (fs : List Frame) :
    encode (f :: fs) = f.words ++ encode fs := rfl

theorem encode_append (fs gs : List Frame) : encode (fs ++ gs) = encode fs ++ encode gs := by
  simp [encode]

/-- What a dispatch of the expression `e` in the environment `env` pushes: each frame's operands are
the words of `e` that play its roles, and the expression dispatched next is the one the frame
waits on. -/
inductive Pushes (h : Heap) (e env : Value) (m' : Machine) : List Frame → Prop
  | none : Pushes h e env m' []
  | define : m'.currExp = car h (cdr h (cdr h e)) → Pushes h e env m' [.setGlobalEnv (car h (cdr h e))]
  | progn : m'.currExp = car h (cdr h e) → Pushes h e env m' [.prognRest (cdr h (cdr h e))]
  | ifK : m'.currExp = car h (cdr h e) →
      Pushes h e env m' [.ifK (car h (cdr h (cdr h e))) (car h (cdr h (cdr h (cdr h e))))]
  | letK : m'.currExp = car m'.heap (cdr m'.heap (car m'.heap (car h (cdr h e)))) →
      Pushes h e env m' [.bindToKeyRest (car m'.heap (car m'.heap (car h (cdr h e)))) m'.currEnv
        (cdr m'.heap (car h (cdr h e))) (car h (cdr h (cdr h e)))]
  | function : m'.r = nil → Pushes h e env m' [.function (car h e)]
  | argList : m'.currExp = car h (cdr h e) →
      Pushes h e env m' [.argList (cdr h (cdr h e)) nil env, .function (car h e)]

/-- What a continuation does with the frame it pops, on the value `r` in the heap `h`: the operands
it reads play the roles they were pushed for, and a step that asks for a collection pushes the
same frame back. -/
inductive Pops (r : Value) (h : Heap) : Frame → Machine → List Frame → Prop
  | retry {f : Frame} {m' : Machine} : m'.performGc = true → Pops r h f m' [f]
  | setGlobalEnv {key : Value} {m' : Machine} : Pops r h (.setGlobalEnv key) m' []
  | prognLast {m' : Machine} : m'.r = r → Pops r h (.prognRest nil) m' []
  | prognNext {rest : Value} {m' : Machine} : rest ≠ nil → m'.currExp = car h rest →
      Pops r h (.prognRest rest) m' [.prognRest (cdr h rest)]
  | function {fn : Value} {m' : Machine} : m'.r = fn ∨ m'.currExp = fn →
      Pops r h (.function fn) m' [.functionApp r]
  | functionApp {args : Value} {m' : Machine} : Pops r h (.functionApp args) m' []
  | ifK {t e : Value} {m' : Machine} : m'.currExp = (if r = .sym symreprTrue then t else e) →
      Pops r h (.ifK t e) m' []
  | argListLast {acc env : Value} {m' : Machine} : cons h r acc = (m'.r, m'.heap) →
      Pops r h (.argList nil acc env) m' []
  | argListNext {rest acc env a : Value} {m' : Machine} : rest ≠ nil → cons h r acc = (a, m'.heap) →
      m'.currEnv = env → m'.currExp = car m'.heap rest →
      Pops r h (.argList rest acc env) m' [.argList (cdr m'.heap rest) a env]
  | bindNext {key env rest body : Value} {m' : Machine} : rest.isCons = true →
      envModifyBinding h env key r = some m'.heap → m'.currEnv = env →
      m'.currExp = car m'.heap (cdr m'.heap (car m'.heap rest)) →
      Pops r h (.bindToKeyRest key env rest body) m'
        [.bindToKeyRest (car m'.heap (car m'.heap rest)) env (cdr m'.heap rest) body]
  | bindLast {key env rest body : Value} {m' : Machine} : rest.isCons = false →
      envModifyBinding h env key r = some m'.heap → m'.currEnv = env → m'.currExp = body →
      Pops r h (.bindToKeyRest key env rest body) m' []

/-- A step's move on the frames `fs` above the context's stack: a dispatch pushes what `Pushes`
says over them, an application of a continuation pops the top frame and does with it what `Pops`
says. -/
def FrameMove (m : Machine) (fs : List Frame) (m' : Machine) (fs' : List Frame) : Prop :=
  (m.appCont = false ∧ ∃ pushed, fs' = pushed ++ fs ∧ Pushes m.heap m.currExp m.currEnv m' pushed) ∨
  (m.appCont = true ∧ ∃ f rest pushed, fs = f :: rest ∧ fs' = pushed ++ rest ∧ Pops m.r m.heap f m' pushed)

/-- A step to `m'` ends the run, or leaves above `base` whole frames that `Q` accepts. -/
def FramesOn (base : List Value) (m' : Machine) (Q : List Frame → Prop) : Prop :=
  m'.done = true ∨ ∃ fs, m'.k = encode fs ++ base ∧ Q fs

variable {base : List Value} {Q : List Frame → Prop}

theorem framesOn_keep {m' : Machine} (h : m'.k = base) (hq : Q []) : FramesOn base m' Q :=
  .inr ⟨[], h, hq⟩

theorem framesOn_push {m' : Machine} (fs : List Frame) (h : m'.k = encode fs ++ base) (hq : Q fs) :
    FramesOn base m' Q :=
  .inr ⟨fs, h, hq⟩

theorem framesOn_done {m' : Machine} (h : m'.done = true) : FramesOn base m' Q :=
  .inl h

theorem FramesOn.above {m' : Machine} (fs : List Frame) (h : FramesOn (encode fs ++ base) m' Q) :
    FramesOn base m' fun fs' => ∃ gs, fs' = gs ++ fs ∧ Q gs := by
  obtain h | ⟨gs, hg, hq⟩ := h
  · exact framesOn_done h
  · exact framesOn_push (gs ++ fs) (by rw [hg, encode_append, List.append_assoc]) ⟨gs, rfl, hq⟩

theorem FramesOn.mono {m' : Machine} {Q' : List Frame → Prop} (h : FramesOn base m' Q)
    (hq : ∀ fs, Q fs → Q' fs) : FramesOn base m' Q' :=
  h.imp id fun ⟨fs, hk, hQ⟩ => ⟨fs, hk, hq fs hQ⟩

variable {P : Prims} {m m' : Machine}

theorem dispatchSymbol_k (h : dispatchSymbol m = some m') : m'.k = m.k := by
  simp only [dispatchSymbol, Option.bind_eq_some] at h
  obtain ⟨_ | v, -, h⟩ := h
  · simp only [Option.map_eq_some'] at h
    obtain ⟨_ | v, -, rfl⟩ := h <;> rfl
  · cases h; rfl

theorem dispatchLambda_k (h : dispatchLambda m = some m') : m'.k = m.k := by
  simp only [dispatchLambda, Option.map_eq_some'] at h
  obtain ⟨⟨_ | c, h1⟩, -, rfl⟩ := h
  · rfl
  · simp only; split <;> rfl

theorem dispatchLet_frames (h : dispatchLet m = some m') :
    FramesOn m.k m' (Pushes m.heap m.currExp m.currEnv m') := by
  dsimp only [dispatchLet] at h
  split at h
  · cases h; exact framesOn_keep rfl .none
  · simp only [Option.map_eq_some'] at h
    obtain ⟨⟨e, h1⟩, -, rfl⟩ := h
    exact framesOn_push [.bindToKeyRest _ _ _ _] rfl (.letK rfl)

theorem dispatchApp_frames :
    FramesOn m.k (dispatchApp m (car m.heap m.currExp)) (Pushes m.heap m.currExp m.currEnv (dispatchApp m (car m.heap m.currExp))) := by
  dsimp only [dispatchApp]
  split
  · exact framesOn_push [.function _] rfl (.function rfl)
  · exact framesOn_push [.argList _ _ _, .function _] rfl (.argList rfl)

theorem dispatchCons_frames (h : dispatchCons P m = some m') :
    FramesOn m.k m' (Pushes m.heap m.currExp m.currEnv m') := by
  rcases dispatchCons_cases h with ⟨_, -, rfl⟩ | ⟨_, -, rfl⟩ | rfl | rfl | rfl | h | h | rfl
  · exact framesOn_keep rfl .none
  · exact framesOn_done rfl
  · exact framesOn_push [.setGlobalEnv _] rfl (.define rfl)
  · exact framesOn_push [.prognRest _] rfl (.progn rfl)
  · exact framesOn_push [.ifK _ _] rfl (.ifK rfl)
  · exact framesOn_keep (dispatchLambda_k h) .none
  · exact dispatchLet_frames h
  · exact dispatchApp_frames

/-- A dispatch pushes the frames of the form it dispatches, or ends the run. -/
theorem dispatch_frames (h : dispatch P m = some m') :
    FramesOn m.k m' (Pushes m.heap m.currExp m.currEnv m') := by
  unfold dispatch at h
  split at h
  · exact framesOn_keep (dispatchSymbol_k h) .none
  · exact dispatchCons_frames h
  · cases h; exact framesOn_done rfl
  · cases h; exact framesOn_done rfl
  · cases h; exact framesOn_keep rfl .none

section Apply

variable {rest : List Value} {r : Value} {hp : Heap}

theorem contSetGlobalEnv_frames {key : Value} {m₁ : Machine} (hk : m.k = key :: rest)
    (h : contSetGlobalEnv m = some m₁) :
    FramesOn rest { m₁ with appCont := true } (Pops r hp (.setGlobalEnv key) { m₁ with appCont := true }) := by
  simp only [contSetGlobalEnv, hk, pop, Option.map_eq_some'] at h
  obtain ⟨_ | b, -, rfl⟩ := h
  · dsimp only
    split
    · split
      · exact framesOn_keep rfl .setGlobalEnv
      · exact framesOn_push [.setGlobalEnv key] rfl (.retry rfl)
    · exact framesOn_push [.setGlobalEnv key] rfl (.retry rfl)
  · exact framesOn_keep rfl .setGlobalEnv

theorem applyPrognRest_frames {r0 : Value} (hk : m.k = r0 :: rest) :
    FramesOn rest (applyPrognRest P m) (Pops m.r m.heap (.prognRest r0) (applyPrognRest P m)) := by
  simp only [applyPrognRest, hk, pop]
  split_ifs with hnil
  · subst hnil
    exact framesOn_keep rfl (.prognLast rfl)
  · exact framesOn_done rfl
  · exact framesOn_push [.prognRest _] rfl (.prognNext hnil rfl)

theorem applyClosure_frames {args argsRev : Value} (h : applyClosure m rest args argsRev = some m') :
    FramesOn rest m' (Pops r hp (.functionApp args) m') := by
  simp only [applyClosure] at h
  split at h
  · split_ifs at h
    · cases h; exact framesOn_done rfl
    · simp only [Option.map_eq_some'] at h
      obtain ⟨⟨_ | env, h1⟩, -, rfl⟩ := h
      · exact framesOn_push [.functionApp args] rfl (.retry rfl)
      · exact framesOn_keep rfl .functionApp
  · cases h

theorem applyFundamental_frames {args : Value} (h : applyFundamental P m rest args = some m') :
    FramesOn rest m' (Pops r hp (.functionApp args) m') := by
  simp only [applyFundamental, Option.map_eq_some'] at h
  obtain ⟨words, -, rfl⟩ := h
  split
  · exact framesOn_done rfl
  · split_ifs
    · exact framesOn_push [.functionApp args] rfl (.retry rfl)
    · exact framesOn_keep rfl .functionApp

theorem applyFunctionApp_frames {args : Value} (hk : m.k = args :: rest)
    (h : applyFunctionApp P m = some m') : FramesOn rest m' (Pops r hp (.functionApp args) m') := by
  simp only [applyFunctionApp, hk, pop, Option.bind_eq_some] at h
  obtain ⟨⟨argsRev, h1⟩, -, h⟩ := h
  split_ifs at h
  · cases h; exact framesOn_push [.functionApp args] rfl (.retry rfl)
  · split at h
    · exact applyClosure_frames h
    · exact applyFundamental_frames h
    · cases h; exact framesOn_done rfl

theorem applyArgList_frames {r0 acc env : Value} (hk : m.k = r0 :: acc :: env :: rest) :
    FramesOn rest (applyArgList m) (Pops m.r m.heap (.argList r0 acc env) (applyArgList m)) := by
  simp only [applyArgList, hk, pop]
  split
  · rename_i a h1 hcons
    split_ifs with hnil
    · subst hnil
      exact framesOn_keep rfl (.argListLast hcons)
    · exact framesOn_push [.argList _ _ _] rfl (.argListNext hnil hcons rfl rfl)
  · exact framesOn_push [.argList r0 acc env] rfl (.retry rfl)

theorem applyFunction_frames {fn : Value} (hk : m.k = fn :: rest) :
    FramesOn rest (applyFunction P m) (Pops m.r m.heap (.function fn) (applyFunction P m)) := by
  simp only [applyFunction, hk, pop]
  split_ifs
  · exact framesOn_push [.functionApp _] rfl (.function (.inl rfl))
  · exact framesOn_push [.functionApp _] rfl (.function (.inr rfl))

theorem applyBindToKeyRest_frames {key env r0 body : Value} (h : applyBindToKeyRest m = some m')
    (hk : m.k = key :: env :: r0 :: body :: rest) :
    FramesOn rest m' (Pops m.r m.heap (.bindToKeyRest key env r0 body) m') := by
  simp only [applyBindToKeyRest, hk, pop, Option.map_eq_some'] at h
  obtain ⟨h1, hmod, rfl⟩ := h
  split_ifs with hc
  · exact framesOn_push [.bindToKeyRest _ _ _ body] rfl (.bindNext hc hmod rfl rfl)
  · exact framesOn_keep rfl (.bindLast (by simpa using hc) hmod rfl rfl)

theorem applyIf_frames {t e : Value} (hk : m.k = t :: e :: rest) :
    FramesOn rest (applyIf m) (Pops m.r m.heap (.ifK t e) (applyIf m)) := by
  simp only [applyIf, hk, pop]
  exact framesOn_keep rfl (.ifK rfl)

/-- `apply_continuation` on a frame pops exactly that frame's words, uses its operands in the roles
they were pushed for, and pushes whole frames. -/
theorem applyContinuation_frames (f : Frame) (hk : m.k = f.words ++ rest)
    (h : applyContinuation P m = some m') : FramesOn rest m' (Pops m.r m.heap f m') := by
  cases f <;> simp only [applyContinuation, hk, Frame.words, pop, List.cons_append,
    List.nil_append, decU] at h
  case setGlobalEnv key =>
    simp only [kSetGlobalEnv, Option.map_eq_some'] at h
    obtain ⟨m₁, h₁, rfl⟩ := h
    exact contSetGlobalEnv_frames rfl h₁
  case prognRest => cases h; exact applyPrognRest_frames rfl
  case function => cases h; exact applyFunction_frames rfl
  case functionApp => exact applyFunctionApp_frames rfl h
  case ifK => cases h; exact applyIf_frames rfl
  case argList => cases h; exact applyArgList_frames rfl
  case bindToKeyRest =>
    simp only [kBindToKeyRest] at h
    exact (applyBindToKeyRest_frames h rfl :)

end Apply

variable {k0 : List Value}

/-- From whole frames `fs` over `DONE`, a step ends the run or makes a `FrameMove`. -/
theorem evalStep_frames {fs : List Frame} (h : evalStep P m = some m')
    (hk : m.k = encode fs ++ .u kDone :: k0) : FramesOn (.u kDone :: k0) m' (FrameMove m fs m') := by
  unfold evalStep at h
  split at h
  · rename_i ha
    cases fs with
    | nil =>
      simp only [applyContinuation, hk, encode_nil, List.nil_append, pop, decU, kDone] at h
      cases h; exact framesOn_done rfl
    | cons f fs =>
      exact ((applyContinuation_frames f (by simp [hk]) h).above fs).mono
        fun fs' ⟨gs, hfs, hq⟩ => .inr ⟨ha, f, fs, gs, rfl, hfs, hq⟩
  · rename_i ha
    exact ((hk ▸ dispatch_frames h : FramesOn (encode fs ++ .u kDone :: k0) m' _).above fs).mono
      fun fs' ⟨gs, hfs, hq⟩ => .inl ⟨by simpa using ha, gs, hfs, hq⟩

theorem next_frames {s s' : Loop} (hw : FramesOn (.u kDone :: k0) s.m fun _ => True)
    (h : next P s = some s') : FramesOn (.u kDone :: k0) s'.m fun _ => True := by
  unfold next at h
  split at h
  · cases h; exact hw
  · obtain hd | ⟨fs, hk, -⟩ := hw
    · simp_all
    dsimp only [iter] at h
    split_ifs at h
    · cases h; exact framesOn_done rfl
    all_goals
      simp only [Option.map_eq_some'] at h
      obtain ⟨m', hm', rfl⟩ := h
      exact (evalStep_frames hm' hk).mono fun _ _ => trivial

/-- At the start of every iteration of `run_eval`'s loop, over every expression and every run,
retries after a requested collection included, the words the run has added to the context's
stack `k0` are `DONE` at the bottom and whole frames above it; and the step the iteration takes,
on the machine or on its collected copy, ends the run or moves these frames as `FrameMove` says:
a dispatch pushes the frame of its form with the form's words in their roles, a continuation
pops the top frame and uses its operands in the order they were pushed, and a step that asks for
a collection pushes the same frame back. -/
theorem run_eval_stack_frames (P : Prims) (program exp env globalEnv : Value) (k0 : List Value)
    (h : Heap) {n : Nat} {s : Loop} (hrun : run P n (start program exp env k0 globalEnv h) = some s)
    (hd : s.m.done = false) :
    ∃ fs, s.m.k = encode fs ++ .u kDone :: k0 ∧
      ∀ m m' : Machine, m.k = s.m.k → evalStep P m = some m' →
        m'.done = true ∨ ∃ fs', m'.k = encode fs' ++ .u kDone :: k0 ∧ FrameMove m fs m' fs' := by
  have hinv : FramesOn (.u kDone :: k0) s.m fun _ => True :=
    run_invariant (fun _ _ hw hs => next_frames hw hs) (framesOn_keep rfl trivial) hrun
  obtain hd' | ⟨fs, hk, -⟩ := hinv
  · simp_all
  · exact ⟨fs, hk, fun m m' hm hstep => evalStep_frames hstep (hm.trans hk)⟩

/-- `(if 1 2 3)`. -/
def ifHeap : Heap :=
  .ofCells [(.sym symreprIf, .ptr .cons 1), (.i 1, .ptr .cons 2), (.i 2, .ptr .cons 3), (.i 3, nil)]

/-- The state after the first iteration on `(if 1 2 3)`: the `IF` frame is pushed. -/
def ifPushed : Loop :=
  ⟨{ program := nil, currExp := .i 1, currEnv := nil, k := [.u kIf, .i 2, .i 3, .u kDone],
     r := nil, done := false, performGc := false, appCont := false, globalEnv := nil,
     heap := ifHeap }, 1⟩

theorem if_stack_frames :
    run Prims.bare 1 (start nil (.ptr .cons 0) nil [] nil ifHeap) = some ifPushed ∧
      ∃ fs, ifPushed.m.k = encode fs ++ [.u kDone] ∧
        ∀ m m' : Machine, m.k = ifPushed.m.k → evalStep Prims.bare m = some m' →
          m'.done = true ∨ ∃ fs', m'.k = encode fs' ++ [.u kDone] ∧ FrameMove m fs m' fs' :=
  ⟨rfl, run_eval_stack_frames Prims.bare nil (.ptr .cons 0) nil nil [] ifHeap (n := 1) rfl rfl⟩

/-- Dispatching `(progn e)` dispatches its last expression `e` at once, but with a
`PROGN_REST` frame over `nil` pushed on the stack the form was dispatched with. -/
theorem progn_last_expression_pushes (P : Prims) (s : Loop) {c d : Nat} {e : Value}
    (hexp : s.m.currExp = .ptr .cons c) (hhead : s.m.heap.cells c = (.sym symreprProgn, .ptr .cons d))
    (hlast : s.m.heap.cells d = (e, nil)) (herr : P.isErrorWord (.ptr .cons d) = false)
    (hgc : s.m.performGc = false) (hphase : s.m.appCont = false) :
    (iter P s).map (fun s' => (s'.m.currExp, s'.m.appCont, s'.m.k)) =
      some (e, false, .u kPrognRest :: nil :: s.m.k) := by
  simp only [iter, hgc, evalStep, hphase, dispatch, hexp, dispatchCons, car, cdr, hhead, hlast]
  simp [symreprProgn, symreprQuote, symreprDefine, nil, herr]

/-- `(progn 1)`. -/
def prognHeap : Heap := .ofCells [(.sym symreprProgn, .ptr .cons 1), (.i 1, nil)]

/-- `run_eval` dispatches `(progn 1)` with the stack `[DONE]`; the next dispatch is of `1`, the
form's tail expression, with two more words on the stack. -/
theorem progn_tail_grows_stack :
    (run Prims.bare 1 (start nil (.ptr .cons 0) nil [] nil prognHeap)).map
        (fun s => (s.m.currExp, s.m.appCont, s.m.k)) =
      some (.i 1, false, [.u kPrognRest, nil, .u kDone]) :=
  progn_last_expression_pushes Prims.bare (start nil (.ptr .cons 0) nil [] nil prognHeap) rfl rfl
    rfl rfl rfl rfl

end LispBM.Frames
