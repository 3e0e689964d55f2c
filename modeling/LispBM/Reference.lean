import LispBM.EvalCps

namespace LispBM.Reference

open ConsHeap EvalCps

/-- Lisp data as the reader hands it to the evaluator: atoms and proper lists, `()` being the
symbol `nil`. -/
inductive SExpr
  | atom (v : Value)
  | list (xs : List SExpr)

/-- Values of the reference semantics: data, and closures over a lexical environment that maps
symbols to locations of the store. -/
inductive RVal
  | datum (d : SExpr)
  | closure (params : List Nat) (body : SExpr) (env : List (Nat × Nat))

abbrev Env := List (Nat × Nat)
abbrev Store := List RVal
abbrev Globals := List (Nat × RVal)
abbrev Eval := Env → Store → Globals → SExpr → Option (RVal × Store × Globals)

def RVal.nil : RVal := .datum (.atom ConsHeap.nil)
def RVal.t : RVal := .datum (.atom (.sym symreprTrue))

/-- Whether a value is the symbol `t`. -/
def RVal.isT : RVal → Bool
  | .datum (.atom (.sym x)) => x = symreprTrue
  | _ => false

def SExpr.sym? : SExpr → Option Nat
  | .atom (.sym s) => some s
  | _ => none

/-- The parameter list of a `lambda`, as symbols. -/
def params? : SExpr → Option (List Nat)
  | .list ps => ps.mapM SExpr.sym?
  | .atom v => if v = ConsHeap.nil then some [] else none

/-- A symbol's value: its local location's content, else its global binding. -/
def lookup (x : Nat) (ρ : Env) (σ : Store) (G : Globals) : Option RVal :=
  match ρ.lookup x with
  | some l => σ.get? l
  | none => G.lookup x

/-- `define` replaces the binding of `k`, or adds one in front. -/
def defineGlobal (G : Globals) (k : Nat) (v : RVal) : Globals :=
  if G.any (·.1 = k) then G.map fun b => if b.1 = k then (k, v) else b else (k, v) :: G

/-- Bind each symbol, in order, to a fresh location holding its value, in front of `ρ`. -/
def bindAll (ρ : Env) (σ : Store) : List (Nat × RVal) → Env × Store
  | [] => (ρ, σ)
  | (x, v) :: ps => bindAll ((x, σ.length) :: ρ) (σ ++ [v]) ps

/-- Evaluate expressions left to right, threading store and globals. -/
def evalSeq (ev : Eval) (ρ : Env) : Store → Globals → List SExpr →
    Option (List RVal × Store × Globals)
  | σ, G, [] => some ([], σ, G)
  | σ, G, e :: es => (ev ρ σ G e).bind fun (v, σ, G) =>
    (evalSeq ev ρ σ G es).map fun (vs, σ, G) => (v :: vs, σ, G)

/-- The `let` bindings, left to right, each stored where its key is bound in `ρ'`. -/
def letBinds (ev : Eval) (ρ' : Env) : Store → Globals → List (Nat × SExpr) →
    Option (Store × Globals)
  | σ, G, [] => some (σ, G)
  | σ, G, (k, e) :: kvs => (ev ρ' σ G e).bind fun (v, σ, G) =>
    letBinds ev ρ' (σ.set ((ρ'.lookup k).getD 0) v) G kvs

def letPair : SExpr → Option (Nat × SExpr)
  | .list [k, v] => k.sym?.map (·, v)
  | _ => none

/-- An application: operands left to right, then the operator, then the closure's body in its
captured environment extended with the parameters bound pairwise to the operands. -/
def refApp (ev : Eval) (ρ : Env) (σ : Store) (G : Globals) (hd : SExpr) (args : List SExpr) :
    Option (RVal × Store × Globals) :=
  (evalSeq ev ρ σ G args).bind fun (vs, σ, G) => (ev ρ σ G hd).bind fun
    | (.closure ps body cρ, σ, G) =>
      if ps.length = vs.length then
        let (ρ', σ') := bindAll cρ σ (ps.zip vs)
        ev ρ' σ' G body
      else none
    | _ => none

/-- A form headed by `hd`: special by its head symbol, else an application. -/
def refForm (ev : Eval) (ρ : Env) (σ : Store) (G : Globals) (hd : SExpr) (args : List SExpr) :
    Option (RVal × Store × Globals) :=
  if hd.sym? = some symreprProgn then
    (evalSeq ev ρ σ G args).map fun (vs, σ, G) => (vs.getLastD RVal.nil, σ, G)
  else match hd.sym?, args with
  | some s, [d] =>
    if s = symreprQuote then some (.datum d, σ, G) else refApp ev ρ σ G hd args
  | some s, [k, v] =>
    if s = symreprDefine then
      k.sym?.bind fun key => (ev ρ σ G v).map fun (v, σ, G) => (RVal.t, σ, defineGlobal G key v)
    else if s = symreprLambda then (params? k).map fun ps => (.closure ps v ρ, σ, G)
    else if s = symreprLet then
      match k with
      | .list bs => (bs.mapM letPair).bind fun kvs =>
        let (ρ', σ') := bindAll ρ σ (kvs.map fun kv => (kv.1, RVal.nil))
        (letBinds ev ρ' σ' G kvs).bind fun (σ, G) => ev ρ' σ G v
      | _ => none
    else refApp ev ρ σ G hd args
  | some s, [c, t, f] =>
    if s = symreprIf then
      (ev ρ σ G c).bind fun (b, σ, G) => if b.isT then ev ρ σ G t else ev ρ σ G f
    else refApp ev ρ σ G hd args
  | _, _ => refApp ev ρ σ G hd args

/-- Modelled from the spec: a lexically scoped environment-passing
big-step evaluator, `fuel` bounding the depth of evaluation. -/
def refEval : Nat → Eval
  | 0, _, _, _, _ => none
  | n + 1, ρ, σ, G, e =>
    match e with
    | .atom (.sym x) => (lookup x ρ σ G).map (·, σ, G)
    | .atom v => some (.datum (.atom v), σ, G)
    | .list [] => (lookup symreprNil ρ σ G).map (·, σ, G)
    | .list (hd :: args) => refForm (refEval n) ρ σ G hd args

mutual
/-- The heap cells of a datum, allocated with `cons` as the reader does. -/
def SExpr.encode (h : Heap) : SExpr → Value × Heap
  | .atom v => (v, h)
  | .list xs => encodeList h xs

def encodeList (h : Heap) : List SExpr → Value × Heap
  | [] => (ConsHeap.nil, h)
  | x :: xs =>
    let (tl, h1) := encodeList h xs
    let (hd, h2) := x.encode h1
    cons h2 hd tl
end

/-- `run_eval` on a datum read into a heap of 64 free cells, with empty local and global
environments and an empty stack. -/
def startOn (e : SExpr) : Loop :=
  let (v, h) := e.encode (Heap.empty 64)
  start ConsHeap.nil v ConsHeap.nil [] ConsHeap.nil h

/-- `((lambda (g x) (if (g) x x)) (lambda () 1) 5)`, `g` and `x` being the symbols 20 and 21:
the test of the `if` calls a closure captured where `x` is not bound. -/
def closureInIfTest : SExpr :=
  .list [.list [.atom (.sym symreprLambda), .list [.atom (.sym 20), .atom (.sym 21)],
                .list [.atom (.sym symreprIf), .list [.atom (.sym 20)], .atom (.sym 21),
                       .atom (.sym 21)]],
         .list [.atom (.sym symreprLambda), .list [], .atom (.i 1)], .atom (.i 5)]

/-- The reference evaluates the branch in the `if`'s environment and returns 5; `run_eval`
evaluates it in the environment the called closure left in `curr_env`, where `x` is unbound,
and ends with the evaluation error. -/
theorem if_test_closure_call_diverges :
    (refEval 20 [] [] [] closureInIfTest).map Prod.fst = some (.datum (.atom (.i 5))) ∧
      runEval Prims.bare 100 (startOn closureInIfTest) = some eerror :=
  ⟨rfl, rfl⟩

end LispBM.Reference
