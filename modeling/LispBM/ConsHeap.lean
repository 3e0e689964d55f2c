import Mathlib.Logic.Function.Basic

namespace LispBM.ConsHeap

/-- The pointer types `type_of` tells apart (`PTR_TYPE_*`). No function of this repository
builds a bytecode pointer (`eval_cps_bi_byte_comp` returns `nil`), so it has no constructor. -/
inductive PtrType
  | cons | boxedI | boxedU | boxedF | array | ref | stream
  deriving DecidableEq, Repr

/-- A runtime word `VALUE`, by the type its tag selects. -/
inductive Value
  | sym (id : Nat)
  | i (n : Int)
  | u (n : Nat)
  | char (c : Nat)
  | ptr (t : PtrType) (ix : Nat)
  deriving DecidableEq, Repr

/-- Modelled from the spec: `symrepr.h` is not in the repository. The built-in symbols only
need distinct reserved ids, and errors come from one sub-range. -/
def symreprNil : Nat := 0
def symreprQuote : Nat := 1
def symreprTrue : Nat := 2
def symreprIf : Nat := 3
def symreprLambda : Nat := 4
def symreprClosure : Nat := 5
def symreprLet : Nat := 6
def symreprDefine : Nat := 7
def symreprProgn : Nat := 8
def symreprEerror : Nat := 9
def symreprMerror : Nat := 10
def symreprTerror : Nat := 11

/-- `symrepr_is_error` on a symbol id. -/
def symreprIsError (id : Nat) : Bool := symreprEerror ≤ id && id ≤ symreprTerror

/-- `NIL`, that is `enc_sym(symrepr_nil())`. -/
def nil : Value := .sym symreprNil

/-- `type_of(v) == VAL_TYPE_SYMBOL`. -/
def Value.isSymbol : Value → Bool
  | .sym _ => true
  | _ => false

/-- `type_of(v) == PTR_TYPE_CONS`. -/
def Value.isCons : Value → Bool
  | .ptr .cons _ => true
  | _ => false

@[simp] theorem isSymbol_sym (n : Nat) : (Value.sym n).isSymbol = true := rfl
@[simp] theorem isSymbol_ptr (t : PtrType) (ix : Nat) : (Value.ptr t ix).isSymbol = false := rfl

/-- Modelled from the spec: `heap.c` is not in the repository. A fixed array of `size` cells
of two words and the free list, head first. -/
structure Heap where
  size : Nat
  cells : Nat → Value × Value
  free : List Nat

/-- A heap of `n` cells, all of them free. -/
def Heap.empty (n : Nat) : Heap where
  size := n
  cells _ := (nil, nil)
  free := List.range n

/-- A full heap holding the given cells, as after a run has used every free cell. -/
def Heap.ofCells (cs : List (Value × Value)) : Heap where
  size := cs.length
  cells i := cs.getD i (nil, nil)
  free := []

/-- `car`; on a word that is not a cons pointer it is `nil`. -/
def car (h : Heap) : Value → Value
  | .ptr .cons ix => (h.cells ix).1
  | _ => nil

/-- `cdr`; on a word that is not a cons pointer it is `nil`. -/
def cdr (h : Heap) : Value → Value
  | .ptr .cons ix => (h.cells ix).2
  | _ => nil

/-- `cons`: pops the free-list head and writes both words, or returns the out-of-memory
symbol and leaves the heap as it was. -/
def cons (h : Heap) (a d : Value) : Value × Heap :=
  match h.free with
  | [] => (.sym symreprMerror, h)
  | ix :: rest => (.ptr .cons ix, { h with cells := Function.update h.cells ix (a, d), free := rest })

/-- `set_cdr`. -/
def setCdr (h : Heap) (c v : Value) : Heap :=
  match c with
  | .ptr .cons ix => { h with cells := Function.update h.cells ix ((h.cells ix).1, v) }
  | _ => h

@[simp] theorem cons_nil_free (h : Heap) (a d : Value) (hf : h.free = []) :
    cons h a d = (.sym symreprMerror, h) := by
  simp [cons, hf]

/-- The elements of a list, or `none` when its `cdr` chain does not end within `fuel` cells:
a chain longer than the heap is cyclic, and a C loop walking it never returns. -/
def elems (h : Heap) : Nat → Value → Option (List Value)
  | 0, _ => none
  | n + 1, .ptr .cons ix => ((h.cells ix).1 :: ·) <$> elems h n (h.cells ix).2
  | _ + 1, _ => some []

/-- A walk over a list of the heap gets one more step than the heap has cells. -/
def walk (h : Heap) (v : Value) : Option (List Value) := elems h (h.size + 1) v

/-- `cons` the elements onto `acc` in turn, stopping at the first `cons` that fails, whose
symbol is then the result. -/
def consOnto (h : Heap) (acc : Value) : List Value → Value × Heap
  | [] => (acc, h)
  | x :: xs =>
    match cons h x acc with
    | (.ptr .cons ix, h') => consOnto h' (.ptr .cons ix) xs
    | r => r

/-- Modelled from the spec: `reverse` of `heap.c`, a fresh list of the elements in reverse
order, or the out-of-memory symbol. -/
def reverse (h : Heap) (l : Value) : Option (Value × Heap) :=
  (walk h l).map (consOnto h nil)

/-- `length` of a list. -/
def length (h : Heap) (l : Value) : Option Nat := (walk h l).map List.length

/-- The first binding cell of `key` along an association list, `some none` when there is none,
and `none` when the list does not end within `fuel` cells. -/
def findBinding (h : Heap) (key : Value) : Nat → Value → Option (Option Value)
  | 0, _ => none
  | n + 1, .ptr .cons ix =>
    if car h (h.cells ix).1 = key then some (some (h.cells ix).1)
    else findBinding h key n (h.cells ix).2
  | _ + 1, _ => some none

/-- Modelled from the spec: `env_lookup` of `env.c` walks the association list linearly and
returns the value of the first binding of `key`. -/
def envLookup (h : Heap) (key env : Value) : Option (Option Value) :=
  (findBinding h key (h.size + 1) env).map (Option.map (cdr h))

/-- Modelled from the spec: `env_modify_binding` of `env.c` sets the value of the first binding
of `key`, and leaves the heap alone when there is none. -/
def envModifyBinding (h : Heap) (env key v : Value) : Option Heap :=
  (findBinding h key (h.size + 1) env).map fun
    | some b => setCdr h b v
    | none => h

/-- Modelled from the spec: `env_copy_shallow` of `env.c`, a fresh spine over the same binding
cells in the same order; `none` inside the result when a `cons` fails. -/
def envCopyShallow (h : Heap) (env : Value) : Option (Option Value × Heap) :=
  (walk h env).map fun bs =>
    match consOnto h nil bs.reverse with
    | (.ptr .cons ix, h') => (some (.ptr .cons ix), h')
    | (v, h') => (if v = nil then some nil else none, h')

/-- Modelled from the spec: `env_build_params_args` of `env.c`. Each parameter, in order, is
bound to its argument in front of `env`; `none` inside the result when a `cons` fails. -/
def bindPairs (h : Heap) (env : Value) : List (Value × Value) → Option Value × Heap
  | [] => (some env, h)
  | (p, a) :: ps =>
    match cons h p a with
    | (.ptr .cons b, h') =>
      match cons h' (.ptr .cons b) env with
      | (.ptr .cons e, h'') => bindPairs h'' (.ptr .cons e) ps
      | (_, h'') => (none, h'')
    | (_, h') => (none, h')

def envBuildParamsArgs (h : Heap) (params args env : Value) : Option (Option Value × Heap) :=
  match walk h params, walk h args with
  | some ps, some as => some (bindPairs h env (ps.zip as))
  | _, _ => none

end LispBM.ConsHeap
