import LispBM.Isolation

namespace LispBM.GlobalEnv

open ConsHeap EvalCps Contexts

/-- The invariant of a run of the evaluator: the global environment is a duplicate-free association
list isolated from every word the machine holds, and `fixed` is the spine of the program `lisp`. -/
structure Inv (m : Machine) (lisp : Value) (cells : List (Nat × Nat)) (kvs : List (Value × Value))
    (fixed : List Nat) : Prop where
  env : EnvInv m.heap m.globalEnv cells kvs
  iso : Isolated m.heap m.globalEnv cells fixed kvs
  program_eq : m.program = lisp
  spine : Spine m.heap lisp fixed
  program_live : Off (· ∈ m.heap.free) lisp
  currExp : Safe m.heap cells fixed m.currExp
  currEnv : Safe m.heap cells fixed m.currEnv
  r : Safe m.heap cells fixed m.r
  k : ∀ w ∈ m.k, Safe m.heap cells fixed w

variable {P : Prims} {m m' : Machine} {lisp : Value} {cells : List (Nat × Nat)} {kvs : List (Value × Value)} {fixed : List Nat}

theorem Inv.step (hm : Inv m lisp cells kvs fixed) (hk : Keeps m.globalEnv cells fixed kvs m.heap m'.heap)
    (hg : m'.globalEnv = m.globalEnv) (hp : m'.program = m.program) (he : Safe m'.heap cells fixed m'.currExp)
    (hv : Safe m'.heap cells fixed m'.currEnv) (hr : Safe m'.heap cells fixed m'.r)
    (hks : ∀ w ∈ m'.k, Safe m'.heap cells fixed w) : Inv m' lisp cells kvs fixed := by
  rw [← hg] at hk
  exact ⟨hk.env, hk.iso, hp.trans hm.program_eq, hm.spine.congr hk.fixed_eq, Off.mono hk.free_sub hm.program_live,
    he, hv, hr, hks⟩

theorem safe_cons {h : Heap} {w : Value} {l : List Value} (hw : Safe h cells fixed w)
    (hl : ∀ x ∈ l, Safe h cells fixed x) : ∀ x ∈ w :: l, Safe h cells fixed x :=
  List.forall_mem_cons.2 ⟨hw, hl⟩

theorem pop_safe {h : Heap} {k stk : List Value} {a : Value} (hk : ∀ w ∈ k, Safe h cells fixed w)
    (hp : pop k = (a, stk)) : Safe h cells fixed a ∧ ∀ w ∈ stk, Safe h cells fixed w := by
  cases k with
  | nil =>
    simp only [pop, Prod.mk.injEq] at hp
    obtain ⟨rfl, rfl⟩ := hp
    exact ⟨trivial, fun _ h => nomatch h⟩
  | cons v vs =>
    simp only [pop, Prod.mk.injEq] at hp
    obtain ⟨rfl, rfl⟩ := hp
    exact List.forall_mem_cons.1 hk

theorem Inv.car (hm : Inv m lisp cells kvs fixed) {w : Value} (hw : Safe m.heap cells fixed w) :
    Safe m.heap cells fixed (car m.heap w) := hw.car hm.iso

theorem Inv.cdr (hm : Inv m lisp cells kvs fixed) {w : Value} (hw : Safe m.heap cells fixed w) :
    Safe m.heap cells fixed (cdr m.heap w) := hw.cdr hm.iso

theorem Inv.keeps (hm : Inv m lisp cells kvs fixed) : Keeps m.globalEnv cells fixed kvs m.heap m.heap :=
  .refl hm.env hm.iso

theorem applyPrognRest_inv (hm : Inv m lisp cells kvs fixed) : Inv (applyPrognRest P m) lisp cells kvs fixed := by
  rcases hp : pop m.k with ⟨rest, stk⟩
  obtain ⟨hrest, hstk⟩ := pop_safe hm.k hp
  simp only [applyPrognRest, hp]
  split_ifs
  · exact hm.step hm.keeps rfl rfl hm.currExp hm.currEnv hm.r hstk
  · exact hm.step hm.keeps rfl rfl hm.currExp hm.currEnv hrest hstk
  · exact hm.step hm.keeps rfl rfl (hm.car hrest) hm.currEnv trivial (safe_cons trivial (safe_cons (hm.cdr hrest) hstk))

theorem applyClosure_inv (hm : Inv m lisp cells kvs fixed) {stk : List Value} {args argsRev : Value}
    (hstk : ∀ w ∈ stk, Safe m.heap cells fixed w) (hargs : Safe m.heap cells fixed args)
    (hrev : Safe m.heap cells fixed argsRev) (h : applyClosure m stk args argsRev = some m') :
    Inv m' lisp cells kvs fixed := by
  simp only [applyClosure] at h
  split at h
  · split_ifs at h
    · cases h
      exact hm.step hm.keeps rfl rfl hm.currExp hm.currEnv trivial hstk
    · obtain ⟨⟨env, h₁⟩, hb, rfl⟩ := Option.map_eq_some'.mp h
      obtain ⟨hk, henv⟩ := envBuildParamsArgs_keeps hm.env hm.iso (hm.car (hm.cdr hm.r)) hrev
        (hm.car (hm.cdr (hm.cdr (hm.cdr hm.r)))) hb
      rcases env with _ | env
      · exact hm.step hk rfl rfl (hk.safe hm.currExp) (hk.safe hm.currEnv) (hk.safe hm.r)
          (safe_cons trivial (safe_cons (hk.safe hargs) fun w hw => hk.safe (hstk w hw)))
      · exact hm.step hk rfl rfl (hk.safe (hm.car (hm.cdr (hm.cdr hm.r)))) (henv env rfl) trivial
          fun w hw => hk.safe (hstk w hw)
  · cases h

theorem applyFundamental_inv (hP : FundamentalSound P) (hm : Inv m lisp cells kvs fixed) {stk : List Value}
    {args : Value} (hstk : ∀ w ∈ stk, Safe m.heap cells fixed w) (hargs : Safe m.heap cells fixed args)
    (h : applyFundamental P m stk args = some m') : Inv m' lisp cells kvs fixed := by
  simp only [applyFundamental, walk, Option.map_eq_some'] at h
  obtain ⟨words, hw, rfl⟩ := h
  have hwords := elems_safe hm.iso hw hargs
  split
  · exact hm.step hm.keeps rfl rfl hm.currExp hm.currEnv trivial
      (safe_cons trivial fun w hw' => (List.mem_append.mp hw').elim (fun hw' => hwords w (List.mem_reverse.mp hw')) (hstk w))
  · rename_i res h₁ hx
    obtain ⟨hk, hres⟩ := fundamental_keeps hP hm.env hm.iso hwords hx
    split_ifs
    · exact hm.step hk rfl rfl (hk.safe hm.currExp) (hk.safe hm.currEnv) (hk.safe hm.r)
        (safe_cons trivial (safe_cons (hk.safe hargs) fun w hw => hk.safe (hstk w hw)))
    · exact hm.step hk rfl rfl (hk.safe hm.currExp) (hk.safe hm.currEnv) hres fun w hw => hk.safe (hstk w hw)

theorem applyFunctionApp_inv (hP : FundamentalSound P) (hm : Inv m lisp cells kvs fixed)
    (h : applyFunctionApp P m = some m') : Inv m' lisp cells kvs fixed := by
  rcases hp : pop m.k with ⟨args, stk⟩
  obtain ⟨hargs, hstk⟩ := pop_safe hm.k hp
  simp only [applyFunctionApp, hp, Option.bind_eq_some] at h
  obtain ⟨⟨argsRev, h₁⟩, hrev, h⟩ := h
  -- the arguments are reversed into fresh cells, or left as they are
  obtain ⟨hk, hrev'⟩ : Keeps m.globalEnv cells fixed kvs m.heap h₁ ∧ Safe h₁ cells fixed argsRev := by
    split_ifs at hrev
    · exact reverse_keeps hm.env hm.iso hargs hrev
    · cases hrev
      exact ⟨hm.keeps, hargs⟩
  have hm₁ : Inv { m with heap := h₁ } lisp cells kvs fixed :=
    hm.step hk rfl rfl (hk.safe hm.currExp) (hk.safe hm.currEnv) (hk.safe hm.r) fun w hw => hk.safe (hm.k w hw)
  have hstk₁ : ∀ w ∈ stk, Safe h₁ cells fixed w := fun w hw => hk.safe (hstk w hw)
  split_ifs at h
  · cases h
    exact hm₁.step hm₁.keeps rfl rfl hm₁.currExp hm₁.currEnv hm₁.r (safe_cons trivial (safe_cons (hk.safe hargs) hstk₁))
  · split at h
    · exact applyClosure_inv hm₁ hstk₁ (hk.safe hargs) hrev' h
    · exact applyFundamental_inv hP hm₁ hstk₁ (hk.safe hargs) h
    · cases h
      exact hm₁.step hm₁.keeps rfl rfl hm₁.currExp hm₁.currEnv trivial hstk₁

theorem applyArgList_inv (hm : Inv m lisp cells kvs fixed) : Inv (applyArgList m) lisp cells kvs fixed := by
  rcases hp : pop m.k with ⟨rest, stk₁⟩
  obtain ⟨hrest, hstk₁⟩ := pop_safe hm.k hp
  rcases hp₂ : pop stk₁ with ⟨acc, stk₂⟩
  obtain ⟨hacc, hstk₂⟩ := pop_safe hstk₁ hp₂
  rcases hp₃ : pop stk₂ with ⟨env, stk⟩
  obtain ⟨henv, hstk⟩ := pop_safe hstk₂ hp₃
  obtain ⟨hk, ha⟩ := cons_keeps hm.env hm.iso hm.r hacc
  simp only [applyArgList, hp, hp₂, hp₃]
  split
  · rename_i a h₁ heq
    rw [heq] at hk ha
    have hstk' : ∀ w ∈ stk, Safe h₁ cells fixed w := fun w hw => hk.safe (hstk w hw)
    split_ifs
    · exact hm.step hk rfl rfl (hk.safe hm.currExp) (hk.safe hm.currEnv) ha hstk'
    · exact hm.step hk rfl rfl ((hk.safe hrest).car hk.iso) (hk.safe henv) trivial
        (safe_cons trivial (safe_cons ((hk.safe hrest).cdr hk.iso) (safe_cons ha (safe_cons (hk.safe henv) hstk'))))
  · rename_i _ _ _ heq
    rw [heq] at hk
    exact hm.step hk rfl rfl (hk.safe hm.currExp) (hk.safe hm.currEnv) (hk.safe hm.r)
      (safe_cons trivial (safe_cons (hk.safe hrest) (safe_cons (hk.safe hacc) (safe_cons (hk.safe henv)
        fun w hw => hk.safe (hstk w hw)))))

theorem applyFunction_inv (hm : Inv m lisp cells kvs fixed) : Inv (applyFunction P m) lisp cells kvs fixed := by
  rcases hp : pop m.k with ⟨fn, stk⟩
  obtain ⟨hfn, hstk⟩ := pop_safe hm.k hp
  simp only [applyFunction, hp]
  split_ifs
  · exact hm.step hm.keeps rfl rfl hm.currExp hm.currEnv hfn (safe_cons trivial (safe_cons hm.r hstk))
  · exact hm.step hm.keeps rfl rfl hfn hm.currEnv trivial (safe_cons trivial (safe_cons hm.r hstk))

theorem applyBindToKeyRest_inv (hm : Inv m lisp cells kvs fixed) (h : applyBindToKeyRest m = some m') :
    Inv m' lisp cells kvs fixed := by
  rcases hp : pop m.k with ⟨key, stk₁⟩
  obtain ⟨-, hstk₁⟩ := pop_safe hm.k hp
  rcases hp₂ : pop stk₁ with ⟨env, stk₂⟩
  obtain ⟨henv, hstk₂⟩ := pop_safe hstk₁ hp₂
  rcases hp₃ : pop stk₂ with ⟨rest, stk⟩
  obtain ⟨hrest, hstk⟩ := pop_safe hstk₂ hp₃
  simp only [applyBindToKeyRest, hp, hp₂, hp₃, Option.map_eq_some'] at h
  obtain ⟨h₁, hmod, rfl⟩ := h
  have hk := envModifyBinding_keeps hm.env hm.iso henv hm.r hmod
  have hrest₁ := hk.safe hrest
  split_ifs
  · exact hm.step hk rfl rfl ((hrest₁.car hk.iso).cdr hk.iso |>.car hk.iso) (hk.safe henv) trivial
      (safe_cons trivial (safe_cons ((hrest₁.car hk.iso).car hk.iso) (safe_cons (hk.safe henv)
        (safe_cons (hrest₁.cdr hk.iso) fun w hw => hk.safe (hstk w hw)))))
  · rcases hp₄ : pop stk with ⟨exp, stk'⟩
    obtain ⟨hexp, hstk'⟩ := pop_safe hstk hp₄
    exact hm.step hk rfl rfl (hk.safe hexp) (hk.safe henv) trivial fun w hw => hk.safe (hstk' w hw)

theorem applyIf_inv (hm : Inv m lisp cells kvs fixed) : Inv (applyIf m) lisp cells kvs fixed := by
  rcases hp : pop m.k with ⟨thenBranch, stk₁⟩
  obtain ⟨hthen, hstk₁⟩ := pop_safe hm.k hp
  rcases hp₂ : pop stk₁ with ⟨elseBranch, stk⟩
  obtain ⟨helse, hstk⟩ := pop_safe hstk₁ hp₂
  simp only [applyIf, hp, hp₂]
  refine hm.step hm.keeps rfl rfl ?_ hm.currEnv trivial hstk
  split_ifs
  exacts [hthen, helse]

theorem applyContinuation_inv (hP : FundamentalSound P) (hm : Inv m lisp cells kvs fixed)
    (h2 : decU (pop m.k).1 ≠ kSetGlobalEnv) (h : applyContinuation P m = some m') : Inv m' lisp cells kvs fixed := by
  rcases hp : pop m.k with ⟨tag, stk⟩
  rw [hp] at h2
  have hm₀ : Inv { m with k := stk, appCont := false } lisp cells kvs fixed :=
    hm.step hm.keeps rfl rfl hm.currExp hm.currEnv hm.r (pop_safe hm.k hp).2
  simp only [applyContinuation, hp] at h
  split at h
  · -- DONE
    cases h
    exact hm₀.step hm₀.keeps rfl rfl hm₀.currExp hm₀.currEnv hm₀.r hm₀.k
  · -- EVAL
    cases h
    exact hm₀.step hm₀.keeps rfl rfl hm₀.r hm₀.currEnv trivial hm₀.k
  · exact absurd ‹decU tag = 2› h2
  · cases h
    exact applyPrognRest_inv hm₀
  · exact applyFunctionApp_inv hP hm₀ h
  · cases h
    exact applyArgList_inv hm₀
  · cases h
    exact applyFunction_inv hm₀
  · exact applyBindToKeyRest_inv hm₀ h
  · cases h
    exact applyIf_inv hm₀
  · cases h
    exact hm₀.step hm₀.keeps rfl rfl hm₀.currExp hm₀.currEnv trivial hm₀.k

theorem dispatchSymbol_inv (hm : Inv m lisp cells kvs fixed) (h : dispatchSymbol m = some m') :
    Inv m' lisp cells kvs fixed := by
  simp only [dispatchSymbol, Option.bind_eq_some] at h
  obtain ⟨_ | v, hl, h⟩ := h
  · obtain ⟨_ | v, hg, rfl⟩ := Option.map_eq_some'.mp h
    · exact hm.step hm.keeps rfl rfl hm.currExp hm.currEnv trivial hm.k
    · exact hm.step hm.keeps rfl rfl hm.currExp hm.currEnv (globalLookup_safe hm.env hm.iso hg) hm.k
  · cases h
    exact hm.step hm.keeps rfl rfl hm.currExp hm.currEnv (envLookup_safe hm.iso hl hm.currEnv) hm.k

theorem dispatchLambda_inv (hm : Inv m lisp cells kvs fixed) (h : dispatchLambda m = some m') :
    Inv m' lisp cells kvs fixed := by
  simp only [dispatchLambda, Option.map_eq_some'] at h
  obtain ⟨⟨env, h₁⟩, hcopy, rfl⟩ := h
  obtain ⟨hk₁, henv⟩ := envCopyShallow_keeps hm.env hm.iso hm.currEnv hcopy
  rcases env with _ | env
  · exact hm.step hk₁ rfl rfl (hk₁.safe hm.currExp) (hk₁.safe hm.currEnv) (hk₁.safe hm.r) fun w hw => hk₁.safe (hm.k w hw)
  -- the four cells of the closure, each built from safe words
  have he₁ := hk₁.safe hm.currExp
  rcases hc₂ : cons h₁ env nil with ⟨envEnd, h₂⟩
  obtain ⟨hk₂, hend⟩ := cons_keeps hk₁.env hk₁.iso (henv env rfl) safe_nil
  rw [hc₂] at hk₂ hend
  have he₂ := hk₂.safe he₁
  rcases hc₃ : cons h₂ (car h₂ (cdr h₂ (cdr h₂ m.currExp))) envEnd with ⟨body, h₃⟩
  obtain ⟨hk₃, hbody⟩ := cons_keeps hk₂.env hk₂.iso (((he₂.cdr hk₂.iso).cdr hk₂.iso).car hk₂.iso) hend
  rw [hc₃] at hk₃ hbody
  have he₃ := hk₃.safe he₂
  rcases hc₄ : cons h₃ (car h₃ (cdr h₃ m.currExp)) body with ⟨params, h₄⟩
  obtain ⟨hk₄, hparams⟩ := cons_keeps hk₃.env hk₃.iso ((he₃.cdr hk₃.iso).car hk₃.iso) hbody
  rw [hc₄] at hk₄ hparams
  rcases hc₅ : cons h₄ (.sym symreprClosure) params with ⟨closure, h₅⟩
  obtain ⟨hk₅, hclosure⟩ := cons_keeps hk₄.env hk₄.iso (safe_sym symreprClosure) hparams
  rw [hc₅] at hk₅ hclosure
  have hk := hk₁.trans (hk₂.trans (hk₃.trans (hk₄.trans hk₅)))
  simp only [hc₂, hc₃, hc₄, hc₅]
  split_ifs
  · exact hm.step hk rfl rfl (hk.safe hm.currExp) (hk.safe hm.currEnv) (hk.safe hm.r) fun w hw => hk.safe (hm.k w hw)
  · exact hm.step hk rfl rfl (hk.safe hm.currExp) (hk.safe hm.currEnv) hclosure fun w hw => hk.safe (hm.k w hw)

theorem dispatchLet_inv (hm : Inv m lisp cells kvs fixed) (h : dispatchLet m = some m') : Inv m' lisp cells kvs fixed := by
  have hbinds := hm.car (hm.cdr hm.currExp)
  have hexp := hm.car (hm.cdr (hm.cdr hm.currExp))
  simp only [dispatchLet] at h
  split_ifs at h
  · cases h
    exact hm.step hm.keeps rfl rfl hexp hm.currEnv hm.r hm.k
  · obtain ⟨⟨newEnv, h₁⟩, hpre, rfl⟩ := Option.map_eq_some'.mp h
    obtain ⟨hk, henv⟩ := letPrebind_keeps _ hm.env hm.iso hm.currEnv hbinds hpre
    have hb₁ := hk.safe hbinds
    exact hm.step hk rfl rfl (((hb₁.car hk.iso).cdr hk.iso).car hk.iso) henv (hk.safe hm.r)
      (safe_cons trivial (safe_cons ((hb₁.car hk.iso).car hk.iso) (safe_cons henv (safe_cons (hb₁.cdr hk.iso)
        (safe_cons (hk.safe hexp) fun w hw => hk.safe (hm.k w hw))))))

theorem dispatchApp_inv (hm : Inv m lisp cells kvs fixed) {head : Value} (hh : Safe m.heap cells fixed head) :
    Inv (dispatchApp m head) lisp cells kvs fixed := by
  simp only [dispatchApp]
  split_ifs
  · exact hm.step hm.keeps rfl rfl hm.currExp hm.currEnv safe_nil (safe_cons trivial (safe_cons hh hm.k))
  · exact hm.step hm.keeps rfl rfl (hm.car (hm.cdr hm.currExp)) hm.currEnv hm.r
      (safe_cons trivial (safe_cons (hm.cdr (hm.cdr hm.currExp)) (safe_cons safe_nil (safe_cons hm.currEnv
        (safe_cons trivial (safe_cons hh hm.k))))))

theorem dispatchCons_inv (hm : Inv m lisp cells kvs fixed) (h : dispatchCons P m = some m') :
    Inv m' lisp cells kvs fixed := by
  have he₁ := hm.cdr hm.currExp
  rcases dispatchCons_cases h with ⟨v, hv, rfl⟩ | ⟨v, hv, rfl⟩ | rfl | rfl | rfl | h | h | rfl
  · -- quote, or an empty progn
    refine hm.step hm.keeps rfl rfl hm.currExp hm.currEnv ?_ hm.k
    rcases hv with rfl | rfl
    exacts [hm.car he₁, safe_nil]
  · refine hm.step hm.keeps rfl rfl hm.currExp hm.currEnv ?_ hm.k
    rcases hv with rfl | rfl
    exacts [trivial, he₁]
  · -- define: the key waits under SET_GLOBAL_ENV
    exact hm.step hm.keeps rfl rfl (hm.car (hm.cdr he₁)) hm.currEnv hm.r (safe_cons trivial (safe_cons (hm.car he₁) hm.k))
  · exact hm.step hm.keeps rfl rfl (hm.car he₁) hm.currEnv hm.r (safe_cons trivial (safe_cons (hm.cdr he₁) hm.k))
  · exact hm.step hm.keeps rfl rfl (hm.car he₁) hm.currEnv hm.r
      (safe_cons trivial (safe_cons (hm.car (hm.cdr he₁)) (safe_cons (hm.car (hm.cdr (hm.cdr he₁))) hm.k)))
  · exact dispatchLambda_inv hm h
  · exact dispatchLet_inv hm h
  · exact dispatchApp_inv hm (hm.car hm.currExp)

theorem dispatch_inv (hm : Inv m lisp cells kvs fixed) (h : dispatch P m = some m') : Inv m' lisp cells kvs fixed := by
  simp only [dispatch] at h
  split at h
  · exact dispatchSymbol_inv hm h
  · exact dispatchCons_inv hm h
  · cases h
    exact hm.step hm.keeps rfl rfl hm.currExp hm.currEnv trivial hm.k
  · cases h
    exact hm.step hm.keeps rfl rfl hm.currExp hm.currEnv trivial hm.k
  · cases h
    exact hm.step hm.keeps rfl rfl hm.currExp hm.currEnv hm.currExp hm.k

theorem lookup_of_bind {key v : Value} {kvs' : List (Value × Value)} (hself : kvs'.lookup key = some v)
    (hother : ∀ k', k' ≠ key → kvs'.lookup k' = kvs.lookup k') (k : Value) :
    kvs'.lookup k = ([(key, v)].lookup k).or (kvs.lookup k) := by
  by_cases hk : k = key
  · subst hk
    simp [hself]
  · have hb : (k == key) = false := beq_eq_false_iff_ne.mpr hk
    simp [List.lookup_cons, hb, hother k hk]

theorem contSetGlobalEnv_step (hm : Inv m lisp cells kvs fixed) (h : contSetGlobalEnv m = some m') :
    (m'.performGc = true ∧ Inv m' lisp cells kvs fixed) ∨
      (m'.performGc = m.performGc ∧ ∃ cells' kvs', Inv m' lisp cells' kvs' fixed ∧
        ∀ k, kvs'.lookup k = ([((pop m.k).1, m.r)].lookup k).or (kvs.lookup k)) := by
  obtain ⟨hkey, hstk⟩ := pop_safe hm.k rfl
  rcases contSetGlobalEnv_cases h with ⟨bw, hr, rfl⟩ | ⟨hr, kv, g, rest, hf, rfl⟩ | ⟨-, rfl⟩
  · -- the binding found is set, which leaves every other cell
    obtain ⟨b, rfl, hbc⟩ := hm.env.layout.findBinding_mem _ hr
    refine .inr ⟨rfl, cells, _, ⟨hm.env.setBinding hr, hm.iso.setBinding hm.env hm.r hr, hm.program_eq,
      hm.spine.congr fun c hc => setCdr_cells_ne fun e => (hm.iso.fixed_disjoint c hc).1 (e ▸ hbc),
      hm.program_live, hm.currExp, hm.currEnv, trivial, hstk⟩,
      lookup_of_bind (lookup_update_self (hm.env.layout.findBinding_key _ hr)) fun k' hne => lookup_update_ne hne kvs⟩
  · -- two free cells become the new first binding
    have hfix : ∀ c ∈ fixed, c ≠ g ∧ c ≠ kv := fun c hc =>
      ⟨fun e => (hm.iso.fixed_disjoint c hc).2 (by simp [hf, e]), fun e => (hm.iso.fixed_disjoint c hc).2 (by simp [hf, e])⟩
    refine .inr ⟨rfl, _, _, ⟨hm.env.push hf (hm.env.layout.findBinding_none _ hr), hm.iso.push hm.env hf hkey hm.r,
      hm.program_eq, hm.spine.congr fun c hc => ?_, Off.mono (fun j hj => by simp [hf, hj]) hm.program_live,
      Safe.push hf rfl hm.currExp, Safe.push hf rfl hm.currEnv, trivial, fun w hw => Safe.push hf rfl (hstk w hw)⟩,
      lookup_of_bind (by simp) fun k' hne => ?_⟩
    · simp [Function.update_noteq (hfix c hc).1, Function.update_noteq (hfix c hc).2]
    · have hb : (k' == (pop m.k).1) = false := beq_eq_false_iff_ne.mpr hne
      simp only [List.lookup_cons, hb]
  · -- a failed cons: the frame goes back on the stack
    obtain ⟨hk, -⟩ := cons_keeps hm.env hm.iso hkey hm.r
    exact .inl ⟨rfl, hm.step hk rfl rfl (hk.safe hm.currExp) (hk.safe hm.currEnv) (hk.safe hm.r)
      (safe_cons trivial (safe_cons (hk.safe hkey) fun w hw => hk.safe (hstk w hw)))⟩

theorem evalStep_keeps (hP : FundamentalSound P) (hm : Inv m lisp cells kvs fixed)
    (hset : ¬ (m.appCont = true ∧ decU (pop m.k).1 = kSetGlobalEnv)) (h : evalStep P m = some m') :
    Inv m' lisp cells kvs fixed := by
  simp only [evalStep] at h
  split_ifs at h with happ
  · exact applyContinuation_inv hP hm (fun h2 => hset ⟨happ, h2⟩) h
  · exact dispatch_inv hm h

/-- The binding a step of the evaluator completes: the key and value `cont_set_global_env` binds
when the step applies it and it asks for no collection. -/
def completes (m m' : Machine) : Option (Value × Value) :=
  if m.appCont = true ∧ decU (pop m.k).1 = kSetGlobalEnv ∧ m'.performGc = false then
    some ((pop (pop m.k).2).1, m.r)
  else none

/-- A step of the evaluator keeps the invariant, and the global environment binds the key of the
define the step completes, if any, to its value, and every other key as before. -/
theorem evalStep_inv (hP : FundamentalSound P) (hm : Inv m lisp cells kvs fixed) (hgc : m.performGc = false)
    (h : evalStep P m = some m') :
    ∃ cells' kvs', Inv m' lisp cells' kvs' fixed ∧
      ∀ k, kvs'.lookup k = ((completes m m').toList.lookup k).or (kvs.lookup k) := by
  by_cases hset : m.appCont = true ∧ decU (pop m.k).1 = kSetGlobalEnv
  · obtain ⟨happ, h2⟩ := hset
    rcases hp : pop m.k with ⟨tag, stk⟩
    have hm₀ : Inv { m with k := stk, appCont := false } lisp cells kvs fixed :=
      hm.step hm.keeps rfl rfl hm.currExp hm.currEnv hm.r (pop_safe hm.k hp).2
    rw [hp] at h2
    simp only [kSetGlobalEnv] at h2
    simp only [evalStep, happ, if_true, applyContinuation, hp, h2, Option.map_eq_some'] at h
    obtain ⟨m₁, h₁, rfl⟩ := h
    rcases contSetGlobalEnv_step hm₀ h₁ with ⟨hgc₁, hm₁⟩ | ⟨hgc₁, cells', kvs', hm₁, hl⟩
    · refine ⟨cells, kvs, hm₁.step hm₁.keeps rfl rfl hm₁.currExp hm₁.currEnv hm₁.r hm₁.k, fun k => ?_⟩
      simp [completes, hgc₁]
    · refine ⟨cells', kvs', hm₁.step hm₁.keeps rfl rfl hm₁.currExp hm₁.currEnv hm₁.r hm₁.k, fun k => ?_⟩
      have hgc' : m₁.performGc = false := hgc₁.trans hgc
      simpa [completes, happ, hp, h2, hgc', kSetGlobalEnv] using hl k
  · exact ⟨cells, kvs, evalStep_keeps hP hm hset h, fun k => by rw [completes, if_neg fun h' => hset ⟨h'.1, h'.2.1⟩]; rfl⟩

theorem Inv.collect (hgc : GcSound P) (hm : Inv m lisp cells kvs fixed) :
    Inv { m with heap := P.performGc (gcRoots m) m.heap, performGc := false } lisp cells kvs fixed := by
  have hroots : ∀ r ∈ gcRoots m, Off (· ∈ m.heap.free) r := by
    simp only [gcRoots, List.cons_append, List.mem_cons]
    rintro r (rfl | rfl | rfl | rfl | rfl | hr)
    exacts [hm.iso.genv_live, hm.currEnv.live, hm.currExp.live, hm.program_eq ▸ hm.program_live, hm.r.live,
      (hm.k r hr).live]
  have hc := hgc (gcRoots m) m.heap hm.env.free_nodup hm.env.free_lt hroots hm.iso.live
  have hlisp : lisp ∈ gcRoots m := by simp [gcRoots, ← hm.program_eq]
  obtain ⟨he, hi, hs, -⟩ := hc.keeps hm.env hm.iso hm.spine (by simp [gcRoots]) hlisp
  have hsafe : ∀ w ∈ gcRoots m, Safe m.heap cells fixed w → Safe (P.performGc (gcRoots m) m.heap) cells fixed w :=
    fun w hw hs => hs.collected (hc.roots_off w hw)
  exact ⟨he, hi, hm.program_eq, hs, hc.roots_off lisp hlisp, hsafe _ (by simp [gcRoots]) hm.currExp,
    hsafe _ (by simp [gcRoots]) hm.currEnv, hsafe _ (by simp [gcRoots]) hm.r,
    fun w hw => hsafe w (by simp [gcRoots, hw]) (hm.k w hw)⟩

/-- The define a turn of the loop completes, when it runs a step. -/
def completedDefine (s s' : Loop) : Option (Value × Value) :=
  if s.m.done then none else completes s.m s'.m

/-- One turn of the loop of `run_eval` keeps the invariant and updates the global environment by the
define it completes. -/
theorem next_inv (hgc : GcSound P) (hP : FundamentalSound P) {s s' : Loop} (hm : Inv s.m lisp cells kvs fixed)
    (h : next P s = some s') :
    ∃ cells' kvs', Inv s'.m lisp cells' kvs' fixed ∧
      ∀ k, kvs'.lookup k = ((completedDefine s s').toList.lookup k).or (kvs.lookup k) := by
  simp only [next] at h
  split_ifs at h with hdone
  · cases h
    exact ⟨cells, kvs, hm, fun k => by simp [completedDefine, hdone]⟩
  · simp only [iter] at h
    split_ifs at h with hgc₀ hn
    · -- a collection is due but none may run: the run stops out of memory
      cases h
      exact ⟨cells, kvs, hm.step hm.keeps rfl rfl hm.currExp hm.currEnv trivial hm.k,
        fun k => by simp [completedDefine, completes, hdone, hgc₀]⟩
    · obtain ⟨m', hs, rfl⟩ := Option.map_eq_some'.mp h
      obtain ⟨c', k', hm', hl⟩ := evalStep_inv hP (hm.collect hgc) rfl hs
      exact ⟨c', k', hm', fun k => by simpa [completedDefine, hdone] using hl k⟩
    · obtain ⟨m', hs, rfl⟩ := Option.map_eq_some'.mp h
      obtain ⟨c', k', hm', hl⟩ := evalStep_inv hP hm (by simpa using hgc₀) hs
      exact ⟨c', k', hm', fun k => by simpa [completedDefine, hdone] using hl k⟩

/-- The run of `n` turns with the defines it completes, latest first: a history of the run. -/
def runLog (P : Prims) : Nat → Loop → Option (Loop × List (Value × Value))
  | 0, s => some (s, [])
  | n + 1, s => (runLog P n s).bind fun p =>
    (next P p.1).map fun s' => (s', (completedDefine p.1 s').toList ++ p.2)

theorem runLog_fst (P : Prims) (s : Loop) : ∀ n, (runLog P n s).map Prod.fst = run P n s
  | 0 => rfl
  | n + 1 => by
    rw [run_succ, ← runLog_fst P s n]
    simp only [runLog]
    cases runLog P n s with
    | none => rfl
    | some p => simp [Option.map_map, Function.comp_def]

/-- Every state a run reaches keeps the invariant, and its global environment binds each key to the
value of the latest define of it the run completed, and every other key as before. -/
theorem runLog_inv (hgc : GcSound P) (hP : FundamentalSound P) {s : Loop} (hm : Inv s.m lisp cells kvs fixed) :
    ∀ {n : Nat} {s' : Loop} {log : List (Value × Value)}, runLog P n s = some (s', log) →
      ∃ cells' kvs', Inv s'.m lisp cells' kvs' fixed ∧ ∀ k, kvs'.lookup k = (log.lookup k).or (kvs.lookup k)
  | 0, _, _, h => by
    cases h
    exact ⟨cells, kvs, hm, fun k => rfl⟩
  | n + 1, s', log, h => by
    simp only [runLog, Option.bind_eq_some, Option.map_eq_some', Prod.mk.injEq] at h
    obtain ⟨⟨s₁, log₁⟩, h₁, s₂, hs, rfl, rfl⟩ := h
    obtain ⟨c₁, k₁, hm₁, hl₁⟩ := runLog_inv hgc hP hm h₁
    obtain ⟨c₂, k₂, hm₂, hl₂⟩ := next_inv hgc hP hm₁ hs
    exact ⟨c₂, k₂, hm₂, fun k => by rw [hl₂, hl₁, List.lookup_append, Option.or_assoc]⟩

theorem Spine.suffix {h : Heap} : ∀ {w : Value} {pre post : List Nat} {c : Nat}, Spine h w (pre ++ c :: post) →
    Spine h (.ptr .cons c) (c :: post)
  | _, [], _, _, hs => by cases hs with | cell hs => exact .cell hs
  | _, _ :: _, _, _, hs => by cases hs with | cell hs => exact Spine.suffix hs

/-- `evalForms` with the defines its runs complete, latest first. -/
def evalFormsLog (P : Prims) (n : Nat) (program : Value) :
    Nat → Value → Value → Value → Heap → Option ((Value × Value × Heap) × List (Value × Value))
  | 0, _, _, _, _ => none
  | fuel + 1, curr, res, genv, h =>
    if curr.isCons then
      (runLog P n (start program (car h curr) nil [] genv h)).bind fun p =>
        if p.1.m.done then
          (evalFormsLog P n program fuel (cdr p.1.m.heap curr) p.1.m.r p.1.m.globalEnv p.1.m.heap).map
            fun q => (q.1, q.2 ++ p.2)
        else none
    else some ((res, genv, h), [])

theorem evalFormsLog_fst (P : Prims) (n : Nat) (program : Value) : ∀ fuel curr res genv h,
    (evalFormsLog P n program fuel curr res genv h).map Prod.fst = evalForms P n program fuel curr res genv h
  | 0, _, _, _, _ => rfl
  | fuel + 1, curr, res, genv, h => by
    simp only [evalFormsLog, evalForms]
    split_ifs
    · rw [← runLog_fst]
      cases runLog P n (start program (car h curr) nil [] genv h) with
      | none => rfl
      | some p =>
        simp only [Option.some_bind, Option.map_some']
        split_ifs
        · rw [← evalFormsLog_fst P n program fuel, Option.map_map]
          rfl
        · rfl
    · rfl

/-- The defines the forms of `eval_cps_program` complete, latest first. -/
def programLog (P : Prims) (n fuel : Nat) (lisp genv : Value) (h : Heap) : List (Value × Value) :=
  if P.isErrorWord lisp then [] else ((evalFormsLog P n lisp fuel lisp nil genv h).map Prod.snd).getD []

theorem evalFormsLog_inv (hgc : GcSound P) (hP : FundamentalSound P) {n : Nat} :
    ∀ (fuel : Nat) (pre rest : List Nat) {curr res genv : Value} {h : Heap} {cells : List (Nat × Nat)}
      {kvs : List (Value × Value)} {r : Value × Value × Heap} {log : List (Value × Value)},
      fixed = pre ++ rest → EnvInv h genv cells kvs → Isolated h genv cells fixed kvs → Spine h lisp fixed →
      Off (· ∈ h.free) lisp → Spine h curr rest → evalFormsLog P n lisp fuel curr res genv h = some (r, log) →
      ∃ cells' kvs', EnvInv r.2.2 r.2.1 cells' kvs' ∧ ∀ k, kvs'.lookup k = (log.lookup k).or (kvs.lookup k)
  | 0, _, _, _, _, _, _, _, _, _, _, _, _, _, _, _, _, hrun => by cases hrun
  | fuel + 1, pre, rest, curr, res, genv, h, cells, kvs, r, log, hfix, he, hi, hs, hlive, hcurr, hrun => by
    simp only [evalFormsLog] at hrun
    split_ifs at hrun with hcons
    · cases hcurr with
      | last hne => simp [hne] at hcons
      | @cell c post hpost =>
        obtain ⟨⟨s, log₁⟩, hrun₁, hrun⟩ := Option.bind_eq_some.mp hrun
        split_ifs at hrun
        obtain ⟨⟨r', log₂⟩, hrest, heq⟩ := Option.map_eq_some'.mp hrun
        cases heq
        -- the form's run
        have hstart : Inv (start lisp (car h (.ptr .cons c)) nil [] genv h).m lisp cells kvs fixed :=
          ⟨he, hi, rfl, hs, hlive, hi.fixed_car c (by simp [hfix]), trivial, trivial, safe_cons trivial fun _ h => nomatch h⟩
        obtain ⟨c₁, k₁, hm₁, hl₁⟩ := runLog_inv hgc hP hstart hrun₁
        -- the rest of the program, read through the heap the run leaves
        have hsuf := Spine.suffix (hfix ▸ hm₁.spine)
        cases hsuf with
        | cell hpost' =>
          obtain ⟨c₂, k₂, he₂, hl₂⟩ := evalFormsLog_inv hgc hP fuel (pre ++ [c]) post (by simp [hfix]) hm₁.env
            hm₁.iso hm₁.spine hm₁.program_live hpost' hrest
          exact ⟨c₂, k₂, he₂, fun k => by rw [hl₂, hl₁, List.lookup_append, Option.or_assoc]⟩
    · cases hrun
      exact ⟨cells, kvs, he, fun k => rfl⟩

theorem EnvInv.retarget {h : Heap} {w w' : Value} (he : EnvInv h w [] []) (hw : w'.isCons = false) :
    EnvInv h w' [] [] :=
  ⟨.last hw, he.cells_nodup, he.cells_lt, he.free_nodup, he.free_lt, he.free_disjoint, he.keys_nodup⟩

theorem evalCpsInit_inv {h : Heap} (he : EnvInv h nil [] []) (hi : Isolated h nil [] fixed []) :
    ∃ cells kvs, EnvInv (evalCpsInit h).2.2 (evalCpsInit h).2.1 cells kvs ∧
      Isolated (evalCpsInit h).2.2 (evalCpsInit h).2.1 cells fixed kvs ∧ ((evalCpsInit h).1 = 1 → kvs = [(nil, nil)]) := by
  have hlast : ∀ {h' : Heap}, Isolated h' nil [] fixed [] → Isolated h' (.sym symreprMerror) [] fixed [] :=
    fun hi => ⟨hi.outside, hi.live, trivial, hi.vals, hi.fixed_car, hi.fixed_disjoint⟩
  rcases hf : h.free with _ | ⟨kv, _ | ⟨g, rest⟩⟩
  · simp only [evalCpsInit, cons, hf]
    exact ⟨[], [], he.retarget rfl, hlast hi, by simp⟩
  · obtain ⟨hk, -⟩ := cons_keeps he hi (safe_nil (h := h)) safe_nil
    simp only [evalCpsInit, cons, hf] at hk ⊢
    exact ⟨[], [], hk.env.retarget rfl, hlast hk.iso, by simp⟩
  · simp only [evalCpsInit, cons, hf]
    exact ⟨_, _, he.push hf (by simp), hi.push he hf safe_nil safe_nil, fun _ => rfl⟩

/-- Every `cont_set_global_env` that asks for no collection leaves a duplicate-free global environment
binding the key to the value and every other key as before. Every run of `eval_cps_program` from a
global environment isolated from the program, with a collector and fundamentals that meet their
contracts, leaves a duplicate-free global environment binding each key to the value of the latest
define of it the run completed, and every other key as before. -/
theorem define_binds_latest {P : Prims} (hgc : GcSound P) (hP : FundamentalSound P) :
    (∀ {m m' : Machine} {cells : List (Nat × Nat)} {kvs : List (Value × Value)},
      EnvInv m.heap m.globalEnv cells kvs → m.performGc = false → contSetGlobalEnv m = some m' →
      m'.performGc = false →
      ∃ cells' kvs', EnvInv m'.heap m'.globalEnv cells' kvs' ∧ kvs'.lookup (pop m.k).1 = some m.r ∧
        ∀ k, k ≠ (pop m.k).1 → kvs'.lookup k = kvs.lookup k) ∧
    (∀ {n fuel : Nat} {lisp genv res genv' : Value} {h h' : Heap} {cells : List (Nat × Nat)}
      {kvs : List (Value × Value)} {fixed : List Nat},
      EnvInv h genv cells kvs → Isolated h genv cells fixed kvs → Spine h lisp fixed → Off (· ∈ h.free) lisp →
      evalCpsProgram P n fuel lisp genv h = some (res, genv', h') →
      ∃ cells' kvs', EnvInv h' genv' cells' kvs' ∧
        ∀ k, kvs'.lookup k = ((programLog P n fuel lisp genv h).lookup k).or (kvs.lookup k)) := by
  refine ⟨fun hi hgc₀ h hno => ?_, fun {n fuel lisp genv res genv' h h' cells kvs fixed} he hi hs hlive hp => ?_⟩
  · rcases contSetGlobalEnv_inv hi h with h₁ | ⟨-, hset⟩
    · rw [hno] at h₁
      cases h₁
    · exact hset
  · simp only [evalCpsProgram] at hp
    unfold programLog
    split_ifs at hp ⊢
    · cases hp
      exact ⟨cells, kvs, he, fun k => rfl⟩
    · rw [← evalFormsLog_fst] at hp
      obtain ⟨⟨r, log⟩, hlog, rfl⟩ := Option.map_eq_some'.mp hp
      simpa [hlog] using evalFormsLog_inv hgc hP fuel [] fixed rfl he hi hs hlive hs hlog

/-- The program `((define x 1))` at cell 0, `x` being the symbol 20, in a heap of eight cells whose
last four are free. -/
def defineXHeap : Heap :=
  ⟨8, fun i => [(.ptr .cons 1, nil), (.sym symreprDefine, .ptr .cons 2), (.sym 20, .ptr .cons 3), (.i 1, nil)].getD i
    (nil, nil), [4, 5, 6, 7]⟩

/-- After `eval_cps_init`, the program binds `x` to 1 beside the binding of `nil`. -/
theorem define_binds_latest_x :
    ∃ res genv' h', evalCpsProgram Prims.bare 4 2 (.ptr .cons 0) (evalCpsInit defineXHeap).2.1
        (evalCpsInit defineXHeap).2.2 = some (res, genv', h') ∧
      programLog Prims.bare 4 2 (.ptr .cons 0) (evalCpsInit defineXHeap).2.1 (evalCpsInit defineXHeap).2.2 =
        [(.sym 20, .i 1)] ∧
      ∃ cells' kvs', EnvInv h' genv' cells' kvs' ∧
        ∀ k, kvs'.lookup k = ([(.sym 20, .i 1)].lookup k).or ([(nil, nil)].lookup k) := by
  have he : EnvInv defineXHeap nil [] [] :=
    ⟨.last rfl, List.nodup_nil, by simp, by decide, by decide, by simp, List.nodup_nil⟩
  have hi : Isolated defineXHeap nil [] [0] [] := by
    refine ⟨fun j hj => ?_, fun j hj => ?_, trivial, by simp, by simp [Safe, Off, Guarded, defineXHeap], by simp [defineXHeap]⟩
    · rcases j with _ | _ | _ | _ | j
      all_goals simp [Safe, Off, Guarded, defineXHeap, nil] at hj ⊢
    · rcases j with _ | _ | _ | _ | j
      all_goals simp [Off, defineXHeap, nil] at hj ⊢
  obtain ⟨cells, kvs, he₁, hi₁, hkvs⟩ := evalCpsInit_inv he hi
  obtain rfl := hkvs rfl
  obtain ⟨res, genv', h', hrun⟩ : ∃ res genv' h', evalCpsProgram Prims.bare 4 2 (.ptr .cons 0)
      (evalCpsInit defineXHeap).2.1 (evalCpsInit defineXHeap).2.2 = some (res, genv', h') := ⟨_, _, _, rfl⟩
  have hlive : Off (· ∈ (evalCpsInit defineXHeap).2.2.free) (.ptr .cons 0) := by
    show 0 ∉ (evalCpsInit defineXHeap).2.2.free
    decide
  exact ⟨res, genv', h', hrun, rfl,
    (define_binds_latest gcSound_bare fundamentalSound_bare).2 he₁ hi₁ (.cell (.last rfl)) hlive hrun⟩

end LispBM.GlobalEnv
