import LispBM.GlobalEnv
import LispBM.Contexts
import Mathlib.Data.List.Nodup

namespace LispBM.GlobalEnv

open ConsHeap EvalCps Contexts

/-- A word that is no pointer into the cells `S` holds of. -/
def Off (S : Nat → Prop) : Value → Prop
  | .ptr _ j => ¬ S j
  | _ => True

theorem Off.mono {S S' : Nat → Prop} (hS : ∀ j, S' j → S j) : ∀ {w : Value}, Off S w → Off S' w
  | .ptr _ _, hw => fun h => hw (hS _ h)
  | .sym _, _ | .i _, _ | .u _, _ | .char _, _ => trivial

/-- The cells no word of the evaluator may point at: those of the global environment, of the
program's spine `fixed`, and the free ones. -/
def Guarded (h : Heap) (cells : List (Nat × Nat)) (fixed : List Nat) (j : Nat) : Prop :=
  j ∈ cellsOf cells ∨ j ∈ fixed ∨ j ∈ h.free

/-- A word that points at no guarded cell. -/
def Safe (h : Heap) (cells : List (Nat × Nat)) (fixed : List Nat) (w : Value) : Prop :=
  Off (Guarded h cells fixed) w

/-- The cells of a list's spine, the ones `eval_cps_program` walks with `cdr`. -/
inductive Spine (h : Heap) : Value → List Nat → Prop
  | last {w : Value} : w.isCons = false → Spine h w []
  | cell {c : Nat} {cs : List Nat} : Spine h (h.cells c).2 cs → Spine h (.ptr .cons c) (c :: cs)

/-- No cell or word the evaluator can reach points at a guarded cell: outside the guarded cells
every word is safe, no cell but a free one points at a free cell, the bound values are safe and
so are the forms of the program. -/
structure Isolated (h : Heap) (genv : Value) (cells : List (Nat × Nat)) (fixed : List Nat)
    (kvs : List (Value × Value)) : Prop where
  outside : ∀ j, ¬ Guarded h cells fixed j → Safe h cells fixed (h.cells j).1 ∧ Safe h cells fixed (h.cells j).2
  live : ∀ j, j ∉ h.free → Off (· ∈ h.free) (h.cells j).1 ∧ Off (· ∈ h.free) (h.cells j).2
  genv_live : Off (· ∈ h.free) genv
  vals : ∀ kv ∈ kvs, Safe h cells fixed kv.2
  fixed_car : ∀ c ∈ fixed, Safe h cells fixed (h.cells c).1
  fixed_disjoint : ∀ c ∈ fixed, c ∉ cellsOf cells ∧ c ∉ h.free

/-- What the heap operations of a step keep: the global environment and its isolation, while the
free list only shrinks and the program's spine is not written. -/
structure Keeps (genv : Value) (cells : List (Nat × Nat)) (fixed : List Nat) (kvs : List (Value × Value))
    (h h' : Heap) : Prop where
  env : EnvInv h' genv cells kvs
  iso : Isolated h' genv cells fixed kvs
  free_sub : ∀ j ∈ h'.free, j ∈ h.free
  fixed_eq : ∀ c ∈ fixed, h'.cells c = h.cells c

variable {h h' h'' : Heap} {genv : Value} {cells : List (Nat × Nat)} {fixed : List Nat}
  {kvs : List (Value × Value)}

theorem safe_sym (n : Nat) : Safe h cells fixed (.sym n) := trivial

theorem safe_nil : Safe h cells fixed nil := trivial

theorem Safe.live (hw : Safe h cells fixed w) : Off (· ∈ h.free) w :=
  Off.mono (fun _ hj => .inr (.inr hj)) hw

theorem Safe.car (hi : Isolated h genv cells fixed kvs) {w : Value} (hw : Safe h cells fixed w) :
    Safe h cells fixed (car h w) := by
  rcases w with _ | _ | _ | _ | ⟨_ | _ | _ | _ | _ | _ | _, j⟩
  all_goals first | exact trivial | exact (hi.outside j hw).1

theorem Safe.cdr (hi : Isolated h genv cells fixed kvs) {w : Value} (hw : Safe h cells fixed w) :
    Safe h cells fixed (cdr h w) := by
  rcases w with _ | _ | _ | _ | ⟨_ | _ | _ | _ | _ | _ | _, j⟩
  all_goals first | exact trivial | exact (hi.outside j hw).2

theorem Keeps.refl (he : EnvInv h genv cells kvs) (hi : Isolated h genv cells fixed kvs) :
    Keeps genv cells fixed kvs h h :=
  ⟨he, hi, fun _ hj => hj, fun _ _ => rfl⟩

theorem Keeps.guarded (hk : Keeps genv cells fixed kvs h h') {j : Nat} :
    Guarded h' cells fixed j → Guarded h cells fixed j :=
  Or.imp_right (Or.imp_right (hk.free_sub j))

theorem Keeps.safe (hk : Keeps genv cells fixed kvs h h') {w : Value} :
    Safe h cells fixed w → Safe h' cells fixed w :=
  Off.mono fun _ => hk.guarded

theorem Keeps.trans (hk : Keeps genv cells fixed kvs h h') (hk' : Keeps genv cells fixed kvs h' h'') :
    Keeps genv cells fixed kvs h h'' :=
  ⟨hk'.env, hk'.iso, fun j hj => hk.free_sub j (hk'.free_sub j hj), fun c hc => (hk'.fixed_eq c hc).trans (hk.fixed_eq c hc)⟩

theorem guarded_of_took (he : EnvInv h genv cells kvs) (hi : Isolated h genv cells fixed kvs) {used : List Nat}
    (hfree : h.free = used ++ h'.free) {i : Nat} (hg : Guarded h' cells fixed i) :
    i ∉ used ∧ Guarded h cells fixed i := by
  have hnd := he.free_nodup
  rw [hfree] at hnd
  have hused : ∀ j ∈ used, j ∈ h.free := fun j hj => hfree ▸ List.mem_append_left _ hj
  rcases hg with hc | hc | hc
  · exact ⟨fun hu => he.free_disjoint i (hused i hu) hc, .inl hc⟩
  · exact ⟨fun hu => (hi.fixed_disjoint i hc).2 (hused i hu), .inr (.inl hc)⟩
  · exact ⟨fun hu => (List.nodup_append.mp hnd).2.2 hu hc, .inr (.inr (hfree ▸ List.mem_append_right _ hc))⟩

theorem keeps_of_writes (he : EnvInv h genv cells kvs) (hi : Isolated h genv cells fixed kvs) (used : List Nat)
    (hsize : h'.size = h.size) (hfree : h.free = used ++ h'.free)
    (hkeep : ∀ j, j ∉ used → Guarded h cells fixed j → h'.cells j = h.cells j)
    (hwrite : ∀ j, j ∈ used ∨ h'.cells j ≠ h.cells j →
      Off (fun i => i ∉ used ∧ Guarded h cells fixed i) (h'.cells j).1 ∧
        Off (fun i => i ∉ used ∧ Guarded h cells fixed i) (h'.cells j).2) :
    Keeps genv cells fixed kvs h h' := by
  have hnd := he.free_nodup
  rw [hfree] at hnd
  have hsub : ∀ j ∈ h'.free, j ∈ h.free := fun j hj => hfree ▸ List.mem_append_right _ hj
  have hused : ∀ j ∈ used, j ∈ h.free := fun j hj => hfree ▸ List.mem_append_left _ hj
  have htook : ∀ i, Guarded h' cells fixed i → i ∉ used ∧ Guarded h cells fixed i :=
    fun _ => guarded_of_took he hi hfree
  have hmono : ∀ i, Guarded h' cells fixed i → Guarded h cells fixed i := fun i hg => (htook i hg).2
  -- a cell that is neither taken nor guarded before is not guarded after
  have hout : ∀ j, j ∉ used → ¬ Guarded h' cells fixed j → ¬ Guarded h cells fixed j := by
    rintro j hu hg (hc | hc | hc)
    · exact hg (.inl hc)
    · exact hg (.inr (.inl hc))
    · rw [hfree] at hc
      exact (List.mem_append.mp hc).elim hu fun hc => hg (.inr (.inr hc))
  have henv : ∀ c ∈ cellsOf cells, h'.cells c = h.cells c :=
    fun c hc => hkeep c (fun hu => he.free_disjoint c (hused c hu) hc) (.inl hc)
  refine ⟨⟨he.layout.congr henv, he.cells_nodup, fun c hc => hsize ▸ he.cells_lt c hc,
    (List.nodup_append.mp hnd).2.1, fun f hf => hsize ▸ he.free_lt f (hsub f hf),
    fun f hf => he.free_disjoint f (hsub f hf), he.keys_nodup⟩,
    ⟨fun j hj => ?_, fun j hj => ?_, Off.mono hsub hi.genv_live, fun kv hkv => Off.mono hmono (hi.vals kv hkv),
      fun c hc => ?_, fun c hc => ⟨(hi.fixed_disjoint c hc).1, fun hf => (hi.fixed_disjoint c hc).2 (hsub c hf)⟩⟩,
    hsub, fun c hc => hkeep c (fun hu => (hi.fixed_disjoint c hc).2 (hused c hu)) (.inr (.inl hc))⟩
  · -- a cell outside the guarded ones holds safe words
    by_cases hw : j ∈ used ∨ h'.cells j ≠ h.cells j
    · exact (hwrite j hw).imp (Off.mono htook) (Off.mono htook)
    · obtain ⟨hu, heq⟩ := not_or.mp hw
      rw [not_not.mp heq]
      exact (hi.outside j (hout j hu hj)).imp (Off.mono hmono) (Off.mono hmono)
  · -- a cell that is not free points at no free cell
    by_cases hw : j ∈ used ∨ h'.cells j ≠ h.cells j
    · exact (hwrite j hw).imp (Off.mono fun i hf => htook i (.inr (.inr hf)))
        (Off.mono fun i hf => htook i (.inr (.inr hf)))
    · obtain ⟨hu, heq⟩ := not_or.mp hw
      rw [not_not.mp heq]
      have hj' : j ∉ h.free := by
        rw [hfree]
        exact fun hc => (List.mem_append.mp hc).elim hu hj
      exact (hi.live j hj').imp (Off.mono hsub) (Off.mono hsub)
  · rw [hkeep c (fun hu => (hi.fixed_disjoint c hc).2 (hused c hu)) (.inr (.inl hc))]
    exact Off.mono hmono (hi.fixed_car c hc)

theorem cons_keeps (he : EnvInv h genv cells kvs) (hi : Isolated h genv cells fixed kvs) {a d : Value}
    (ha : Safe h cells fixed a) (hd : Safe h cells fixed d) :
    Keeps genv cells fixed kvs h (cons h a d).2 ∧ Safe (cons h a d).2 cells fixed (cons h a d).1 := by
  rcases hf : h.free with _ | ⟨i, rest⟩
  · rw [cons_nil_free h a d hf]
    exact ⟨.refl he hi, trivial⟩
  · rw [cons_free hf]
    have hfree : h.free = [i] ++ rest := hf
    have hgood : ∀ {w}, Safe h cells fixed w → Off (fun j => j ∉ [i] ∧ Guarded h cells fixed j) w :=
      Off.mono fun _ hj => hj.2
    refine ⟨keeps_of_writes he hi [i] rfl hfree
      (fun j hj _ => Function.update_noteq (by simpa using hj) _ _) fun j hj => ?_,
      fun hg => (guarded_of_took he hi hfree hg).1 (List.mem_singleton_self i)⟩
    obtain rfl : j = i := by
      by_contra hne
      simp only [List.mem_singleton, hne, false_or] at hj
      exact hj (Function.update_noteq hne _ _)
    simpa only [Function.update_same] using ⟨hgood ha, hgood hd⟩

theorem setCdr_keeps (he : EnvInv h genv cells kvs) (hi : Isolated h genv cells fixed kvs) {c v : Value}
    (hc : Safe h cells fixed c) (hv : Safe h cells fixed v) : Keeps genv cells fixed kvs h (setCdr h c v) := by
  unfold setCdr
  split
  · rename_i b
    have hgood : ∀ {w}, Safe h cells fixed w → Off (fun j => j ∉ [] ∧ Guarded h cells fixed j) w :=
      Off.mono fun _ hj => hj.2
    refine keeps_of_writes he hi [] rfl rfl (fun j _ hj => Function.update_noteq (by rintro rfl; exact hc hj) _ _)
      fun j hj => ?_
    obtain rfl : j = b := by
      by_contra hne
      simp only [List.not_mem_nil, false_or] at hj
      exact hj (Function.update_noteq hne _ _)
    simpa only [Function.update_same] using ⟨hgood (hi.outside j hc).1, hgood hv⟩
  · exact .refl he hi

theorem elems_safe (hi : Isolated h genv cells fixed kvs) :
    ∀ {n : Nat} {v : Value} {ws : List Value}, elems h n v = some ws → Safe h cells fixed v →
      ∀ w ∈ ws, Safe h cells fixed w := by
  intro n
  induction n with
  | zero => intro _ _ hws; cases hws
  | succ n ih =>
    intro v ws hws hv
    rcases v with _ | _ | _ | _ | ⟨_ | _ | _ | _ | _ | _ | _, ix⟩
    case ptr.cons =>
      simp only [elems, Option.map_eq_map, Option.map_eq_some'] at hws
      obtain ⟨ws', hws', rfl⟩ := hws
      simp only [List.mem_cons, forall_eq_or_imp]
      exact ⟨(hi.outside ix hv).1, ih hws' (hi.outside ix hv).2⟩
    all_goals simp only [elems, Option.some.injEq] at hws; subst hws; simp

theorem consOnto_keeps : ∀ {h : Heap} (xs : List Value) {acc : Value}, EnvInv h genv cells kvs →
    Isolated h genv cells fixed kvs → (∀ x ∈ xs, Safe h cells fixed x) → Safe h cells fixed acc →
    Keeps genv cells fixed kvs h (consOnto h acc xs).2 ∧ Safe (consOnto h acc xs).2 cells fixed (consOnto h acc xs).1
  | h, [], _, he, hi, _, hacc => ⟨.refl he hi, hacc⟩
  | h, x :: xs, acc, he, hi, hxs, hacc => by
    simp only [List.mem_cons, forall_eq_or_imp] at hxs
    obtain ⟨hk, hc⟩ := cons_keeps he hi hxs.1 hacc
    simp only [consOnto]
    split
    · rename_i ix h₁ heq
      rw [heq] at hk hc
      obtain ⟨hk', hc'⟩ := consOnto_keeps xs hk.env hk.iso (fun x hx => hk.safe (hxs.2 x hx)) hc
      exact ⟨hk.trans hk', hc'⟩
    · exact ⟨hk, hc⟩

theorem reverse_keeps (he : EnvInv h genv cells kvs) (hi : Isolated h genv cells fixed kvs) {l r : Value}
    (hl : Safe h cells fixed l) (hr : reverse h l = some (r, h')) :
    Keeps genv cells fixed kvs h h' ∧ Safe h' cells fixed r := by
  simp only [reverse, walk, Option.map_eq_some'] at hr
  obtain ⟨ws, hws, hr⟩ := hr
  simpa only [hr] using consOnto_keeps ws he hi (elems_safe hi hws hl) safe_nil

theorem envCopyShallow_keeps (he : EnvInv h genv cells kvs) (hi : Isolated h genv cells fixed kvs) {env : Value}
    {e : Option Value} (hv : Safe h cells fixed env) (hr : envCopyShallow h env = some (e, h')) :
    Keeps genv cells fixed kvs h h' ∧ ∀ w, e = some w → Safe h' cells fixed w := by
  simp only [envCopyShallow, walk, Option.map_eq_some'] at hr
  obtain ⟨bs, hbs, hr⟩ := hr
  have hc := consOnto_keeps bs.reverse he hi (fun x hx => elems_safe hi hbs hv x (List.mem_reverse.mp hx)) safe_nil
  split at hr <;> rename_i heq <;> rw [heq] at hc <;> cases hr
  · exact ⟨hc.1, fun w hw => Option.some.inj hw ▸ hc.2⟩
  · refine ⟨hc.1, fun w hw => ?_⟩
    split_ifs at hw
    cases hw
    exact trivial

theorem bindPairs_keeps : ∀ {h : Heap} (ps : List (Value × Value)) {env : Value}, EnvInv h genv cells kvs →
    Isolated h genv cells fixed kvs → (∀ p ∈ ps, Safe h cells fixed p.1 ∧ Safe h cells fixed p.2) →
    Safe h cells fixed env → Keeps genv cells fixed kvs h (bindPairs h env ps).2 ∧
      ∀ w, (bindPairs h env ps).1 = some w → Safe (bindPairs h env ps).2 cells fixed w
  | h, [], _, he, hi, _, hv => ⟨.refl he hi, fun _ hw => Option.some.inj hw ▸ hv⟩
  | h, (p, a) :: ps, env, he, hi, hps, hv => by
    simp only [List.mem_cons, forall_eq_or_imp] at hps
    obtain ⟨hk₁, hb⟩ := cons_keeps he hi hps.1.1 hps.1.2
    simp only [bindPairs]
    split
    · rename_i b h₁ heq
      rw [heq] at hk₁ hb
      obtain ⟨hk₂, he₂⟩ := cons_keeps hk₁.env hk₁.iso hb (hk₁.safe hv)
      split
      · rename_i e h₂ heq₂
        rw [heq₂] at hk₂ he₂
        obtain ⟨hk, hw⟩ := bindPairs_keeps ps hk₂.env hk₂.iso
          (fun q hq => ⟨hk₂.safe (hk₁.safe (hps.2 q hq).1), hk₂.safe (hk₁.safe (hps.2 q hq).2)⟩) he₂
        exact ⟨hk₁.trans (hk₂.trans hk), hw⟩
      · rename_i _ _ _ heq₂
        rw [heq₂] at hk₂
        exact ⟨hk₁.trans hk₂, fun _ hw => by cases hw⟩
    · rename_i _ _ _ heq
      rw [heq] at hk₁
      exact ⟨hk₁, fun _ hw => by cases hw⟩

theorem envBuildParamsArgs_keeps (he : EnvInv h genv cells kvs) (hi : Isolated h genv cells fixed kvs)
    {params args env : Value} {e : Option Value} (hp : Safe h cells fixed params) (ha : Safe h cells fixed args)
    (hv : Safe h cells fixed env) (hr : envBuildParamsArgs h params args env = some (e, h')) :
    Keeps genv cells fixed kvs h h' ∧ ∀ w, e = some w → Safe h' cells fixed w := by
  unfold envBuildParamsArgs at hr
  split at hr
  · rename_i ps as hps has
    have hk := bindPairs_keeps _ he hi (fun q hq => ⟨elems_safe hi hps hp _ (List.of_mem_zip hq).1,
      elems_safe hi has ha _ (List.of_mem_zip hq).2⟩) hv
    rwa [Option.some.inj hr] at hk
  · cases hr

theorem letPrebind_keeps : ∀ (n : Nat) {h : Heap} {newEnv binds e : Value} {h' : Heap}, EnvInv h genv cells kvs →
    Isolated h genv cells fixed kvs → Safe h cells fixed newEnv → Safe h cells fixed binds →
    letPrebind h newEnv n binds = some (e, h') → Keeps genv cells fixed kvs h h' ∧ Safe h' cells fixed e
  | 0, _, _, _, _, _, _, _, _, _, hr => by cases hr
  | n + 1, h, newEnv, binds, e, h', he, hi, hv, hb, hr => by
    rcases binds with _ | _ | _ | _ | ⟨_ | _ | _ | _ | _ | _ | _, ix⟩
    case ptr.cons =>
      have hcell := hi.outside ix hb
      obtain ⟨hk₁, hb₁⟩ := cons_keeps he hi (hcell.1.car hi) (safe_nil (h := h))
      simp only [letPrebind] at hr
      split at hr
      · rename_i b h₁ heq
        rw [heq] at hk₁ hb₁
        obtain ⟨hk₂, he₂⟩ := cons_keeps hk₁.env hk₁.iso hb₁ (hk₁.safe hv)
        split at hr
        · rename_i e₂ h₂ heq₂
          rw [heq₂] at hk₂ he₂
          obtain ⟨hk, he'⟩ := letPrebind_keeps n hk₂.env hk₂.iso he₂ ((hk₂.safe (hk₁.safe hb)).cdr hk₂.iso) hr
          exact ⟨hk₁.trans (hk₂.trans hk), he'⟩
        · cases hr
      · cases hr
    all_goals simp only [letPrebind, Option.some.injEq, Prod.mk.injEq] at hr; obtain ⟨rfl, rfl⟩ := hr; exact ⟨.refl he hi, hv⟩

theorem findBinding_safe (hi : Isolated h genv cells fixed kvs) {key : Value} :
    ∀ {n : Nat} {env bw : Value}, findBinding h key n env = some (some bw) → Safe h cells fixed env →
      Safe h cells fixed bw := by
  intro n
  induction n with
  | zero => intro _ _ hb; cases hb
  | succ n ih =>
    intro env bw hb hv
    rcases env with _ | _ | _ | _ | ⟨_ | _ | _ | _ | _ | _ | _, ix⟩
    case ptr.cons =>
      simp only [findBinding] at hb
      split_ifs at hb
      · cases hb
        exact (hi.outside ix hv).1
      · exact ih hb (hi.outside ix hv).2
    all_goals simp only [findBinding] at hb; cases hb

theorem envModifyBinding_keeps (he : EnvInv h genv cells kvs) (hi : Isolated h genv cells fixed kvs)
    {env key v : Value} (hv : Safe h cells fixed env) (hval : Safe h cells fixed v)
    (hr : envModifyBinding h env key v = some h') : Keeps genv cells fixed kvs h h' := by
  simp only [envModifyBinding, Option.map_eq_some'] at hr
  obtain ⟨b, hb, rfl⟩ := hr
  rcases b with _ | bw
  · exact .refl he hi
  · exact setCdr_keeps he hi (findBinding_safe hi hb hv) hval

theorem envLookup_safe (hi : Isolated h genv cells fixed kvs) {key env v : Value}
    (hr : envLookup h key env = some (some v)) (hv : Safe h cells fixed env) : Safe h cells fixed v := by
  simp only [envLookup, Option.map_eq_some'] at hr
  obtain ⟨b, hb, bw, rfl, rfl⟩ := hr
  exact (findBinding_safe hi hb hv).cdr hi

theorem globalLookup_safe (he : EnvInv h genv cells kvs) (hi : Isolated h genv cells fixed kvs) {key v : Value}
    (hr : envLookup h key genv = some (some v)) : Safe h cells fixed v := by
  rw [he.envLookup, Option.some.injEq, List.lookup_eq_some_iff] at hr
  obtain ⟨l₁, l₂, rfl, -⟩ := hr
  exact hi.vals (key, v) (by simp)

theorem Isolated.setBinding (he : EnvInv h genv cells kvs) (hi : Isolated h genv cells fixed kvs) {key v bw : Value}
    (hv : Safe h cells fixed v) (hb : findBinding h key (h.size + 1) genv = some (some bw)) :
    Isolated (setCdr h bw v) genv cells fixed (kvs.map fun kv => if kv.1 = key then (key, v) else kv) := by
  obtain ⟨b, rfl, hbc⟩ := he.layout.findBinding_mem _ hb
  have hne : ∀ j, j ∉ cellsOf cells → (setCdr h (.ptr .cons b) v).cells j = h.cells j :=
    fun j hj => setCdr_cells_ne fun e => hj (e ▸ hbc)
  refine ⟨fun j hj => ?_, fun j hj => ?_, hi.genv_live, fun kv hkv => ?_, fun c hc => ?_, hi.fixed_disjoint⟩
  · rw [hne j fun hc => hj (.inl hc)]
    exact hi.outside j hj
  · by_cases hjb : j = b
    · subst hjb
      simpa [setCdr] using ⟨(hi.live j hj).1, hv.live⟩
    · rw [setCdr_cells_ne hjb]
      exact hi.live j hj
  · obtain ⟨kv', hkv', rfl⟩ := List.mem_map.mp hkv
    split_ifs
    exacts [hv, hi.vals kv' hkv']
  · rw [hne c (hi.fixed_disjoint c hc).1]
    exact hi.fixed_car c hc

theorem guarded_push {h₂ : Heap} {kv g : Nat} {rest : List Nat} (hf : h.free = kv :: g :: rest)
    (hf₂ : h₂.free = rest) (j : Nat) : Guarded h₂ ((g, kv) :: cells) fixed j ↔ Guarded h cells fixed j := by
  simp only [Guarded, cellsOf_cons, List.mem_cons, hf, hf₂, or_assoc, or_left_comm]

theorem Safe.push {h₂ : Heap} {kv g : Nat} {rest : List Nat} (hf : h.free = kv :: g :: rest)
    (hf₂ : h₂.free = rest) {w : Value} (hw : Safe h cells fixed w) : Safe h₂ ((g, kv) :: cells) fixed w :=
  Off.mono (fun j => (guarded_push hf hf₂ j).mp) hw

theorem Isolated.push (he : EnvInv h genv cells kvs) (hi : Isolated h genv cells fixed kvs) {key v : Value}
    {kv g : Nat} {rest : List Nat} (hf : h.free = kv :: g :: rest) (hk : Safe h cells fixed key)
    (hv : Safe h cells fixed v) :
    Isolated { h with cells := Function.update (Function.update h.cells kv (key, v)) g (.ptr .cons kv, genv),
                      free := rest } (.ptr .cons g) ((g, kv) :: cells) fixed ((key, v) :: kvs) := by
  have hnd := he.free_nodup
  rw [hf] at hnd
  simp only [List.nodup_cons, List.mem_cons, not_or] at hnd
  obtain ⟨⟨hkg, hkr⟩, hgr, -⟩ := hnd
  set h₂ : Heap := ⟨h.size, Function.update (Function.update h.cells kv (key, v)) g (.ptr .cons kv, genv), rest⟩
  have hG : ∀ j, Guarded h₂ ((g, kv) :: cells) fixed j ↔ Guarded h cells fixed j := guarded_push hf rfl
  have hsafe : ∀ {w}, Safe h cells fixed w → Safe h₂ ((g, kv) :: cells) fixed w := Safe.push hf rfl
  have hrest : ∀ {w}, Off (· ∈ h.free) w → Off (· ∈ rest) w :=
    Off.mono fun j hj => by rw [hf]; exact List.mem_cons_of_mem _ (List.mem_cons_of_mem _ hj)
  have hfix : ∀ c ∈ fixed, c ≠ g ∧ c ≠ kv := fun c hc =>
    ⟨fun e => (hi.fixed_disjoint c hc).2 (by simp [hf, e]), fun e => (hi.fixed_disjoint c hc).2 (by simp [hf, e])⟩
  refine ⟨fun j hj => ?_, fun j hj => ?_, hgr, ?_, fun c hc => ?_, fun c hc => ?_⟩
  · have hj' : ¬ Guarded h cells fixed j := fun hg => hj ((hG j).mpr hg)
    have hjg : j ≠ g := fun e => hj (.inl (by simp [e]))
    have hjk : j ≠ kv := fun e => hj (.inl (by simp [e]))
    simp only [Function.update_noteq hjg, Function.update_noteq hjk]
    exact (hi.outside j hj').imp hsafe hsafe
  · by_cases hjg : j = g
    · subst hjg
      simpa using ⟨hkr, hrest hi.genv_live⟩
    by_cases hjk : j = kv
    · subst hjk
      simpa [Function.update_noteq hjg] using ⟨hrest hk.live, hrest hv.live⟩
    · simp only [Function.update_noteq hjg, Function.update_noteq hjk]
      have : j ∉ h.free := by simp [hf, hjg, hjk, hj]
      exact (hi.live j this).imp hrest hrest
  · simp only [List.mem_cons, forall_eq_or_imp]
    exact ⟨hsafe hv, fun kv' hkv' => hsafe (hi.vals kv' hkv')⟩
  · simp only [Function.update_noteq (hfix c hc).1, Function.update_noteq (hfix c hc).2]
    exact hsafe (hi.fixed_car c hc)
  · simp only [cellsOf_cons, List.mem_cons, not_or]
    exact ⟨⟨(hfix c hc).1, (hfix c hc).2, (hi.fixed_disjoint c hc).1⟩,
      fun hr => (hi.fixed_disjoint c hc).2 (by simp [hf, hr])⟩

/-- What the evaluator needs of `heap_perform_gc_aux`: the size and every cell it does not free
stay as they were, every free cell stays free, and no root and no remaining cell points at a free
cell. -/
structure Collected (roots : List Value) (h h' : Heap) : Prop where
  size_eq : h'.size = h.size
  kept : ∀ j, j ∉ h'.free → h'.cells j = h.cells j
  free_sub : ∀ j ∈ h.free, j ∈ h'.free
  free_nodup : h'.free.Nodup
  free_lt : ∀ j ∈ h'.free, j < h'.size
  roots_off : ∀ r ∈ roots, Off (· ∈ h'.free) r
  cells_off : ∀ j, j ∉ h'.free → Off (· ∈ h'.free) (h'.cells j).1 ∧ Off (· ∈ h'.free) (h'.cells j).2

/-- The collector meets `Collected` on every heap whose free list holds distinct cells of the heap
that no root and no other cell points at. -/
def GcSound (P : Prims) : Prop :=
  ∀ roots h, h.free.Nodup → (∀ j ∈ h.free, j < h.size) → (∀ r ∈ roots, Off (· ∈ h.free) r) →
    (∀ j, j ∉ h.free → Off (· ∈ h.free) (h.cells j).1 ∧ Off (· ∈ h.free) (h.cells j).2) →
    Collected roots h (P.performGc roots h)

theorem gcSound_bare : GcSound Prims.bare :=
  fun _ _ hnd hlt hr hc => ⟨rfl, fun _ _ => rfl, fun _ hj => hj, hnd, hlt, hr, hc⟩

theorem Layout.not_mem {F : Nat → Prop} {env : Value} (hl : Layout h env cells kvs) (hv : Off F env)
    (hc : ∀ j, ¬ F j → Off F (h.cells j).1 ∧ Off F (h.cells j).2) : ∀ c ∈ cellsOf cells, ¬ F c := by
  induction hl with
  | last => simp
  | @cell s b key v cells kvs hs _ _ ih =>
    have hsb := hc s hv
    rw [hs] at hsb
    simp only [cellsOf_cons, List.mem_cons, forall_eq_or_imp]
    exact ⟨hv, hsb.1, ih hsb.2⟩

theorem Spine.not_mem {F : Nat → Prop} {w : Value} {cs : List Nat} (hs : Spine h w cs) (hv : Off F w)
    (hc : ∀ j, ¬ F j → Off F (h.cells j).1 ∧ Off F (h.cells j).2) : ∀ c ∈ cs, ¬ F c := by
  induction hs with
  | last => simp
  | @cell c cs _ ih =>
    simp only [List.mem_cons, forall_eq_or_imp]
    exact ⟨hv, ih (hc c hv).2⟩

theorem Spine.congr {w : Value} {cs : List Nat} (hs : Spine h w cs) (hc : ∀ c ∈ cs, h'.cells c = h.cells c) :
    Spine h' w cs := by
  induction hs with
  | last hne => exact .last hne
  | @cell c cs _ ih =>
    simp only [List.mem_cons, forall_eq_or_imp] at hc
    exact .cell (hc.1 ▸ ih hc.2)

theorem Layout.mem_cell {env : Value} (hl : Layout h env cells kvs) :
    ∀ kv ∈ kvs, ∃ b ∈ cellsOf cells, h.cells b = kv := by
  induction hl with
  | last => simp
  | @cell s b key v cells kvs _ hb _ ih =>
    simp only [List.mem_cons, forall_eq_or_imp, cellsOf_cons]
    exact ⟨⟨b, by simp, hb⟩, fun kv hkv => (ih kv hkv).imp fun c hc => ⟨by simp [hc.1], hc.2⟩⟩

theorem Safe.collected {w : Value} (hw : Safe h cells fixed w) (hf : Off (· ∈ h'.free) w) : Safe h' cells fixed w := by
  rcases w with _ | _ | _ | _ | ⟨_, j⟩
  all_goals first | exact trivial | rintro (hj | hj | hj)
  exacts [hw (.inl hj), hw (.inr (.inl hj)), hf hj]

theorem Collected.keeps (he : EnvInv h genv cells kvs) (hi : Isolated h genv cells fixed kvs) {program : Value}
    {roots : List Value} (hs : Spine h program fixed) (hc : Collected roots h h') (hg : genv ∈ roots)
    (hp : program ∈ roots) :
    EnvInv h' genv cells kvs ∧ Isolated h' genv cells fixed kvs ∧ Spine h' program fixed ∧
      ∀ c ∈ fixed, h'.cells c = h.cells c := by
  have hcells : ∀ j, j ∉ h'.free → Off (· ∈ h'.free) (h.cells j).1 ∧ Off (· ∈ h'.free) (h.cells j).2 :=
    fun j hj => hc.kept j hj ▸ hc.cells_off j hj
  have henv := he.layout.not_mem (hc.roots_off genv hg) hcells
  have hfix := hs.not_mem (hc.roots_off program hp) hcells
  have hkept : ∀ c ∈ fixed, h'.cells c = h.cells c := fun c hc' => hc.kept c (hfix c hc')
  refine ⟨⟨he.layout.congr fun c hc' => hc.kept c (henv c hc'), he.cells_nodup,
    fun c hc' => hc.size_eq ▸ he.cells_lt c hc', hc.free_nodup, hc.free_lt,
    fun f hf hfc => henv f hfc hf, he.keys_nodup⟩, ⟨fun j hj => ?_, hc.cells_off,
    hc.roots_off genv hg, fun kv hkv => ?_, fun c hc' => ?_, fun c hc' => ⟨(hi.fixed_disjoint c hc').1, hfix c hc'⟩⟩,
    hs.congr hkept, hkept⟩
  · have hjf : j ∉ h'.free := fun hf => hj (.inr (.inr hf))
    have hj' : ¬ Guarded h cells fixed j := by
      rintro (hc' | hc' | hc')
      exacts [hj (.inl hc'), hj (.inr (.inl hc')), hjf (hc.free_sub j hc')]
    rw [hc.kept j hjf]
    exact ⟨(hi.outside j hj').1.collected (hcells j hjf).1, (hi.outside j hj').2.collected (hcells j hjf).2⟩
  · obtain ⟨b, hb, rfl⟩ := he.layout.mem_cell kv hkv
    exact (hi.vals _ hkv).collected (hcells b (henv b hb)).2
  · rw [hkept c hc']
    exact (hi.fixed_car c hc').collected (hcells c (hfix c hc')).1

/-- What the evaluator needs of `fundamental_exec`: it takes cells from the head of the free list
and writes no other cell, and the words it writes and returns point only at cells it took or at
cells its arguments reach. -/
def FundamentalSound (P : Prims) : Prop :=
  ∀ f args h res h', P.fundamentalExec f args h = some (res, h') →
    ∃ used, h.free = used ++ h'.free ∧ h'.size = h.size ∧ (∀ j, j ∉ used → h'.cells j = h.cells j) ∧
      ∀ w ∈ res :: used.flatMap (fun j => [(h'.cells j).1, (h'.cells j).2]),
        Off (fun i => i ∉ used ∧ ∀ a ∈ args, ¬ Reaches h a i) w

theorem fundamentalSound_bare : FundamentalSound Prims.bare := fun _ _ _ _ _ h => nomatch h

theorem reaches_not_guarded (hi : Isolated h genv cells fixed kvs) {a : Value} {i : Nat} (hr : Reaches h a i)
    (ha : Safe h cells fixed a) : ¬ Guarded h cells fixed i := by
  induction hr with
  | ptr => exact ha
  | car _ ih => exact ih (hi.outside _ ha).1
  | cdr _ ih => exact ih (hi.outside _ ha).2

theorem fundamental_keeps {P : Prims} (hP : FundamentalSound P) (he : EnvInv h genv cells kvs)
    (hi : Isolated h genv cells fixed kvs) {f res : Value} {args : List Value}
    (hargs : ∀ a ∈ args, Safe h cells fixed a) (hx : P.fundamentalExec f args h = some (res, h')) :
    Keeps genv cells fixed kvs h h' ∧ Safe h' cells fixed res := by
  obtain ⟨used, hfree, hsize, hkeep, hw⟩ := hP f args h res h' hx
  have hgood : ∀ w, Off (fun i => i ∉ used ∧ ∀ a ∈ args, ¬ Reaches h a i) w →
      Off (fun i => i ∉ used ∧ Guarded h cells fixed i) w :=
    fun _ => Off.mono fun i hi' => ⟨hi'.1, fun a ha hr => reaches_not_guarded hi hr (hargs a ha) hi'.2⟩
  refine ⟨keeps_of_writes he hi used hsize hfree (fun j hj _ => hkeep j hj) fun j hj => ?_,
    Off.mono (fun _ => guarded_of_took he hi hfree) (hgood _ (hw res (List.mem_cons_self _ _)))⟩
  have hj : j ∈ used := hj.elim id fun hne => by_contra fun hu => hne (hkeep j hu)
  exact ⟨hgood _ (hw _ (List.mem_cons_of_mem _ (List.mem_flatMap.mpr ⟨j, hj, by simp⟩))),
    hgood _ (hw _ (List.mem_cons_of_mem _ (List.mem_flatMap.mpr ⟨j, hj, by simp⟩)))⟩

end LispBM.GlobalEnv
