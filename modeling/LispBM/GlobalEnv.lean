import LispBM.EvalCps
import Mathlib.Data.List.Perm.Subperm

namespace LispBM.GlobalEnv

open ConsHeap EvalCps

/-- The global environment laid out in the heap as an association list: each spine cell paired
with the binding cell its car points at, and the key and value each binding holds. The spine
ends at the first word that is not a cons pointer, where the walks of `env.c` stop. -/
inductive Layout (h : Heap) : Value → List (Nat × Nat) → List (Value × Value) → Prop
  | last {env : Value} : env.isCons = false → Layout h env [] []
  | cell {s b : Nat} {key v : Value} {cells : List (Nat × Nat)} {kvs : List (Value × Value)} :
      (h.cells s).1 = .ptr .cons b → h.cells b = (key, v) → Layout h (h.cells s).2 cells kvs →
      Layout h (.ptr .cons s) ((s, b) :: cells) ((key, v) :: kvs)

/-- The spine and binding cells of a layout. -/
def cellsOf (cells : List (Nat × Nat)) : List Nat := cells.flatMap fun c => [c.1, c.2]

@[simp] theorem cellsOf_nil : cellsOf [] = [] := rfl

@[simp] theorem cellsOf_cons (s b : Nat) (cells : List (Nat × Nat)) :
    cellsOf ((s, b) :: cells) = s :: b :: cellsOf cells := rfl

/-- A global environment that is a duplicate-free association list of its own cells, none of
them free, in a heap whose free list holds distinct cells of the heap. -/
structure EnvInv (h : Heap) (genv : Value) (cells : List (Nat × Nat)) (kvs : List (Value × Value)) : Prop where
  layout : Layout h genv cells kvs
  cells_nodup : (cellsOf cells).Nodup
  cells_lt : ∀ c ∈ cellsOf cells, c < h.size
  free_nodup : h.free.Nodup
  free_lt : ∀ f ∈ h.free, f < h.size
  free_disjoint : ∀ f ∈ h.free, f ∉ cellsOf cells
  keys_nodup : (kvs.map Prod.fst).Nodup

variable {h h' : Heap} {env : Value} {cells : List (Nat × Nat)} {kvs : List (Value × Value)}

theorem Layout.congr (hl : Layout h env cells kvs) (hc : ∀ i ∈ cellsOf cells, h'.cells i = h.cells i) :
    Layout h' env cells kvs := by
  induction hl with
  | last hne => exact .last hne
  | @cell s b key v cells kvs hs hb _ ih =>
    simp only [cellsOf_cons, List.mem_cons] at hc
    have hs' := hc s (.inl rfl)
    refine .cell (by rw [hs', hs]) (by rw [hc b (.inr (.inl rfl)), hb]) ?_
    rw [hs']
    exact ih fun i hi => hc i (.inr (.inr hi))

theorem length_lt_of_nodup {n : Nat} {l : List Nat} (hnd : l.Nodup) (hlt : ∀ c ∈ l, c < n) : l.length ≤ n := by
  simpa using (hnd.subperm fun c hc => List.mem_range.mpr (hlt c hc)).length_le

theorem length_cellsOf : ∀ cells : List (Nat × Nat), (cellsOf cells).length = 2 * cells.length
  | [] => rfl
  | (s, b) :: cells => by simp only [cellsOf_cons, List.length_cons, length_cellsOf cells]; omega

theorem EnvInv.length_lt (hi : EnvInv h env cells kvs) : cells.length < h.size + 1 := by
  have := length_lt_of_nodup hi.cells_nodup hi.cells_lt
  rw [length_cellsOf] at this
  omega

variable {key : Value} {fuel : Nat}

theorem findBinding_of_not_cons (hne : env.isCons = false) (n : Nat) : findBinding h key (n + 1) env = some none := by
  rcases env with _ | _ | _ | _ | ⟨_ | _ | _ | _ | _ | _ | _, ix⟩ <;> first | rfl | cases hne

theorem findBinding_cell {s b : Nat} (hs : (h.cells s).1 = .ptr .cons b) (n : Nat) :
    findBinding h key (n + 1) (.ptr .cons s) =
      if (h.cells b).1 = key then some (some (.ptr .cons b)) else findBinding h key n (h.cells s).2 := by
  simp only [findBinding, hs, car]

theorem Layout.envLookup (hl : Layout h env cells kvs) :
    ∀ fuel, cells.length < fuel → (findBinding h key fuel env).map (Option.map (cdr h)) = some (kvs.lookup key) := by
  induction hl with
  | last hne =>
    intro fuel hf
    obtain ⟨n, rfl⟩ : ∃ n, fuel = n + 1 := ⟨fuel - 1, by omega⟩
    rw [findBinding_of_not_cons hne]
    rfl
  | @cell s b key₀ v cells kvs hs hb _ ih =>
    intro fuel hf
    obtain ⟨n, rfl⟩ : ∃ n, fuel = n + 1 := ⟨fuel - 1, by simp at hf; omega⟩
    rw [findBinding_cell hs, hb]
    by_cases hk : key₀ = key
    · subst hk
      simp [cdr, hb]
    · have hne : (key == key₀) = false := beq_eq_false_iff_ne.mpr (Ne.symm hk)
      simp only [hk, if_false, List.lookup_cons, hne]
      exact ih n (by simp at hf; omega)

theorem Layout.findBinding_mem (hl : Layout h env cells kvs) {bw : Value} :
    ∀ fuel, findBinding h key fuel env = some (some bw) → ∃ b, bw = .ptr .cons b ∧ b ∈ cellsOf cells := by
  induction hl with
  | last hne =>
    rintro (_ | n) hb
    · cases hb
    · rw [findBinding_of_not_cons hne] at hb
      cases hb
  | @cell s b key₀ v cells kvs hs hb' _ ih =>
    rintro (_ | n) hb
    · cases hb
    rw [findBinding_cell hs] at hb
    split_ifs at hb
    · cases hb
      exact ⟨b, rfl, by simp⟩
    · obtain ⟨b', rfl, hmem⟩ := ih n hb
      exact ⟨b', rfl, by simp [hmem]⟩

theorem Layout.findBinding_none (hl : Layout h env cells kvs) :
    ∀ fuel, findBinding h key fuel env = some none → key ∉ kvs.map Prod.fst := by
  induction hl with
  | last => intro _ _; simp
  | @cell s b key₀ v cells kvs hs hb' _ ih =>
    rintro (_ | n) hb
    · cases hb
    rw [findBinding_cell hs, hb'] at hb
    split_ifs at hb with hk
    · cases hb
    · simp only [List.map_cons, List.mem_cons, not_or]
      exact ⟨fun he => hk he.symm, ih n hb⟩

theorem Layout.findBinding_key (hl : Layout h env cells kvs) {bw : Value} :
    ∀ fuel, findBinding h key fuel env = some (some bw) → key ∈ kvs.map Prod.fst := by
  induction hl with
  | last hne =>
    rintro (_ | n) hb
    · cases hb
    · rw [findBinding_of_not_cons hne] at hb
      cases hb
  | @cell s b key₀ v cells kvs hs hb' _ ih =>
    rintro (_ | n) hb
    · cases hb
    rw [findBinding_cell hs, hb'] at hb
    split_ifs at hb with hk
    · simp [← hk]
    · simp [ih n hb]

theorem setCdr_cells_ne {b i : Nat} {v : Value} (hi : i ≠ b) : (setCdr h (.ptr .cons b) v).cells i = h.cells i := by
  simp [setCdr, Function.update_noteq hi]

theorem Layout.setBinding (hl : Layout h env cells kvs) (hnd : (cellsOf cells).Nodup)
    (hkeys : (kvs.map Prod.fst).Nodup) {v bw : Value} :
    ∀ fuel, findBinding h key fuel env = some (some bw) →
      Layout (setCdr h bw v) env cells (kvs.map fun kv => if kv.1 = key then (key, v) else kv) := by
  induction hl with
  | last hne =>
    rintro (_ | n) hb
    · cases hb
    · rw [findBinding_of_not_cons hne] at hb
      cases hb
  | @cell s b key₀ v₀ cells kvs hs hb' hrest ih =>
    rintro (_ | n) hb
    · cases hb
    simp only [cellsOf_cons, List.nodup_cons, List.mem_cons, not_or] at hnd
    obtain ⟨⟨hsb, hs_rest⟩, hb_rest, hnd⟩ := hnd
    simp only [List.map_cons, List.nodup_cons] at hkeys
    rw [findBinding_cell hs, hb'] at hb
    split_ifs at hb with hk
    · -- the first binding holds the key: its cdr is written
      cases hb
      have hk' : key₀ = key := hk
      subst hk'
      have hkeep : (kvs.map fun kv => if kv.1 = key₀ then (key₀, v) else kv) = kvs := by
        refine (List.map_congr_left fun kv hkv => ?_).trans (List.map_id kvs)
        exact if_neg fun he => hkeys.1 (by rw [← he]; exact List.mem_map_of_mem Prod.fst hkv)
      simp only [List.map_cons, if_true, hkeep]
      refine .cell (by rw [setCdr_cells_ne hsb, hs]) (by simp [setCdr, hb']) ?_
      rw [setCdr_cells_ne hsb]
      exact hrest.congr fun i hi => setCdr_cells_ne fun he => hb_rest (he ▸ hi)
    · -- the key is further down the spine
      obtain ⟨b', rfl, hmem⟩ := hrest.findBinding_mem n hb
      have hs' : s ≠ b' := fun he => hs_rest (he ▸ hmem)
      have hb'' : b ≠ b' := fun he => hb_rest (he ▸ hmem)
      simp only [List.map_cons, hk, if_false]
      refine .cell (by rw [setCdr_cells_ne hs', hs]) (by rw [setCdr_cells_ne hb'', hb']) ?_
      rw [setCdr_cells_ne hs']
      exact ih hnd hkeys.2 n hb

theorem EnvInv.envLookup (hi : EnvInv h env cells kvs) : envLookup h key env = some (kvs.lookup key) :=
  hi.layout.envLookup _ hi.length_lt

theorem lookup_update_self {v : Value} : ∀ {kvs : List (Value × Value)}, key ∈ kvs.map Prod.fst →
    (kvs.map fun kv => if kv.1 = key then (key, v) else kv).lookup key = some v
  | (k, w) :: kvs, hk => by
    by_cases he : k = key
    · subst he; simp
    · have hne : (key == k) = false := beq_eq_false_iff_ne.mpr (Ne.symm he)
      simp only [List.map_cons, he, if_false, List.lookup_cons, hne]
      exact lookup_update_self (by simpa [Ne.symm he] using hk)

theorem lookup_update_ne {v k' : Value} (hne : k' ≠ key) (kvs : List (Value × Value)) :
    (kvs.map fun kv => if kv.1 = key then (key, v) else kv).lookup k' = kvs.lookup k' := by
  induction kvs with
  | nil => rfl
  | cons kw kvs ih =>
    obtain ⟨k, w⟩ := kw
    by_cases he : k = key
    · subst he
      have hb : (k' == k) = false := beq_eq_false_iff_ne.mpr hne
      simp only [List.map_cons, if_true, List.lookup_cons, hb]
      exact ih
    · simp only [List.map_cons, he, if_false, List.lookup_cons]
      split
      · rfl
      · exact ih

theorem keys_update {v : Value} (kvs : List (Value × Value)) :
    (kvs.map fun kv => if kv.1 = key then (key, v) else kv).map Prod.fst = kvs.map Prod.fst := by
  rw [List.map_map]
  exact List.map_congr_left fun kv _ => by by_cases he : kv.1 = key <;> simp [he]

theorem cons_free {a d : Value} {f : Nat} {rest : List Nat} (hf : h.free = f :: rest) :
    cons h a d = (.ptr .cons f, { h with cells := Function.update h.cells f (a, d), free := rest }) := by
  simp [cons, hf]

theorem EnvInv.setBinding (hi : EnvInv h env cells kvs) {v bw : Value}
    (hb : findBinding h key (h.size + 1) env = some (some bw)) :
    EnvInv (setCdr h bw v) env cells (kvs.map fun kv => if kv.1 = key then (key, v) else kv) := by
  obtain ⟨b, rfl, -⟩ := hi.layout.findBinding_mem _ hb
  exact ⟨hi.layout.setBinding hi.cells_nodup hi.keys_nodup _ hb, hi.cells_nodup, hi.cells_lt, hi.free_nodup,
    hi.free_lt, hi.free_disjoint, (keys_update kvs).symm ▸ hi.keys_nodup⟩

theorem EnvInv.push (hi : EnvInv h env cells kvs) {kv g : Nat} {rest : List Nat} (hf : h.free = kv :: g :: rest)
    {v : Value} (hk : key ∉ kvs.map Prod.fst) :
    EnvInv { h with cells := Function.update (Function.update h.cells kv (key, v)) g (.ptr .cons kv, env),
                    free := rest } (.ptr .cons g) ((g, kv) :: cells) ((key, v) :: kvs) := by
  have hfree := hi.free_nodup
  rw [hf] at hfree
  simp only [List.nodup_cons, List.mem_cons, not_or] at hfree
  obtain ⟨⟨hkg, hkrest⟩, hgrest, hrest⟩ := hfree
  have hkv := hi.free_disjoint kv (by simp [hf])
  have hg := hi.free_disjoint g (by simp [hf])
  have hkv_lt := hi.free_lt kv (by simp [hf])
  have hg_lt := hi.free_lt g (by simp [hf])
  refine ⟨.cell (by simp) (by simp [Function.update_noteq hkg]) ?_, ?_, ?_, hrest, fun f hf' => hi.free_lt f (by simp [hf, hf']),
    fun f hf' => ?_, ?_⟩
  · simp only [Function.update_same]
    refine hi.layout.congr fun i hi' => ?_
    show Function.update (Function.update h.cells kv (key, v)) g _ i = h.cells i
    rw [Function.update_noteq (fun he : i = g => hg (he ▸ hi')), Function.update_noteq (fun he : i = kv => hkv (he ▸ hi'))]
  · simp only [cellsOf_cons, List.nodup_cons, List.mem_cons, not_or]
    exact ⟨⟨Ne.symm hkg, hg⟩, hkv, hi.cells_nodup⟩
  · simp only [cellsOf_cons, List.mem_cons]
    rintro c (rfl | rfl | hc)
    · exact hg_lt
    · exact hkv_lt
    · exact hi.cells_lt c hc
  · simp only [cellsOf_cons, List.mem_cons, not_or]
    exact ⟨fun he => hgrest (he ▸ hf'), fun he => hkrest (he ▸ hf'), hi.free_disjoint f (by simp [hf, hf'])⟩
  · simp only [List.map_cons, List.nodup_cons]
    exact ⟨hk, hi.keys_nodup⟩

theorem contSetGlobalEnv_cases {m m' : Machine} (h : contSetGlobalEnv m = some m') :
    (∃ bw, findBinding m.heap (pop m.k).1 (m.heap.size + 1) m.globalEnv = some (some bw) ∧
      m' = { m with k := (pop m.k).2, heap := setCdr m.heap bw m.r, r := .sym symreprTrue }) ∨
    (findBinding m.heap (pop m.k).1 (m.heap.size + 1) m.globalEnv = some none ∧
      ∃ kv g rest, m.heap.free = kv :: g :: rest ∧
        m' = { m with
          k := (pop m.k).2, globalEnv := .ptr .cons g, r := .sym symreprTrue,
          heap := ⟨m.heap.size, Function.update (Function.update m.heap.cells kv ((pop m.k).1, m.r)) g
            (.ptr .cons kv, m.globalEnv), rest⟩ }) ∨
    (findBinding m.heap (pop m.k).1 (m.heap.size + 1) m.globalEnv = some none ∧
      m' = { m with
        k := .u kSetGlobalEnv :: (pop m.k).1 :: (pop m.k).2, heap := (cons m.heap (pop m.k).1 m.r).2,
        performGc := true }) := by
  rcases hp : pop m.k with ⟨key, stk⟩
  simp only [contSetGlobalEnv, hp, Option.map_eq_some'] at h
  obtain ⟨r, hr, rfl⟩ := h
  rcases r with _ | bw
  · rcases hf : m.heap.free with _ | ⟨kv, _ | ⟨g, rest⟩⟩
    · exact .inr (.inr ⟨hr, by simp [cons, hf]⟩)
    · exact .inr (.inr ⟨hr, by simp [cons, hf]⟩)
    · exact .inr (.inl ⟨hr, kv, g, rest, rfl, by simp [cons, hf]⟩)
  · exact .inl ⟨bw, hr, rfl⟩

theorem contSetGlobalEnv_inv {m m' : Machine} (hi : EnvInv m.heap m.globalEnv cells kvs)
    (h : contSetGlobalEnv m = some m') :
    m'.performGc = true ∨ m'.performGc = m.performGc ∧ ∃ cells' kvs', EnvInv m'.heap m'.globalEnv cells' kvs' ∧
      kvs'.lookup (pop m.k).1 = some m.r ∧ ∀ k', k' ≠ (pop m.k).1 → kvs'.lookup k' = kvs.lookup k' := by
  rcases contSetGlobalEnv_cases h with ⟨bw, hr, rfl⟩ | ⟨hr, kv, g, rest, hf, rfl⟩ | ⟨-, rfl⟩
  · -- the key is bound: its binding is set
    exact .inr ⟨rfl, cells, _, hi.setBinding hr, lookup_update_self (hi.layout.findBinding_key _ hr),
      fun k' hne => lookup_update_ne hne kvs⟩
  · -- a new first binding
    refine .inr ⟨rfl, _, _, hi.push hf (hi.layout.findBinding_none _ hr), by simp, fun k' hne => ?_⟩
    have hb : (k' == (pop m.k).1) = false := beq_eq_false_iff_ne.mpr hne
    simp only [List.lookup_cons, hb]
  · exact .inl rfl

end LispBM.GlobalEnv
