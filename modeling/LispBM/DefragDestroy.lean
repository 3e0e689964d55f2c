import LispBM.DefragAlloc

namespace LispBM.DefragMem

variable (w : Nat) (T : Target)

/-- `free_defrag_allocation` on the record at word `i`: `lbm_set_car_and_cdr` of its back-pointer
cell to `ENC_SYM_NIL` (the model keeps the cells' car words only), then `bs2ws size + 3` words
zeroed from the record's size word. -/
def freeDefragAllocation (words : Nat → Nat) (c : Cells) (i : Nat) : (Nat → Nat) × Cells :=
  let size := words i
  if size > 0 then
    let nwords := bs2ws w size + 3
    (memset words i nwords, { c with car := Function.update c.car (words (i + 2)) T.encNil })
  else (words, c)

/-- The loop of `lbm_defrag_mem_destroy` from word `i`; every turn moves `i` on, so `size` turns
are enough. -/
def destroyLoop (size : Nat) : Nat → Nat → (Nat → Nat) → Cells → (Nat → Nat) × Cells
  | 0, _, words, c => (words, c)
  | fuel + 1, i, words, c =>
    if i < size then
      if words i ≠ 0 then
        let allocWords := 3 + bs2ws w (words i)
        let freed := freeDefragAllocation w T words c i
        destroyLoop size fuel (i + allocWords) freed.1 freed.2
      else destroyLoop size fuel (i + 1) words c
    else (words, c)

/-- `lbm_defrag_mem_destroy` up to the `lbm_free` of the block: the data words and the cells it
leaves. -/
def destroy (p : Pool) (c : Cells) : (Nat → Nat) × Cells := destroyLoop w T p.size p.size 0 p.words c

section Destroy

variable {w} {size : Nat}

theorem readRecords_bounds {words : Nat → Nat} :
    ∀ {fuel i : Nat} {rs : List Nat}, readRecords w size words fuel i = some rs → i ≤ size ∧ ∀ r ∈ rs, i ≤ r
  | 0, _, _, h => by cases h
  | fuel + 1, i, rs, h => by
    rw [readRecords] at h
    split_ifs at h with h1 h2 h3
    · cases h
      exact ⟨Nat.le_of_eq h1, fun _ h => nomatch h⟩
    · obtain ⟨hi, hr⟩ := readRecords_bounds h
      exact ⟨by omega, fun r hmem => by have := hr r hmem; omega⟩
    · obtain ⟨rs', h', rfl⟩ := Option.map_eq_some'.mp h
      obtain ⟨hi, hr⟩ := readRecords_bounds h'
      refine ⟨by omega, fun r hmem => ?_⟩
      rcases List.mem_cons.mp hmem with rfl | hmem
      · exact Nat.le_refl r
      · have := hr r hmem; omega

theorem readRecords_congr {words words' : Nat → Nat} :
    ∀ {fuel i : Nat}, (∀ j, i ≤ j → words' j = words j) →
      readRecords w size words' fuel i = readRecords w size words fuel i
  | 0, _, _ => rfl
  | fuel + 1, i, h => by
    simp only [readRecords, h i (Nat.le_refl i)]
    rw [readRecords_congr fun j hj => h j (by omega), readRecords_congr fun j hj => h j (by omega)]

/-- The walk of `lbm_defrag_mem_destroy` over a pool that tiles into records from word `i`: it
zeroes every word from `i` to the end of the pool, writes nothing past it, and sets to `nil` the
car of exactly the records' back-pointer cells. -/
theorem destroyLoop_eq : ∀ (fuel i : Nat) (words : Nat → Nat) (c : Cells) (rs : List Nat),
    readRecords w size words (fuel + 1) i = some rs →
      destroyLoop w T size fuel i words c =
        (fun j => if i ≤ j ∧ j < size then 0 else words j,
          { c with car := fun x => if x ∈ rs.map (fun r => words (r + 2)) then T.encNil else c.car x })
  | 0, i, words, c, rs, h => by
    simp only [readRecords] at h
    split_ifs at h with h1
    · cases h
      simp only [destroyLoop, List.map_nil, List.not_mem_nil, if_false]
      congr 1
      exact funext fun j => by rw [if_neg (by omega)]
    all_goals cases h
  | fuel + 1, i, words, c, rs, h => by
    rw [readRecords] at h
    split_ifs at h with h1 h2 h3
    · cases h
      simp only [destroyLoop, show ¬ i < size by omega, if_false, List.map_nil, List.not_mem_nil]
      congr 1
      exact funext fun j => by rw [if_neg (by omega)]
    · rw [destroyLoop, if_pos (by omega), if_neg (not_not.mpr h3), destroyLoop_eq fuel (i + 1) words c rs h]
      refine Prod.ext (funext fun j => ?_) rfl
      by_cases hj : j = i
      · subst hj; simp [h3]
      · simp only [show (i ≤ j ∧ j < size) ↔ (i + 1 ≤ j ∧ j < size) by omega]
    · obtain ⟨rs', h', rfl⟩ := Option.map_eq_some'.mp h
      have hb := readRecords_bounds h'
      have hkeep : ∀ j, i + 3 + bs2ws w (words i) ≤ j →
          memset words i (bs2ws w (words i) + 3) j = words j := fun j hj => by
        simp only [memset]; rw [if_neg (by omega)]
      have h'' := (readRecords_congr hkeep).trans h'
      rw [destroyLoop, if_pos (by omega), if_pos h3]
      simp only [freeDefragAllocation, if_pos (Nat.pos_of_ne_zero h3)]
      rw [← Nat.add_assoc, destroyLoop_eq fuel _ _ _ rs' h'']
      refine Prod.ext (funext fun j => ?_) ?_
      · simp only [memset]
        split_ifs <;> omega
      · have hbp : ∀ r ∈ rs', memset words i (bs2ws w (words i) + 3) (r + 2) = words (r + 2) :=
          fun r hr => hkeep _ (by have := hb.2 r hr; omega)
        simp only [List.map_cons, List.mem_cons, List.map_congr_left hbp]
        congr 1
        funext x
        by_cases hx : x = words (i + 2)
        · subst hx
          simp
        · simp [hx, Function.update_noteq hx]

end Destroy

/-- `lbm_defrag_mem_destroy` on a pool that tiles into records: every data word of the pool is
zeroed, nothing past the pool is written, and exactly the records' back-pointer cells get `nil`
for their car. -/
theorem destroy_releases_records {p : Pool} {c : Cells} {rs : List Nat}
    (h : readRecords w p.size p.words (p.size + 1) 0 = some rs) :
    destroy w T p c =
      (fun j => if j < p.size then 0 else p.words j,
        { c with car := fun x => if x ∈ rs.map (fun r => p.words (r + 2)) then T.encNil else c.car x }) := by
  rw [destroy, destroyLoop_eq T p.size 0 p.words c rs h]
  simp only [Nat.zero_le, true_and]

/-- Destroying the fragmented pool releases its one record, at word 4. -/
theorem destroy_fragmented :
    destroy 4 target0 fragmented.1 fragmented.2 =
      (fun j => if j < fragmented.1.size then 0 else fragmented.1.words j,
        { fragmented.2 with
          car := fun x => if x ∈ [4].map (fun r => fragmented.1.words (r + 2)) then target0.encNil
            else fragmented.2.car x }) :=
  destroy_releases_records 4 target0 rfl

end LispBM.DefragMem
