import LispBM.DefragMem

namespace LispBM.DefragMem

variable (w : Nat)

/-- Every data word a pool claims lies inside a block of `bytes` bytes: the two header words and
`size` data words fit. -/
def Backed (p : Pool) (bytes : Nat) : Prop := 2 * w + p.size * w ≤ bytes

/-- On a 32-bit build, `lbm_defrag_mem_create(0xffffffff)` asks `lbm_malloc` for
`8 + 4 * 2^30` bytes, which wraps to 8: with an `lbm_malloc` that hands back what it is asked
for, the pool claims `2^30` data words in a block that holds only its header. -/
theorem create_wraps_block_size :
    create 4 (fun _ => true) true 4294967295 = some (⟨1073741824, 0, fun _ => 0⟩, 8) ∧
      ¬ Backed 4 ⟨1073741824, 0, fun _ => 0⟩ 8 := by
  refine ⟨?_, by simp [Backed]⟩
  have hb : bs2ws 4 4294967295 = 1073741824 := by decide
  have hbytes : (2 * 4 + 1073741824 * 4) % 2 ^ (8 * 4) = 8 := by decide
  simp only [create, hb, hbytes, Bool.and_self, ite_true, show (1073741824 : Nat) > 0 from by decide]

/-- A pool of sixteen 4-byte words at `0x1000` after `alloc(4)` twice and freeing the first record,
with cell 3 still free: a four-word hole, the record at word 4, and eight free words from 8. -/
def fragmented : Pool × Cells :=
  let r1 := alloc 4 target0 ⟨16, 0, fun _ => 0⟩ ⟨fun _ => 0, [1, 2, 3]⟩ 4
  let r2 := alloc 4 target0 r1.2.1 r1.2.2 4
  (free 4 r2.2.1 0, r2.2.2)

/-- `alloc(8)` needs five words and the eight from word 8 are free, but it fails: the search
leaves the hole at the record's size word, resumes at its data word, and jumps by that address
past the end of the pool. -/
theorem alloc_misses_free_run :
    WellFormed 4 target0 fragmented.1 fragmented.2 ∧ fragmented.1.flags = 0 ∧ fragmented.2.free = [3] ∧
      (∀ j < 8, fragmented.1.words (8 + j) = 0) ∧ (alloc 4 target0 fragmented.1 fragmented.2 8).1 = none :=
  ⟨⟨[4], rfl, by decide, by decide⟩, rfl, rfl, by decide, rfl⟩

end LispBM.DefragMem
