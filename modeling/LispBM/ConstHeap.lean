import Mathlib.Logic.Function.Basic

namespace LispBM.ConstHeap

/-- `CONSTANT_MEMORY_SIZE`. -/
def constantMemorySize : Nat := 32 * 1024

variable {w : Nat}

/-- `const_heap_write` on `constants_memory`, words of the build's width `w`: the result, and the
memory after the call. The empty-slot test compares with the literal `0xffffffff`. -/
def constHeapWrite (mem : Nat → BitVec w) (ix : Nat) (v : BitVec w) : Bool × (Nat → BitVec w) :=
  if ix ≥ constantMemorySize then (false, mem)
  else if mem ix = 0xffffffff then (true, Function.update mem ix v)
  else if mem ix = v then (true, mem)
  else (false, mem)

/-- `constants_memory` after `init_repl`'s `memset` with `0xFF` bytes. -/
def initRepl : Nat → BitVec w := fun _ => BitVec.allOnes w

/-- The memory after a sequence of calls. -/
def writeAll (mem : Nat → BitVec w) (ws : List (Nat × BitVec w)) : Nat → BitVec w :=
  ws.foldl (fun mem p => (constHeapWrite mem p.1 p.2).2) mem

theorem constHeapWrite_out_of_range (mem : Nat → BitVec w) {ix : Nat} (v : BitVec w)
    (hix : constantMemorySize ≤ ix) : constHeapWrite mem ix v = (false, mem) := by
  simp [constHeapWrite, hix]

theorem constHeapWrite_stores {mem : Nat → BitVec w} {ix : Nat} {v : BitVec w}
    (hok : (constHeapWrite mem ix v).1 = true) : (constHeapWrite mem ix v).2 ix = v := by
  unfold constHeapWrite at hok ⊢
  split_ifs at hok ⊢ with _ _ hv <;> simp_all

theorem constHeapWrite_keeps {mem : Nat → BitVec w} {ix : Nat} {v : BitVec w}
    (hmem : mem ix = v) (hv : v ≠ 0xffffffff) (j : Nat) (u : BitVec w) :
    (constHeapWrite mem j u).2 ix = v := by
  unfold constHeapWrite
  split_ifs with _ hj
  · exact hmem
  · have hne : ix ≠ j := by rintro rfl; exact hv (hmem ▸ hj)
    simpa [Function.update_noteq hne] using hmem
  all_goals exact hmem

theorem writeAll_keeps {mem : Nat → BitVec w} {ix : Nat} {v : BitVec w}
    (hmem : mem ix = v) (hv : v ≠ 0xffffffff) (ws : List (Nat × BitVec w)) :
    writeAll mem ws ix = v := by
  induction ws generalizing mem with
  | nil => exact hmem
  | cons p ws ih => exact ih (constHeapWrite_keeps hmem hv p.1 p.2)

theorem constHeapWrite_set_iff {mem : Nat → BitVec w} {ix : Nat} {v : BitVec w}
    (hix : ix < constantMemorySize) (hmem : mem ix = v) (hv : v ≠ 0xffffffff) (v' : BitVec w) :
    (constHeapWrite mem ix v').1 = true ↔ v' = v := by
  rw [constHeapWrite, if_neg (Nat.not_le.mpr hix), hmem, if_neg hv]
  by_cases h : v' = v
  · simp [h]
  · simp [h, Ne.symm h]

theorem writeAll_other {mem : Nat → BitVec w} {ix : Nat} {ws : List (Nat × BitVec w)}
    (hfresh : ∀ p ∈ ws, p.1 ≠ ix) : writeAll mem ws ix = mem ix := by
  induction ws generalizing mem with
  | nil => rfl
  | cons p ws ih =>
    have hp : (constHeapWrite mem p.1 p.2).2 ix = mem ix := by
      unfold constHeapWrite
      split_ifs <;> simp [Function.update_noteq (hfresh p (List.mem_cons_self _ _)).symm]
    exact (ih fun q hq => hfresh q (List.mem_cons_of_mem _ hq)).trans hp

/-- The write-once law as the code keeps it: out-of-range calls fail and change nothing, a word
other than the literal `0xffffffff` stays once written and later calls succeed iff they write it
again, and on a 32-bit build the first call for a slot after `init_repl` succeeds and stores its
word. -/
theorem const_heap_write_once (w : Nat) :
    (∀ (mem : Nat → BitVec w) ix v, constantMemorySize ≤ ix → constHeapWrite mem ix v = (false, mem)) ∧
    (∀ (mem : Nat → BitVec w) ix v ws, v ≠ 0xffffffff → (constHeapWrite mem ix v).1 = true →
      writeAll (constHeapWrite mem ix v).2 ws ix = v ∧
        ∀ v', (constHeapWrite (writeAll (constHeapWrite mem ix v).2 ws) ix v').1 = true ↔ v' = v) ∧
    (w = 32 → ∀ (ws : List (Nat × BitVec w)) ix v, ix < constantMemorySize → (∀ p ∈ ws, p.1 ≠ ix) →
      (constHeapWrite (writeAll initRepl ws) ix v).1 = true ∧
        (constHeapWrite (writeAll initRepl ws) ix v).2 ix = v) := by
  refine ⟨fun mem ix v hix => constHeapWrite_out_of_range mem v hix, ?_, ?_⟩
  · intro mem ix v ws hv hok
    have hix : ix < constantMemorySize := Nat.not_le.mp fun hix => by
      simp [constHeapWrite_out_of_range mem v hix] at hok
    have hkept := writeAll_keeps (constHeapWrite_stores hok) hv ws
    exact ⟨hkept, constHeapWrite_set_iff hix hkept hv⟩
  · rintro rfl ws ix v hix hfresh
    have hempty : writeAll initRepl ws ix = 0xffffffff := (writeAll_other hfresh).trans rfl
    simp [constHeapWrite, Nat.not_le.mpr hix, hempty]

/-- Slot 0 keeps 7 through later writes of 8 to it and of 3 to slot 1, and only 7 can be written
there again. -/
theorem const_heap_write_once_at_zero :
    (7 : BitVec 32) ≠ 0xffffffff ∧ (constHeapWrite initRepl 0 (7 : BitVec 32)).1 = true ∧
      writeAll (constHeapWrite initRepl 0 (7 : BitVec 32)).2 [(0, 8), (1, 3)] 0 = 7 :=
  have hok : (constHeapWrite initRepl 0 (7 : BitVec 32)).1 = true := by decide
  ⟨by decide, hok, ((const_heap_write_once 32).2.1 initRepl 0 7 [(0, 8), (1, 3)] (by decide) hok).1⟩

/-- On a 64-bit build a slot filled by `init_repl` is not the literal: a call succeeds only in
range and for the all-ones word, and stores nothing. -/
theorem constHeapWrite_initRepl_64 (ix : Nat) (v : BitVec 64) :
    constHeapWrite initRepl ix v = (decide (ix < constantMemorySize ∧ v = BitVec.allOnes 64), initRepl) := by
  have hfill : BitVec.allOnes 64 ≠ 0xffffffff := by decide
  unfold constHeapWrite initRepl
  by_cases hix : ix < constantMemorySize
  · rw [if_neg (Nat.not_le.mpr hix), if_neg hfill]
    by_cases hv : BitVec.allOnes 64 = v
    · rw [if_pos hv, hv]
      simp [hix]
    · rw [if_neg hv, decide_eq_false fun h => hv h.2.symm]
  · rw [if_pos (Nat.not_lt.mp hix)]
    simp [hix]

theorem writeAll_initRepl_64 : ∀ ws : List (Nat × BitVec 64), writeAll initRepl ws = initRepl
  | [] => rfl
  | p :: ws => by
    show writeAll (constHeapWrite initRepl p.1 p.2).2 ws = initRepl
    rw [constHeapWrite_initRepl_64]
    exact writeAll_initRepl_64 ws

/-- The empty-slot test compares with the 32-bit literal whatever the build's width. On a 64-bit
build, after `init_repl` no sequence of calls ever stores a word, and a call succeeds only when it
writes the all-ones word; on a 32-bit build the literal written to an empty slot succeeds and
leaves it empty. -/
theorem const_heap_write_fill_mismatch :
    (∀ (ws : List (Nat × BitVec 64)) ix v, constHeapWrite (writeAll initRepl ws) ix v =
      (decide (ix < constantMemorySize ∧ v = BitVec.allOnes 64), initRepl)) ∧
    (∀ (mem : Nat → BitVec 32) ix, ix < constantMemorySize → mem ix = 0xffffffff →
      constHeapWrite mem ix 0xffffffff = (true, mem)) := by
  refine ⟨fun ws ix v => by rw [writeAll_initRepl_64, constHeapWrite_initRepl_64], fun mem ix hix hmem => ?_⟩
  rw [constHeapWrite, if_neg (Nat.not_le.mpr hix), if_pos hmem, ← hmem, Function.update_eq_self]

end LispBM.ConstHeap
