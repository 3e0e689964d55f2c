import Mathlib.Algebra.Group.Nat.Basic
import Mathlib.Logic.Function.Basic

namespace LispBM.DefragMem

/-- What the pool's code reads of the heap it runs beside: the address `lbm_malloc` returned for
the pool's data words, the word of `ENC_SYM_NIL`, and the cell `lbm_set_car` writes when handed a
raw word (`none` where that word is no cons pointer). -/
structure Target where
  base : Nat
  encNil : Nat
  setCarCell : Nat → Option Nat

/-- A defrag pool: `DEFRAG_MEM_SIZE`, `DEFRAG_MEM_FLAGS` and the data words from index 0. Words
are naturals: no sum the code forms on a pool that fits memory wraps around. -/
structure Pool where
  size : Nat
  flags : Nat
  words : Nat → Nat

/-- The cons cells the pool's records point back to: each cell's car word and the free list. -/
structure Cells where
  car : Nat → Nat
  free : List Nat

/-- `bs2ws`, `w` being `sizeof(lbm_uint)`. -/
def bs2ws (w bs : Nat) : Nat :=
  if bs % w = 0 then bs / w else bs / w + 1

variable (w : Nat) (T : Target)

/-- `memmove(&words[target], &words[source], n words)`. -/
def memmove (words : Nat → Nat) (target source n : Nat) : Nat → Nat :=
  fun j => if target ≤ j ∧ j < target + n then words (j - target + source) else words j

/-- `memset(&words[start], 0, n words)`. -/
def memset (words : Nat → Nat) (start n : Nat) : Nat → Nat :=
  fun j => if start ≤ j ∧ j < start + n then 0 else words j

/-- `lbm_set_car` on a raw word. -/
def setCar (c : Cells) (cell v : Nat) : Cells :=
  match T.setCarCell cell with
  | some ix => { c with car := Function.update c.car ix v }
  | none => c

/-- `lbm_defrag_mem_create`: the pool, and the size in bytes of the block `lbm_malloc` was asked
for, which `DEFRAG_MEM_HEADER_BYTES + nwords * sizeof(lbm_uint)` computes in `w`-byte words.
`malloc` says whether `lbm_malloc` hands back a block of the bytes asked for, `cellFree` whether
`lbm_heap_allocate_cell` finds a cell; `none` for `ENC_SYM_TERROR` and `ENC_SYM_MERROR`. -/
def create (malloc : Nat → Bool) (cellFree : Bool) (nbytes : Nat) : Option (Pool × Nat) :=
  let nwords := bs2ws w nbytes
  if nwords > 0 then
    let bytes := (2 * w + nwords * w) % 2 ^ (8 * w)
    if malloc bytes && cellFree then some ({ size := nwords, flags := 0, words := fun _ => 0 }, bytes)
    else none
  else none

/-- The loop of `lbm_defrag_mem_defrag` from `i` with the hole at `holeStart`; every turn moves
`i` on, so `size` turns are enough. -/
def defragLoop (size : Nat) : Nat → Nat → Nat → (Nat → Nat) → Cells → (Nat → Nat) × Cells
  | 0, _, _, words, c => (words, c)
  | fuel + 1, i, holeStart, words, c =>
    if i < size then
      if words i ≠ 0 then
        let allocWords := bs2ws w (words i)
        if holeStart = i then
          defragLoop size fuel (i + allocWords + 3) (i + allocWords + 3) words c
        else
          let moveDist := i - holeStart
          let clearIx := i - moveDist
          let moved := memmove words holeStart i (allocWords + 3)
          let cleared := memset moved clearIx moveDist
          let cell := cleared (holeStart + 2)
          defragLoop size fuel (i + allocWords + 3) (holeStart + allocWords + 3) cleared
            (setCar T c cell (T.base + holeStart * w))
      else defragLoop size fuel (i + 1) holeStart words c
    else (words, c)

/-- `lbm_defrag_mem_defrag`. -/
def defrag (p : Pool) (c : Cells) : Pool × Cells :=
  let (words, c') := defragLoop w T p.size p.size 0 0 p.words c
  ({ p with words }, c')

/-- The search loop of `lbm_defrag_mem_alloc` in its `INIT` (`freeLen = false`) and `FREE_LEN`
states: where the free run it found starts. -/
def allocScan (size : Nat) (words : Nat → Nat) (allocWords : Nat) :
    Nat → Bool → Nat → Nat → Nat → Option Nat
  | 0, _, _, _, _ => none
  | fuel + 1, freeLen, i, freeWords, freeStart =>
    if i < size then
      if !freeLen then
        if words i = 0 then allocScan size words allocWords fuel true (i + 1) 1 i
        else allocScan size words allocWords fuel false (i + bs2ws w (words i) + 3) freeWords freeStart
      else if words i = 0 then
        if freeWords + 1 ≥ allocWords then some freeStart
        else allocScan size words allocWords fuel true (i + 1) (freeWords + 1) freeStart
      else allocScan size words allocWords fuel false (i + 1) freeWords freeStart
    else none

/-- `lbm_defrag_mem_alloc`: the array cell on success, `none` for `ENC_SYM_MERROR`. -/
def alloc (p : Pool) (c : Cells) (bytes : Nat) : Option Nat × Pool × Cells :=
  match c.free with
  | [] => (none, p, c)
  | cell :: rest =>
    let c1 : Cells := { car := Function.update c.car cell T.encNil, free := rest }
    let (p2, c2) := if p.flags ≠ 0 then
        let (p', c') := defrag w T p c1
        ({ p' with flags := 0 }, c')
      else (p, c1)
    let allocWords := bs2ws w bytes + 3
    match allocScan w p2.size p2.words allocWords p2.size false 0 0 0 with
    | some freeStart =>
      let words := Function.update (Function.update (Function.update p2.words freeStart bytes)
        (freeStart + 1) (T.base + (freeStart + 3) * w)) (freeStart + 2) cell
      (some cell, { p2 with words },
        { c2 with car := Function.update c2.car cell (T.base + freeStart * w) })
    | none => (none, { p2 with flags := 1 }, { c2 with car := Function.update c2.car cell T.encNil })

/-- `lbm_defrag_mem_free`, given the record's index in the data words. -/
def free (p : Pool) (start : Nat) : Pool :=
  let wipe := 3 + bs2ws w (p.words start)
  { p with words := memset p.words start wipe }

/-- The records the pool's data words read as from word `i`: a zero word is one free word, a
non-zero word `s` starts a record of `3 + bs2ws s` words; `none` when a record runs past the end. -/
def readRecords (size : Nat) (words : Nat → Nat) : Nat → Nat → Option (List Nat)
  | 0, _ => none
  | fuel + 1, i =>
    if i = size then some []
    else if size < i then none
    else if words i = 0 then readRecords size words fuel (i + 1)
    else (readRecords size words fuel (i + 3 + bs2ws w (words i))).map (i :: ·)

/-- The pool is well formed: its words tile into free words and records, each record's data word
is its payload's address and its back-pointer cell's car its own address, and no two records
share a back-pointer cell. -/
def WellFormed (p : Pool) (c : Cells) : Prop :=
  ∃ rs, readRecords w p.size p.words (p.size + 1) 0 = some rs ∧
    (∀ r ∈ rs, p.words (r + 1) = T.base + (r + 3) * w ∧ c.car (p.words (r + 2)) = T.base + r * w) ∧
    (rs.map fun r => p.words (r + 2)).Nodup

/-- A request of 0 bytes gets a record whose size word is 0: wherever `lbm_malloc` put the pool,
the word 0 then reads as free and the record's data word, the address of its payload, as the
start of a record running past the end of the pool. -/
theorem alloc_zero_bytes_breaks_pool (T : Target) (car : Nat → Nat) (cell : Nat) :
    (alloc 4 T ⟨3, 0, fun _ => 0⟩ ⟨car, [cell]⟩ 0).1 = some cell ∧
      ¬ WellFormed 4 T (alloc 4 T ⟨3, 0, fun _ => 0⟩ ⟨car, [cell]⟩ 0).2.1
        (alloc 4 T ⟨3, 0, fun _ => 0⟩ ⟨car, [cell]⟩ 0).2.2 := by
  have halloc : alloc 4 T ⟨3, 0, fun _ => 0⟩ ⟨car, [cell]⟩ 0 =
      (some cell, ⟨3, 0, Function.update (Function.update (Function.update (fun _ => 0) 0 0) 1
        (T.base + 12)) 2 cell⟩, ⟨Function.update (Function.update car cell T.encNil) cell T.base, []⟩) :=
    rfl
  refine ⟨by rw [halloc], ?_⟩
  rintro ⟨rs, hrs, -⟩
  have hjump : 3 < 1 + 3 + bs2ws 4 (T.base + 12) := by
    simp only [bs2ws]; split <;> omega
  rw [halloc] at hrs
  simp [readRecords, Function.update, Nat.ne_of_gt hjump, hjump] at hrs

/-- A pool at address `0x1000`, beside a heap where `ENC_SYM_NIL` is 0 and `lbm_set_car` takes no
raw cell index for a cons pointer. -/
def target0 : Target := ⟨0x1000, 0, fun _ => none⟩

/-- A pool of twelve 4-byte words after `alloc(4)` and `alloc(4)`, with cells 1 and 2 free, and
then freeing the first record. -/
def holeThenRecord : Pool × Cells :=
  let r1 := alloc 4 target0 ⟨12, 0, fun _ => 0⟩ ⟨fun _ => 0, [1, 2]⟩ 4
  let r2 := alloc 4 target0 r1.2.1 r1.2.2 4
  (free 4 r2.2.1 0, r2.2.2)

/-- The one live record starts at word 4 behind a four-word hole, and is still there after
`lbm_defrag_mem_defrag`: the move copies it down and the clearing `memset` then zeroes the copy. -/
theorem defrag_leaves_record_behind_hole :
    readRecords 4 12 holeThenRecord.1.words 13 0 = some [4] ∧
      readRecords 4 12 (defrag 4 target0 holeThenRecord.1 holeThenRecord.2).1.words 13 0 = some [4] :=
  ⟨rfl, rfl⟩

end LispBM.DefragMem
