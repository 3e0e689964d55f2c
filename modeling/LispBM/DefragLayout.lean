import LispBM.DefragDestroy
import Mathlib.Data.List.Nodup

namespace LispBM.DefragMem

variable (w : Nat) (T : Target)

/-- The walk `readRecords` makes over the data words from word `i` to word `j`, and the records
it passes: a zero word is one free word, a non-zero word `s` starts a record of `3 + bs2ws s`
words. -/
inductive Walk (words : Nat → Nat) : Nat → Nat → List Nat → Prop
  | done (i : Nat) : Walk words i i []
  | free {i j : Nat} {rs : List Nat} : words i = 0 → Walk words (i + 1) j rs → Walk words i j rs
  | record {i j : Nat} {rs : List Nat} :
      words i ≠ 0 → Walk words (i + 3 + bs2ws w (words i)) j rs → Walk words i j (i :: rs)

/-- The records of a pool, as `readRecords` reads them from word 0; `[]` where it finds none. -/
def records (p : Pool) : List Nat := (readRecords w p.size p.words (p.size + 1) 0).getD []

/-- The layout of a pool whose records are `rs`: its words tile into free words and these
records, each record's data word is its payload's address and its back-pointer cell's car its
own address, and the back-pointer cells and the free cells are all distinct. -/
structure Layout (p : Pool) (c : Cells) (rs : List Nat) : Prop where
  tiles : readRecords w p.size p.words (p.size + 1) 0 = some rs
  linked : ∀ r ∈ rs, p.words (r + 1) = T.base + (r + 3) * w ∧ c.car (p.words (r + 2)) = T.base + r * w
  cells : (rs.map (fun r => p.words (r + 2)) ++ c.free).Nodup

/-- The pools `lbm_defrag_mem_create` makes and `lbm_defrag_mem_alloc` and `lbm_defrag_mem_free`
then change, beside the cells they take back-pointer cells from: each allocation asks for a
positive size while the compaction flag is clear, and each free is of a record of the pool. -/
inductive Reachable : Pool → Cells → Prop
  | create {malloc : Nat → Bool} {cellFree : Bool} {nbytes bytes : Nat} {p : Pool} {c : Cells} :
      create w malloc cellFree nbytes = some (p, bytes) → c.free.Nodup → Reachable p c
  | alloc {p : Pool} {c : Cells} {bytes : Nat} :
      Reachable p c → p.flags = 0 → 0 < bytes →
        Reachable (alloc w T p c bytes).2.1 (alloc w T p c bytes).2.2
  | free {p : Pool} {c : Cells} {start : Nat} :
      Reachable p c → start ∈ records w p → Reachable (free w p start) c

section Walk

variable {w} {words words' : Nat → Nat}

theorem Walk.le {i j : Nat} {rs : List Nat} (h : Walk w words i j rs) : i ≤ j := by
  induction h <;> omega

theorem Walk.append {i j k : Nat} {rs rs' : List Nat} (h : Walk w words i j rs)
    (h' : Walk w words j k rs') : Walk w words i k (rs ++ rs') := by
  induction h with
  | done => exact h'
  | free hz _ ih => exact .free hz (ih h')
  | record hz _ ih => exact .record hz (ih h')

theorem Walk.congr {i j : Nat} {rs : List Nat} (h : Walk w words i j rs)
    (heq : ∀ k, i ≤ k → k < j → words' k = words k) : Walk w words' i j rs := by
  induction h with
  | done => exact .done _
  | free hz hrest ih =>
    have := hrest.le
    exact .free ((heq _ (Nat.le_refl _) (by omega)).trans hz) (ih fun k hk hk' => heq k (by omega) hk')
  | record hz hrest ih =>
    have := hrest.le
    have hi := heq _ (Nat.le_refl _) (by omega)
    refine .record (by rwa [hi]) ?_
    rw [hi]
    exact ih fun k hk hk' => heq k (by omega) hk'

theorem Walk.zeros : ∀ {i n : Nat}, (∀ k, i ≤ k → k < i + n → words k = 0) → Walk w words i (i + n) []
  | i, 0, _ => .done i
  | i, n + 1, hz => by
    rw [show i + (n + 1) = i + 1 + n by omega]
    exact .free (hz i (Nat.le_refl i) (by omega)) (Walk.zeros fun k hk hk' => hz k (by omega) (by omega))

/-- A walk is determined by where it starts: one that passes `j` goes on from `j` as any walk
from `j` does. -/
theorem Walk.split {i j k : Nat} {pre rs : List Nat} (h : Walk w words i j pre) (h' : Walk w words i k rs)
    (hjk : j ≤ k) : ∃ rest, Walk w words j k rest ∧ rs = pre ++ rest := by
  induction h generalizing rs with
  | done => exact ⟨rs, h', rfl⟩
  | free hz hrest ih =>
    cases h' with
    | done => have := hrest.le; omega
    | free _ h' => exact ih h' hjk
    | record hz' _ => exact absurd hz hz'
  | record hz hrest ih =>
    cases h' with
    | done => have := hrest.le; omega
    | free hz' _ => exact absurd hz' hz
    | record _ h' =>
      obtain ⟨rest, hw, rfl⟩ := ih h' hjk
      exact ⟨rest, hw, rfl⟩

theorem Walk.bounds {i j : Nat} {rs : List Nat} (h : Walk w words i j rs) : ∀ r ∈ rs, i ≤ r ∧ r + 3 ≤ j := by
  induction h with
  | done => exact fun _ hr => nomatch hr
  | free _ _ ih => exact fun r hr => by have := ih r hr; omega
  | record _ hrest ih =>
    intro r hr
    rcases List.mem_cons.mp hr with rfl | hr
    · have := hrest.le; omega
    · have := ih r hr; omega

theorem Walk.of_mem {i j r : Nat} {rs : List Nat} (h : Walk w words i j rs) (hr : r ∈ rs) :
    ∃ pre rest, Walk w words i r pre ∧ words r ≠ 0 ∧ Walk w words (r + 3 + bs2ws w (words r)) j rest ∧
      rs = pre ++ r :: rest := by
  induction h with
  | done => exact nomatch hr
  | free hz _ ih =>
    obtain ⟨pre, rest, h1, h2, h3, rfl⟩ := ih hr
    exact ⟨pre, rest, .free hz h1, h2, h3, rfl⟩
  | record hz hrest ih =>
    rcases List.mem_cons.mp hr with rfl | hr
    · exact ⟨[], _, .done _, hz, hrest, rfl⟩
    · obtain ⟨pre, rest, h1, h2, h3, rfl⟩ := ih hr
      exact ⟨_ :: pre, rest, .record hz h1, h2, h3, rfl⟩

theorem walk_of_readRecords {size : Nat} :
    ∀ {fuel i : Nat} {rs : List Nat}, readRecords w size words fuel i = some rs → Walk w words i size rs
  | 0, _, _, h => nomatch h
  | fuel + 1, i, rs, h => by
    rw [readRecords] at h
    split_ifs at h with h1 h2 h3
    · cases h
      rw [h1]
      exact .done _
    · exact .free h3 (walk_of_readRecords h)
    · obtain ⟨rs', h', rfl⟩ := Option.map_eq_some'.mp h
      exact .record h3 (walk_of_readRecords h')

theorem readRecords_of_walk {i j : Nat} {rs : List Nat} (h : Walk w words i j rs) :
    ∀ {fuel : Nat}, j < fuel + i → readRecords w j words fuel i = some rs := by
  induction h with
  | done =>
    intro fuel hf
    obtain ⟨fuel, rfl⟩ : ∃ f, fuel = f + 1 := ⟨fuel - 1, by omega⟩
    simp [readRecords]
  | free hz hrest ih =>
    intro fuel hf
    have := hrest.le
    obtain ⟨fuel, rfl⟩ : ∃ f, fuel = f + 1 := ⟨fuel - 1, by omega⟩
    rw [readRecords, if_neg (by omega), if_neg (by omega), if_pos hz]
    exact ih (by omega)
  | record hz hrest ih =>
    intro fuel hf
    have := hrest.le
    obtain ⟨fuel, rfl⟩ : ∃ f, fuel = f + 1 := ⟨fuel - 1, by omega⟩
    rw [readRecords, if_neg (by omega), if_neg (by omega), if_neg hz, ih (by omega)]
    rfl

end Walk

/-- What the search of `lbm_defrag_mem_alloc` knows between turns: in the `INIT` state it stands
where the walk of the pool passes, past the pool, or on the data word of a record of `rs`, right
after a free run met the record's size word; in the `FREE_LEN` state the run from `freeStart`
is zero and starts where the walk passes. -/
def ScanInv (size : Nat) (words : Nat → Nat) (rs : List Nat) : Bool → Nat → Nat → Nat → Prop
  | false, i, _, _ => (∃ pre, Walk w words 0 i pre) ∨ size ≤ i ∨ ∃ r ∈ rs, i = r + 1
  | true, i, freeWords, freeStart =>
    (∃ pre, Walk w words 0 freeStart pre) ∧ freeStart + freeWords = i ∧
      ∀ k, freeStart ≤ k → k < i → words k = 0

section Layout

variable {w} {T} {p : Pool} {c : Cells} {rs : List Nat}

theorem Layout.records_eq (h : Layout w T p c rs) : records w p = rs := by
  rw [records, h.tiles]
  rfl

/-- A record's data word read as a size word sends the search past the pool, when the pool's
words lie at an address of at least its size in bytes. -/
theorem data_word_jumps_past_pool (hw : 0 < w) {size : Nat} (hbase : size * w ≤ T.base) (r : Nat) :
    size ≤ r + 1 + bs2ws w (T.base + (r + 3) * w) + 3 := by
  have h1 : size ≤ T.base / w := (Nat.le_div_iff_mul_le hw).mpr hbase
  have h2 : T.base / w ≤ (T.base + (r + 3) * w) / w := Nat.div_le_div_right (Nat.le_add_right _ _)
  have h3 : (T.base + (r + 3) * w) / w ≤ bs2ws w (T.base + (r + 3) * w) := by
    unfold bs2ws; split_ifs <;> omega
  omega

/-- The run the search of `lbm_defrag_mem_alloc` settles on is free space of the pool: it starts
where the walk of the pool passes, and its `allocWords` words are zero and inside the pool. -/
theorem allocScan_free_run (hw : 0 < w) {size : Nat} (hbase : size * w ≤ T.base) {words : Nat → Nat}
    (htiles : Walk w words 0 size rs) (hdata : ∀ r ∈ rs, words (r + 1) = T.base + (r + 3) * w)
    (allocWords : Nat) :
    ∀ fuel freeLen i freeWords freeStart r, ScanInv w size words rs freeLen i freeWords freeStart →
      allocScan w size words allocWords fuel freeLen i freeWords freeStart = some r →
      (∃ pre, Walk w words 0 r pre) ∧ r + allocWords ≤ size ∧ ∀ k, r ≤ k → k < r + allocWords → words k = 0 := by
  intro fuel
  induction fuel with
  | zero => intro _ _ _ _ _ _ h; exact nomatch h
  | succ fuel ih =>
    intro freeLen i freeWords freeStart r hinv h
    rw [allocScan] at h
    split_ifs at h with hi hinit hz hz hfound
    · -- `INIT` on a zero word: a free run starts
      obtain rfl : freeLen = false := by simpa using hinit
      refine ih true (i + 1) 1 i r ⟨?_, rfl, fun k hk hk' => by rwa [show k = i by omega]⟩ h
      rcases hinv with hpre | hsz | ⟨q, hq, rfl⟩
      · exact hpre
      · omega
      · have := hdata q hq
        have : 0 < (q + 3) * w := Nat.mul_pos (by omega) hw
        omega
    · -- `INIT` on a non-zero word: a jump by the size it reads
      obtain rfl : freeLen = false := by simpa using hinit
      refine ih false _ freeWords freeStart r ?_ h
      rcases hinv with ⟨pre, hpre⟩ | hsz | ⟨q, hq, rfl⟩
      · refine Or.inl ⟨pre ++ [i], ?_⟩
        rw [show i + bs2ws w (words i) + 3 = i + 3 + bs2ws w (words i) by omega]
        exact hpre.append (.record hz (.done _))
      · omega
      · refine Or.inr (Or.inl ?_)
        rw [hdata q hq]
        exact data_word_jumps_past_pool hw hbase q
    · -- `FREE_LEN` on a zero word that completes the run
      obtain rfl : freeLen = true := by simpa using hinit
      obtain ⟨hpre, hfw, hzero⟩ := hinv
      obtain rfl := Option.some.inj h
      refine ⟨hpre, by omega, fun k hk hk' => ?_⟩
      exact if hki : k < i then hzero k hk hki else by rwa [show k = i by omega]
    · -- `FREE_LEN` on a zero word: the run grows
      obtain rfl : freeLen = true := by simpa using hinit
      obtain ⟨hpre, hfw, hzero⟩ := hinv
      refine ih true (i + 1) (freeWords + 1) freeStart r ⟨hpre, by omega, fun k hk hk' => ?_⟩ h
      exact if hki : k < i then hzero k hk hki else by rwa [show k = i by omega]
    · -- `FREE_LEN` on a record's size word: back to `INIT` on its data word
      obtain rfl : freeLen = true := by simpa using hinit
      obtain ⟨⟨pre, hpre⟩, hfw, hzero⟩ := hinv
      refine ih false (i + 1) freeWords freeStart r (Or.inr (Or.inr ⟨i, ?_, rfl⟩)) h
      have hrun : Walk w words freeStart i [] := hfw ▸ Walk.zeros (hfw ▸ hzero)
      obtain ⟨rest, hrest, rfl⟩ := (hpre.append hrun).split htiles (by omega)
      cases hrest with
      | done => omega
      | free hz' _ => exact absurd hz' hz
      | record _ _ => exact List.mem_append_right _ (List.mem_cons_self _ _)

theorem create_layout {malloc : Nat → Bool} {cellFree : Bool} {nbytes bytes : Nat}
    (h : create w malloc cellFree nbytes = some (p, bytes)) (hc : c.free.Nodup) : Layout w T p c [] := by
  dsimp only [create] at h
  split_ifs at h
  cases h
  have hwalk : Walk w (fun _ => 0) 0 (bs2ws w nbytes) [] := by
    simpa using Walk.zeros (w := w) (i := 0) fun _ _ _ => rfl
  exact ⟨readRecords_of_walk hwalk (by dsimp only; omega), (fun _ h => nomatch h), hc⟩

theorem alloc_size {bytes : Nat} (hflags : p.flags = 0) : (alloc w T p c bytes).2.1.size = p.size := by
  simp only [alloc, hflags, ne_eq, not_true_eq_false, ite_false]
  split
  · rfl
  · split <;> rfl

/-- `lbm_defrag_mem_alloc` of a positive size, with the compaction flag clear, keeps the layout:
the search settles on zero words between records, the new record's three header words go
there, and its back-pointer cell, the head of the free list, is no other record's. -/
theorem alloc_layout (hw : 0 < w) (hbase : p.size * w ≤ T.base) (hflags : p.flags = 0) {bytes : Nat}
    (hbytes : 0 < bytes) (h : Layout w T p c rs) :
    ∃ rs', Layout w T (alloc w T p c bytes).2.1 (alloc w T p c bytes).2.2 rs' := by
  obtain ⟨htiles, hlinked, hcells⟩ := h
  have hwalk := walk_of_readRecords htiles
  simp only [alloc, hflags, ne_eq, not_true_eq_false, ite_false]
  split
  · exact ⟨rs, htiles, hlinked, hcells⟩
  next cell free' hfree =>
  rw [hfree] at hcells
  have hdisj := List.disjoint_of_nodup_append hcells
  have hfresh : ∀ r ∈ rs, p.words (r + 2) ≠ cell := fun r hr he =>
    hdisj (List.mem_map_of_mem _ hr) (he ▸ List.mem_cons_self _ _)
  have hcar : ∀ r ∈ rs, ∀ v v', Function.update (Function.update c.car cell v) cell v' (p.words (r + 2)) =
      c.car (p.words (r + 2)) := fun r hr _ _ => by
    rw [Function.update_noteq (hfresh r hr), Function.update_noteq (hfresh r hr)]
  split
  next r hscan =>
    dsimp only
    -- the new record at `r`, between the records `pre` before it and `rest` after it
    obtain ⟨⟨pre, hpre⟩, hfit, hzero⟩ := allocScan_free_run hw hbase hwalk (fun r hr => (hlinked r hr).1) _
      p.size false 0 0 0 r (Or.inl ⟨[], .done 0⟩) hscan
    obtain ⟨rest, hrest, rfl⟩ := hpre.split hwalk (by omega)
    obtain ⟨rest', hrest', hrr⟩ := (Walk.zeros hzero).split hrest (by omega)
    rw [List.nil_append] at hrr
    subst hrr
    set words' := Function.update (Function.update (Function.update p.words r bytes) (r + 1)
      (T.base + (r + 3) * w)) (r + 2) cell
    have hkeep : ∀ k, k < r ∨ r + 3 ≤ k → words' k = p.words k := fun k hk => by
      simp only [words']
      rw [Function.update_noteq (by omega), Function.update_noteq (by omega), Function.update_noteq (by omega)]
    have hr0 : words' r = bytes := by
      simp only [words']
      rw [Function.update_noteq (by omega), Function.update_noteq (by omega), Function.update_same]
    have hr1 : words' (r + 1) = T.base + (r + 3) * w := by
      simp only [words']
      rw [Function.update_noteq (by omega), Function.update_same]
    have hr2 : words' (r + 2) = cell := Function.update_same _ _ _
    have hold : ∀ r' ∈ pre ++ rest, words' (r' + 1) = p.words (r' + 1) ∧ words' (r' + 2) = p.words (r' + 2) := by
      intro r' hr'
      rcases List.mem_append.mp hr' with hr' | hr'
      · have := (hpre.bounds r' hr').2
        exact ⟨hkeep _ (by omega), hkeep _ (by omega)⟩
      · have := (hrest'.bounds r' hr').1
        exact ⟨hkeep _ (by omega), hkeep _ (by omega)⟩
    refine ⟨pre ++ r :: rest, ?_, ?_, ?_⟩
    · -- the walk of the new words passes the new record between the old ones
      have hnew : Walk w words' r p.size (r :: rest) := by
        refine .record (by rw [hr0]; omega) ?_
        rw [hr0, show r + 3 + bs2ws w bytes = r + (bs2ws w bytes + 3) by omega]
        exact hrest'.congr fun k hk _ => hkeep k (Or.inr (by omega))
      exact readRecords_of_walk ((hpre.congr fun k _ hk => hkeep k (Or.inl hk)).append hnew) (by dsimp only; omega)
    · intro r' hr'
      dsimp only
      rcases List.mem_append.mp hr' with hr' | hr'
      · have hmem := List.mem_append_left rest hr'
        rw [(hold r' hmem).1, (hold r' hmem).2]
        exact ⟨(hlinked r' hmem).1, (hcar r' hmem _ _).trans (hlinked r' hmem).2⟩
      rcases List.mem_cons.mp hr' with rfl | hr'
      · exact ⟨hr1, by rw [hr2]; exact Function.update_same _ _ _⟩
      · have hmem := List.mem_append_right pre hr'
        rw [(hold r' hmem).1, (hold r' hmem).2]
        exact ⟨(hlinked r' hmem).1, (hcar r' hmem _ _).trans (hlinked r' hmem).2⟩
    · -- the cell moves from the free list to the back pointers
      dsimp only
      have hmap : ∀ l : List Nat, (∀ r' ∈ l, r' ∈ pre ++ rest) →
          l.map (fun r => words' (r + 2)) = l.map (fun r => p.words (r + 2)) :=
        fun l hl => List.map_congr_left fun r' hr' => (hold r' (hl r' hr')).2
      rw [List.map_append, List.map_cons, hr2, hmap pre fun _ => List.mem_append_left rest,
        hmap rest fun _ => List.mem_append_right pre]
      rw [List.map_append] at hcells
      exact ((List.perm_middle.append_right free').trans List.perm_middle.symm).nodup_iff.mpr hcells
  next hscan =>
    dsimp only
    -- no run found: the flag is set and the cell dropped
    exact ⟨rs, htiles, fun r hr => ⟨(hlinked r hr).1, (hcar r hr _ _).trans (hlinked r hr).2⟩,
      hcells.sublist ((List.sublist_cons_self cell free').append_left _)⟩

/-- `lbm_defrag_mem_free` of a record keeps the layout: its words become free words, and its
back-pointer cell leaves the back pointers. -/
theorem free_layout {start : Nat} (h : Layout w T p c rs) (hs : start ∈ rs) :
    ∃ rs', Layout w T (free w p start) c rs' := by
  obtain ⟨htiles, hlinked, hcells⟩ := h
  obtain ⟨pre, rest, hpre, -, hrest, rfl⟩ := (walk_of_readRecords htiles).of_mem hs
  set n := 3 + bs2ws w (p.words start)
  have hkeep : ∀ k, k < start ∨ start + n ≤ k → memset p.words start n k = p.words k := fun k hk => by
    simp only [memset]
    rw [if_neg (by omega)]
  have hzero : ∀ k, start ≤ k → k < start + n → memset p.words start n k = 0 := fun k hk hk' => by
    simp only [memset]
    rw [if_pos ⟨hk, hk'⟩]
  have hold : ∀ r' ∈ pre ++ rest, ∀ k < 3, memset p.words start n (r' + k) = p.words (r' + k) := by
    intro r' hr' k hk
    rcases List.mem_append.mp hr' with hr' | hr'
    · have := (hpre.bounds r' hr').2
      exact hkeep _ (by omega)
    · have := (hrest.bounds r' hr').1
      exact hkeep _ (by omega)
  refine ⟨pre ++ rest, ?_, fun r' hr' => ?_, ?_⟩
  · rw [Nat.add_assoc] at hrest
    refine readRecords_of_walk ((hpre.congr fun k _ hk => hkeep k (Or.inl hk)).append ?_) (by omega)
    exact (Walk.zeros hzero).append (hrest.congr fun k hk _ => hkeep k (Or.inr hk))
  · have hmem : r' ∈ pre ++ start :: rest := by
      rcases List.mem_append.mp hr' with hr' | hr'
      · exact List.mem_append_left _ hr'
      · exact List.mem_append_right _ (List.mem_cons_of_mem _ hr')
    simp only [free]
    rw [hold r' hr' 1 (by omega), hold r' hr' 2 (by omega)]
    exact hlinked r' hmem
  · simp only [free]
    rw [List.map_congr_left fun r' hr' => hold r' hr' 2 (by omega), List.map_append]
    rw [List.map_append, List.map_cons] at hcells
    exact hcells.sublist (((List.sublist_cons_self _ _).append_left _).append_right _)

/-- **The pool keeps its layout along every run.** From `lbm_defrag_mem_create`, through
allocations of a positive size made while the compaction flag is clear and frees of its
records, the pool's words tile into free words and records whose data words point at their
payloads and whose back-pointer cells, all distinct and none of them free, point back at them.
The pool's words are taken to lie at an address of at least its size in bytes: below that, a
record's data word, which the search reads as a size word after a free run too short for the
request, can send it into another record's payload. -/
theorem reachable_layout (hw : 0 < w) (hr : Reachable w T p c) (hbase : p.size * w ≤ T.base) :
    Layout w T p c (records w p) := by
  induction hr with
  | create h hc =>
    have hl := create_layout (T := T) h hc
    rwa [hl.records_eq]
  | alloc _ hflags hbytes ih =>
    rw [alloc_size hflags] at hbase
    obtain ⟨rs', hl⟩ := alloc_layout hw hbase hflags hbytes (ih hbase)
    rwa [hl.records_eq]
  | free _ hs ih =>
    obtain ⟨rs', hl⟩ := free_layout (ih hbase) hs
    rwa [hl.records_eq]

/-- A pool of sixteen 4-byte words at `0x1000`: an allocation of 4 bytes, then its free. -/
theorem alloc_free_layout :
    Layout 4 target0 (free 4 (alloc 4 target0 ⟨16, 0, fun _ => 0⟩ ⟨fun _ => 0, [1, 2, 3]⟩ 4).2.1 0)
      (alloc 4 target0 ⟨16, 0, fun _ => 0⟩ ⟨fun _ => 0, [1, 2, 3]⟩ 4).2.2
      (records 4 (free 4 (alloc 4 target0 ⟨16, 0, fun _ => 0⟩ ⟨fun _ => 0, [1, 2, 3]⟩ 4).2.1 0)) :=
  reachable_layout (by decide)
    (.free (.alloc (.create (show create 4 (fun _ => true) true 64 = some (⟨16, 0, fun _ => 0⟩, 72) from rfl)
      (by decide)) rfl (by decide)) (by decide)) (by decide)

end Layout

end LispBM.DefragMem
