import LispBM.Compression

namespace LispBM.Compression

section LongestMatch

variable {len : Nat → Nat} {isMatch : Nat → Bool}

/-- The scan keeps the first matching index of each greater length it meets. -/
private theorem foldl_longest_mem (l : List Nat) (best : Option Nat × Nat)
    (hbest : ∀ j, best.1 = some j → j < numCodes ∧ isMatch j = true) (hl : ∀ x ∈ l, x < numCodes) :
    ∀ j, (l.foldl (fun (best : Option Nat × Nat) i =>
      if isMatch i && len i > best.2 then (some i, len i) else best) best).1 = some j →
      j < numCodes ∧ isMatch j = true := by
  induction l generalizing best with
  | nil => exact hbest
  | cons x xs ih =>
    apply ih _ _ fun y hy => hl y (List.mem_cons_of_mem _ hy)
    intro j hj
    beta_reduce at hj
    split at hj
    · obtain rfl : x = j := by simpa using hj
      exact ⟨hl x (List.mem_cons_self _ _), by simp_all⟩
    · exact hbest j hj

theorem longestMatch_spec {j : Nat} (h : longestMatch len isMatch = some j) :
    j < numCodes ∧ isMatch j = true :=
  foldl_longest_mem _ _ (by simp) (fun _ hx => List.mem_range.mp hx) j h

/-- When only `i` matches, the scan passes over everything else and keeps `i`. -/
private theorem foldl_longest_unique {i : Nat} (hi : isMatch i = true) (hlen : 0 < len i)
    (l : List Nat) (hl : ∀ x ∈ l, isMatch x = true → x = i) (best : Option Nat × Nat)
    (hbest : best = (none, 0) ∨ best = (some i, len i)) :
    l.foldl (fun (best : Option Nat × Nat) x =>
      if isMatch x && len x > best.2 then (some x, len x) else best) best =
      if i ∈ l then (some i, len i) else best := by
  induction l generalizing best with
  | nil => simp
  | cons x xs ih =>
    simp only [List.foldl_cons, List.mem_cons]
    by_cases hx : x = i
    · subst hx
      have hstep : (if isMatch x && len x > best.2 then (some x, len x) else best) = (some x, len x) := by
        rcases hbest with rfl | rfl <;> simp [hi, hlen]
      rw [hstep, ih (fun y hy => hl y (List.mem_cons_of_mem _ hy)) _ (.inr rfl)]
      simp
    · have hm : isMatch x = false := by
        by_contra hm
        exact hx (hl x (List.mem_cons_self _ _) (by simpa using hm))
      have hix : ¬ i = x := fun h => hx h.symm
      simp only [hm, Bool.false_and, Bool.false_eq_true, ite_false, hix, false_or]
      exact ih (fun y hy => hl y (List.mem_cons_of_mem _ hy)) _ hbest

theorem longestMatch_eq_of_unique {i : Nat} (hi : i < numCodes) (hm : isMatch i = true)
    (hlen : 0 < len i) (huniq : ∀ j < numCodes, isMatch j = true → j = i) :
    longestMatch len isMatch = some i := by
  unfold longestMatch
  rw [foldl_longest_unique hm hlen _ (fun x hx => huniq x (List.mem_range.mp hx)) _ (.inl rfl)]
  simp [hi]

end LongestMatch

theorem codes_prefix_free {i j : Nat} (hi : i < numCodes) (hj : j < numCodes)
    (hp : code i <+: code j) : i = j := by
  have h : (List.range numCodes).all (fun i => (List.range numCodes).all fun j =>
      i = j || !(code i).isPrefixOf (code j)) = true := by decide
  simp only [List.all_eq_true, List.mem_range] at h
  by_contra hne
  have hb := h i hi j hj
  rw [List.isPrefixOf_iff_prefix.mpr hp] at hb
  simp [hne] at hb

theorem code_length_ge (i : Nat) (hi : i < numCodes) : 6 ≤ (code i).length := by
  have h : (List.range numCodes).all (fun i => 6 ≤ (code i).length) = true := by decide
  simp only [List.all_eq_true, List.mem_range, decide_eq_true_eq] at h
  exact h i hi

theorem key_cases (i : Nat) (hi : i < numCodes) :
    (i = 13 ∧ key i = [sp]) ∨ (i = 16 ∧ key i = [dq]) ∨
      (key i ≠ [] ∧ ∀ c ∈ key i, isGobbled c = false ∧ c ≠ semi ∧ c ≠ dq ∧ c ≠ 0 ∧ c ≠ 11 ∧ c ≠ 12) := by
  have h : (List.range numCodes).all (fun i => (i = 13 && key i = [sp]) || (i = 16 && key i = [dq]) ||
      (key i ≠ [] && (key i).all fun c =>
        !isGobbled c && c ≠ semi && c ≠ dq && c ≠ 0 && c ≠ 11 && c ≠ 12)) = true := by decide
  simp only [List.all_eq_true, List.mem_range] at h
  simpa [and_assoc, or_assoc] using h i hi

theorem key_ne_nil {i : Nat} (hi : i < numCodes) : key i ≠ [] := by
  rcases key_cases i hi with ⟨-, h⟩ | ⟨-, h⟩ | ⟨h, -⟩ <;> simp [h]

theorem codeMatches_iff {src : List Bool} {startBit i : Nat} :
    codeMatches src startBit i = true ↔
      ∀ b < (code i).length, bitAt src (startBit + b) = (code i).getD b false := by
  simp [codeMatches]

theorem codeMatches_unique {src : List Bool} {p i j : Nat} (hi : i < numCodes) (hj : j < numCodes)
    (hmi : codeMatches src p i = true) (hmj : codeMatches src p j = true) : i = j := by
  have hpre : ∀ {a b}, a < numCodes → b < numCodes → (code a).length ≤ (code b).length →
      codeMatches src p a = true → codeMatches src p b = true → a = b := by
    intro a b ha hb hle hma hmb
    rw [codeMatches_iff] at hma hmb
    refine codes_prefix_free ha hb (List.prefix_iff_eq_take.mpr (List.ext_getElem (by simp [hle]) ?_))
    intro k h1 h2
    have hk := (hma k h1).symm.trans (hmb k (by omega))
    simpa [List.getElem?_eq_getElem h1, List.getElem?_eq_getElem (Nat.lt_of_lt_of_le h1 hle)] using hk
  rcases le_total (code i).length (code j).length with h | h
  · exact hpre hi hj h hmi hmj
  · exact (hpre hj hi h hmj hmi).symm

theorem matchLongestCode_eq {src : List Bool} {p total ix : Nat} (hix : ix < numCodes)
    (hfit : (code ix).length ≤ total - p)
    (hbits : ∀ b < (code ix).length, bitAt src (p + b) = (code ix).getD b false) :
    matchLongestCode src p total = some ix := by
  have hm : codeMatches src p ix = true := codeMatches_iff.mpr hbits
  refine longestMatch_eq_of_unique hix (by simp [hfit, hm]) (by have := code_length_ge ix hix; omega) ?_
  intro j hj hmj
  simp only [Bool.and_eq_true, decide_eq_true_eq] at hmj
  exact codeMatches_unique hj hix hmj.2 hm

theorem matchLongestKey_spec {s : List UInt8} {ix : Nat} (h : matchLongestKey s = some ix) :
    ix < numCodes ∧ key ix <+: s := by
  obtain ⟨hix, hm⟩ := longestMatch_spec h
  simp only [Bool.and_eq_true, decide_eq_true_eq, List.isPrefixOf_iff_prefix] at hm
  exact ⟨hix, hm.2⟩

theorem matchLongestKey_space {rest : List UInt8} (hlen : rest.length + 1 < 2 ^ 32) :
    matchLongestKey (sp :: rest) = some 13 := by
  refine longestMatch_eq_of_unique (by decide) ?_ (by decide) ?_
  · have hmod : (rest.length + 1) % 4294967296 = rest.length + 1 := Nat.mod_eq_of_lt hlen
    simp [hmod, show key 13 = [sp] from rfl]
  · intro j hj hm
    simp only [Bool.and_eq_true, decide_eq_true_eq, List.isPrefixOf_iff_prefix] at hm
    rcases key_cases j hj with ⟨rfl, -⟩ | ⟨-, hk⟩ | ⟨hne, hplain⟩
    · rfl
    · rw [hk] at hm; simp [sp, dq] at hm
    · obtain ⟨c, cs, hcs⟩ := List.exists_cons_of_ne_nil hne
      rw [hcs] at hm hplain
      have hc : c = sp := (List.cons_prefix_cons.mp hm.2).1
      have := (hplain c (List.mem_cons_self _ _)).1
      simp [hc, isGobbled] at this

end LispBM.Compression
