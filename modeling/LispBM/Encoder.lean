import LispBM.CodeTable
import Mathlib.Algebra.Group.Int
import Mathlib.Data.List.GetD

namespace LispBM.Compression

/-- Where the normalisation `norm` stands in a string: in code, with a space pending or not; in
a comment; or in a string literal, after the byte `prev`. -/
inductive NormMode
  | code (pending : Bool)
  | comment
  | literal (prev : UInt8)

/-- The normalisation `norm` of a string from a mode. -/
def normFrom : NormMode → List UInt8 → List UInt8
  | _, [] => []
  | .code p, c :: cs =>
    if isGobbled c then normFrom (.code true) cs
    else if c = semi then normFrom .comment cs
    else (if p then [sp] else []) ++ c :: normFrom (if c = dq then .literal c else .code false) cs
  | .comment, c :: cs => if c = nl then normFrom (.code true) cs else normFrom .comment cs
  | .literal prev, c :: cs => c :: normFrom (if c = dq && prev ≠ bs then .code false else .literal c) cs

/-- `norm(s)`, the text compression keeps: outside string literals every maximal run of whitespace and comments
becomes one space when a token follows it and is dropped otherwise; literals are kept byte for
byte, each running from a quote to the next quote not after a backslash, or to the end. -/
def norm (s : List UInt8) : List UInt8 := normFrom (.code false) s

theorem normFrom_comment (g : Bool) (cs : List UInt8) (hcs : ∀ c ∈ cs, c ≠ 0) :
    normFrom .comment cs = normFrom (.code g) (cs.dropWhile fun c => c ≠ 0 && c ≠ nl) := by
  induction cs with
  | nil => simp [normFrom]
  | cons c cs ih =>
    have hc : c ≠ 0 := hcs c (List.mem_cons_self _ _)
    by_cases hnl : c = nl
    · subst hnl; simp [normFrom, isGobbled]
    · simpa [normFrom, hnl, hc, List.dropWhile_cons] using ih fun c hm => hcs c (List.mem_cons_of_mem _ hm)

theorem normFrom_plain (k rest : List UInt8)
    (hk : ∀ c ∈ k, isGobbled c = false ∧ c ≠ semi ∧ c ≠ dq) :
    normFrom (.code false) (k ++ rest) = k ++ normFrom (.code false) rest := by
  induction k with
  | nil => rfl
  | cons c k ih =>
    obtain ⟨hg, hs, hq⟩ := hk c (List.mem_cons_self _ _)
    simp only [List.cons_append, normFrom, hg, hs, hq, Bool.false_eq_true, ite_false,
      List.nil_append, List.append_eq, ih fun c hm => hk c (List.mem_cons_of_mem _ hm)]

theorem drop_skipComment (str : List UInt8) (i : Nat) :
    str.drop (skipComment str i) = (str.drop i).dropWhile fun c => c ≠ 0 && c ≠ nl := by
  rw [skipComment, ← List.drop_drop]
  have h := List.takeWhile_append_dropWhile (fun c => c ≠ 0 && c ≠ nl) (str.drop i)
  exact (congrArg (List.drop _) h.symm).trans (List.drop_left _ _)

theorem drop_eq_charAt_cons {s : List UInt8} {i : Nat} (h : i < s.length) :
    s.drop i = charAt s i :: s.drop (i + 1) := by
  rw [List.drop_eq_getElem_cons h, charAt, List.getD_eq_getElem _ _ h]

/-- How the state of `compression_compress`'s loop stands to the string `s` it was given: it has
rewritten only gobbled whitespace before `i`, to spaces; with `gobbling` set, the byte before a
token is such a space; in a string, the byte before `i` is as given. -/
structure EncInv (s str : List UInt8) (i : Nat) (stringMode gobbling : Bool) : Prop where
  length_eq : str.length = s.length
  rewritten : ∀ j, charAt str j = charAt s j ∨
    (j < i ∧ isGobbled (charAt s j) = true ∧ charAt str j = sp)
  le_length : i ≤ s.length
  gobbled : gobbling = true → 0 < i ∧ (charAt str (i - 1) = sp ∨ charAt s i = nl ∨ s.length ≤ i)
  inString : stringMode = true → 0 < i ∧ charAt str (i - 1) = charAt s (i - 1) ∧ gobbling = false

section EncInv

variable {s str : List UInt8} {i : Nat} {stringMode gobbling : Bool}

theorem EncInv.start : EncInv s s 0 false false :=
  ⟨rfl, fun _ => .inl rfl, Nat.zero_le _, by simp, by simp⟩

theorem EncInv.charAt_eq (h : EncInv s str i stringMode gobbling) {j : Nat} (hj : i ≤ j) :
    charAt str j = charAt s j :=
  (h.rewritten j).resolve_right fun ⟨hlt, _⟩ => by omega

theorem EncInv.drop_eq (h : EncInv s str i stringMode gobbling) : str.drop i = s.drop i := by
  apply List.ext_getElem?
  intro k
  rw [List.getElem?_drop, List.getElem?_drop]
  by_cases hk : i + k < s.length
  · have hc := h.charAt_eq (j := i + k) (by omega)
    rw [charAt, charAt, List.getD_eq_getElem _ _ (h.length_eq ▸ hk), List.getD_eq_getElem _ _ hk] at hc
    rw [List.getElem?_eq_getElem (h.length_eq ▸ hk), List.getElem?_eq_getElem hk, hc]
  · rw [List.getElem?_eq_none (by rw [h.length_eq]; omega), List.getElem?_eq_none (by omega)]

theorem EncInv.next (h : EncInv s str i stringMode gobbling) {i' : Nat} {stringMode' gobbling' : Bool}
    (hii : i ≤ i') (hle : i' ≤ s.length)
    (hg : gobbling' = true → 0 < i' ∧ (charAt str (i' - 1) = sp ∨ charAt s i' = nl ∨ s.length ≤ i'))
    (hs : stringMode' = true → 0 < i' ∧ charAt str (i' - 1) = charAt s (i' - 1) ∧ gobbling' = false) :
    EncInv s str i' stringMode' gobbling' :=
  ⟨h.length_eq, fun j => (h.rewritten j).imp_right fun ⟨hj, hw⟩ => ⟨by omega, hw⟩, hle, hg, hs⟩

theorem EncInv.gobble (h : EncInv s str i stringMode gobbling) (hi : i < s.length)
    (hw : isGobbled (charAt s i) = true) : EncInv s (str.set i sp) (i + 1) false true := by
  have hlen : i < str.length := h.length_eq ▸ hi
  have hset : ∀ j, charAt (str.set i sp) j = if i = j then sp else charAt str j := by
    intro j
    simp only [charAt, List.getD_eq_getElem?_getD, List.getElem?_set]
    split <;> simp_all
  refine ⟨by simp [h.length_eq], fun j => ?_, hi, fun _ => ⟨by omega, .inl (by simp [hset])⟩, by simp⟩
  rw [hset]
  split
  · subst_vars; exact .inr ⟨by omega, hw, rfl⟩
  · exact (h.rewritten j).imp_right fun ⟨hj, hw⟩ => ⟨by omega, hw⟩

end EncInv

theorem skipComment_spec {s : List UInt8} (hnul : ∀ c ∈ s, c ≠ 0) {i : Nat} (hi : i < s.length)
    (hsemi : charAt s i = semi) :
    i < skipComment s i ∧ skipComment s i ≤ s.length ∧
      (charAt s (skipComment s i) = nl ∨ s.length ≤ skipComment s i) ∧
      s.drop (skipComment s i) = (s.drop (i + 1)).dropWhile fun c => c ≠ 0 && c ≠ nl := by
  have hdrop := drop_skipComment s i
  rw [drop_eq_charAt_cons hi, hsemi, List.dropWhile_cons_of_pos (by decide)] at hdrop
  have hlt : i < skipComment s i := by
    simp only [skipComment, drop_eq_charAt_cons hi, hsemi]
    rw [List.takeWhile_cons_of_pos (by decide)]
    simp
  have hle : skipComment s i ≤ s.length := by
    have : ((s.drop i).takeWhile fun c => c ≠ 0 && c ≠ nl).length ≤ (s.drop i).length :=
      (List.takeWhile_sublist _).length_le
    simp only [skipComment, List.length_drop] at this ⊢
    omega
  refine ⟨hlt, hle, ?_, hdrop⟩
  by_cases hend : s.length ≤ skipComment s i
  · exact .inr hend
  · left
    have hcons := drop_eq_charAt_cons (Nat.lt_of_not_le hend)
    rw [hdrop] at hcons
    have hhead := List.head_dropWhile_not (fun c => c ≠ 0 && c ≠ nl) (s.drop (i + 1))
      (by rw [hcons]; simp)
    have hmem : charAt s (skipComment s i) ∈ s := by
      rw [charAt, List.getD_eq_getElem _ _ (Nat.lt_of_not_le hend)]; exact List.getElem_mem _
    simp only [hcons, List.head_cons] at hhead
    simpa [hnul _ hmem] using hhead

theorem key_head {ix : Nat} (hix : ix < numCodes) {c : UInt8} {t : List UInt8} (hk : key ix = c :: t) :
    (c = sp → ix = 13) ∧ (c = dq → key ix = [dq]) ∧ c ≠ 11 ∧ c ≠ 12 := by
  rcases key_cases ix hix with ⟨rfl, h⟩ | ⟨rfl, h⟩ | ⟨-, hplain⟩
  · rw [h] at hk
    obtain ⟨rfl, -⟩ := List.cons.inj hk
    exact ⟨fun _ => rfl, by decide, by decide, by decide⟩
  · rw [h] at hk
    obtain ⟨rfl, -⟩ := List.cons.inj hk
    exact ⟨by decide, fun _ => h, by decide, by decide⟩
  · obtain ⟨hg, -, hq, -, h11, h12⟩ := hplain c (by simp [hk])
    exact ⟨fun h => by simp [h, isGobbled] at hg, fun h => absurd h hq, h11, h12⟩

theorem matchLongestKey_cons {c : UInt8} {rest : List UInt8} {ix : Nat}
    (h : matchLongestKey (c :: rest) = some ix) :
    ix < numCodes ∧ ∃ t, key ix = c :: t ∧ key ix <+: c :: rest := by
  obtain ⟨hix, hpre⟩ := matchLongestKey_spec h
  obtain ⟨k, t, hkt⟩ := List.exists_cons_of_ne_nil (key_ne_nil hix)
  rw [hkt] at hpre ⊢
  exact ⟨hix, t, by rw [(List.cons_prefix_cons.mp hpre).1], hpre⟩

/-- The compressor's loop and the loop of `compressed_length` agree on the bits from a state:
what the first emits in `fuel` turns is what the second counts. -/
def CountAgrees (s : List UInt8) (n fuel : Nat) (str : List UInt8) (i : Nat) (stringMode gobbling : Bool) :
    Prop :=
  ∀ es compLen, compressLoop n fuel str i stringMode gobbling = some es →
    compressedLengthLoop s n fuel i stringMode gobbling compLen = compLen + (es.flatMap Emit.bits).length

section CountSteps

variable {s str : List UInt8} {n fuel i : Nat} {gobbling : Bool}

theorem count_string (hn : n ≤ s.length)
    (ih : ∀ str i sm g, EncInv s str i sm g → CountAgrees s n fuel str i sm g)
    (hinv : EncInv s str i true gobbling) (hi : i < n) : CountAgrees s n (fuel + 1) str i true gobbling := by
  intro es compLen hloop
  obtain ⟨-, hprev, rfl⟩ := hinv.inString rfl
  have hc := hinv.charAt_eq le_rfl
  by_cases hend : (charAt s i = dq && !(charAt s (i - 1) = bs)) = true
  · simp only [compressLoop, hi, ite_true, hc, hprev, hend, Option.map_eq_some'] at hloop
    obtain ⟨es', hloop', rfl⟩ := hloop
    simp only [compressedLengthLoop, hi, ite_true, hend,
      ih _ _ _ _ (hinv.next (by omega) (by omega) (by simp) (by simp)) es' _ hloop']
    simp [Emit.bits]; omega
  · simp only [compressLoop, hi, ite_true, hc, hprev, hend, Bool.false_eq_true, ite_false,
      Option.map_eq_some'] at hloop
    obtain ⟨es', hloop', rfl⟩ := hloop
    simp only [compressedLengthLoop, hi, ite_true, hend, Bool.false_eq_true, ite_false,
      ih _ _ _ _ (hinv.next (by omega) (by omega) (by simp) fun _ => ⟨by omega, by simpa using hc, rfl⟩) es' _
        hloop']
    simp [Emit.bits]; omega

theorem count_comment (hnul : ∀ c ∈ s, c ≠ 0) (hn : n ≤ s.length)
    (ih : ∀ str i sm g, EncInv s str i sm g → CountAgrees s n fuel str i sm g)
    (hinv : EncInv s str i false gobbling) (hi : i < n) (hsemi : charAt s i = semi) :
    CountAgrees s n (fuel + 1) str i false gobbling := by
  intro es compLen hloop
  obtain ⟨hlt, hle, hnl, -⟩ := skipComment_spec hnul (by omega) hsemi
  have hskip : skipComment str i = skipComment s i := by simp only [skipComment, hinv.drop_eq]
  simp only [compressLoop, hi, ite_true, Bool.false_eq_true, ite_false, hinv.charAt_eq le_rfl, hsemi,
    hskip] at hloop
  simp only [compressedLengthLoop, hi, ite_true, Bool.false_eq_true, ite_false, hsemi]
  exact ih _ _ _ _ (hinv.next hlt.le hle (fun _ => ⟨by omega, .inr hnl⟩) (by simp)) es compLen hloop

theorem count_gobble (hn : n ≤ s.length)
    (ih : ∀ str i sm g, EncInv s str i sm g → CountAgrees s n fuel str i sm g)
    (hinv : EncInv s str i false gobbling) (hi : i < n) (hsemi : ¬ charAt s i = semi)
    (hgob : isGobbled (charAt s i) = true) : CountAgrees s n (fuel + 1) str i false gobbling := by
  intro es compLen hloop
  simp only [compressLoop, hi, ite_true, Bool.false_eq_true, ite_false, hinv.charAt_eq le_rfl, hsemi,
    hgob] at hloop
  simp only [compressedLengthLoop, hi, ite_true, Bool.false_eq_true, ite_false, hsemi, hgob]
  exact ih _ _ _ _ (hinv.gobble (by omega) hgob) es compLen hloop

theorem count_pending (hn : n ≤ s.length)
    (ih : ∀ str i sm g, EncInv s str i sm g → CountAgrees s n fuel str i sm g)
    (hinv : EncInv s str i false true) (hi : i < n) (hsemi : ¬ charAt s i = semi)
    (hgob : ¬ isGobbled (charAt s i) = true) : CountAgrees s n (fuel + 1) str i false true := by
  intro es compLen hloop
  obtain ⟨hpos, hprev⟩ := hinv.gobbled rfl
  have hprev : charAt str (i - 1) = sp :=
    hprev.resolve_right fun h => h.elim (fun h => hgob (by simp [h, isGobbled])) fun h => by omega
  have hdrop : str.drop (i - 1) = sp :: s.drop i := by
    rw [drop_eq_charAt_cons (by rw [hinv.length_eq]; omega), hprev, Nat.sub_add_cancel hpos, hinv.drop_eq]
  have hws : isSpace (charAt s (i - 1)) = true := by
    rcases hinv.rewritten (i - 1) with h | ⟨-, h, -⟩
    · simp [isSpace, isGobbled, ← h, hprev]
    · simp [isSpace, h]
  have hnq : ¬ charAt s (i - 1) = dq := fun h => by simp [h, isSpace, isGobbled, dq, nl, sp, tab, cr] at hws
  simp only [compressLoop, hi, ite_true, Bool.false_eq_true, ite_false, hinv.charAt_eq le_rfl, hsemi, hgob,
    hdrop, hprev] at hloop
  cases hm : matchLongestKey (sp :: s.drop i) with
  | none => simp [hm] at hloop
  | some ix =>
    obtain ⟨hix, t, hk, -⟩ := matchLongestKey_cons hm
    obtain rfl := (key_head hix hk).1 rfl
    simp only [hm, Option.map_eq_some', show key 13 = [sp] from rfl, List.length_singleton,
      Nat.sub_add_cancel hpos] at hloop
    obtain ⟨es', hloop', rfl⟩ := hloop
    simp only [compressedLengthLoop, hi, ite_true, Bool.false_eq_true, ite_false, hsemi, hgob, hws, hnq,
      @matchLongestKey_space [] (by decide), show key 13 = [sp] from rfl, List.length_singleton,
      Nat.sub_add_cancel hpos, decide_False]
    rw [ih str i false false (hinv.next le_rfl hinv.le_length (by simp) (by simp)) es' _ (by simpa using hloop')]
    simp [Emit.bits, show (code 13).length = 6 from rfl]; omega

theorem count_token (hn : n ≤ s.length)
    (ih : ∀ str i sm g, EncInv s str i sm g → CountAgrees s n fuel str i sm g)
    (hinv : EncInv s str i false false) (hi : i < n) (hsemi : ¬ charAt s i = semi)
    (hgob : ¬ isGobbled (charAt s i) = true) : CountAgrees s n (fuel + 1) str i false false := by
  intro es compLen hloop
  have hil : i < s.length := by omega
  have hc := hinv.charAt_eq le_rfl
  cases hm : matchLongestKey (s.drop i) with
  | none => simp [compressLoop, hi, hc, hsemi, hgob, hinv.drop_eq, hm] at hloop
  | some ix =>
    obtain ⟨hix, t, hk, hpre⟩ := matchLongestKey_cons (drop_eq_charAt_cons hil ▸ hm)
    obtain ⟨-, hdq, h11, h12⟩ := key_head hix hk
    have hsp : isSpace (charAt s i) = false := by simp [isSpace, hgob, h11, h12]
    have hlen' : i + (key ix).length ≤ s.length := by
      have := hpre.length_le
      rw [← drop_eq_charAt_cons hil, List.length_drop] at this
      omega
    simp only [compressLoop, hi, ite_true, Bool.false_eq_true, ite_false, hc, hsemi, hgob, hinv.drop_eq, hm,
      Option.map_eq_some'] at hloop
    obtain ⟨es', hloop', rfl⟩ := hloop
    simp only [compressedLengthLoop, hi, ite_true, Bool.false_eq_true, ite_false, hsemi, hgob, hsp, hm]
    rw [ih _ _ _ _ (hinv.next (by omega) hlen' (by simp) fun hq => ?_) es' _ hloop']
    · simp [Emit.bits]; omega
    · have hq : charAt s i = dq := by simpa using hq
      have h1 : (key ix).length = 1 := by rw [hdq hq]; rfl
      exact ⟨by omega, by rw [h1, Nat.add_sub_cancel]; exact hc, rfl⟩

end CountSteps

theorem compressLoop_count {s : List UInt8} (hnul : ∀ c ∈ s, c ≠ 0) {n : Nat} (hn : n ≤ s.length) :
    ∀ fuel str i stringMode gobbling, EncInv s str i stringMode gobbling →
      CountAgrees s n fuel str i stringMode gobbling := by
  intro fuel
  induction fuel with
  | zero =>
    intro _ _ _ _ _ _ _ h
    simp only [compressLoop, Option.some.injEq] at h
    simp [compressedLengthLoop, ← h]
  | succ fuel ih =>
    intro str i sm g hinv
    by_cases hi : i < n
    swap
    · intro es compLen hloop
      simp only [compressLoop, hi, ite_false, Option.some.injEq] at hloop
      simp [compressedLengthLoop, hi, ← hloop]
    cases sm with
    | true => exact count_string hn ih hinv hi
    | false =>
      by_cases hsemi : charAt s i = semi
      · exact count_comment hnul hn ih hinv hi hsemi
      by_cases hgob : isGobbled (charAt s i) = true
      · exact count_gobble hn ih hinv hi hsemi hgob
      cases g with
      | true => exact count_pending hn ih hinv hi hsemi hgob
      | false => exact count_token hn ih hinv hi hsemi hgob

end LispBM.Compression
