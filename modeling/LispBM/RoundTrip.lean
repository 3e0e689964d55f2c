import LispBM.Encoder

namespace LispBM.Compression

/-- What `compression_decompress` writes for an emitted item. -/
def Emit.out : Emit → List UInt8
  | .emitCode ix => key ix
  | .emitStringCharCode c => [c]

/-- The decompressor's mode, whether in a string and the last string character, after it reads
an item: `none` where the item is not one it reads in that mode. -/
def readStep : Bool × UInt8 → Emit → Option (Bool × UInt8)
  | (false, last), .emitCode ix =>
    if ix < numCodes then some (if key ix = [dq] then (true, 0) else (false, last)) else none
  | (true, last), .emitStringCharCode c => some (!(c = dq && last ≠ bs), c)
  | _, _ => none

/-- What the decompressor writes for a run of items, read one after the other from a mode. -/
def readAll : Bool × UInt8 → List Emit → Option (List UInt8)
  | _, [] => some []
  | m, e :: es => (readStep m e).bind fun m' => (readAll m' es).map (e.out ++ ·)

theorem bitsValue_testBit (n k : Nat) : bitsValue ((List.range k).map n.testBit) = n % 2 ^ k := by
  induction k generalizing n with
  | zero => simp [bitsValue, Nat.mod_one]
  | succ k ih =>
    rw [List.range_succ_eq_map, List.map_cons, List.map_map]
    have hsucc : (n.testBit ∘ Nat.succ) = (n / 2).testBit := funext fun i => Nat.testBit_succ n i
    rw [bitsValue, hsucc, ih, Nat.testBit_zero, Nat.pow_succ', Nat.mod_mul]
    rcases Nat.mod_two_eq_zero_or_one n with h | h <;> simp [h]

theorem Emit.bits_length_pos (e : Emit) (he : ∀ ix, e = .emitCode ix → ix < numCodes) :
    0 < e.bits.length := by
  cases e with
  | emitCode ix => have := code_length_ge ix (he ix rfl); simp only [Emit.bits]; omega
  | emitStringCharCode c => simp [Emit.bits]

theorem readCharacter_eq {src : List Bool} {p : Nat} {c : UInt8}
    (h : ∀ k < 8, bitAt src (p + k) = c.toNat.testBit k) : readCharacter src p = c := by
  have hmap : ((List.range 8).map fun k => bitAt src (p + k)) = (List.range 8).map c.toNat.testBit :=
    List.map_congr_left fun k hk => h k (List.mem_range.mp hk)
  apply UInt8.toNat.inj
  have hlt : c.toNat < 2 ^ 8 := c.toNat_lt_size
  rw [readCharacter, hmap, bitsValue_testBit, Nat.mod_eq_of_lt hlt]
  exact UInt8.toNat_ofNat_of_lt hlt

theorem decompressIncremental_step {src : List Bool} {s : DecompState} {e : Emit}
    {m' : Bool × UInt8} (hstep : readStep (s.stringMode, s.lastStringChar) e = some m')
    (hfit : s.i + e.bits.length ≤ (s.compressedBits + 32) % 2 ^ 32)
    (hbits : ∀ k < e.bits.length, bitAt src (s.i + k) = e.bits.getD k false) :
    ∃ s' : DecompState, decompressIncremental src s = ((e.out.length : Int), e.out, s') ∧
      (s'.stringMode, s'.lastStringChar) = m' ∧ s'.i = s.i + e.bits.length ∧
      s'.compressedBits = s.compressedBits := by
  obtain ⟨cb, i, sm, last⟩ := s
  cases e with
  | emitCode ix =>
    cases sm
    · simp only [readStep, Option.ite_none_right_eq_some, Option.some.injEq] at hstep
      obtain ⟨hix, rfl⟩ := hstep
      have hpos := code_length_ge ix hix
      have hmatch : matchLongestCode src i ((cb + 32) % 4294967296) = some ix :=
        matchLongestCode_eq hix (by simp only [Emit.bits] at hfit; omega) hbits
      simp only [Emit.bits] at hfit
      have hlt : i < (cb + 32) % 4294967296 := by omega
      by_cases hq : key ix = [dq]
      · exact ⟨⟨cb, i + (code ix).length, true, 0⟩, by
          simp [decompressIncremental, hmatch, Emit.out, hlt, hq], by simp [hq], by simp [Emit.bits], rfl⟩
      · exact ⟨⟨cb, i + (code ix).length, false, last⟩, by
          simp [decompressIncremental, hmatch, Emit.out, hlt, hq], by simp [hq], by simp [Emit.bits], rfl⟩
    · simp [readStep] at hstep
  | emitStringCharCode c =>
    cases sm
    · simp [readStep] at hstep
    · simp only [readStep, Option.some.injEq] at hstep
      subst hstep
      have hc : readCharacter src i = c := readCharacter_eq fun k hk => by
        simpa [Emit.bits, List.getElem?_range hk, hk] using hbits k (by simpa [Emit.bits] using hk)
      simp only [Emit.bits, List.length_map, List.length_range] at hfit
      exact ⟨⟨cb, i + 8, !(c = dq && last ≠ bs), c⟩, by
        simp [decompressIncremental, hc, Emit.out, show i < (cb + 32) % 4294967296 by omega], rfl,
        by simp [Emit.bits], rfl⟩

theorem Emit.out_ne_nil {e : Emit} (he : ∀ ix, e = .emitCode ix → ix < numCodes) : e.out ≠ [] := by
  cases e with
  | emitCode ix => exact key_ne_nil (he ix rfl)
  | emitStringCharCode c => simp [Emit.out]

theorem readStep_code {m m' : Bool × UInt8} {e : Emit} (h : readStep m e = some m') :
    ∀ ix, e = .emitCode ix → ix < numCodes := by
  rintro ix rfl
  obtain ⟨_ | _, last⟩ := m <;> simp_all [readStep]

/-- From bit `s.i` on, where the buffer holds the bits of `es` up to the end the header gives,
the decompressor copies what `readAll` reads and returns true. -/
theorem decompressLoop_readAll {src : List Bool} {T : Nat} (hT : T + 32 < 2 ^ 32) :
    ∀ (es : List Emit) (fuel : Nat) (s : DecompState) (out : List UInt8),
      readAll (s.stringMode, s.lastStringChar) es = some out → s.compressedBits = T →
      s.i + (es.flatMap Emit.bits).length = T + 32 →
      (∀ k < (es.flatMap Emit.bits).length, bitAt src (s.i + k) = (es.flatMap Emit.bits).getD k false) →
      es.length < fuel → decompressLoop src fuel s = (true, out) := by
  intro es
  induction es with
  | nil =>
    rintro (_ | fuel) s out hread hcb hend - hfuel
    · simp at hfuel
    simp only [readAll, Option.some.injEq] at hread
    subst hread
    simp only [List.flatMap_nil, List.length_nil, Nat.add_zero] at hend
    simp [decompressLoop, decompressIncremental, hcb, hend,
      Nat.mod_eq_of_lt (show T + 32 < 4294967296 by omega)]
  | cons e es ih =>
    rintro (_ | fuel) s out hread hcb hend hbits hfuel
    · simp at hfuel
    simp only [readAll, Option.bind_eq_some, Option.map_eq_some'] at hread
    obtain ⟨m', hstep, out', hrest, rfl⟩ := hread
    simp only [List.flatMap_cons, List.length_append] at hend hbits
    have hfit : s.i + e.bits.length ≤ (s.compressedBits + 32) % 2 ^ 32 := by
      rw [hcb, Nat.mod_eq_of_lt hT]; omega
    obtain ⟨s', hinc, hmode, hi', hcb'⟩ := decompressIncremental_step hstep hfit fun k hk =>
      (hbits k (by omega)).trans (List.getD_append _ _ _ _ hk)
    have hne := Emit.out_ne_nil (readStep_code hstep)
    have hnum : ((e.out.length : Nat) : Int) ≠ 0 := by
      have := List.length_pos.mpr hne; omega
    have hnum' : ((e.out.length : Nat) : Int) ≠ -1 := by omega
    have hloop := ih fuel s' out' (by rw [hmode]; exact hrest) (hcb'.trans hcb) (by omega)
      (fun k hk => by
        rw [hi', Nat.add_assoc, hbits _ (by omega), List.getD_append_right _ _ _ _ (by omega)]
        simp) (by simpa using hfuel)
    simp only [decompressLoop, hinc, hnum, hnum', ite_false, hloop]

/-- The decompressor's mode stands to the compressor's: both in a string or both not, and in a
string the last character is a backslash exactly when the string's byte before `i` is one. -/
def ModeAgrees (s : List UInt8) (i : Nat) (stringMode : Bool) (dm : Bool × UInt8) : Prop :=
  dm.1 = stringMode ∧ (stringMode = true → (dm.2 = bs ↔ charAt s (i - 1) = bs))

/-- Where the normalisation stands at the compressor's state. -/
def encMode (s : List UInt8) (i : Nat) (stringMode gobbling : Bool) : NormMode :=
  if stringMode then .literal (charAt s (i - 1)) else .code gobbling

/-- The compressor's loop and the loop of `compressed_length` from one state, with `fuel` turns:
what the first emits reads back as the normalisation of the rest of `s`, and the second counts
its bits. -/
def Sim (s : List UInt8) (fuel : Nat) (str : List UInt8) (i : Nat) (stringMode gobbling : Bool) : Prop :=
  ∀ es dm compLen, ModeAgrees s i stringMode dm →
    compressLoop s.length fuel str i stringMode gobbling = some es →
    readAll dm es = some (normFrom (encMode s i stringMode gobbling) (s.drop i)) ∧
      compressedLengthLoop s s.length fuel i stringMode gobbling compLen =
        compLen + (es.flatMap Emit.bits).length

/-- The simulation at every state of the invariant that `fuel` turns are enough for. -/
def SimBelow (s : List UInt8) (fuel : Nat) : Prop :=
  ∀ str i stringMode gobbling, 2 * (s.length - i) + (if gobbling then 1 else 0) < fuel →
    EncInv s str i stringMode gobbling → Sim s fuel str i stringMode gobbling

section SimSteps

variable {s str : List UInt8} {i fuel : Nat} {stringMode gobbling : Bool}

theorem sim_end (hi : s.length ≤ i) : Sim s (fuel + 1) str i stringMode gobbling := by
  intro es dm compLen _ hloop
  simp only [compressLoop, Nat.not_lt.mpr hi, ite_false, Option.some.injEq] at hloop
  subst hloop
  have hnil : s.drop i = [] := List.drop_eq_nil_of_le hi
  cases stringMode <;> simp [compressedLengthLoop, Nat.not_lt.mpr hi, readAll, hnil, normFrom, encMode]

theorem sim_string_close (hnul : ∀ c ∈ s, c ≠ 0) (ih : SimBelow s fuel)
    (hfuel : 2 * (s.length - i) + (if false then 1 else 0) < fuel + 1) (hinv : EncInv s str i true false)
    (hi : i < s.length) (hend : charAt s i = dq ∧ charAt s (i - 1) ≠ bs) :
    Sim s (fuel + 1) str i true false := by
  rintro es ⟨b, last⟩ compLen ⟨hb, hlast⟩ hloop
  refine ⟨?_, compressLoop_count hnul le_rfl _ _ _ _ _ hinv es compLen hloop⟩
  obtain rfl : b = true := hb
  obtain ⟨-, hprev, -⟩ := hinv.inString rfl
  have hcond : (charAt s i = dq && !(charAt s (i - 1) = bs)) = true := by simp [hend]
  simp only [compressLoop, hi, ite_true, hinv.charAt_eq le_rfl, hprev, hcond, Option.map_eq_some'] at hloop
  obtain ⟨es', hloop', rfl⟩ := hloop
  obtain ⟨hread, -⟩ := ih str (i + 1) false false (by omega)
    (hinv.next (by omega) hi (by simp) (by simp)) es' (false, dq) 0 ⟨rfl, by simp⟩ hloop'
  have hl : last ≠ bs := fun h => hend.2 ((hlast rfl).mp h)
  rw [drop_eq_charAt_cons hi]
  simp [readAll, readStep, hl, hend.1, hread, encMode, normFrom, hend.2, Emit.out]

theorem sim_string_char (hnul : ∀ c ∈ s, c ≠ 0) (ih : SimBelow s fuel)
    (hfuel : 2 * (s.length - i) + (if false then 1 else 0) < fuel + 1) (hinv : EncInv s str i true false)
    (hi : i < s.length) (hend : ¬ (charAt s i = dq ∧ charAt s (i - 1) ≠ bs)) :
    Sim s (fuel + 1) str i true false := by
  rintro es ⟨b, last⟩ compLen ⟨hb, hlast⟩ hloop
  refine ⟨?_, compressLoop_count hnul le_rfl _ _ _ _ _ hinv es compLen hloop⟩
  obtain rfl : b = true := hb
  obtain ⟨-, hprev, -⟩ := hinv.inString rfl
  have hc := hinv.charAt_eq le_rfl
  have hcond : (charAt s i = dq && !(charAt s (i - 1) = bs)) = false := by simpa using hend
  simp only [compressLoop, hi, ite_true, hc, hprev, hcond, Bool.false_eq_true, ite_false,
    Option.map_eq_some'] at hloop
  obtain ⟨es', hloop', rfl⟩ := hloop
  obtain ⟨hread, -⟩ := ih str (i + 1) true false (by omega)
    (hinv.next (by omega) hi (by simp) fun _ => ⟨by omega, by simpa using hc, rfl⟩)
    es' (true, charAt s i) 0 ⟨rfl, by simp⟩ hloop'
  have hmode : (!(charAt s i = dq && last ≠ bs)) = true := by
    by_contra hm
    simp only [Bool.not_eq_true, Bool.not_eq_false', Bool.and_eq_true, decide_eq_true_eq] at hm
    exact hend ⟨hm.1, fun h => hm.2 ((hlast rfl).mpr h)⟩
  rw [drop_eq_charAt_cons hi]
  simp only [readAll, readStep]
  rw [hmode]
  simp [hread, encMode, normFrom, hend, Emit.out]

theorem sim_comment (hnul : ∀ c ∈ s, c ≠ 0) (ih : SimBelow s fuel)
    (hfuel : 2 * (s.length - i) + (if gobbling then 1 else 0) < fuel + 1)
    (hinv : EncInv s str i false gobbling) (hi : i < s.length) (hsemi : charAt s i = semi) :
    Sim s (fuel + 1) str i false gobbling := by
  rintro es ⟨b, last⟩ compLen ⟨hb, -⟩ hloop
  refine ⟨?_, compressLoop_count hnul le_rfl _ _ _ _ _ hinv es compLen hloop⟩
  obtain rfl : b = false := hb
  obtain ⟨hlt, hle, hnl, hdrop⟩ := skipComment_spec hnul hi hsemi
  have hskip : skipComment str i = skipComment s i := by simp only [skipComment, hinv.drop_eq]
  simp only [compressLoop, hi, ite_true, Bool.false_eq_true, ite_false, hinv.charAt_eq le_rfl, hsemi,
    hskip] at hloop
  obtain ⟨hread, -⟩ := ih str (skipComment s i) false gobbling (by split at hfuel <;> split <;> omega)
    (hinv.next hlt.le hle (fun _ => ⟨by omega, .inr hnl⟩) (by simp)) es (false, last) 0 ⟨rfl, by simp⟩ hloop
  have hrest : ∀ c ∈ s.drop (i + 1), c ≠ 0 := fun c hm => hnul c (List.mem_of_mem_drop hm)
  rw [hread, hdrop, drop_eq_charAt_cons hi]
  simp [encMode, normFrom, hsemi, isGobbled, semi, nl, sp, tab, cr, normFrom_comment gobbling _ hrest]

theorem sim_gobble (hnul : ∀ c ∈ s, c ≠ 0) (ih : SimBelow s fuel)
    (hfuel : 2 * (s.length - i) + (if gobbling then 1 else 0) < fuel + 1)
    (hinv : EncInv s str i false gobbling) (hi : i < s.length) (hsemi : ¬ charAt s i = semi)
    (hgob : isGobbled (charAt s i) = true) : Sim s (fuel + 1) str i false gobbling := by
  rintro es ⟨b, last⟩ compLen ⟨hb, -⟩ hloop
  refine ⟨?_, compressLoop_count hnul le_rfl _ _ _ _ _ hinv es compLen hloop⟩
  obtain rfl : b = false := hb
  simp only [compressLoop, hi, ite_true, Bool.false_eq_true, ite_false, hinv.charAt_eq le_rfl, hsemi,
    hgob] at hloop
  obtain ⟨hread, -⟩ := ih (str.set i sp) (i + 1) false true (by simp only [ite_true]; split at hfuel <;> omega)
    (hinv.gobble hi hgob) es (false, last) 0 ⟨rfl, by simp⟩ hloop
  rw [hread, drop_eq_charAt_cons hi]
  simp [encMode, normFrom, hgob]

theorem sim_pending (hnul : ∀ c ∈ s, c ≠ 0) (hlen : s.length < 2 ^ 32) (ih : SimBelow s fuel)
    (hfuel : 2 * (s.length - i) + (if true then 1 else 0) < fuel + 1) (hinv : EncInv s str i false true)
    (hi : i < s.length) (hsemi : ¬ charAt s i = semi) (hgob : ¬ isGobbled (charAt s i) = true) :
    Sim s (fuel + 1) str i false true := by
  rintro es ⟨b, last⟩ compLen ⟨hb, -⟩ hloop
  refine ⟨?_, compressLoop_count hnul le_rfl _ _ _ _ _ hinv es compLen hloop⟩
  obtain rfl : b = false := hb
  obtain ⟨hpos, hprev⟩ := hinv.gobbled rfl
  have hprev : charAt str (i - 1) = sp :=
    hprev.resolve_right fun h => h.elim (fun h => hgob (by simp [h, isGobbled])) fun h => by omega
  have hdrop : str.drop (i - 1) = sp :: s.drop i := by
    rw [drop_eq_charAt_cons (by rw [hinv.length_eq]; omega), hprev, Nat.sub_add_cancel hpos, hinv.drop_eq]
  have hmatch : matchLongestKey (str.drop (i - 1)) = some 13 := by
    rw [hdrop]; exact matchLongestKey_space (by simp; omega)
  simp only [compressLoop, hi, ite_true, Bool.false_eq_true, ite_false, hinv.charAt_eq le_rfl, hsemi, hgob,
    hmatch, hprev, Option.map_eq_some'] at hloop
  obtain ⟨es', hloop', rfl⟩ := hloop
  have hk : (key 13).length = 1 := rfl
  rw [hk, Nat.sub_add_cancel hpos] at hloop'
  obtain ⟨hread, -⟩ := ih str i false false (by simp at hfuel ⊢; omega)
    (hinv.next le_rfl hinv.le_length (by simp) (by simp)) es' (false, last) 0 ⟨rfl, by simp⟩
    (by simpa using hloop')
  rw [drop_eq_charAt_cons hi] at hread ⊢
  simp [readAll, readStep, hread, encMode, Emit.out, normFrom, hgob, hsemi,
    show key 13 = [sp] from rfl, show (13 : Nat) < numCodes from by decide, show ¬ sp = dq from by decide]

theorem sim_token (hnul : ∀ c ∈ s, c ≠ 0) (ih : SimBelow s fuel)
    (hfuel : 2 * (s.length - i) + (if false then 1 else 0) < fuel + 1) (hinv : EncInv s str i false false)
    (hi : i < s.length) (hsemi : ¬ charAt s i = semi) (hgob : ¬ isGobbled (charAt s i) = true) :
    Sim s (fuel + 1) str i false false := by
  rintro es ⟨b, last⟩ compLen ⟨hb, -⟩ hloop
  refine ⟨?_, compressLoop_count hnul le_rfl _ _ _ _ _ hinv es compLen hloop⟩
  obtain rfl : b = false := hb
  have hc := hinv.charAt_eq le_rfl
  have hsp : ¬ charAt s i = sp := fun h => by simp [h, isGobbled] at hgob
  have hdrop := hinv.drop_eq
  cases hm : matchLongestKey (s.drop i) with
  | none => simp [compressLoop, hi, hc, hsemi, hgob, hdrop, hm] at hloop
  | some ix =>
    obtain ⟨hix, hpre⟩ := matchLongestKey_spec hm
    have hlen' : i + (key ix).length ≤ s.length := by
      have := hpre.length_le; simp only [List.length_drop] at this; omega
    have hsplit : s.drop i = key ix ++ s.drop (i + (key ix).length) := by
      obtain ⟨t, ht⟩ := hpre
      rw [← List.drop_drop, ← ht, List.drop_left]
    simp only [compressLoop, hi, ite_true, Bool.false_eq_true, ite_false, hc, hsemi, hgob, hdrop,
      hm, Option.map_eq_some'] at hloop
    obtain ⟨es', hloop', rfl⟩ := hloop
    have hhead : (key ix).head? = some (charAt s i) := by
      have h2 := hsplit
      rw [drop_eq_charAt_cons hi] at h2
      cases hk : key ix with
      | nil => exact absurd hk (key_ne_nil hix)
      | cons k ks => rw [hk, List.cons_append] at h2; simp [(List.cons.inj h2).1]
    rw [hsplit]
    rcases key_cases ix hix with ⟨rfl, hk⟩ | ⟨rfl, hk⟩ | ⟨hne, hplain⟩
    · rw [hk] at hhead; exact absurd (Option.some.inj hhead).symm hsp
    · rw [hk] at hhead hloop'
      have hq : charAt s i = dq := (Option.some.inj hhead).symm
      obtain ⟨hread, -⟩ := ih str (i + 1) true false (by simp at hfuel ⊢; omega)
        (hinv.next (by omega) (by simpa using hlen') (by simp) fun _ => ⟨by omega, by simpa using hc, rfl⟩)
        es' (true, 0) 0 ⟨rfl, by simp [hq, dq, bs]⟩ (by simpa [hc, hq] using hloop')
      rw [hk]
      simp [readAll, readStep, hk, hread, encMode, Emit.out, show (16 : Nat) < numCodes from by decide,
        normFrom, show isGobbled dq = false from by decide, show dq ≠ semi from by decide, hq]
    · obtain ⟨k, ks, hks⟩ := List.exists_cons_of_ne_nil hne
      have hk : charAt s i = k := by simpa [hks] using hhead.symm
      have hq : k ≠ dq := (hplain k (by simp [hks])).2.2.1
      have hnq : key ix ≠ [dq] := by rw [hks]; intro h; exact hq (List.cons.inj h).1
      obtain ⟨hread, -⟩ := ih str (i + (key ix).length) false false
        (by simp at hfuel ⊢; rw [hks] at hlen' ⊢; simp at hlen' ⊢; omega)
        (hinv.next (by omega) hlen' (by simp) (by simp)) es' (false, last) 0
        ⟨rfl, by simp⟩ (by simpa [hc, hk, hq] using hloop')
      simp [readAll, readStep, hix, hnq, hread, encMode, Emit.out,
        normFrom_plain _ _ fun c hc => ⟨(hplain c hc).1, (hplain c hc).2.1, (hplain c hc).2.2.1⟩]

end SimSteps

/-- Over every run of the compressor's loop from a state of the invariant, the simulation holds. -/
theorem compressLoop_sim {s : List UInt8} (hnul : ∀ c ∈ s, c ≠ 0) (hlen : s.length < 2 ^ 32) :
    ∀ fuel, SimBelow s fuel := by
  intro fuel
  induction fuel with
  | zero => intro _ _ _ _ h; omega
  | succ fuel ih =>
    intro str i sm g hfuel hinv
    by_cases hi : i < s.length
    swap
    · exact sim_end (Nat.le_of_not_lt hi)
    cases sm with
    | true =>
      obtain ⟨-, -, rfl⟩ := hinv.inString rfl
      by_cases hend : charAt s i = dq ∧ charAt s (i - 1) ≠ bs
      · exact sim_string_close hnul ih hfuel hinv hi hend
      · exact sim_string_char hnul ih hfuel hinv hi hend
    | false =>
      by_cases hsemi : charAt s i = semi
      · exact sim_comment hnul ih hfuel hinv hi hsemi
      by_cases hgob : isGobbled (charAt s i) = true
      · exact sim_gobble hnul ih hfuel hinv hi hsemi hgob
      cases g with
      | true => exact sim_pending hnul hlen ih hfuel hinv hi hsemi hgob
      | false => exact sim_token hnul ih hfuel hinv hi hsemi hgob

theorem readAll_length_le {m : Bool × UInt8} {es : List Emit} {out : List UInt8}
    (h : readAll m es = some out) : es.length ≤ (es.flatMap Emit.bits).length := by
  induction es generalizing m out with
  | nil => simp
  | cons e es ih =>
    simp only [readAll, Option.bind_eq_some, Option.map_eq_some'] at h
    obtain ⟨m', hstep, out', hrest, -⟩ := h
    have := Emit.bits_length_pos e (readStep_code hstep)
    simp only [List.length_cons, List.flatMap_cons, List.length_append]
    have := ih hrest
    omega

theorem bitAt_header {T : Nat} {rest : List Bool} {k : Nat} (hk : k < 32) :
    bitAt (headerBits T ++ rest) k = T.testBit k := by
  rw [bitAt, List.getD_append _ _ _ _ (by simpa [headerBits] using hk)]
  simp [headerBits, hk]

theorem compressionDecompress_of_loop {src : List Bool} {destN : Nat} {ok : Bool} {out : List UInt8}
    (h : decompressLoop src ((compressionInitState src).compressedBits + 1) (compressionInitState src) =
      (ok, out)) :
    compressionDecompress destN src = (ok, out ++ List.replicate (destN - out.length) 0) := by
  dsimp only [compressionDecompress]
  rw [h]

theorem decompress_framed {es : List Emit} {out : List UInt8} (hread : readAll (false, 0) es = some out)
    (hT : (es.flatMap Emit.bits).length + 32 < 2 ^ 32) (pad destN : Nat) :
    compressionDecompress destN (headerBits (es.flatMap Emit.bits).length ++ es.flatMap Emit.bits ++
      List.replicate pad false) = (true, out ++ List.replicate (destN - out.length) 0) := by
  have hes := readAll_length_le hread
  generalize hB : es.flatMap Emit.bits = B at hT hes
  have hinit : compressionInitState (headerBits B.length ++ B ++ List.replicate pad false) =
      ⟨B.length, 32, false, 0⟩ := by
    have hmap : (List.range 32).map (bitAt (headerBits B.length ++ B ++ List.replicate pad false)) =
        (List.range 32).map B.length.testBit :=
      List.map_congr_left fun k hk => by
        rw [List.append_assoc]; exact bitAt_header (List.mem_range.mp hk)
    simp only [compressionInitState, hmap, bitsValue_testBit,
      Nat.mod_eq_of_lt (show B.length < 2 ^ 32 by omega)]
  have hbody : ∀ k < B.length, bitAt (headerBits B.length ++ B ++ List.replicate pad false) (32 + k) =
      B.getD k false := fun k hk => by
    have hh : (headerBits B.length).length = 32 := by simp [headerBits]
    rw [bitAt, List.append_assoc, List.getD_append_right _ _ _ _ (by omega),
      List.getD_append _ _ _ _ (by omega), hh, Nat.add_sub_cancel_left]
  subst hB
  have hdec := decompressLoop_readAll (show (es.flatMap Emit.bits).length + 32 < 2 ^ 32 from hT) es
    ((es.flatMap Emit.bits).length + 1) ⟨_, 32, false, 0⟩ out hread rfl (Nat.add_comm _ _) hbody (by omega)
  exact compressionDecompress_of_loop (by rw [hinit]; exact hdec)

theorem compressionCompress_eq {s : List UInt8} {T : Nat} {es : List Emit} (hlen : s.length < 2 ^ 32)
    (hL : compressedLength s = T) (hT : T < 2 ^ 32)
    (hloop : compressLoop s.length (2 * s.length + 2) s 0 false false = some es) :
    compressionCompress s = if T = 0 then none else some (headerBits T ++ es.flatMap Emit.bits ++
      List.replicate (8 * (4 + T / 8 + if T % 8 > 0 then 1 else 0) -
        (headerBits T ++ es.flatMap Emit.bits).length) false) := by
  have hn : s.length % 2 ^ 32 = s.length := Nat.mod_eq_of_lt hlen
  have hTm : T % 2 ^ 32 = T := Nat.mod_eq_of_lt hT
  simp only [compressionCompress, hL, ge_iff_le, Int.ofNat_nonneg, ite_true, Int.toNat_ofNat, hTm, hn,
    hloop, Option.map_some']

/-- Decompression inverts compression up to the normalisation `norm`, for strings shorter than
2^32 bytes whose bit count leaves the compressor's int counters in range. -/
theorem decompress_compress (s : List UInt8) (hnul : ∀ c ∈ s, c ≠ 0) (hlen : s.length < 2 ^ 32)
    (hbits : compressedLength s + 32 < 2 ^ 31) (c : List Bool) (hc : compressionCompress s = some c)
    (destN : Nat) :
    compressionDecompress destN c = (true, norm s ++ List.replicate (destN - (norm s).length) 0) := by
  have hn : s.length % 2 ^ 32 = s.length := Nat.mod_eq_of_lt hlen
  cases hloop : compressLoop s.length (2 * s.length + 2) s 0 false false with
  | none => simp only [compressionCompress, hn, hloop, Option.map_none', ite_self, reduceCtorEq] at hc
  | some es =>
    obtain ⟨hread, hcount⟩ := compressLoop_sim hnul hlen (2 * s.length + 2) s 0 false false (by simp)
      EncInv.start es (false, 0) 0 ⟨rfl, by simp⟩ hloop
    have hL : compressedLength s = (es.flatMap Emit.bits).length := by
      simp only [compressedLength, hn, hcount, Int.zero_add]
    rw [compressionCompress_eq hlen hL (by omega) hloop] at hc
    split at hc
    · cases hc
    · cases hc
      exact decompress_framed (by simpa [encMode, norm] using hread) (by omega) _ destN

/-- The source text "(+ 1  2) ;c". -/
def sumSource : List UInt8 := [40, 43, 32, 49, 32, 32, 50, 41, 32, 59, 99]

theorem decompress_compress_sum :
    compressionDecompress 8 ((compressionCompress sumSource).getD []) =
      (true, norm sumSource ++ List.replicate (8 - (norm sumSource).length) 0) :=
  decompress_compress sumSource (by decide) (by decide) (by decide) _ rfl 8

theorem normFrom_replicate_sp (p : Bool) (k : Nat) (t : List UInt8) :
    normFrom (.code p) (List.replicate (k + 1) sp ++ t) = normFrom (.code true) t := by
  induction k generalizing p with
  | zero => simp [normFrom, show isGobbled sp = true by decide]
  | succ k ih =>
    rw [List.replicate_succ, List.cons_append, normFrom, if_pos (by decide)]
    exact ih true

/-- What the compressor makes of a string that, to its 32-bit length, is "a" and a space. -/
private theorem compress_of_wrapped {s : List UInt8} (hlen : s.length % 2 ^ 32 = 2)
    (h0 : charAt s 0 = 97) (h1 : charAt s 1 = sp) (hkey : matchLongestKey s = some 66) :
    compressionCompress s = some (headerBits 6 ++ code 66 ++ List.replicate 2 false) := by
  have ha : isGobbled 97 = false ∧ isSpace 97 = false ∧ (97 : UInt8) ≠ semi ∧ (97 : UInt8) ≠ dq ∧
      isGobbled sp = true ∧ sp ≠ semi ∧ key 66 = [97] ∧ (code 66).length = 6 := by decide
  have hn : s.length % 4294967296 = 2 := hlen
  have hcl : compressedLength s = 6 := by
    simp [compressedLength, hn, compressedLengthLoop, h0, h1, ha, hkey]
  have hloop : compressLoop 2 6 s 0 false false = some [.emitCode 66] := by
    simp [compressLoop, h0, h1, ha, hkey]
  simp [compressionCompress, hcl, hn, hloop]
  rfl

/-- "a", 2^32 spaces, "b". -/
def wrappedInput : List UInt8 := 97 :: (List.replicate 4294967296 sp ++ [98])

/-- The compressor takes the length of "a", 2^32 spaces, "b" modulo 2^32 and compresses "a ",
which decompresses to "a" where the normal form is "a b". -/
theorem compress_wraps_long_input :
    (∀ c ∈ wrappedInput, c ≠ 0) ∧
      compressionCompress wrappedInput = some (headerBits 6 ++ code 66 ++ List.replicate 2 false) ∧
      compressionDecompress 4 (headerBits 6 ++ code 66 ++ List.replicate 2 false) = (true, [97, 0, 0, 0]) ∧
      norm wrappedInput = [97, sp, 98] := by
  have hlen : wrappedInput.length % 2 ^ 32 = 2 := by
    rw [wrappedInput, List.length_cons, List.length_append, List.length_replicate]
    rfl
  have hkey : matchLongestKey wrappedInput = some 66 := by
    rw [matchLongestKey, hlen]
    decide
  refine ⟨fun c hc => ?_, compress_of_wrapped hlen rfl rfl hkey, by decide, ?_⟩
  · simp only [wrappedInput, List.mem_cons, List.mem_append, List.mem_replicate,
      List.not_mem_nil, or_false] at hc
    rcases hc with rfl | ⟨-, rfl⟩ | rfl <;> decide
  · rw [norm, show wrappedInput = 97 :: (List.replicate (4294967295 + 1) sp ++ [98]) from rfl, normFrom,
      if_neg (by decide), if_neg (by decide), if_neg (by decide), if_neg (by decide), normFrom_replicate_sp]
    rfl

end LispBM.Compression
