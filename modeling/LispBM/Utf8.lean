import Mathlib.Algebra.Group.Nat.Basic
import Mathlib.Data.Nat.Defs

namespace LispBM.Schrift

/-- `get_utf32(utf8, &utf32, ix, &next_ix)`: the code point and `next_ix`, `none` for `false`.
`utf8` is the memory from the string's first byte on, so `u[k]` is `utf8 (ix + k)`; `next_ix` is
a `uint32_t`. -/
def getUtf32 (utf8 : Nat → UInt8) (ix : Nat) : Option (Nat × Nat) :=
  let u := fun k => (utf8 (ix + k)).toNat
  if u 0 = 0 then none
  else if u 0 &&& 0x80 = 0 then some (u 0, (ix + 1) % 2 ^ 32)
  else if u 0 &&& 0xe0 = 0xc0 then
    let c := (u 0 &&& 0x1f) <<< 6
    if u 1 &&& 0xc0 ≠ 0x80 then none
    else some (c + (u 1 &&& 0x3f), (ix + 2) % 2 ^ 32)
  else if u 0 &&& 0xf0 = 0xe0 then
    let c := (u 0 &&& 0x0f) <<< 12
    if u 1 &&& 0xc0 ≠ 0x80 then none
    else
      let c := c + ((u 1 &&& 0x3f) <<< 6)
      if u 2 &&& 0xc0 ≠ 0x80 then none
      else some (c + (u 2 &&& 0x3f), (ix + 3) % 2 ^ 32)
  else if u 0 &&& 0xf8 = 0xf0 then
    let c := (u 0 &&& 0x07) <<< 18
    if u 1 &&& 0xc0 ≠ 0x80 then none
    else
      let c := c + ((u 1 &&& 0x3f) <<< 12)
      if u 2 &&& 0xc0 ≠ 0x80 then none
      else
        let c := c + ((u 2 &&& 0x3f) <<< 6)
        if u 3 &&& 0xc0 ≠ 0x80 then none
        else
          let c := c + (u 3 &&& 0x3f)
          if c &&& 0xFFFFF800 = 0xD800 then none
          else some (c, (ix + 4) % 2 ^ 32)
  else none

/-- The code points the loop of `ext_ttf_print` hands its body, from index `i`, in `fuel` turns:
`while (get_utf32(utf8, &utf32, i, &next_i)) { ... i = next_i; }`. -/
def printCodes (utf8 : Nat → UInt8) : Nat → Nat → List Nat
  | 0, _ => []
  | fuel + 1, i =>
    match getUtf32 utf8 i with
    | some (c, next) => c :: printCodes utf8 fuel next
    | none => []

theorem land_high_mask (c k n : Nat) : c &&& 2 ^ k * (2 ^ n - 1) = 2 ^ k * (c / 2 ^ k % 2 ^ n) := by
  apply Nat.eq_of_testBit_eq
  intro j
  conv_lhs => rw [← Nat.div_add_mod c (2 ^ k)]
  rw [Nat.testBit_and, Nat.testBit_mul_pow_two_add _ (Nat.mod_lt _ (Nat.two_pow_pos k)), Nat.testBit_mul_pow_two,
    Nat.testBit_mul_pow_two]
  by_cases hj : k ≤ j
  · simp [hj, Nat.not_lt.mpr hj, ← Nat.and_pow_two_sub_one_eq_mod, Nat.testBit_and]
  · simp [hj, Nat.lt_of_not_le hj]

theorem land_80 (b : Nat) : b &&& 0x80 = 128 * (b / 128 % 2) := land_high_mask b 7 1
theorem land_c0 (b : Nat) : b &&& 0xc0 = 64 * (b / 64 % 4) := land_high_mask b 6 2
theorem land_e0 (b : Nat) : b &&& 0xe0 = 32 * (b / 32 % 8) := land_high_mask b 5 3
theorem land_f0 (b : Nat) : b &&& 0xf0 = 16 * (b / 16 % 16) := land_high_mask b 4 4
theorem land_f8 (b : Nat) : b &&& 0xf8 = 8 * (b / 8 % 32) := land_high_mask b 3 5
theorem land_3f (b : Nat) : b &&& 0x3f = b % 64 := Nat.and_pow_two_sub_one_eq_mod b 6
theorem land_1f (b : Nat) : b &&& 0x1f = b % 32 := Nat.and_pow_two_sub_one_eq_mod b 5
theorem land_0f (b : Nat) : b &&& 0x0f = b % 16 := Nat.and_pow_two_sub_one_eq_mod b 4
theorem land_07 (b : Nat) : b &&& 0x07 = b % 8 := Nat.and_pow_two_sub_one_eq_mod b 3

theorem land_surrogate {c : Nat} (hc : c < 2 ^ 32) : c &&& 0xFFFFF800 = 0xD800 ↔ 0xD800 ≤ c ∧ c < 0xE000 := by
  rw [show (0xFFFFF800 : Nat) = 2 ^ 11 * (2 ^ 21 - 1) from rfl, land_high_mask]
  omega

theorem land_cont {b : Nat} (hb : b < 256) : b &&& 0xc0 = 0x80 ↔ 128 ≤ b ∧ b < 192 := by
  rw [land_c0]
  omega

section Branches

variable {utf8 : Nat → UInt8} {ix : Nat}

theorem byte_lt (utf8 : Nat → UInt8) (i : Nat) : (utf8 i).toNat < 256 := (utf8 i).toNat_lt_size

theorem getUtf32_nul (h0 : (utf8 ix).toNat = 0) : getUtf32 utf8 ix = none := by
  rw [getUtf32]
  dsimp only
  rw [Nat.add_zero, if_pos h0]

theorem getUtf32_one (h0 : 0 < (utf8 ix).toNat ∧ (utf8 ix).toNat < 128) :
    getUtf32 utf8 ix = some ((utf8 ix).toNat, (ix + 1) % 2 ^ 32) := by
  rw [getUtf32]
  dsimp only
  rw [Nat.add_zero, if_neg (by omega), if_pos (by rw [land_80]; omega)]

theorem getUtf32_two (h0 : 192 ≤ (utf8 ix).toNat ∧ (utf8 ix).toNat < 224) :
    getUtf32 utf8 ix =
      if 128 ≤ (utf8 (ix + 1)).toNat ∧ (utf8 (ix + 1)).toNat < 192 then
        some ((utf8 ix).toNat % 32 * 64 + (utf8 (ix + 1)).toNat % 64, (ix + 2) % 2 ^ 32)
      else none := by
  have := byte_lt utf8 (ix + 1)
  rw [getUtf32]
  dsimp only
  rw [Nat.add_zero, if_neg (by omega), if_neg (by rw [land_80]; omega), if_pos (by rw [land_e0]; omega)]
  simp only [land_1f, land_3f, Nat.shiftLeft_eq, Nat.reducePow, ne_eq]
  simp (disch := omega) only [land_cont, ite_not]

theorem getUtf32_three (h0 : 224 ≤ (utf8 ix).toNat ∧ (utf8 ix).toNat < 240) :
    getUtf32 utf8 ix =
      if (128 ≤ (utf8 (ix + 1)).toNat ∧ (utf8 (ix + 1)).toNat < 192) ∧
          (128 ≤ (utf8 (ix + 2)).toNat ∧ (utf8 (ix + 2)).toNat < 192) then
        some ((utf8 ix).toNat % 16 * 4096 + (utf8 (ix + 1)).toNat % 64 * 64 + (utf8 (ix + 2)).toNat % 64,
          (ix + 3) % 2 ^ 32)
      else none := by
  have := byte_lt utf8 (ix + 1)
  have := byte_lt utf8 (ix + 2)
  rw [getUtf32]
  dsimp only
  rw [Nat.add_zero, if_neg (by omega), if_neg (by rw [land_80]; omega), if_neg (by rw [land_e0]; omega),
    if_pos (by rw [land_f0]; omega)]
  simp only [land_0f, land_3f, Nat.shiftLeft_eq, Nat.reducePow, ne_eq]
  simp (disch := omega) only [land_cont]
  simp only [ite_not, ite_and]

theorem getUtf32_four (h0 : 240 ≤ (utf8 ix).toNat ∧ (utf8 ix).toNat < 248) :
    getUtf32 utf8 ix =
      if (128 ≤ (utf8 (ix + 1)).toNat ∧ (utf8 (ix + 1)).toNat < 192) ∧
          (128 ≤ (utf8 (ix + 2)).toNat ∧ (utf8 (ix + 2)).toNat < 192) ∧
          (128 ≤ (utf8 (ix + 3)).toNat ∧ (utf8 (ix + 3)).toNat < 192) ∧
          ¬ (0xD800 ≤ (utf8 ix).toNat % 8 * 262144 + (utf8 (ix + 1)).toNat % 64 * 4096 +
              (utf8 (ix + 2)).toNat % 64 * 64 + (utf8 (ix + 3)).toNat % 64 ∧
            (utf8 ix).toNat % 8 * 262144 + (utf8 (ix + 1)).toNat % 64 * 4096 +
              (utf8 (ix + 2)).toNat % 64 * 64 + (utf8 (ix + 3)).toNat % 64 < 0xE000) then
        some ((utf8 ix).toNat % 8 * 262144 + (utf8 (ix + 1)).toNat % 64 * 4096 + (utf8 (ix + 2)).toNat % 64 * 64 +
          (utf8 (ix + 3)).toNat % 64, (ix + 4) % 2 ^ 32)
      else none := by
  have := byte_lt utf8 (ix + 1)
  have := byte_lt utf8 (ix + 2)
  have := byte_lt utf8 (ix + 3)
  rw [getUtf32]
  dsimp only
  rw [Nat.add_zero, if_neg (by omega), if_neg (by rw [land_80]; omega), if_neg (by rw [land_e0]; omega),
    if_neg (by rw [land_f0]; omega), if_pos (by rw [land_f8]; omega)]
  simp only [land_07, land_3f, Nat.shiftLeft_eq, Nat.reducePow, ne_eq]
  simp (disch := omega) only [land_cont, land_surrogate]
  simp only [ite_not, ite_and]

theorem getUtf32_bad (h0 : 128 ≤ (utf8 ix).toNat ∧ (utf8 ix).toNat < 192 ∨ 248 ≤ (utf8 ix).toNat) :
    getUtf32 utf8 ix = none := by
  have := byte_lt utf8 ix
  rw [getUtf32]
  dsimp only
  rw [Nat.add_zero, if_neg (by omega), if_neg (by rw [land_80]; omega), if_neg (by rw [land_e0]; omega),
    if_neg (by rw [land_f0]; omega), if_neg (by rw [land_f8]; omega)]

end Branches

/-- The `n`-byte pattern of `c` that `get_utf32` reads: below `0x80` a byte of its own, else a lead
byte whose high bits count the bytes, then bytes `10xxxxxx` holding six bits of `c` each. -/
def utf8Form : Nat → Nat → List Nat
  | 1, c => [c]
  | 2, c => [0xC0 + c / 64, 0x80 + c % 64]
  | 3, c => [0xE0 + c / 64 / 64, 0x80 + c / 64 % 64, 0x80 + c % 64]
  | 4, c => [0xF0 + c / 64 / 64 / 64, 0x80 + c / 64 / 64 % 64, 0x80 + c / 64 % 64, 0x80 + c % 64]
  | _, _ => []

/-- The patterns `get_utf32` takes: every code an `n`-byte pattern holds, overlong forms included,
but the NUL byte and the four-byte forms of `0xD800` to `0xDFFF`. -/
def Decodes (n c : Nat) : Prop :=
  n = 1 ∧ 0 < c ∧ c < 0x80 ∨ n = 2 ∧ c < 0x800 ∨ n = 3 ∧ c < 0x10000 ∨
    n = 4 ∧ c < 0x200000 ∧ ¬ (0xD800 ≤ c ∧ c < 0xE000)

section Patterns

/-! The sum `get_utf32` builds from a pattern's bytes is the code the pattern holds: the bytes
after the lead byte are the code's base-64 digits. -/

variable {b0 b1 b2 b3 c : Nat}

theorem horner_div {q x : Nat} (hx : x < 64) : (q * 64 + x) / 64 = q := by omega

theorem horner_mod {q x : Nat} (hx : x < 64) : (q * 64 + x) % 64 = x := by omega

theorem form_two_iff : [b0, b1] = utf8Form 2 c ∧ c < 0x800 ↔
    (192 ≤ b0 ∧ b0 < 224) ∧ (128 ≤ b1 ∧ b1 < 192) ∧ b0 % 32 * 64 + b1 % 64 = c := by
  simp only [utf8Form, List.cons.injEq, and_true]
  constructor
  · rintro ⟨⟨rfl, rfl⟩, hc⟩
    omega
  · rintro ⟨h0, h1, rfl⟩
    simp (disch := omega) only [horner_div, horner_mod]
    omega

theorem form_three_iff : [b0, b1, b2] = utf8Form 3 c ∧ c < 0x10000 ↔
    (224 ≤ b0 ∧ b0 < 240) ∧ (128 ≤ b1 ∧ b1 < 192) ∧ (128 ≤ b2 ∧ b2 < 192) ∧
      b0 % 16 * 4096 + b1 % 64 * 64 + b2 % 64 = c := by
  simp only [utf8Form, List.cons.injEq, and_true]
  constructor
  · rintro ⟨⟨rfl, rfl, rfl⟩, hc⟩
    omega
  · rintro ⟨h0, h1, h2, rfl⟩
    rw [show b0 % 16 * 4096 + b1 % 64 * 64 + b2 % 64 = (b0 % 16 * 64 + b1 % 64) * 64 + b2 % 64 by omega]
    simp (disch := omega) only [horner_div, horner_mod]
    omega

theorem form_four_iff : [b0, b1, b2, b3] = utf8Form 4 c ∧ c < 0x200000 ↔
    (240 ≤ b0 ∧ b0 < 248) ∧ (128 ≤ b1 ∧ b1 < 192) ∧ (128 ≤ b2 ∧ b2 < 192) ∧ (128 ≤ b3 ∧ b3 < 192) ∧
      b0 % 8 * 262144 + b1 % 64 * 4096 + b2 % 64 * 64 + b3 % 64 = c := by
  simp only [utf8Form, List.cons.injEq, and_true]
  constructor
  · rintro ⟨⟨rfl, rfl, rfl, rfl⟩, hc⟩
    omega
  · rintro ⟨h0, h1, h2, h3, rfl⟩
    rw [show b0 % 8 * 262144 + b1 % 64 * 4096 + b2 % 64 * 64 + b3 % 64 =
      ((b0 % 8 * 64 + b1 % 64) * 64 + b2 % 64) * 64 + b3 % 64 by omega]
    simp (disch := omega) only [horner_div, horner_mod]
    omega

end Patterns

section Form

variable {utf8 : Nat → UInt8} {ix : Nat}

theorem bytes_two : (List.range 2).map (fun k => (utf8 (ix + k)).toNat) =
    [(utf8 ix).toNat, (utf8 (ix + 1)).toNat] := rfl

theorem bytes_three : (List.range 3).map (fun k => (utf8 (ix + k)).toNat) =
    [(utf8 ix).toNat, (utf8 (ix + 1)).toNat, (utf8 (ix + 2)).toNat] := rfl

theorem bytes_four : (List.range 4).map (fun k => (utf8 (ix + k)).toNat) =
    [(utf8 ix).toNat, (utf8 (ix + 1)).toNat, (utf8 (ix + 2)).toNat, (utf8 (ix + 3)).toNat] := rfl

variable {c next : Nat}

/-- What `get_utf32` accepts is a pattern it takes, and it returns the index past the pattern. -/
theorem getUtf32_sound (h : getUtf32 utf8 ix = some (c, next)) :
    ∃ n, Decodes n c ∧ (List.range n).map (fun k => (utf8 (ix + k)).toNat) = utf8Form n c ∧
      next = (ix + n) % 2 ^ 32 := by
  have := byte_lt utf8 ix
  rcases (show (utf8 ix).toNat = 0 ∨ (0 < (utf8 ix).toNat ∧ (utf8 ix).toNat < 128) ∨
      (192 ≤ (utf8 ix).toNat ∧ (utf8 ix).toNat < 224) ∨ (224 ≤ (utf8 ix).toNat ∧ (utf8 ix).toNat < 240) ∨
      (240 ≤ (utf8 ix).toNat ∧ (utf8 ix).toNat < 248) ∨
      (128 ≤ (utf8 ix).toNat ∧ (utf8 ix).toNat < 192 ∨ 248 ≤ (utf8 ix).toNat) by omega)
    with h0 | h0 | h0 | h0 | h0 | h0
  · rw [getUtf32_nul h0] at h
    cases h
  · rw [getUtf32_one h0] at h
    obtain ⟨rfl, rfl⟩ := Prod.mk.inj (Option.some.inj h)
    exact ⟨1, .inl ⟨rfl, h0⟩, rfl, rfl⟩
  · rw [getUtf32_two h0] at h
    split at h
    · obtain ⟨rfl, rfl⟩ := Prod.mk.inj (Option.some.inj h)
      obtain ⟨hbytes, hc⟩ := form_two_iff.mpr ⟨h0, ‹_›, rfl⟩
      exact ⟨2, .inr (.inl ⟨rfl, hc⟩), hbytes, rfl⟩
    · cases h
  · rw [getUtf32_three h0] at h
    split at h
    · obtain ⟨rfl, rfl⟩ := Prod.mk.inj (Option.some.inj h)
      rename_i hcont
      obtain ⟨hbytes, hc⟩ := form_three_iff.mpr ⟨h0, hcont.1, hcont.2, rfl⟩
      exact ⟨3, .inr (.inr (.inl ⟨rfl, hc⟩)), hbytes, rfl⟩
    · cases h
  · rw [getUtf32_four h0] at h
    split at h
    · obtain ⟨rfl, rfl⟩ := Prod.mk.inj (Option.some.inj h)
      rename_i hcont
      obtain ⟨hbytes, hc⟩ := form_four_iff.mpr ⟨h0, hcont.1, hcont.2.1, hcont.2.2.1, rfl⟩
      exact ⟨4, .inr (.inr (.inr ⟨rfl, hc, hcont.2.2.2⟩)), hbytes, rfl⟩
    · cases h
  · rw [getUtf32_bad h0] at h
    cases h

/-- Every pattern `get_utf32` takes it accepts. -/
theorem getUtf32_complete {n : Nat} (hn : Decodes n c)
    (hbytes : (List.range n).map (fun k => (utf8 (ix + k)).toNat) = utf8Form n c) :
    getUtf32 utf8 ix = some (c, (ix + n) % 2 ^ 32) := by
  rcases hn with ⟨rfl, hc⟩ | ⟨rfl, hc⟩ | ⟨rfl, hc⟩ | ⟨rfl, hc, hsurr⟩
  · have hb : (utf8 ix).toNat = c := (List.cons.inj hbytes).1
    rw [getUtf32_one (hb ▸ hc), hb]
  · rw [bytes_two] at hbytes
    obtain ⟨h0, h1, rfl⟩ := form_two_iff.mp ⟨hbytes, hc⟩
    rw [getUtf32_two h0, if_pos h1]
  · rw [bytes_three] at hbytes
    obtain ⟨h0, h1, h2, rfl⟩ := form_three_iff.mp ⟨hbytes, hc⟩
    rw [getUtf32_three h0, if_pos ⟨h1, h2⟩]
  · rw [bytes_four] at hbytes
    obtain ⟨h0, h1, h2, h3, rfl⟩ := form_four_iff.mp ⟨hbytes, hc⟩
    rw [getUtf32_four h0, if_pos ⟨h1, h2, h3, hsurr⟩]

end Form

theorem Decodes.form_pos {n c : Nat} (h : Decodes n c) : ∀ x ∈ utf8Form n c, 0 < x := by
  rcases h with ⟨rfl, hc, -⟩ | ⟨rfl, -⟩ | ⟨rfl, -⟩ | ⟨rfl, -⟩
  · simpa [utf8Form] using hc
  all_goals
    simp only [utf8Form, List.forall_mem_cons, List.not_mem_nil, false_implies, implies_true,
      and_true]
    omega

section Nul

variable {utf8 utf8' : Nat → UInt8} {ix z : Nat}

theorem not_form_past_nul (hz : utf8 (ix + z) = 0) {n c : Nat} (hn : Decodes n c)
    (h : (List.range n).map (fun k => (utf8 (ix + k)).toNat) = utf8Form n c) : n ≤ z := by
  refine Nat.le_of_not_lt fun hlt => ?_
  have hmem : (utf8 (ix + z)).toNat ∈ utf8Form n c :=
    h ▸ List.mem_map_of_mem (fun k => (utf8 (ix + k)).toNat) (List.mem_range.mpr hlt)
  have := hn.form_pos _ hmem
  rw [hz] at this
  exact absurd this (by decide)

theorem getUtf32_before_nul (hz : utf8 (ix + z) = 0) {c next : Nat} (h : getUtf32 utf8 ix = some (c, next)) :
    ∃ n, 0 < n ∧ n ≤ z ∧ next = (ix + n) % 2 ^ 32 := by
  obtain ⟨n, hn, hbytes, rfl⟩ := getUtf32_sound h
  have hpos : 0 < n := by rcases hn with ⟨rfl, -⟩ | ⟨rfl, -⟩ | ⟨rfl, -⟩ | ⟨rfl, -⟩ <;> decide
  exact ⟨n, hpos, not_form_past_nul hz hn hbytes, rfl⟩

theorem getUtf32_congr_nul (hz : utf8 (ix + z) = 0) (hagree : ∀ k ≤ z, utf8 (ix + k) = utf8' (ix + k)) :
    getUtf32 utf8 ix = getUtf32 utf8' ix := by
  have hz' : utf8' (ix + z) = 0 := hagree z le_rfl ▸ hz
  have hbytes : ∀ n, n ≤ z → (List.range n).map (fun k => (utf8 (ix + k)).toNat) =
      (List.range n).map (fun k => (utf8' (ix + k)).toNat) := fun n hn =>
    List.map_congr_left fun k hk => by rw [hagree k (by have := List.mem_range.mp hk; omega)]
  apply Option.ext
  rintro ⟨c, next⟩
  constructor
  · intro h
    obtain ⟨n, hn, hb, rfl⟩ := getUtf32_sound h
    exact getUtf32_complete hn ((hbytes n (not_form_past_nul hz hn hb)) ▸ hb)
  · intro h
    obtain ⟨n, hn, hb, rfl⟩ := getUtf32_sound h
    exact getUtf32_complete hn ((hbytes n (not_form_past_nul hz' hn hb)).symm ▸ hb)

/-- The loop of `ext_ttf_print` reads nothing past the string's NUL either: it stops there, and
memories that agree up to it give it the same code points. -/
theorem printCodes_congr_nul (hz : utf8 z = 0) (hz32 : z < 2 ^ 32) :
    ∀ fuel i, i ≤ z → (∀ j, i ≤ j → j ≤ z → utf8 j = utf8' j) →
      printCodes utf8 fuel i = printCodes utf8' fuel i := by
  intro fuel
  induction fuel with
  | zero => intros; rfl
  | succ fuel ih =>
    intro i hi hagree
    have hzi : utf8 (i + (z - i)) = 0 := by rwa [Nat.add_sub_cancel' hi]
    have hsame := getUtf32_congr_nul hzi fun k hk => hagree (i + k) (Nat.le_add_right i k) (by omega)
    rw [printCodes, printCodes, ← hsame]
    rcases hget : getUtf32 utf8 i with _ | ⟨c, next⟩
    · rfl
    · obtain ⟨n, -, hn, rfl⟩ := getUtf32_before_nul hzi hget
      dsimp only
      rw [Nat.mod_eq_of_lt (by omega), ih (i + n) (by omega) fun j hj hj' => hagree j (by omega) hj']

/-- "A" and its NUL, against a memory that differs from it only past the NUL. -/
theorem printCodes_congr_nul_past_end :
    printCodes (fun k => ([0x41, 0] : List UInt8).getD k 0) 3 0 =
      printCodes (fun k => if k ≤ 1 then ([0x41, 0] : List UInt8).getD k 0 else 0xC3) 3 0 :=
  printCodes_congr_nul (z := 1) rfl (by decide) 3 0 (Nat.zero_le 1) fun _ _ hj => (if_pos hj).symm

end Nul

section Encode

/-- The pattern a well-formed UTF-8 string writes a code point in: the shortest that holds it. -/
def utf8Len (c : Nat) : Nat :=
  if c < 0x80 then 1 else if c < 0x800 then 2 else if c < 0x10000 then 3 else 4

/-- The UTF-8 bytes of a code point. -/
def utf8Encode (c : Nat) : List Nat := utf8Form (utf8Len c) c

theorem length_utf8Encode (c : Nat) : (utf8Encode c).length = utf8Len c := by
  unfold utf8Encode utf8Len
  split_ifs <;> rfl

theorem decodes_utf8Len {c : Nat} (h : 0 < c ∧ c < 0x110000) : Decodes (utf8Len c) c := by
  unfold utf8Len Decodes
  split_ifs <;> omega

/-- The loop of `ext_ttf_print` over a UTF-8 string hands its body the string's code points, each
once and in order, and stops at the NUL, given a turn for each. Surrogates are among them: written
in three bytes, `get_utf32` takes them. -/
theorem printCodes_encode (utf8 : Nat → UInt8) :
    ∀ (cs : List Nat) (i fuel : Nat), (∀ c ∈ cs, 0 < c ∧ c < 0x110000) →
      (List.range ((cs.flatMap utf8Encode).length + 1)).map (fun k => (utf8 (i + k)).toNat) =
        cs.flatMap utf8Encode ++ [0] →
      i + (cs.flatMap utf8Encode).length < 2 ^ 32 → cs.length < fuel → printCodes utf8 fuel i = cs
  | [], i, fuel + 1, _, hbytes, _, _ => by
    have h0 : (utf8 i).toNat = 0 := (List.cons.inj hbytes).1
    rw [printCodes, getUtf32_nul h0]
  | c :: cs, i, fuel + 1, hcs, hbytes, hlen, hfuel => by
    have hn := length_utf8Encode c
    rw [List.flatMap_cons, List.length_append, hn, Nat.add_assoc, List.range_add, List.map_append,
      List.map_map, List.append_assoc] at hbytes
    obtain ⟨hhead, hrest⟩ := List.append_inj hbytes (by rw [List.length_map, List.length_range, hn])
    have hget : getUtf32 utf8 i = some (c, (i + utf8Len c) % 2 ^ 32) :=
      getUtf32_complete (decodes_utf8Len (hcs c (List.mem_cons_self c cs))) hhead
    rw [List.flatMap_cons, List.length_append, hn] at hlen
    rw [printCodes, hget]
    dsimp only
    rw [Nat.mod_eq_of_lt (by omega), printCodes_encode utf8 cs (i + utf8Len c) fuel
      (fun c' hc' => hcs c' (List.mem_cons_of_mem c hc')) ?_ (by omega) (by simpa using hfuel)]
    simpa only [Function.comp_def, Nat.add_assoc] using hrest

/-- "Aé": `A`, then `é` in two bytes, then the NUL. -/
theorem printCodes_encode_two_codes :
    printCodes (fun k => ([0x41, 0xC3, 0xA9, 0] : List UInt8).getD k 0) 3 0 = [0x41, 0xE9] :=
  printCodes_encode _ [0x41, 0xE9] 0 3 (by decide) (by decide) (by decide) (by decide)

end Encode

end LispBM.Schrift
