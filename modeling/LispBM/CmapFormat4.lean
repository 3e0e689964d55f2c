import LispBM.FontBounds

namespace LispBM.Schrift

variable {font : SFTFont}

/-- The big-endian 16-bit value at `offset`. -/
def u16At (font : SFTFont) (offset : Nat) : Nat := font.byteAt offset * 256 + font.byteAt (offset + 1)

theorem byteAt_lt (font : SFTFont) (i : Nat) : font.byteAt i < 256 :=
  UInt8.toNat_lt_size _

theorem readBytes_two {offset : Nat} (h : offset + 2 ≤ font.size) :
    readBytes font offset 2 = .ok [font.byteAt offset, font.byteAt (offset + 1)] := by
  rw [readBytes, if_pos h]
  rfl

theorem getu16_eq {offset : Nat} (h : offset + 2 ≤ font.size) : getu16 font offset = .ok (u16At font offset) := by
  rw [getu16, readBytes_two h]
  show Except.ok (beValue _) = _
  simp [beValue, u16At]

theorem compareBytes_two_gt {a1 a0 b1 b0 : Nat} (ha : a0 < 256) (hb : b0 < 256) :
    compareBytes [a1, a0] [b1, b0] = .gt ↔ b1 * 256 + b0 < a1 * 256 + a0 := by
  simp only [compareBytes]
  split_ifs <;> simp <;> omega

section Csearch

variable (key : List Nat) (base size nmemb : Nat) (P : Nat → Prop)

/-- Where the loop of `csearch` stands: the answer lies between `low` and `high`. Every record
before `low` fails `P`, and `high` satisfies it or is the last record. -/
def CsearchInv (low high : Nat) : Prop :=
  low ≤ high ∧ high < nmemb ∧ (∀ j < low, ¬ P j) ∧ (P high ∨ high = nmemb - 1)

/-- Over records whose comparison with the key is `.gt` exactly where the monotone `P` fails,
the loop of `csearch` returns the first record satisfying `P`, or the last one. -/
theorem csearch_loop_first
    (hcmp : ∀ idx < nmemb, ∃ o, memcmpAt font key (base + idx * size) = .ok o ∧ (o = .gt ↔ ¬ P idx))
    (hmono : ∀ a b, a ≤ b → b < nmemb → P a → P b) :
    ∀ fuel low high, high - low ≤ fuel → CsearchInv nmemb P low high →
      ∃ r, csearch.loop font key base size fuel low high = .ok (some (base + r * size)) ∧
        CsearchInv nmemb P r r := by
  intro fuel
  induction fuel with
  | zero =>
    intro low high hf hinv
    obtain rfl : high = low := by have := hinv.1; omega
    exact ⟨high, rfl, hinv⟩
  | succ fuel ih =>
    intro low high hf ⟨hle, hlt, hbelow, hhigh⟩
    unfold csearch.loop
    split
    · have hmid : low + (high - low) / 2 < nmemb := by omega
      obtain ⟨o, ho, hgt⟩ := hcmp _ hmid
      simp only [ho, bind, Except.bind]
      split
      · rename_i heq
        have hnot : ¬ P (low + (high - low) / 2) := hgt.mp (by simpa using heq)
        refine ih _ _ (by omega) ⟨by omega, hlt, fun j hj hPj => ?_, hhigh⟩
        exact if hjl : j < low then hbelow j hjl hPj else hnot (hmono j _ (by omega) hmid hPj)
      · rename_i hne
        have hP : P (low + (high - low) / 2) := by
          by_contra hn
          exact hne (by simpa using hgt.mpr hn)
        exact ih _ _ (by omega) ⟨by omega, hmid, hbelow, .inl hP⟩
    · rename_i heq
      simp only [ne_eq, Decidable.not_not] at heq
      subst heq
      exact ⟨low, rfl, hle, hlt, hbelow, hhigh⟩

theorem csearch_first
    (hcmp : ∀ idx < nmemb, ∃ o, memcmpAt font key (base + idx * size) = .ok o ∧ (o = .gt ↔ ¬ P idx))
    (hmono : ∀ a b, a ≤ b → b < nmemb → P a → P b) (hpos : 0 < nmemb) :
    ∃ r, csearch font key base nmemb size = .ok (some (base + r * size)) ∧ CsearchInv nmemb P r r := by
  unfold csearch
  rw [if_neg (by omega)]
  exact csearch_loop_first key base size nmemb P hcmp hmono nmemb 0 (nmemb - 1) (by omega)
    ⟨Nat.zero_le _, by omega, fun _ h => absurd h (Nat.not_lt_zero _), .inr rfl⟩

end Csearch

/-- `endCode[i]` of a format 4 subtable whose `segCountX2` field is at `table`. -/
def endCode (font : SFTFont) (table i : Nat) : Nat := u16At font (table + 8 + 2 * i)

/-- The glyph of `c` by the OpenType definition of format 4, for a subtable whose `segCountX2`
field is at `table`: the segment is the first whose `endCode` is at least `c`, and the
`glyphIdArray` word lies `idRangeOffset[i]/2 + (c - startCode[i])` words past `idRangeOffset[i]`;
`-1` when that word lies outside the font. -/
def fmt4Glyph (font : SFTFont) (table c : Nat) : Int × Nat :=
  let segCount := u16At font table / 2
  let endCodes := table + 8
  let startCodes := endCodes + 2 * segCount + 2
  let idDeltas := startCodes + 2 * segCount
  let idRangeOffsets := idDeltas + 2 * segCount
  let i := (List.range segCount).findIdx fun i => c ≤ endCode font table i
  let startCode := u16At font (startCodes + 2 * i)
  let idDelta := u16At font (idDeltas + 2 * i)
  let idRangeOffset := u16At font (idRangeOffsets + 2 * i)
  if startCode > c then (0, 0)
  else if idRangeOffset = 0 then (0, (c + idDelta) % 2 ^ 16)
  else
    let glyphAt := idRangeOffsets + 2 * i + 2 * (idRangeOffset / 2 + (c - startCode))
    if glyphAt + 2 ≤ font.size then
      (0, if u16At font glyphAt = 0 then 0 else (u16At font glyphAt + idDelta) % 2 ^ 16)
    else (-1, 0)

theorem memcmpAt_two {k1 k0 p : Nat} (h : p + 2 ≤ font.size) :
    memcmpAt font [k1, k0] p = .ok (compareBytes [k1, k0] [font.byteAt p, font.byteAt (p + 1)]) := by
  simp only [memcmpAt, List.length_cons, List.length_nil, readBytes_two h]
  rfl

theorem isSafeOffset_eq {offset margin : Nat} :
    isSafeOffset font offset margin = decide (offset + margin ≤ font.size) := by
  rw [Bool.eq_iff_iff, isSafeOffset_iff, decide_eq_true_iff]

/-- Over a sorted `endCode` array closed by `0xFFFF`, `csearch` finds for `c` the first segment
whose end code is at least `c`: the segment `fmt4Glyph` takes. -/
theorem fmt4_segment {table c n : Nat} (hc : c ≤ 0xFFFF) (hpos : 0 < n) (hfit : table + 8 + 2 * n ≤ font.size)
    (hsorted : ∀ a b, a ≤ b → b < n → endCode font table a ≤ endCode font table b)
    (hlast : endCode font table (n - 1) = 0xFFFF) :
    ∃ r < n, csearch font [c / 256 % 256, c % 256] (table + 8) n 2 = .ok (some (table + 8 + r * 2)) ∧
      (List.range n).findIdx (fun i => c ≤ endCode font table i) = r := by
  obtain ⟨r, hcs, -, hrn, hbelow, hr⟩ := @csearch_first font [c / 256 % 256, c % 256] (table + 8) 2 n
    (fun j => c ≤ endCode font table j)
    (fun idx hidx => ⟨_, memcmpAt_two (by omega), by
      rw [compareBytes_two_gt (Nat.mod_lt _ (by omega)) (byteAt_lt _ _)]
      simp only [endCode, u16At, Nat.mul_comm 2 idx]
      omega⟩)
    (fun a b hab hb ha => le_trans ha (hsorted a b hab hb)) hpos
  have hcr : c ≤ endCode font table r := hr.elim id fun h => h ▸ hlast ▸ hc
  refine ⟨r, hrn, hcs, ?_⟩
  rw [List.findIdx_eq (by simpa using hrn)]
  simp only [List.getElem_range, decide_eq_true_eq, decide_eq_false_iff_not]
  exact ⟨hcr, fun j hj => hbelow j hj⟩

/-- `cmap_fmt4` gives the glyph of the OpenType definition on every format 4 subtable whose
arrays lie in the font, whose `endCode` array is sorted and ends with `0xFFFF`, and whose
`idRangeOffset` entries are even: the code adds the entry as a byte count where OpenType adds
half of it as a word count. -/
theorem cmapFmt4_opentype (table c : Nat) (hc : c ≤ 0xFFFF) (heven : u16At font table % 2 = 0)
    (hpos : 0 < u16At font table) (hfit : table + 10 + 4 * u16At font table ≤ font.size)
    (hsorted : ∀ a b, a ≤ b → b < u16At font table / 2 → endCode font table a ≤ endCode font table b)
    (hlast : endCode font table (u16At font table / 2 - 1) = 0xFFFF)
    (hranges : ∀ i < u16At font table / 2, u16At font (table + 10 + 3 * u16At font table + 2 * i) % 2 = 0) :
    cmapFmt4 font table c = .ok (fmt4Glyph font table c) := by
  obtain ⟨n, hn⟩ : ∃ n, u16At font table = 2 * n := ⟨u16At font table / 2, by omega⟩
  have hn2 : u16At font table / 2 = n := by omega
  rw [hn2] at hsorted hlast hranges
  rw [hn] at hranges
  have hs : getu16 font table = .ok (2 * n) := hn ▸ getu16_eq (by omega)
  obtain ⟨r, hrn, hcs, hidx⟩ := fmt4_segment hc (by omega) (by omega) hsorted hlast
  have hseg : table + 8 + r * 2 - (table + 8) = 2 * r := by omega
  have h2n : 2 * n / 2 = n := by omega
  have hstart := @getu16_eq font (table + 8 + 2 * n + 2 + 2 * r) (by omega)
  have hdelta := @getu16_eq font (table + 8 + 2 * n + 2 + 2 * n + 2 * r) (by omega)
  have hrange := @getu16_eq font (table + 8 + 2 * n + 2 + 2 * n + 2 * n + 2 * r) (by omega)
  -- the segment's range offset is even, so its half counts the same bytes
  have hhalf : ∀ x d, x + 2 * (u16At font (table + 8 + 2 * n + 2 + 2 * n + 2 * n + 2 * r) / 2 + d) =
      x + u16At font (table + 8 + 2 * n + 2 + 2 * n + 2 * n + 2 * r) + 2 * d := by
    have := hranges r hrn
    rw [show table + 10 + 3 * (2 * n) + 2 * r = table + 8 + 2 * n + 2 + 2 * n + 2 * n + 2 * r by omega] at this
    omega
  simp only [cmapFmt4, fmt4Glyph, isSafeOffset_eq, hs, hn2, h2n, hcs, hidx, hseg, hstart, hdelta, hrange, hhalf, bind,
    Except.bind, pure, Except.pure, if_neg (show ¬ c > 65535 by omega),
    show (table + 8 ≤ font.size) = True from eq_true (by omega),
    show (table + 8 + 2 * n + 2 + 2 * n + 2 * n + 2 * n ≤ font.size) = True from eq_true (by omega),
    show (2 * n % 2 = 1) = False from eq_false (by omega), show (2 * n = 0) = False from eq_false (by omega),
    decide_True, decide_False, Bool.not_true, Bool.or_false, Bool.false_eq_true, ite_false, Bool.not_eq_true',
    decide_eq_false_iff_not]
  -- both sides branch alike on the start code and the range offset, then on the glyph word's bounds
  simp only [apply_ite Except.ok]
  refine ite_congr rfl (fun _ => rfl) fun _ => ite_congr rfl (fun _ => rfl) fun _ => ?_
  split
  · rfl
  · rename_i hsafe
    rw [getu16_eq (by omega), if_pos (not_not.mp hsafe)]
    simp only [ne_eq, ite_not]
    rfl

/-- A format 4 subtable at 0 (from its `segCountX2` field) with two segments: `A` to `Z` with
`idDelta` 3, and the closing `0xFFFF` segment. -/
def twoSegmentFont : SFTFont where
  memory := [0, 4, 0, 0, 0, 0, 0, 0, 0, 0x5A, 0xFF, 0xFF, 0, 0, 0, 0x41, 0xFF, 0xFF, 0, 3, 0, 1, 0, 0, 0, 0]
  unitsPerEm := 0
  locaFormat := 0
  numLongHmtx := 0

theorem cmapFmt4_opentype_letter_b :
    cmapFmt4 twoSegmentFont 0 66 = .ok (fmt4Glyph twoSegmentFont 0 66) ∧ fmt4Glyph twoSegmentFont 0 66 = (0, 69) :=
  have hsorted : ∀ b < 2, ∀ a ≤ b, endCode twoSegmentFont 0 a ≤ endCode twoSegmentFont 0 b := by decide
  have hranges : ∀ i < 2, u16At twoSegmentFont (0 + 10 + 3 * 4 + 2 * i) % 2 = 0 := by decide
  ⟨cmapFmt4_opentype 0 66 (by decide) (by decide) (by decide) (by decide)
    (fun a b hab hb => hsorted b hb a hab) (by decide) hranges, by decide⟩

/-- The subtable above with the range offset 5 in its first segment and a `glyphIdArray` reading
`0, 7, 0`: OpenType's glyph for `A` is the word 2 words past that offset, 7, the code's the word
5 bytes past it, `0x0700`. -/
def oddRangeFont : SFTFont where
  memory := [0, 4, 0, 0, 0, 0, 0, 0, 0, 0x5A, 0xFF, 0xFF, 0, 0, 0, 0x41, 0xFF, 0xFF, 0, 0, 0, 1, 0, 5, 0, 0,
    0, 7, 0, 0]
  unitsPerEm := 0
  locaFormat := 0
  numLongHmtx := 0

theorem cmapFmt4_odd_range_offset :
    endCode oddRangeFont 0 0 ≤ endCode oddRangeFont 0 1 ∧ endCode oddRangeFont 0 1 = 0xFFFF ∧
      fmt4Glyph oddRangeFont 0 0x41 = (0, 7) ∧ cmapFmt4 oddRangeFont 0 0x41 = .ok (0, 1792) :=
  ⟨by decide, by decide, by decide, rfl⟩

end LispBM.Schrift