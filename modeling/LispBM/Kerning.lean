import LispBM.CmapFormat4

namespace LispBM.Schrift

variable (font : SFTFont)

def tagKern : List Nat := [0x6b, 0x65, 0x72, 0x6e]

/-- Flag bits of a `kern` subtable. -/
def horizontalKerning : Nat := 0x01
def minimumKerning : Nat := 0x02
def crossStreamKerning : Nat := 0x04

/-- The pair lookup of a format 0 subtable: `bsearch` over `numPairs` records of 6 bytes from
`base` with `cmpu32`, then `geti16` of the value of the record it finds. -/
def kernPair (key : List Nat) (base numPairs : Nat) : Read (Option Int) := do
  match ← bsearch font key base 6 numPairs 0 numPairs with
  | some m => some <$> geti16 font (m + 4)
  | none => return none

/-- The subtable loop of `sft_kerning` from `offset`, `n` subtables left, with the sums of the
pair values found so far: the return code and the two sums. -/
def kernTables (key : List Nat) : Nat → Nat → Int → Int → Read (Int × Int × Int)
  | 0, _, x, y => return (0, x, y)
  | n + 1, offset, x, y => do
    if !isSafeOffset font offset 6 then return (-1, x, y)
    let length ← getu16 font (offset + 2)
    let format ← getu8 font (offset + 4)
    let flags ← getu8 font (offset + 5)
    let offset := offset + 6
    if format = 0 ∧ flags &&& horizontalKerning ≠ 0 ∧ flags &&& minimumKerning = 0 then
      if !isSafeOffset font offset 8 then return (-1, x, y)
      let numPairs ← getu16 font offset
      let offset := offset + 8
      match ← kernPair font key offset numPairs with
      | some value =>
        if flags &&& crossStreamKerning ≠ 0 then kernTables key n (offset + length) x (y + value)
        else kernTables key n (offset + length) (x + value) y
      | none => kernTables key n (offset + length) x y
    else kernTables key n (offset + length) x y

/-- `sft_kerning` up to its last two lines, which scale the sums in `double`s: the return code
and the sums, in font units, of the values of the pairs that match, cross-stream ones apart. -/
def sftKerning (leftGlyph rightGlyph : Nat) : Read (Int × Int × Int) := do
  let some offset ← gettable font tagKern | return (0, 0, 0)
  if !isSafeOffset font offset 4 then return (-1, 0, 0)
  if (← getu16 font offset) ≠ 0 then return (0, 0, 0)
  let numTables ← getu16 font (offset + 2)
  kernTables font [leftGlyph / 256 % 256, leftGlyph % 256, rightGlyph / 256 % 256, rightGlyph % 256]
    numTables (offset + 4) 0 0

/-- Where the loop of `sft_kerning` reads the subtable after the one at `offset`: `length` bytes
past its 6 header bytes, and past the 8 further bytes of a horizontal format 0 header. -/
def kernNext (offset : Nat) : Nat :=
  let format := font.byteAt (offset + 4)
  let flags := font.byteAt (offset + 5)
  (if format = 0 ∧ flags &&& horizontalKerning ≠ 0 ∧ flags &&& minimumKerning = 0 then offset + 6 + 8
    else offset + 6) + u16At font (offset + 2)

/-- The subtable headers the loop of `sft_kerning` reads from `offset`, `n` subtables left. -/
def kernSubtables : Nat → Nat → List Nat
  | 0, _ => []
  | n + 1, offset => if offset + 6 ≤ font.size then offset :: kernSubtables n (kernNext font offset) else []

/-- A fault of the pair lookup of one of the format 0 subtables `subs` whose count of pairs runs
past the font's end. -/
def PairFault (key subs : List Nat) (f : Fault) : Prop :=
  ∃ sub ∈ subs, font.size < sub + 14 + 6 * u16At font (sub + 6) ∧
    kernPair font key (sub + 14) (u16At font (sub + 6)) = .error f

/-- A fault of the pair lookup of a subtable that `sft_kerning` reaches in the `kern` table
`gettable` finds, whose count of pairs runs past the font's end. -/
def PairsOverrun (key : List Nat) (f : Fault) : Prop :=
  ∃ table, gettable font tagKern = .ok (some table) ∧
    PairFault font key (kernSubtables font (u16At font (table + 2)) (table + 4)) f

variable {font}

theorem kernPair_safe {key : List Nat} (hkey : key.length = 4) {base numPairs : Nat}
    (hfit : base + 6 * numPairs ≤ font.size) : Safe (kernPair font key base numPairs) := by
  obtain ⟨r, hr, hp⟩ := @bsearch_safe font key base 6 numPairs (fun idx hidx => by omega) numPairs 0
    numPairs (Nat.le_refl _)
  unfold kernPair
  rw [hr]
  cases r with
  | none => exact Safe.pure _
  | some m =>
    obtain ⟨idx, hidx, rfl⟩ := hp m rfl
    exact (geti16_safe (by omega)).map _

theorem getu8_eq {offset : Nat} (h : offset + 1 ≤ font.size) : getu8 font offset = .ok (font.byteAt offset) := by
  rw [getu8, readBytes, if_pos h]
  show Except.ok (beValue [font.byteAt (offset + 0)]) = _
  simp [beValue]

theorem kernTables_faults {key : List Nat} (hkey : key.length = 4) :
    ∀ n offset x y, FaultsIn (PairFault font key (kernSubtables font n offset)) (kernTables font key n offset x y)
  | 0, _, _, _ => (Safe.pure _).faultsIn
  | n + 1, offset, x, y => by
    unfold kernTables
    refine FaultsIn.guard fun h6 => FaultsIn.bind_ok rfl <| FaultsIn.bind_ok (getu16_eq (by omega)) <|
      FaultsIn.bind_ok (getu8_eq (by omega)) <| FaultsIn.bind_ok (getu8_eq (by omega)) ?_
    have hwalk : kernSubtables font (n + 1) offset = offset :: kernSubtables font n (kernNext font offset) := by
      rw [kernSubtables, if_pos h6]
    -- the faults of the rest of the loop are those of the subtables after this one
    have hrest : ∀ {o}, o = kernNext font offset → ∀ x y,
        FaultsIn (PairFault font key (kernSubtables font (n + 1) offset)) (kernTables font key n o x y) :=
      fun ho x y => (kernTables_faults hkey n _ x y).mono fun f ⟨sub, hsub, hf⟩ =>
        ⟨sub, by rw [hwalk, ← ho]; exact List.mem_cons_of_mem _ hsub, hf⟩
    refine FaultsIn.ite (fun hfmt => FaultsIn.guard fun h8 =>
      FaultsIn.bind_ok rfl <| FaultsIn.bind_ok (getu16_eq (by omega)) ?_)
      fun hfmt => hrest (by rw [kernNext, if_neg hfmt]) x y
    have hpair : FaultsIn (PairFault font key (kernSubtables font (n + 1) offset))
        (kernPair font key (offset + 6 + 8) (u16At font (offset + 6))) := by
      by_cases hfit : offset + 6 + 8 + 6 * u16At font (offset + 6) ≤ font.size
      · exact (kernPair_safe hkey hfit).faultsIn
      · exact fun f hf => ⟨offset, by rw [hwalk]; exact List.mem_cons_self _ _, by omega, hf⟩
    refine hpair.bind fun value => ?_
    have ho : offset + 6 + 8 + u16At font (offset + 2) = kernNext font offset := by rw [kernNext, if_pos hfmt]
    rcases value with _ | value
    · exact hrest ho x y
    · exact FaultsIn.ite (fun _ => hrest ho x _) fun _ => hrest ho _ y

/-- Of all the reads `sft_kerning` makes, only the pair lookup of a format 0 subtable it reaches,
whose pairs run past the font's end, can fault: the table directory, the table header, each
subtable header and each format 0 header are checked before they are read. -/
theorem sftKerning_faults_only_in_pairs (leftGlyph rightGlyph : Nat) (h : 6 ≤ font.size) :
    FaultsIn (PairsOverrun font
      [leftGlyph / 256 % 256, leftGlyph % 256, rightGlyph / 256 % 256, rightGlyph % 256])
      (sftKerning font leftGlyph rightGlyph) := by
  unfold sftKerning
  obtain ⟨kern, hkern⟩ := @gettable_safe font tagKern rfl h
  refine FaultsIn.bind_ok hkern ?_
  rcases kern with _ | table
  · exact (Safe.pure _).faultsIn
  refine FaultsIn.guard fun h4 => (getu16_safe (by omega)).faultsIn.bind fun version => ?_
  refine FaultsIn.ite (fun _ => (Safe.pure _).faultsIn) fun _ =>
    FaultsIn.bind_ok rfl <| FaultsIn.bind_ok (getu16_eq (by omega)) ?_
  exact (kernTables_faults (by rfl) _ _ _ _).mono fun f hf => ⟨table, hkern, hf⟩

/-- On the font of the `cmap` example, which has no `kern` table. -/
theorem shortGroupsFont_kerning_faults :
    FaultsIn (PairsOverrun shortGroupsFont [0, 0, 0, 0]) (sftKerning shortGroupsFont 0 0) :=
  sftKerning_faults_only_in_pairs 0 0 (by decide)

end LispBM.Schrift
