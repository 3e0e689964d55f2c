import LispBM.FontBounds
import LispBM.Outline

namespace LispBM.Schrift

variable (font : SFTFont)

def tagHmtx : List Nat := [0x68, 0x6d, 0x74, 0x78]

/-- `hor_metrics`: the return code, `advanceWidth` and `leftSideBearing`. -/
def horMetrics (glyph : Nat) : Read (Int × Nat × Int) := do
  let some hmtx ← gettable font tagHmtx | return (-1, 0, 0)
  if glyph < font.numLongHmtx then
    let offset := hmtx + 4 * glyph
    if !isSafeOffset font offset 4 then return (-1, 0, 0)
    let advanceWidth ← getu16 font offset
    let leftSideBearing ← geti16 font (offset + 2)
    return (0, advanceWidth, leftSideBearing)
  else
    let boundary := hmtx + 4 * font.numLongHmtx
    if boundary < 4 then return (-1, 0, 0)
    let offset := boundary - 4
    if !isSafeOffset font offset 4 then return (-1, 0, 0)
    let advanceWidth ← getu16 font offset
    let offset := boundary + 2 * (glyph - font.numLongHmtx)
    if !isSafeOffset font offset 2 then return (-1, advanceWidth, 0)
    let leftSideBearing ← geti16 font offset
    return (0, advanceWidth, leftSideBearing)

/-- `glyph_bbox` up to its transform into the `SFT`'s coordinates, done in `double`s: the return
code and the box as the font stores it. -/
def glyphBbox (outline : Nat) : Read (Int × List Int) := do
  if !isSafeOffset font outline 10 then return (-1, [])
  let box ← [2, 4, 6, 8].mapM fun k => geti16 font (outline + k)
  if box.getD 2 0 ≤ box.getD 0 0 ∨ box.getD 3 0 ≤ box.getD 1 0 then return (-1, box)
  return (0, box)

/-- `sft_gmetrics` up to its `double` arithmetic: the return code, the advance width and left side
bearing in font units, and the box of the outline (`[]` for an empty glyph). -/
def sftGmetrics (glyph : Nat) : Read (Int × Nat × Int × List Int) := do
  let (rc, advanceWidth, leftSideBearing) ← horMetrics font glyph
  if rc < 0 then return (-1, 0, 0, [])
  let some outline ← outlineOffset font glyph | return (-1, advanceWidth, leftSideBearing, [])
  if outline = 0 then return (0, advanceWidth, leftSideBearing, [])
  let (rc, box) ← glyphBbox font outline
  if rc < 0 then return (-1, advanceWidth, leftSideBearing, [])
  return (0, advanceWidth, leftSideBearing, box)

/-- `sft_lmetrics` up to its `double` arithmetic: the return code and `ascender`, `descender` and
`lineGap` in font units. -/
def sftLmetrics : Read (Int × List Int) := do
  let some hhea ← gettable font tagHhea | return (-1, [])
  if !isSafeOffset font hhea 36 then return (-1, [])
  let metrics ← [4, 6, 8].mapM fun k => geti16 font (hhea + k)
  return (0, metrics)

variable {font}

theorem mapM_geti16_safe {base : Nat} :
    ∀ ks : List Nat, (∀ k ∈ ks, base + k + 2 ≤ font.size) → Safe (ks.mapM fun k => geti16 font (base + k))
  | [], _ => Safe.pure _
  | k :: ks, h => by
    rw [List.mapM_cons]
    exact (geti16_safe (h k (List.mem_cons_self k ks))).bind fun _ =>
      (mapM_geti16_safe ks fun k' hk' => h k' (List.mem_cons_of_mem k hk')).bind fun _ => Safe.pure _

theorem horMetrics_safe (glyph : Nat) (h : 6 ≤ font.size) : Safe (horMetrics font glyph) := by
  unfold horMetrics
  refine (gettable_safe (show tagHmtx.length = 4 from rfl) h).bind fun hmtx => ?_
  rcases hmtx with _ | hmtx
  · exact Safe.pure _
  refine Safe.ite (fun _ => Safe.guard fun h4 => ?_) fun _ => Safe.ite (fun _ => Safe.pure _) fun hb => ?_
  · exact (getu16_safe (by omega)).bind fun _ => (geti16_safe (by omega)).bind fun _ => Safe.pure _
  · exact Safe.guard fun h4 => (getu16_safe (by omega)).bind fun _ => Safe.guard fun h2 =>
      (geti16_safe h2).bind fun _ => Safe.pure _

theorem outlineOffset_safe (glyph : Nat) (h : 6 ≤ font.size) : Safe (outlineOffset font glyph) := by
  unfold outlineOffset
  refine (gettable_safe (show tagLoca.length = 4 from rfl) h).bind fun loca => ?_
  rcases loca with _ | loca
  · exact Safe.pure _
  refine (gettable_safe (show tagGlyf.length = 4 from rfl) h).bind fun glyf => ?_
  rcases glyf with _ | glyf
  · exact Safe.pure _
  refine Safe.ite (fun _ => Safe.guard fun h4 => ?_) fun _ => Safe.guard fun h8 => ?_
  · exact (getu16_safe (by omega)).bind fun _ => (getu16_safe (by omega)).bind fun _ => Safe.pure _
  · exact (getu32_safe (by omega)).bind fun _ => (getu32_safe (by omega)).bind fun _ => Safe.pure _

theorem glyphBbox_safe (outline : Nat) : Safe (glyphBbox font outline) := by
  unfold glyphBbox
  refine Safe.guard fun h10 => (mapM_geti16_safe _ fun k hk => ?_).bind fun _ => Safe.ite
    (fun _ => Safe.pure _) fun _ => Safe.pure _
  simp only [List.mem_cons, List.mem_singleton, List.not_mem_nil, or_false] at hk
  omega

/-- The metric readers of `schrift.c` read only inside the font, whatever its bytes: every offset
`sft_gmetrics` and `sft_lmetrics` read at is checked against the font's size first. -/
theorem metrics_read_inside_font (h : 6 ≤ font.size) :
    (∀ glyph, Safe (sftGmetrics font glyph)) ∧ Safe (sftLmetrics font) := by
  refine ⟨fun glyph => ?_, ?_⟩
  · unfold sftGmetrics
    refine (horMetrics_safe glyph h).bind fun ⟨rc, adv, lsb⟩ => Safe.ite (fun _ => Safe.pure _) fun _ =>
      (outlineOffset_safe glyph h).bind fun outline => ?_
    rcases outline with _ | outline
    · exact Safe.pure _
    exact Safe.ite (fun _ => Safe.pure _) fun _ => (glyphBbox_safe outline).bind fun ⟨rc', box⟩ =>
      Safe.ite (fun _ => Safe.pure _) fun _ => Safe.pure _
  · unfold sftLmetrics
    refine (gettable_safe (show tagHhea.length = 4 from rfl) h).bind fun hhea => ?_
    rcases hhea with _ | hhea
    · exact Safe.pure _
    refine Safe.guard fun h36 => (mapM_geti16_safe _ fun k hk => ?_).bind fun _ => Safe.pure _
    simp only [List.mem_cons, List.mem_singleton, List.not_mem_nil, or_false] at hk
    omega

/-- On the font of the `cmap` example. -/
theorem shortGroupsFont_metrics_inside :
    (∀ glyph, Safe (sftGmetrics shortGroupsFont glyph)) ∧ Safe (sftLmetrics shortGroupsFont) :=
  metrics_read_inside_font (by decide)

end LispBM.Schrift
