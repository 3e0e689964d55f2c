import LispBM.Schrift

namespace LispBM.Schrift

/-- A `Line { beg, end }` between two point indices (`end` is a keyword of Lean). -/
structure Line where
  beg : Nat
  stop : Nat
  deriving DecidableEq, Repr

/-- A `Curve { beg, end, ctrl }`: a quadratic arc with its control point. -/
structure Curve where
  beg : Nat
  stop : Nat
  ctrl : Nat
  deriving DecidableEq, Repr

/-- An `Outline` with the coordinates of its points left out: the decoder and the tesselator choose
every index they write from the counts alone. `numCurves` and `numLines` are the lengths of the
lists. -/
structure Outline where
  numPoints : Nat
  capPoints : Nat
  curves : List Curve
  capCurves : Nat
  lines : List Line
  capLines : Nat
  deriving DecidableEq, Repr

/-- `init_outline`, with an `lbm_malloc` that succeeds. -/
def initOutline : Outline := ⟨0, 64, [], 64, [], 64⟩

/-- The body shared by `grow_points`, `grow_curves` and `grow_lines`: the doubled capacity, `none`
for `-1` past `UINT16_MAX / 2`, and `none` where the `assert` on a zero capacity aborts. -/
def growCap (cap : Nat) : Option Nat :=
  if cap = 0 ∨ cap > 0xFFFF / 2 then none else some (2 * cap)

def growPoints (o : Outline) : Option Outline := (growCap o.capPoints).map fun cap => { o with capPoints := cap }

def growCurves (o : Outline) : Option Outline := (growCap o.capCurves).map fun cap => { o with capCurves := cap }

def growLines (o : Outline) : Option Outline := (growCap o.capLines).map fun cap => { o with capLines := cap }

/-- `outl->points[outl->numPoints++] = ...`, after `grow_points` when the array is full. The new
point's index is the old `numPoints`. -/
def addPoint (o : Outline) : Option Outline :=
  (if o.numPoints ≥ o.capPoints then growPoints o else some o).map fun o => { o with numPoints := o.numPoints + 1 }

def addCurve (o : Outline) (c : Curve) : Option Outline :=
  (if o.curves.length ≥ o.capCurves then growCurves o else some o).map fun o => { o with curves := o.curves ++ [c] }

def addLine (o : Outline) (l : Line) : Option Outline :=
  (if o.lines.length ≥ o.capLines then growLines o else some o).map fun o => { o with lines := o.lines ++ [l] }

def pointIsOnCurve : Nat := 0x01
def xChangeIsSmall : Nat := 0x02
def yChangeIsSmall : Nat := 0x04
def repeatFlag : Nat := 0x08
def xChangeIsZero : Nat := 0x10
def yChangeIsZero : Nat := 0x20

def offsetsAreLarge : Nat := 0x001
def actualXyOffsets : Nat := 0x002
def gotASingleScale : Nat := 0x008
def thereAreMoreComponents : Nat := 0x020
def gotAnXAndYScale : Nat := 0x040
def gotAScaleMatrix : Nat := 0x080

def onCurve (flag : Nat) : Bool := flag &&& pointIsOnCurve != 0

/-- The `for` loop of `decode_contour` over the points `basePoint + i` whose flags are `fs`, and the
segment after it that closes the contour at `looseEnd`. The chain so far ends at `beg`; `ctrl` is
the pending off-curve point when `gotCtrl`. -/
def contourLoop (looseEnd basePoint : Nat) : List Nat → Nat → Nat → Nat → Bool → Outline → Option Outline
  | [], _, beg, ctrl, gotCtrl, o =>
    if gotCtrl then addCurve o ⟨beg, looseEnd, ctrl⟩ else addLine o ⟨beg, looseEnd⟩
  | f :: fs, i, beg, ctrl, gotCtrl, o =>
    let cur := basePoint + i
    if onCurve f then do
      let o ← if gotCtrl then addCurve o ⟨beg, cur, ctrl⟩ else addLine o ⟨beg, cur⟩
      contourLoop looseEnd basePoint fs (i + 1) cur ctrl false o
    else if gotCtrl then do
      let center := o.numPoints
      let o ← addPoint o
      let o ← addCurve o ⟨beg, center, ctrl⟩
      contourLoop looseEnd basePoint fs (i + 1) center cur true o
    else contourLoop looseEnd basePoint fs (i + 1) beg cur true o

/-- `decode_contour` on the `count` points from `basePoint`, whose flags start `flags`. The
`assert (basePoint <= UINT16_MAX - count)` is left out: every caller has `basePoint + count` at most
`numPoints`. -/
def decodeContour (flags : List Nat) (basePoint count : Nat) (o : Outline) : Option Outline :=
  if count < 2 then some o
  else if onCurve (flags.getD 0 0) then
    contourLoop basePoint (basePoint + 1) ((flags.drop 1).take (count - 1)) 0 basePoint 0 false o
  else if onCurve (flags.getD (count - 1) 0) then
    contourLoop (basePoint + (count - 1)) basePoint (flags.take (count - 1)) 0 (basePoint + (count - 1)) 0 false o
  else do
    let looseEnd := o.numPoints
    let o ← addPoint o
    contourLoop looseEnd basePoint (flags.take count) 0 looseEnd 0 false o

variable (font : SFTFont)

/-- `simple_flags`: the flags of `n` more points read from `off`, a flag with `REPEAT_FLAG` being
followed by its repeat count, and the offset past them; `none` for `-1`. -/
def simpleFlags : Nat → Nat → Nat → Nat → Read (Option (List Nat × Nat))
  | 0, off, _, _ => return some ([], off)
  | n + 1, off, value, rep =>
    if rep > 0 then Option.map (fun (fs, off) => (value :: fs, off)) <$> simpleFlags n off value (rep - 1)
    else do
      if !isSafeOffset font off 1 then return none
      let value ← getu8 font off
      if value &&& repeatFlag != 0 then
        if !isSafeOffset font (off + 1) 1 then return none
        let rep ← getu8 font (off + 1)
        Option.map (fun (fs, off) => (value :: fs, off)) <$> simpleFlags n (off + 2) value rep
      else Option.map (fun (fs, off) => (value :: fs, off)) <$> simpleFlags n (off + 1) value 0

/-- One coordinate pass of `simple_points`: the offset past the deltas of the points with flags
`fs`, `none` for `-1`. The coordinates themselves are left out. -/
def coordPass (isSmall isZero : Nat) : List Nat → Nat → Option Nat
  | [], off => some off
  | f :: fs, off =>
    if f &&& isSmall != 0 then
      if isSafeOffset font off 1 then coordPass isSmall isZero fs (off + 1) else none
    else if f &&& isZero == 0 then
      if isSafeOffset font off 2 then coordPass isSmall isZero fs (off + 2) else none
    else coordPass isSmall isZero fs off

/-- `simple_points`: whether both coordinate passes stay inside the font. -/
def simplePoints (offset : Nat) (flags : List Nat) : Bool :=
  ((coordPass font xChangeIsSmall xChangeIsZero flags offset).bind
    (coordPass font yChangeIsSmall yChangeIsZero flags)).isSome

/-- The `while (outl->capPoints < target)` loop of `simple_outline`. Sixteen doublings take any
capacity from 1 past `UINT16_MAX / 2`, where `grow_points` fails. -/
def growPointsTo (target : Nat) : Nat → Outline → Option Outline
  | 0, o => if o.capPoints < target then none else some o
  | fuel + 1, o => if o.capPoints < target then (growPoints o).bind (growPointsTo target fuel) else some o

/-- The `for` loop of `simple_outline` that decodes the contours ending at `endPts`, the current one
starting at point `beg` of the glyph. -/
def decodeContours (flags : List Nat) (basePoint : Nat) : List Nat → Nat → Outline → Option Outline
  | [], _, o => some o
  | e :: es, beg, o =>
    (decodeContour (flags.drop beg) (basePoint + beg) (e - beg + 1) o).bind (decodeContours flags basePoint es (e + 1))

/-- `simple_outline` for `numContours` contours at `offset`. -/
def simpleOutline (offset numContours : Nat) (o : Outline) : Read (Option Outline) := do
  let basePoint := o.numPoints
  if !isSafeOffset font offset (numContours * 2 + 2) then return none
  let numPts ← getu16 font (offset + (numContours - 1) * 2)
  if numPts ≥ 0xFFFF then return none
  let numPts := numPts + 1
  if o.numPoints > 0xFFFF - numPts then return none
  let some o := growPointsTo (basePoint + numPts) 16 o | return none
  let endPts ← (List.range numContours).mapM fun i => getu16 font (offset + 2 * i)
  if (List.range (numContours - 1)).any fun i => endPts.getD (i + 1) 0 < endPts.getD i 0 + 1 then return none
  let offset := offset + 2 * numContours
  let instructionLength ← getu16 font offset
  let some (flags, offset) ← simpleFlags font numPts (offset + 2 + instructionLength) 0 0 | return none
  if !simplePoints font offset flags then return none
  let o := { o with numPoints := o.numPoints + numPts }
  return decodeContours flags basePoint endPts 0 o

def tagLoca : List Nat := [0x6c, 0x6f, 0x63, 0x61]
def tagGlyf : List Nat := [0x67, 0x6c, 0x79, 0x66]

/-- `outline_offset`: where the glyph's outline lies in the font, `0` for an empty outline. -/
def outlineOffset (glyph : Nat) : Read (Option Nat) := do
  let some loca ← gettable font tagLoca | return none
  let some glyf ← gettable font tagGlyf | return none
  if font.locaFormat = 0 then
    let base := loca + 2 * glyph
    if !isSafeOffset font base 4 then return none
    let this := 2 * (← getu16 font base)
    let next := 2 * (← getu16 font (base + 2))
    return some (if this = next then 0 else glyf + this)
  else
    let base := loca + 4 * glyph
    if !isSafeOffset font base 8 then return none
    let this ← getu32 font base
    let next ← getu32 font (base + 4)
    return some (if this = next then 0 else glyf + this)

/-- `offset + width` when `width` more bytes lie in the font. -/
def skipField (offset width : Nat) : Option Nat :=
  if isSafeOffset font offset width then some (offset + width) else none

/-- The component record of `compound_outline` at `offset`: its flags, its glyph, and the offset
past its offsets and scales; `none` for `-1`. The offsets and scales themselves are left out: they
only move points. -/
def componentRecord (offset : Nat) : Read (Option (Nat × Nat × Nat)) := do
  if !isSafeOffset font offset 4 then return none
  let flags ← getu16 font offset
  let glyph ← getu16 font (offset + 2)
  if flags &&& actualXyOffsets == 0 then return none
  let some offset := skipField font (offset + 4) (if flags &&& offsetsAreLarge != 0 then 4 else 2) | return none
  let some offset :=
    if flags &&& gotASingleScale != 0 then skipField font offset 2
    else if flags &&& gotAnXAndYScale != 0 then skipField font offset 4
    else if flags &&& gotAScaleMatrix != 0 then skipField font offset 8
    else some offset | return none
  return some (flags, glyph, offset)

/-- The `do ... while (flags & THERE_ARE_MORE_COMPONENTS)` loop of `compound_outline`, with
`decode` for the recursive `decode_outline`. Each component takes at least four bytes, so `fuel`
above a quarter of the bytes left is never the bound. -/
def compoundOutline (decode : Nat → Outline → Read (Option Outline)) : Nat → Nat → Outline → Read (Option Outline)
  | 0, _, _ => return none
  | fuel + 1, offset, o => do
    let some (flags, glyph, offset) ← componentRecord font offset | return none
    let some outline ← outlineOffset font glyph | return none
    let some o ← (if outline ≠ 0 then decode outline o else pure (some o)) | return none
    if flags &&& thereAreMoreComponents != 0 then compoundOutline decode fuel offset o else return some o

/-- `decode_outline` at recursion depth `4 - depthLeft`: `compound_outline` fails at depth 4. -/
def decodeOutline : Nat → Nat → Outline → Read (Option Outline)
  | depthLeft, offset, o => do
    if !isSafeOffset font offset 10 then return none
    let numContours ← geti16 font offset
    if numContours > 0 then simpleOutline font (offset + 10) numContours.toNat o
    else if numContours < 0 then
      match depthLeft with
      | 0 => return none
      | d + 1 => compoundOutline font (fun offset o => decodeOutline d offset o) (font.size + 1) (offset + 10) o
    else return some o

def stackSize : Nat := 10

/-- The loop of `tesselate_curve` on `curve` with the explicit stack `stack` (top first), for at
most `fuel` turns. Every turn adds a line or three points, so the loop ends within
`2 * UINT16_MAX + 1` turns. -/
def tesselateLoop (isFlat : Outline → Curve → Bool) : Nat → Curve → List Curve → Outline → Option Outline
  | 0, _, _, _ => none
  | fuel + 1, curve, stack, o =>
    if isFlat o curve || stack.length ≥ stackSize then do
      let o ← addLine o ⟨curve.beg, curve.stop⟩
      match stack with
      | [] => some o
      | c :: stack => tesselateLoop isFlat fuel c stack o
    else do
      let ctrl0 := o.numPoints
      let o ← addPoint o
      let ctrl1 := o.numPoints
      let o ← addPoint o
      let pivot := o.numPoints
      let o ← addPoint o
      tesselateLoop isFlat fuel ⟨pivot, curve.stop, ctrl1⟩ (⟨curve.beg, pivot, ctrl0⟩ :: stack) o

def tesselateCurve (isFlat : Outline → Curve → Bool) (curve : Curve) (o : Outline) : Option Outline :=
  tesselateLoop isFlat (2 * 0xFFFF + 1) curve [] o

/-- `tesselate_curves`: every curve the decoder added, in order. -/
def tesselateCurves (isFlat : Outline → Curve → Bool) (o : Outline) : Option Outline :=
  o.curves.foldlM (fun o c => tesselateCurve isFlat c o) o

end LispBM.Schrift
