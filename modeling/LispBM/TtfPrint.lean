import Mathlib.Data.List.Basic

namespace LispBM.TtfPrint

/-- An `image_buffer_t` as `getpixel` and `putpixel` see it: its size and its pixel at each
position. Modelled from the spec: the display extension that defines them is not in the
repository. -/
structure Image where
  width : Nat
  height : Nat
  pixel : Int → Int → Nat

def getpixel (img : Image) (x y : Int) : Nat := img.pixel x y

def putpixel (img : Image) (x y : Int) (p : Nat) : Image :=
  { img with pixel := fun x' y' => if x' = x ∧ y' = y then p else img.pixel x' y' }

@[simp] theorem putpixel_width (img : Image) (x y : Int) (p : Nat) : (putpixel img x y p).width = img.width :=
  rfl

@[simp] theorem putpixel_height (img : Image) (x y : Int) (p : Nat) :
    (putpixel img x y p).height = img.height :=
  rfl

/-- The clip test of the blit, as `ext_ttf_print` writes it, for a target of `tw` by `th`. -/
def inTarget (tw th : Nat) (x y : Int) : Prop :=
  y > 0 ∧ y < th ∧ x > 0 ∧ x < tw

instance (tw th : Nat) (x y : Int) : Decidable (inTarget tw th x y) :=
  inferInstanceAs (Decidable (_ ∧ _ ∧ _ ∧ _))

/-- One row of the blit: `for (int i = 0; i < src.width; i ++)` at row `j`. -/
def blitRow (src : Image) (tw th : Nat) (xi yi : Int) (j : Nat) (tgt : Image) (cols : List Nat) : Image :=
  cols.foldl (fun tgt (i : Nat) =>
    if inTarget tw th (xi + i) (yi + j) then putpixel tgt (xi + i) (yi + j) (getpixel src i j) else tgt) tgt

/-- The glyph blit of `ext_ttf_print`: the glyph image `src` drawn into `tgt` with its corner at
`(xi, yi)`. -/
def blit (src tgt : Image) (xi yi : Int) : Image :=
  (List.range src.height).foldl (fun acc (j : Nat) =>
    blitRow src tgt.width tgt.height xi yi j acc (List.range src.width)) tgt

theorem blitRow_pixel (src : Image) (tw th : Nat) (xi yi : Int) (j : Nat) (tgt : Image) (cols : List Nat)
    (x y : Int) :
    (blitRow src tw th xi yi j tgt cols).pixel x y =
      if (∃ i ∈ cols, x = xi + i) ∧ y = yi + j ∧ inTarget tw th x y then src.pixel (x - xi) j
      else tgt.pixel x y := by
  induction cols generalizing tgt with
  | nil => simp [blitRow]
  | cons i cols ih =>
    simp only [blitRow, List.foldl_cons] at ih ⊢
    rw [ih]
    by_cases hxy : x = xi + i ∧ y = yi + j
    · obtain ⟨rfl, rfl⟩ := hxy
      have hc : xi + (i : Int) - xi = i := by omega
      by_cases hin : inTarget tw th (xi + i) (yi + j) <;> simp [hin, putpixel, getpixel, hc]
    · have hkeep : (if inTarget tw th (xi + i) (yi + j) then putpixel tgt (xi + i) (yi + j) (getpixel src i j)
          else tgt).pixel x y = tgt.pixel x y := by
        split <;> simp [putpixel, hxy]
      rw [hkeep]
      by_cases hx : x = xi + i
      · have hy : ¬ y = yi + j := fun hy => hxy ⟨hx, hy⟩
        simp [hy]
      · simp [List.mem_cons, hx]

theorem blitRows_pixel (src : Image) (tw th : Nat) (xi yi : Int) (rows : List Nat) (tgt : Image) (x y : Int) :
    (rows.foldl (fun acc (j : Nat) => blitRow src tw th xi yi j acc (List.range src.width)) tgt).pixel x y =
      if (∃ j ∈ rows, y = yi + j) ∧ (∃ i ∈ List.range src.width, x = xi + i) ∧ inTarget tw th x y
      then src.pixel (x - xi) (y - yi) else tgt.pixel x y := by
  induction rows generalizing tgt with
  | nil => simp
  | cons j rows ih =>
    rw [List.foldl_cons, ih, blitRow_pixel]
    by_cases hy : y = yi + j
    · have hc : y - yi = j := by omega
      by_cases hc' : (∃ i ∈ List.range src.width, x = xi + i) ∧ inTarget tw th x y <;> simp_all
    · simp [hy]

theorem exists_range_offset {n : Nat} {a b : Int} : (∃ k ∈ List.range n, a = b + k) ↔ 0 ≤ a - b ∧ a - b < n := by
  constructor
  · rintro ⟨k, hk, rfl⟩
    simp only [List.mem_range] at hk
    omega
  · intro h
    exact ⟨(a - b).toNat, List.mem_range.mpr (by omega), by omega⟩

/-- What the blit does to every pixel of the target: a pixel that a source pixel lands on and
that passes the clip test gets that source pixel, and every other pixel stays as it was. -/
theorem blit_pixel (src tgt : Image) (xi yi x y : Int) :
    (blit src tgt xi yi).pixel x y =
      if (0 ≤ y - yi ∧ y - yi < src.height) ∧ (0 ≤ x - xi ∧ x - xi < src.width) ∧
        inTarget tgt.width tgt.height x y
      then src.pixel (x - xi) (y - yi) else tgt.pixel x y := by
  rw [blit, blitRows_pixel]
  simp only [exists_range_offset]

theorem blit_keeps_edges (src tgt : Image) (xi yi : Int) {x y : Int} (hxy : x = 0 ∨ y = 0) :
    (blit src tgt xi yi).pixel x y = tgt.pixel x y := by
  rw [blit_pixel, if_neg]
  rintro ⟨-, -, hy, -, hx, -⟩
  omega

/-- A one-pixel glyph, and a blank two by two target. -/
def dot : Image := ⟨1, 1, fun _ _ => 1⟩
def blank : Image := ⟨2, 2, fun _ _ => 0⟩

/-- Drawn at `(0, 0)`, the glyph's pixel lands on the target's pixel `(0, 0)`, inside the target,
and the blit leaves that pixel blank. -/
theorem blit_drops_corner_pixel :
    dot.pixel 0 0 = 1 ∧ (blit dot blank 0 0).pixel 0 0 = 0 :=
  ⟨rfl, blit_keeps_edges dot blank 0 0 (.inl rfl)⟩

end LispBM.TtfPrint
