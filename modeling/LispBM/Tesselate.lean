import LispBM.OutlineDecode

namespace LispBM.Schrift

variable {o o' : Outline}

theorem addLine_lines {a b : Nat} (hs : Sound o) (h : addLine o ⟨a, b⟩ = some o') (ha : a < o.numPoints)
    (hb : b < o.numPoints) :
    Sound o' ∧ o'.numPoints = o.numPoints ∧ o'.curves = o.curves ∧
      ∀ p, lineFlow o'.lines p = lineFlow o.lines p + edge a b p := by
  have hs' := (addLine_adds hs h ha hb).sound
  obtain ⟨cap, rfl⟩ := addLine_some h
  exact ⟨hs', rfl, rfl, fun p => by simp⟩

/-- The loop of `tesselate_curve` replaces the pending curves, the current one and those on the
stack, by lines with the same flow, whatever `is_flat` answers. -/
theorem tesselateLoop_lines (isFlat : Outline → Curve → Bool) :
    ∀ fuel curve stack o o', tesselateLoop isFlat fuel curve stack o = some o' → Sound o →
      (∀ c ∈ curve :: stack, c.beg < o.numPoints ∧ c.stop < o.numPoints) →
      Sound o' ∧ o.numPoints ≤ o'.numPoints ∧ o'.curves = o.curves ∧
        ∀ p, lineFlow o'.lines p = lineFlow o.lines p + curveFlow (curve :: stack) p := by
  intro fuel
  induction fuel with
  | zero => intro _ _ _ _ h; cases h
  | succ fuel ih =>
    intro curve stack o o' h hs hpend
    have hcur := hpend curve (List.mem_cons_self _ _)
    simp only [tesselateLoop, Option.bind_eq_bind] at h
    split_ifs at h with hflat
    · -- flat, or the stack is full: one line for the current curve, then the next one popped
      obtain ⟨o₁, h₁, h⟩ := Option.bind_eq_some.mp h
      obtain ⟨hs₁, hn₁, hc₁, hf₁⟩ := addLine_lines hs h₁ hcur.1 hcur.2
      cases stack with
      | nil =>
        cases h
        exact ⟨hs₁, hn₁.ge, hc₁, fun p => by simp [hf₁]⟩
      | cons c stack =>
        obtain ⟨hs', hn', hc', hf'⟩ := ih _ _ _ _ h hs₁ fun c' hc' => by
          have := hpend c' (List.mem_cons_of_mem _ hc'); omega
        exact ⟨hs', by omega, hc'.trans hc₁, fun p => by rw [hf', hf₁]; simp only [curveFlow_cons]; omega⟩
    · -- the curve is split at `pivot` into two halves over three new points
      obtain ⟨o₁, h₁, h⟩ := Option.bind_eq_some.mp h
      obtain ⟨hs₁, hn₁, hl₁, hc₁⟩ := hs.addPoint h₁
      obtain ⟨o₂, h₂, h⟩ := Option.bind_eq_some.mp h
      obtain ⟨hs₂, hn₂, hl₂, hc₂⟩ := hs₁.addPoint h₂
      obtain ⟨o₃, h₃, h⟩ := Option.bind_eq_some.mp h
      obtain ⟨hs₃, hn₃, hl₃, hc₃⟩ := hs₂.addPoint h₃
      obtain ⟨hs', hn', hc', hf'⟩ := ih _ _ _ _ h hs₃ fun c' hc' => by
        simp only [List.mem_cons] at hc'
        rcases hc' with rfl | rfl | hc'
        · dsimp only; omega
        · dsimp only; omega
        · have := hpend c' (List.mem_cons_of_mem _ hc'); omega
      refine ⟨hs', by omega, by rw [hc', hc₃, hc₂, hc₁], fun p => ?_⟩
      rw [hf', hl₃, hl₂, hl₁]
      simp only [curveFlow_cons, ← edge_trans curve.beg o₂.numPoints curve.stop p]
      omega

theorem tesselateLoop_congr (isFlat : Outline → Curve → Bool) :
    ∀ fuel₁ fuel₂ curve stack o, Sized o → stack.length ≤ stackSize →
      2 * (0xFFFF - o.numPoints) + stack.length < fuel₁ → 2 * (0xFFFF - o.numPoints) + stack.length < fuel₂ →
      tesselateLoop isFlat fuel₁ curve stack o = tesselateLoop isFlat fuel₂ curve stack o := by
  intro fuel₁
  induction fuel₁ with
  | zero => intro _ _ _ _ _ _ h; omega
  | succ fuel₁ ih =>
    intro fuel₂ curve stack o hz hlen h₁ h₂
    obtain ⟨fuel₂, rfl⟩ : ∃ f, fuel₂ = f + 1 := ⟨fuel₂ - 1, by omega⟩
    simp only [tesselateLoop, Option.bind_eq_bind]
    split_ifs with hflat
    · -- a line, which leaves the points as they were, and a pop
      rcases hl : addLine o ⟨curve.beg, curve.stop⟩ with _ | o₁
      · rfl
      obtain ⟨cap, rfl⟩ := addLine_some hl
      cases stack with
      | nil => rfl
      | cons c stack =>
        simp only [List.length_cons] at hlen h₁ h₂
        exact ih _ _ _ _ (hz.of_points rfl rfl) (by omega) (by dsimp only; omega) (by dsimp only; omega)
    · -- three points and a push
      simp only [Bool.or_eq_true, decide_eq_true_eq, not_or, not_le] at hflat
      rcases hp₁ : addPoint o with _ | o₁
      · rfl
      obtain ⟨hz₁, hn₁, -⟩ := hz.addPoint hp₁
      simp only [Option.some_bind]
      rcases hp₂ : addPoint o₁ with _ | o₂
      · rfl
      obtain ⟨hz₂, hn₂, -⟩ := hz₁.addPoint hp₂
      simp only [Option.some_bind]
      rcases hp₃ : addPoint o₂ with _ | o₃
      · rfl
      obtain ⟨hz₃, hn₃, -⟩ := hz₂.addPoint hp₃
      simp only [Option.some_bind]
      have := hz₃.num_le_cap
      have := hz₃.cap_le
      exact ih _ _ _ _ hz₃ (by simp only [List.length_cons]; omega) (by simp only [List.length_cons]; omega)
        (by simp only [List.length_cons]; omega)

/-- The fuel `tesselateCurve` gives the loop over its explicit stack is never what stops it: on a
sized outline, any fuel above `2 * 0xFFFF` gives the same result. -/
theorem tesselateCurve_fuel (isFlat : Outline → Curve → Bool) {curve : Curve} {fuel : Nat} (hz : Sized o)
    (h : 2 * 0xFFFF < fuel) : tesselateLoop isFlat fuel curve [] o = tesselateCurve isFlat curve o :=
  tesselateLoop_congr isFlat _ _ _ _ _ hz (Nat.zero_le _) (by simp only [List.length_nil]; omega)
    (by simp only [List.length_nil]; omega)

theorem tesselateCurves_lines (isFlat : Outline → Curve → Bool) :
    ∀ cs o o', cs.foldlM (fun o c => tesselateCurve isFlat c o) o = some o' → Sound o →
      (∀ c ∈ cs, c.beg < o.numPoints ∧ c.stop < o.numPoints) →
      Sound o' ∧ o'.curves = o.curves ∧ ∀ p, lineFlow o'.lines p = lineFlow o.lines p + curveFlow cs p := by
  intro cs
  induction cs with
  | nil =>
    intro o o' h hs _
    cases h
    exact ⟨hs, rfl, fun p => by simp⟩
  | cons c cs ih =>
    intro o o' h hs hpend
    rw [List.foldlM_cons] at h
    obtain ⟨o₁, h₁, h⟩ := Option.bind_eq_some.mp h
    obtain ⟨hs₁, hn₁, hc₁, hf₁⟩ := tesselateLoop_lines isFlat _ c [] o o₁ h₁ hs
      fun c' hc' => hpend c' (by simp only [List.mem_singleton] at hc'; exact hc' ▸ List.mem_cons_self c cs)
    obtain ⟨hs', hc', hf'⟩ := ih o₁ o' h hs₁ fun c' hc' => by
      have := hpend c' (List.mem_cons_of_mem c hc'); omega
    refine ⟨hs', hc'.trans hc₁, fun p => ?_⟩
    rw [hf', hf₁]
    simp only [curveFlow_cons, curveFlow_nil]
    omega

/-- For every font, every outline offset and every answer of `is_flat`: when `decode_outline` from
a fresh outline and `tesselate_curves` succeed, every line joins two points of the outline, and
every point begins as many lines as it ends. -/
theorem outline_lines_closed (font : SFTFont) (offset : Nat) (isFlat : Outline → Curve → Bool) {o o' : Outline}
    (hdec : decodeOutline font 4 offset initOutline = .ok (some o)) (htess : tesselateCurves isFlat o = some o') :
    (∀ l ∈ o'.lines, l.beg < o'.numPoints ∧ l.stop < o'.numPoints) ∧
      ∀ p, o'.lines.countP (·.beg == p) = o'.lines.countP (·.stop == p) := by
  have hd := decodeOutline_extends 4 offset initOutline o hdec initOutline_sound
  obtain ⟨hs', -, hf'⟩ := tesselateCurves_lines isFlat o.curves o o' htess hd.sound
    fun c hc => ⟨(hd.sound.curves_lt c hc).1, (hd.sound.curves_lt c hc).2.1⟩
  refine ⟨hs'.lines_lt, fun p => ?_⟩
  have h0 : lineFlow o'.lines p = 0 := by
    rw [hf' p]
    exact (hd.flow_eq p).trans (by simp [Outline.flow, initOutline])
  simp only [lineFlow] at h0
  omega

/-- A glyph of one contour at offset 0: an on-curve point, an off-curve point and an on-curve
point, all at the origin. -/
def arcFont : SFTFont where
  memory := [0, 1, 0, 0, 0, 0, 0, 0, 0, 0, 0, 2, 0, 0, 0x31, 0x30, 0x31]
  unitsPerEm := 0
  locaFormat := 0
  numLongHmtx := 0

/-- The arc decodes to a curve `0 → 2` and a closing line `2 → 0`. An `is_flat` that answers no
until six points exist splits the curve once, at the new point 5. -/
theorem outline_lines_closed_arc :
    decodeOutline arcFont 4 0 initOutline = .ok (some ⟨3, 64, [⟨0, 2, 1⟩], 64, [⟨2, 0⟩], 64⟩) ∧
      tesselateCurves (fun o _ => decide (6 ≤ o.numPoints)) ⟨3, 64, [⟨0, 2, 1⟩], 64, [⟨2, 0⟩], 64⟩ =
        some ⟨6, 64, [⟨0, 2, 1⟩], 64, [⟨2, 0⟩, ⟨5, 2⟩, ⟨0, 5⟩], 64⟩ ∧
      (∀ l ∈ [⟨2, 0⟩, ⟨5, 2⟩, ⟨0, 5⟩], Line.beg l < 6 ∧ Line.stop l < 6) ∧
      ∀ p, [(⟨2, 0⟩ : Line), ⟨5, 2⟩, ⟨0, 5⟩].countP (·.beg == p) = [(⟨2, 0⟩ : Line), ⟨5, 2⟩, ⟨0, 5⟩].countP (·.stop == p) :=
  ⟨rfl, rfl, outline_lines_closed arcFont 0 (fun o _ => decide (6 ≤ o.numPoints)) rfl rfl⟩

end LispBM.Schrift
