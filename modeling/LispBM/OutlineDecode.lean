import LispBM.Outline
import LispBM.CmapFormat4

namespace LispBM.Schrift

variable {o o' o₁ o₂ o₃ : Outline}

/-- The flow of a segment `a → b` at point `p`: one leaving `a`, one reaching `b`. -/
def edge (a b p : Nat) : Int := (if a = p then 1 else 0) - (if b = p then 1 else 0)

theorem edge_trans (a b c p : Nat) : edge a b p + edge b c p = edge a c p := by
  simp only [edge]
  split_ifs <;> omega

@[simp] theorem edge_self (a p : Nat) : edge a a p = 0 := by simp [edge]

/-- How many more lines leave `p` than reach it. -/
def lineFlow (ls : List Line) (p : Nat) : Int := (ls.countP (·.beg == p) : Int) - ls.countP (·.stop == p)

def curveFlow (cs : List Curve) (p : Nat) : Int := (cs.countP (·.beg == p) : Int) - cs.countP (·.stop == p)

@[simp] theorem lineFlow_nil (p : Nat) : lineFlow [] p = 0 := rfl

@[simp] theorem lineFlow_cons (l : Line) (ls : List Line) (p : Nat) :
    lineFlow (l :: ls) p = edge l.beg l.stop p + lineFlow ls p := by
  simp only [lineFlow, edge, List.countP_cons, beq_iff_eq]
  split_ifs <;> omega

@[simp] theorem lineFlow_append (ls ls' : List Line) (p : Nat) :
    lineFlow (ls ++ ls') p = lineFlow ls p + lineFlow ls' p := by
  simp only [lineFlow, List.countP_append]
  omega

@[simp] theorem curveFlow_nil (p : Nat) : curveFlow [] p = 0 := rfl

@[simp] theorem curveFlow_cons (c : Curve) (cs : List Curve) (p : Nat) :
    curveFlow (c :: cs) p = edge c.beg c.stop p + curveFlow cs p := by
  simp only [curveFlow, edge, List.countP_cons, beq_iff_eq]
  split_ifs <;> omega

@[simp] theorem curveFlow_append (cs cs' : List Curve) (p : Nat) :
    curveFlow (cs ++ cs') p = curveFlow cs p + curveFlow cs' p := by
  simp only [curveFlow, List.countP_append]
  omega

/-- The flow at `p` of all the segments of an outline, lines and curves. -/
def Outline.flow (o : Outline) (p : Nat) : Int := lineFlow o.lines p + curveFlow o.curves p

/-- The point array of an outline: allocated, holding at most its capacity, which fits a
`uint_least16_t`. -/
structure Sized (o : Outline) : Prop where
  cap_pos : 0 < o.capPoints
  num_le_cap : o.numPoints ≤ o.capPoints
  cap_le : o.capPoints ≤ 0xFFFF

theorem Sized.of_points (hz : Sized o) (hn : o'.numPoints = o.numPoints) (hc : o'.capPoints = o.capPoints) :
    Sized o' :=
  ⟨hc ▸ hz.cap_pos, hn ▸ hc ▸ hz.num_le_cap, hc ▸ hz.cap_le⟩

/-- An outline the decoder can stand on: sized, and every index its lines and curves hold names a
point. -/
structure Sound (o : Outline) extends Sized o : Prop where
  lines_lt : ∀ l ∈ o.lines, l.beg < o.numPoints ∧ l.stop < o.numPoints
  curves_lt : ∀ c ∈ o.curves, c.beg < o.numPoints ∧ c.stop < o.numPoints ∧ c.ctrl < o.numPoints

theorem initOutline_sound : Sound initOutline :=
  ⟨⟨by decide, by decide, by decide⟩, by simp [initOutline], by simp [initOutline]⟩

/-- `o'` is `o` with a chain of segments from `a` to `b` added, and possibly new points. -/
structure Adds (o o' : Outline) (a b : Nat) : Prop where
  sound : Sound o'
  num_le : o.numPoints ≤ o'.numPoints
  flow_eq : ∀ p, o'.flow p = o.flow p + edge a b p

theorem Adds.trans {a b c : Nat} (h₁ : Adds o₁ o₂ a b) (h₂ : Adds o₂ o₃ b c) : Adds o₁ o₃ a c :=
  ⟨h₂.sound, h₁.num_le.trans h₂.num_le, fun p => by rw [h₂.flow_eq, h₁.flow_eq, ← edge_trans a b c p]; omega⟩

/-- `o'` is `o` with closed chains added only: every point's flow is unchanged. -/
structure Extends (o o' : Outline) : Prop where
  sound : Sound o'
  num_le : o.numPoints ≤ o'.numPoints
  flow_eq : ∀ p, o'.flow p = o.flow p

theorem Extends.refl (h : Sound o) : Extends o o := ⟨h, le_refl _, fun _ => rfl⟩

theorem Extends.trans (h₁ : Extends o₁ o₂) (h₂ : Extends o₂ o₃) : Extends o₁ o₃ :=
  ⟨h₂.sound, h₁.num_le.trans h₂.num_le, fun p => (h₂.flow_eq p).trans (h₁.flow_eq p)⟩

theorem Adds.closes {a : Nat} (h : Adds o o' a a) : Extends o o' :=
  ⟨h.sound, h.num_le, fun p => by rw [h.flow_eq, edge_self, Int.add_zero]⟩

theorem growCap_some {cap cap' : Nat} (h : growCap cap = some cap') : 0 < cap ∧ cap ≤ 32767 ∧ cap' = 2 * cap := by
  unfold growCap at h
  split_ifs at h with hc
  obtain rfl := Option.some.inj h
  omega

theorem addPoint_some (h : addPoint o = some o') :
    ∃ cap, o' = { o with capPoints := cap, numPoints := o.numPoints + 1 } ∧
      (o.numPoints < o.capPoints ∧ cap = o.capPoints ∨
        o.capPoints ≤ o.numPoints ∧ 0 < o.capPoints ∧ o.capPoints ≤ 32767 ∧ cap = 2 * o.capPoints) := by
  obtain ⟨o₁, h₁, rfl⟩ := Option.map_eq_some'.mp h
  split_ifs at h₁
  · obtain ⟨cap, hcap, rfl⟩ := Option.map_eq_some'.mp h₁
    exact ⟨cap, rfl, .inr (by have := growCap_some hcap; omega)⟩
  · obtain rfl := Option.some.inj h₁
    exact ⟨o.capPoints, rfl, .inl ⟨by omega, rfl⟩⟩

theorem addLine_some {l : Line} (h : addLine o l = some o') :
    ∃ cap, o' = { o with capLines := cap, lines := o.lines ++ [l] } := by
  obtain ⟨o₁, h₁, rfl⟩ := Option.map_eq_some'.mp h
  split_ifs at h₁
  · obtain ⟨cap, -, rfl⟩ := Option.map_eq_some'.mp h₁
    exact ⟨cap, rfl⟩
  · exact ⟨o.capLines, by rw [Option.some.inj h₁]⟩

theorem addCurve_some {c : Curve} (h : addCurve o c = some o') :
    ∃ cap, o' = { o with capCurves := cap, curves := o.curves ++ [c] } := by
  obtain ⟨o₁, h₁, rfl⟩ := Option.map_eq_some'.mp h
  split_ifs at h₁
  · obtain ⟨cap, -, rfl⟩ := Option.map_eq_some'.mp h₁
    exact ⟨cap, rfl⟩
  · exact ⟨o.capCurves, by rw [Option.some.inj h₁]⟩

theorem Sized.addPoint (hz : Sized o) (h : addPoint o = some o') :
    Sized o' ∧ o'.numPoints = o.numPoints + 1 ∧ o'.lines = o.lines ∧ o'.curves = o.curves := by
  obtain ⟨cap, rfl, hcap⟩ := addPoint_some h
  have := hz.num_le_cap
  have := hz.cap_le
  refine ⟨⟨?_, ?_, ?_⟩, rfl, rfl, rfl⟩ <;> dsimp only <;> omega

theorem Sound.addPoint (hs : Sound o) (h : addPoint o = some o') :
    Sound o' ∧ o'.numPoints = o.numPoints + 1 ∧ o'.lines = o.lines ∧ o'.curves = o.curves := by
  obtain ⟨hz, hn, hl, hc⟩ := hs.toSized.addPoint h
  refine ⟨⟨hz, fun l hl' => ?_, fun c hc' => ?_⟩, hn, hl, hc⟩
  · have := hs.lines_lt l (hl ▸ hl'); omega
  · have := hs.curves_lt c (hc ▸ hc'); omega

theorem addPoint_adds (hs : Sound o) (h : addPoint o = some o') (a : Nat) :
    Adds o o' a a ∧ o'.numPoints = o.numPoints + 1 := by
  obtain ⟨hs', hn, hl, hc⟩ := hs.addPoint h
  exact ⟨⟨hs', by omega, fun p => by simp [Outline.flow, hl, hc]⟩, hn⟩

theorem addLine_adds {a b : Nat} (hs : Sound o) (h : addLine o ⟨a, b⟩ = some o') (ha : a < o.numPoints)
    (hb : b < o.numPoints) : Adds o o' a b := by
  obtain ⟨cap, rfl⟩ := addLine_some h
  refine ⟨⟨hs.toSized.of_points rfl rfl, fun l hl => ?_, hs.curves_lt⟩, le_refl _, fun p => ?_⟩
  · rcases List.mem_append.mp hl with hl | hl
    · exact hs.lines_lt l hl
    · obtain rfl := List.mem_singleton.mp hl
      exact ⟨ha, hb⟩
  · simp only [Outline.flow, lineFlow_append, lineFlow_cons, lineFlow_nil]
    omega

theorem addCurve_adds {a b c : Nat} (hs : Sound o) (h : addCurve o ⟨a, b, c⟩ = some o') (ha : a < o.numPoints)
    (hb : b < o.numPoints) (hc : c < o.numPoints) : Adds o o' a b := by
  obtain ⟨cap, rfl⟩ := addCurve_some h
  refine ⟨⟨hs.toSized.of_points rfl rfl, hs.lines_lt, fun c' hc' => ?_⟩, le_refl _, fun p => ?_⟩
  · rcases List.mem_append.mp hc' with hc' | hc'
    · exact hs.curves_lt c' hc'
    · obtain rfl := List.mem_singleton.mp hc'
      exact ⟨ha, hb, hc⟩
  · simp only [Outline.flow, curveFlow_append, curveFlow_cons, curveFlow_nil]
    omega

/-- The loop of `decode_contour` adds a chain from `beg` to `looseEnd` over points it may add
itself, provided the glyph's points it walks are already in the outline. -/
theorem contourLoop_adds (looseEnd basePoint : Nat) :
    ∀ fs i beg ctrl gotCtrl o o', contourLoop looseEnd basePoint fs i beg ctrl gotCtrl o = some o' → Sound o →
      basePoint + i + fs.length ≤ o.numPoints → looseEnd < o.numPoints → beg < o.numPoints →
      (gotCtrl = true → ctrl < o.numPoints) → Adds o o' beg looseEnd := by
  intro fs
  induction fs with
  | nil =>
    intro i beg ctrl gotCtrl o o' h hs _ hl hb hc
    cases gotCtrl
    · exact addLine_adds hs h hb hl
    · exact addCurve_adds hs h hb hl (hc rfl)
  | cons f fs ih =>
    intro i beg ctrl gotCtrl o o' h hs hfit hl hb hc
    simp only [contourLoop, List.length_cons, Option.bind_eq_bind] at h hfit
    by_cases hon : onCurve f
    · -- an on-curve point closes the segment from `beg`, as a line or as a curve
      rw [if_pos hon] at h
      have hrest : ∀ o₁, Adds o o₁ beg (basePoint + i) →
          contourLoop looseEnd basePoint fs (i + 1) (basePoint + i) ctrl false o₁ = some o' → Adds o o' beg looseEnd :=
        fun o₁ hseg h => by
          have := hseg.num_le
          exact hseg.trans (ih _ _ _ _ _ _ h hseg.sound (by omega) (by omega) (by omega) (by simp))
      cases gotCtrl
      · rw [if_neg Bool.false_ne_true] at h
        obtain ⟨o₁, h₁, h⟩ := Option.bind_eq_some.mp h
        exact hrest o₁ (addLine_adds hs h₁ hb (by omega)) h
      · rw [if_pos rfl] at h
        obtain ⟨o₁, h₁, h⟩ := Option.bind_eq_some.mp h
        exact hrest o₁ (addCurve_adds hs h₁ hb (by omega) (hc rfl)) h
    rw [if_neg hon] at h
    cases gotCtrl
    · rw [if_neg Bool.false_ne_true] at h
      exact ih _ _ _ _ _ _ h hs (by omega) hl hb fun _ => by omega
    · -- a second off-curve point: the curve ends at their midpoint
      rw [if_pos rfl] at h
      obtain ⟨o₁, h₁, h⟩ := Option.bind_eq_some.mp h
      obtain ⟨hp, hn⟩ := addPoint_adds hs h₁ beg
      obtain ⟨o₂, h₂, h⟩ := Option.bind_eq_some.mp h
      have hcur := addCurve_adds hp.sound h₂ (by omega) (by omega) (by have := hc rfl; omega)
      have := hcur.num_le
      exact (hp.trans hcur).trans (ih _ _ _ _ _ _ h hcur.sound (by omega) (by omega) (by omega) fun _ => by omega)

theorem decodeContour_extends {flags : List Nat} {basePoint count : Nat} (h : decodeContour flags basePoint count o = some o')
    (hs : Sound o) (hfit : 2 ≤ count → basePoint + count ≤ o.numPoints) : Extends o o' := by
  unfold decodeContour at h
  split_ifs at h with h2 hfirst hlast
  · obtain rfl := Option.some.inj h
    exact .refl hs
  · exact (contourLoop_adds _ _ _ _ _ _ _ _ _ h hs (by simp; omega) (by omega) (by omega) (by simp)).closes
  · exact (contourLoop_adds _ _ _ _ _ _ _ _ _ h hs (by simp; omega) (by omega) (by omega) (by simp)).closes
  · obtain ⟨o₁, h₁, h⟩ := Option.bind_eq_some.mp h
    obtain ⟨hp, hn⟩ := addPoint_adds hs h₁ 0
    exact hp.closes.trans (contourLoop_adds _ _ _ _ _ _ _ _ _ h hp.sound (by simp; omega) (by omega) (by omega)
      (by simp)).closes

theorem decodeContours_extends (flags : List Nat) (basePoint : Nat) :
    ∀ es beg o o', decodeContours flags basePoint es beg o = some o' → Sound o →
      (∀ e ∈ es, basePoint + e + 1 ≤ o.numPoints) → Extends o o' := by
  intro es
  induction es with
  | nil =>
    intro _ o o' h hs _
    obtain rfl := Option.some.inj h
    exact .refl hs
  | cons e es ih =>
    intro beg o o' h hs hes
    obtain ⟨o₁, h₁, h⟩ := Option.bind_eq_some.mp h
    have he := hes e (List.mem_cons_self e es)
    have hc := decodeContour_extends h₁ hs fun _ => by omega
    exact hc.trans (ih _ _ _ h hc.sound fun e' he' => (hes e' (List.mem_cons_of_mem e he')).trans hc.num_le)

theorem Sound.withCap (hs : Sound o) {cap : Nat} (h : o.capPoints ≤ cap) (hcap : cap ≤ 0xFFFF) :
    Sound { o with capPoints := cap } :=
  ⟨⟨by have := hs.cap_pos; dsimp only; omega, by have := hs.num_le_cap; dsimp only; omega, hcap⟩, hs.lines_lt,
    hs.curves_lt⟩

theorem growPointsTo_some {target : Nat} :
    ∀ fuel o o', growPointsTo target fuel o = some o' → Sound o →
      Sound o' ∧ target ≤ o'.capPoints ∧ o' = { o with capPoints := o'.capPoints } := by
  intro fuel
  induction fuel with
  | zero =>
    intro o o' h hs
    simp only [growPointsTo] at h
    split_ifs at h with hlt
    obtain rfl := Option.some.inj h
    exact ⟨hs, by omega, rfl⟩
  | succ fuel ih =>
    intro o o' h hs
    simp only [growPointsTo] at h
    split_ifs at h with hlt
    · obtain ⟨o₁, h₁, h⟩ := Option.bind_eq_some.mp h
      obtain ⟨cap, hcap, rfl⟩ := Option.map_eq_some'.mp h₁
      have := growCap_some hcap
      obtain ⟨hs', ht, heq⟩ := ih _ _ h (hs.withCap (by omega) (by omega))
      exact ⟨hs', ht, heq⟩
    · obtain rfl := Option.some.inj h
      exact ⟨hs, by omega, rfl⟩

theorem growPointsTo_of_full {target : Nat} (h : 32767 < o.capPoints) :
    ∀ fuel, growPointsTo target fuel o = if o.capPoints < target then none else some o
  | 0 => rfl
  | _ + 1 => by
    have hg : growPoints o = none := by simp [growPoints, growCap, show ¬ o.capPoints ≤ 32767 by omega]
    simp only [growPointsTo, hg, Option.none_bind]

theorem growPointsTo_congr {target : Nat} :
    ∀ fuel₁ fuel₂ o, 32767 < o.capPoints * 2 ^ fuel₁ → 32767 < o.capPoints * 2 ^ fuel₂ →
      growPointsTo target fuel₁ o = growPointsTo target fuel₂ o := by
  intro fuel₁
  induction fuel₁ with
  | zero =>
    intro fuel₂ o h₁ _
    rw [growPointsTo_of_full (by simpa using h₁), growPointsTo_of_full (by simpa using h₁)]
  | succ fuel₁ ih =>
    intro fuel₂ o h₁ h₂
    cases fuel₂ with
    | zero => rw [growPointsTo_of_full (by simpa using h₂), growPointsTo_of_full (by simpa using h₂)]
    | succ fuel₂ =>
      simp only [growPointsTo]
      split_ifs
      · rcases hg : growPoints o with _ | o₁
        · rfl
        · obtain ⟨cap, hcap, rfl⟩ := Option.map_eq_some'.mp hg
          obtain ⟨-, -, rfl⟩ := growCap_some hcap
          have hdouble (f : Nat) : o.capPoints * 2 ^ (f + 1) = 2 * o.capPoints * 2 ^ f := by
            rw [Nat.pow_succ, Nat.mul_comm (2 ^ f) 2, ← Nat.mul_assoc, Nat.mul_comm o.capPoints 2]
          exact ih fuel₂ _ (hdouble fuel₁ ▸ h₁) (hdouble fuel₂ ▸ h₂)
      · rfl

/-- The 16 doublings the model allows `grow_points` are as many as the code can make: any more
fuel gives the same result. -/
theorem growPointsTo_fuel {target fuel : Nat} (hcap : 0 < o.capPoints) (h : 16 ≤ fuel) :
    growPointsTo target fuel o = growPointsTo target 16 o :=
  growPointsTo_congr _ _ _ (lt_of_lt_of_le (by omega) (Nat.mul_le_mul_left _ (Nat.pow_le_pow_right (by omega) h)))
    (by omega)

theorem mapM_ok {α β ε : Type} {f : α → Except ε β} {g : α → β} :
    ∀ {l : List α}, (∀ a ∈ l, f a = .ok (g a)) → l.mapM f = .ok (l.map g)
  | [], _ => rfl
  | a :: l, h => by
    rw [List.mapM_cons, h a (List.mem_cons_self a l), mapM_ok fun b hb => h b (List.mem_cons_of_mem a hb)]
    rfl

theorem le_last_of_rising {E : Nat → Nat} {n : Nat} (h : ∀ i, i + 1 < n → E i + 1 ≤ E (i + 1)) :
    ∀ i < n, E i ≤ E (n - 1) := by
  intro i hi
  obtain ⟨k, hk⟩ : ∃ k, n - 1 = i + k := ⟨n - 1 - i, by omega⟩
  induction k generalizing i with
  | zero => rw [hk, Nat.add_zero]
  | succ k ih =>
    have := h i (by omega)
    exact le_trans (by omega) (ih (i + 1) (by omega) (by omega))

theorem endPts_le_last {E : Nat → Nat} {n : Nat}
    (h : ¬ ((List.range (n - 1)).any fun i => decide (((List.range n).map E).getD (i + 1) 0 < ((List.range n).map E).getD i 0 + 1)) = true) :
    ∀ e ∈ (List.range n).map E, e ≤ E (n - 1) := by
  simp only [List.any_eq_true, List.mem_range, decide_eq_true_eq, not_exists, not_and, not_lt,
    List.getD_eq_getElem?_getD] at h
  have hrise : ∀ i, i + 1 < n → E i + 1 ≤ E (i + 1) := fun i hi => by
    have := h i (by omega)
    rwa [List.getElem?_map, List.getElem?_map, List.getElem?_range hi, List.getElem?_range (by omega)] at this
  simp only [List.mem_map, List.mem_range]
  rintro e ⟨i, hi, rfl⟩
  exact le_last_of_rising hrise i hi

variable {font : SFTFont}

theorem simpleOutline_some {offset n : Nat} (h : simpleOutline font offset n o = .ok (some o')) :
    ∃ numPts flags o₁ endPts, growPointsTo (o.numPoints + numPts) 16 o = some o₁ ∧ (∀ e ∈ endPts, e + 1 ≤ numPts) ∧
      decodeContours flags o.numPoints endPts 0 { o₁ with numPoints := o₁.numPoints + numPts } = some o' := by
  unfold simpleOutline at h
  simp only [bind, Except.bind, pure, Except.pure] at h
  split at h
  · cases h
  rename_i hsafe
  have hfit : offset + (n * 2 + 2) ≤ font.size := isSafeOffset_iff.mp (by simpa using hsafe)
  rw [getu16_eq (by omega), mapM_ok (g := fun i => u16At font (offset + 2 * i))
    fun i hi => getu16_eq (by simp only [List.mem_range] at hi; omega), getu16_eq (by omega)] at h
  simp only at h
  split at h
  · cases h
  split at h
  · cases h
  split at h
  rotate_left
  · cases h
  rename_i o₁ hgrow
  split at h
  · cases h
  rename_i hrise
  split at h
  · cases h
  split at h
  rotate_left
  · cases h
  rename_i flags _ _
  split at h
  · cases h
  refine ⟨_, flags, o₁, _, hgrow, fun e he => ?_, Except.ok.inj h⟩
  have := endPts_le_last hrise e he
  rw [Nat.mul_comm 2 (n - 1)] at this
  omega

theorem Sound.addPoints (hs : Sound o) {k : Nat} (h : o.numPoints + k ≤ o.capPoints) :
    Extends o { o with numPoints := o.numPoints + k } := by
  refine ⟨⟨⟨hs.cap_pos, h, hs.cap_le⟩, fun l hl => ?_, fun c hc => ?_⟩, Nat.le_add_right _ _, fun _ => rfl⟩
  · have := hs.lines_lt l hl; dsimp only; omega
  · have := hs.curves_lt c hc; dsimp only; omega

theorem simpleOutline_extends {offset n : Nat} (h : simpleOutline font offset n o = .ok (some o')) (hs : Sound o) :
    Extends o o' := by
  obtain ⟨numPts, flags, o₁, endPts, hgrow, hend, h⟩ := simpleOutline_some h
  obtain ⟨hs₁, hcap, heq⟩ := growPointsTo_some _ _ _ hgrow hs
  have hn : o₁.numPoints = o.numPoints := by rw [heq]
  have hpts := hs₁.addPoints (k := numPts) (by omega)
  have hgrown : Extends o o₁ := ⟨hs₁, by omega, fun p => by rw [heq]; rfl⟩
  refine (hgrown.trans hpts).trans (decodeContours_extends _ _ _ _ _ _ h hpts.sound fun e he => ?_)
  have := hend e he
  dsimp only
  omega

theorem skipField_some {offset width off : Nat} (h : skipField font offset width = some off) : off = offset + width := by
  unfold skipField at h
  split_ifs at h
  exact (Option.some.inj h).symm

theorem componentRecord_advance {offset flags glyph off : Nat}
    (h : componentRecord font offset = .ok (some (flags, glyph, off))) : offset + 4 ≤ font.size ∧ offset + 4 ≤ off := by
  unfold componentRecord at h
  simp only [bind, Except.bind, pure, Except.pure] at h
  split at h
  · cases h
  rename_i hsafe
  have hfit : offset + 4 ≤ font.size := isSafeOffset_iff.mp (by simpa using hsafe)
  refine ⟨hfit, ?_⟩
  split at h
  · cases h
  split at h
  · cases h
  split at h
  · cases h
  split at h
  rotate_left
  · cases h
  rename_i off₁ hoff₁
  have h₁ := skipField_some hoff₁
  split at h
  rotate_left
  · cases h
  rename_i off₂ hoff₂
  cases h
  -- the scale takes two, four, eight or no bytes
  split at hoff₂
  · rw [skipField_some hoff₂]; omega
  split at hoff₂
  · rw [skipField_some hoff₂]; omega
  split at hoff₂
  · rw [skipField_some hoff₂]; omega
  · cases hoff₂; omega

theorem componentRecord_of_lt {offset : Nat} (h : font.size < offset + 4) : componentRecord font offset = .ok none := by
  have hu : isSafeOffset font offset 4 = false := by
    rw [isSafeOffset_eq, decide_eq_false_iff_not]
    omega
  simp only [componentRecord, hu]
  rfl

theorem compoundOutline_of_lt {decode : Nat → Outline → Read (Option Outline)} {offset : Nat} (h : font.size < offset + 4) :
    ∀ fuel, compoundOutline font decode fuel offset o = .ok none
  | 0 => rfl
  | _ + 1 => by simp only [compoundOutline, componentRecord_of_lt h]; rfl

theorem compoundOutline_congr {decode : Nat → Outline → Read (Option Outline)} :
    ∀ fuel₁ fuel₂ offset o, font.size < offset + 4 * fuel₁ → font.size < offset + 4 * fuel₂ →
      compoundOutline font decode fuel₁ offset o = compoundOutline font decode fuel₂ offset o := by
  intro fuel₁
  induction fuel₁ with
  | zero =>
    intro fuel₂ offset o h₁ _
    rw [compoundOutline_of_lt (by omega), compoundOutline_of_lt (by omega)]
  | succ fuel₁ ih =>
    intro fuel₂ offset o h₁ h₂
    by_cases hlt : font.size < offset + 4
    · rw [compoundOutline_of_lt hlt, compoundOutline_of_lt hlt]
    cases fuel₂ with
    | zero => omega
    | succ fuel₂ =>
      simp only [compoundOutline, bind, Except.bind]
      rcases hr : componentRecord font offset with e | _ | ⟨flags, glyph, off⟩
      · rfl
      · rfl
      · have hadv := componentRecord_advance hr
        have key : ∀ o₁, compoundOutline font decode fuel₁ off o₁ = compoundOutline font decode fuel₂ off o₁ :=
          fun o₁ => ih _ _ _ (by omega) (by omega)
        simp only [key]

/-- The fuel the model gives the loop over a compound glyph's components is never what stops it:
every component record takes at least 4 bytes, so any fuel past the font's end gives the same
result. -/
theorem compoundOutline_fuel {decode : Nat → Outline → Read (Option Outline)} {fuel offset : Nat}
    (h : font.size < offset + 4 * fuel) :
    compoundOutline font decode fuel offset o = compoundOutline font decode (font.size + 1) offset o :=
  compoundOutline_congr _ _ _ _ h (by omega)

theorem compoundOutline_extends {decode : Nat → Outline → Read (Option Outline)}
    (hdec : ∀ off o o', decode off o = .ok (some o') → Sound o → Extends o o') :
    ∀ fuel offset o o', compoundOutline font decode fuel offset o = .ok (some o') → Sound o → Extends o o' := by
  intro fuel
  induction fuel with
  | zero => intro _ _ _ h; cases h
  | succ fuel ih =>
    intro offset o o' h hs
    simp only [compoundOutline, bind, Except.bind, pure, Except.pure] at h
    split at h
    · cases h
    split at h
    rotate_left
    · cases h
    split at h
    · cases h
    split at h
    rotate_left
    · cases h
    split at h
    · cases h
    rename_i r hr
    split at h
    rotate_left
    · cases h
    rename_i o₁
    have h₁ : Extends o o₁ := by
      split at hr
      · exact hdec _ _ _ hr hs
      · cases hr
        exact .refl hs
    split at h
    · exact h₁.trans (ih _ _ _ h h₁.sound)
    · cases h
      exact h₁

theorem decodeOutline_extends_of {d : Nat}
    (hinner : ∀ d', d = d' + 1 → ∀ offset o o', decodeOutline font d' offset o = .ok (some o') → Sound o → Extends o o')
    {offset : Nat} (h : decodeOutline font d offset o = .ok (some o')) (hs : Sound o) : Extends o o' := by
  unfold decodeOutline at h
  simp only [bind, Except.bind, pure, Except.pure] at h
  split at h
  · cases h
  split at h
  · cases h
  split_ifs at h
  · exact simpleOutline_extends h hs
  · cases d with
    | zero => cases h
    | succ d => exact compoundOutline_extends (hinner d rfl) _ _ _ _ h hs
  · cases h
    exact .refl hs

/-- `decode_outline` adds closed contours, at every recursion depth. -/
theorem decodeOutline_extends :
    ∀ d offset o o', decodeOutline font d offset o = .ok (some o') → Sound o → Extends o o' := by
  intro d
  induction d with
  | zero => exact fun _ _ _ h hs => decodeOutline_extends_of (fun _ h => absurd h (Nat.succ_ne_zero _).symm) h hs
  | succ d ih => exact fun _ _ _ h hs => decodeOutline_extends_of (fun _ hd => Nat.succ.inj hd ▸ ih) h hs

end LispBM.Schrift
