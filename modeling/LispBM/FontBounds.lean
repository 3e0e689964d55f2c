import LispBM.Schrift

namespace LispBM.Schrift

variable {font : SFTFont} {α β : Type}

/-- A read that no assertion stops: it returns. -/
def Safe (r : Read α) : Prop := ∃ a, r = .ok a

theorem Safe.pure (a : α) : Safe (pure a : Read α) := ⟨a, rfl⟩

theorem Safe.bind {x : Read α} {f : α → Read β} (hx : Safe x) (hf : ∀ a, Safe (f a)) :
    Safe (x >>= f) := by
  obtain ⟨a, rfl⟩ := hx
  exact hf a

theorem Safe.map {x : Read α} (f : α → β) (hx : Safe x) : Safe (f <$> x) := by
  obtain ⟨a, rfl⟩ := hx
  exact ⟨f a, rfl⟩

/-- A read whose every fault satisfies `P`. -/
def FaultsIn (P : Fault → Prop) (r : Read α) : Prop := ∀ f, r = .error f → P f

theorem Safe.faultsIn {P : Fault → Prop} {x : Read α} (hx : Safe x) : FaultsIn P x := by
  obtain ⟨a, rfl⟩ := hx
  intro f h
  cases h

theorem FaultsIn.bind {P : Fault → Prop} {x : Read α} {f : α → Read β} (hx : FaultsIn P x)
    (hf : ∀ a, FaultsIn P (f a)) : FaultsIn P (x >>= f) := by
  intro e h
  cases x with
  | error e' => cases h; exact hx e rfl
  | ok a => exact hf a e h

theorem FaultsIn.mono {P Q : Fault → Prop} {x : Read α} (hx : FaultsIn P x) (hPQ : ∀ f, P f → Q f) :
    FaultsIn Q x :=
  fun f h => hPQ f (hx f h)

theorem Safe.of_faultsIn {x : Read α} (hx : FaultsIn (fun _ => False) x) : Safe x := by
  cases hx' : x with
  | error f => exact (hx f hx').elim
  | ok a => exact ⟨a, rfl⟩

theorem FaultsIn.bind_ok {P : Fault → Prop} {x : Read α} {f : α → Read β} {a : α} (hx : x = .ok a)
    (hf : FaultsIn P (f a)) : FaultsIn P (x >>= f) := by
  subst hx
  exact hf

theorem isSafeOffset_iff {offset margin : Nat} :
    isSafeOffset font offset margin = true ↔ offset + margin ≤ font.size := by
  simp only [isSafeOffset, Bool.and_eq_true, Bool.not_eq_true', decide_eq_false_iff_not]
  omega

theorem Safe.ite {c : Prop} [Decidable c] {x y : Read α} (hx : c → Safe x) (hy : ¬c → Safe y) :
    Safe (if c then x else y) := by
  split
  · exact hx ‹_›
  · exact hy ‹_›

theorem FaultsIn.ite {P : Fault → Prop} {c : Prop} [Decidable c] {x y : Read α} (hx : c → FaultsIn P x)
    (hy : ¬c → FaultsIn P y) : FaultsIn P (if c then x else y) := by
  split
  · exact hx ‹_›
  · exact hy ‹_›

theorem FaultsIn.guard {P : Fault → Prop} {offset margin : Nat} {a : α} {y : Read α}
    (hy : offset + margin ≤ font.size → FaultsIn P y) :
    FaultsIn P (if (!isSafeOffset font offset margin) = true then pure a else y) :=
  FaultsIn.ite (fun _ => (Safe.pure a).faultsIn) fun h => hy (isSafeOffset_iff.mp (by simpa using h))

theorem Safe.guard {offset margin : Nat} {a : α} {y : Read α} (hy : offset + margin ≤ font.size → Safe y) :
    Safe (if (!isSafeOffset font offset margin) = true then Pure.pure a else y) :=
  Safe.ite (fun _ => Safe.pure a) fun h => hy (isSafeOffset_iff.mp (by simpa using h))

theorem readBytes_safe {offset k : Nat} (h : offset + k ≤ font.size) : Safe (readBytes font offset k) :=
  ⟨_, if_pos h⟩

theorem getu16_safe {offset : Nat} (h : offset + 2 ≤ font.size) : Safe (getu16 font offset) :=
  (readBytes_safe h).map _

theorem geti16_safe {offset : Nat} (h : offset + 2 ≤ font.size) : Safe (geti16 font offset) :=
  (getu16_safe h).bind fun _ => Safe.pure _

theorem getu32_safe {offset : Nat} (h : offset + 4 ≤ font.size) : Safe (getu32 font offset) :=
  (readBytes_safe h).map _

theorem bsearch_safe (key : List Nat) (base size nmemb : Nat)
    (hfit : ∀ idx < nmemb, base + idx * size + key.length ≤ font.size) :
    ∀ fuel l u, u ≤ nmemb → ∃ r, bsearch font key base size fuel l u = .ok r ∧
      ∀ p, r = some p → ∃ idx < nmemb, p = base + idx * size := by
  intro fuel
  induction fuel with
  | zero => intro l u _; exact ⟨none, rfl, by simp⟩
  | succ fuel ih =>
    intro l u hu
    unfold bsearch
    split
    · have hidx : (l + u) / 2 < nmemb := by omega
      obtain ⟨o, ho⟩ : Safe (memcmpAt font key (base + (l + u) / 2 * size)) :=
        (readBytes_safe (hfit _ hidx)).bind fun _ => Safe.pure _
      simp only [ho]
      cases o
      · exact ih l ((l + u) / 2) (by omega)
      · exact ⟨_, rfl, fun p hp => ⟨_, hidx, (Option.some.inj hp).symm⟩⟩
      · exact ih ((l + u) / 2 + 1) u hu
    · exact ⟨none, rfl, by simp⟩

theorem gettable_safe {tag : List Nat} (htag : tag.length = 4) (h : 6 ≤ font.size) :
    Safe (gettable font tag) := by
  unfold gettable
  refine (getu16_safe h).bind fun numTables => Safe.guard fun hfit => ?_
  obtain ⟨r, hr, hp⟩ := @bsearch_safe font tag 12 16 numTables (fun idx hidx => by omega) numTables 0
    numTables le_rfl
  refine (Safe.pure _).bind fun _ => ?_
  rw [hr]
  cases r with
  | none => exact Safe.pure _
  | some m =>
    obtain ⟨idx, hidx, rfl⟩ := hp m rfl
    exact (getu32_safe (by omega)).map _

end LispBM.Schrift
