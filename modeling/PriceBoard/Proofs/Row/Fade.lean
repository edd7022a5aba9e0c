import PriceBoard.Proofs.Highlight.Fade
import PriceBoard.Proofs.Row.Runs

/-!
# A pulse only fades

Between two pulses nothing that happens to a row makes its highlight brighter (`Fades.run`),
whichever steps are taken and in whatever order, and a step that ends the pulse makes it dark
for good (`fades_of_run`).
-/

namespace PriceBoard.Row

open Set (Icc)

variable {π : Type} [Scalar π] {A : Reading π} (hA : A.Lawful) {c : Curve} {row later last : Row π}

/-! ## Intensity -/

/-- The intensity of a row, as the pulse makes it. -/
def levelOf (A : Reading π) (row : Row π) : ℚ :=
  match row.decay with
  | none => 0
  | some e => A.level row.curve 1 e.step

section
include hA

theorem levelOf_unit (row : Row π) : levelOf A row ∈ Icc 0 1 := by
  unfold levelOf
  split
  · exact ⟨le_refl _, zero_le_one⟩
  · exact hA.level_unit ⟨zero_le_one, le_refl _⟩

theorem Lit.is_intensity (h : row.Lit c) (hc : c.steps < 2 ^ 32) : A.Is row.intensity (levelOf A row) := by
  unfold levelOf
  cases hd : row.decay with
  | none =>
    rw [h.dark hd]
    exact hA.is_zero
  | some e =>
    rw [h.height e hd, h.curve]
    unfold heightAt
    dsimp only
    split
    · rename_i hstep
      rw [hstep, hA.level_zero hA.round_one]
      exact hA.is_one
    · exact hA.is_intensityAt hc hA.is_one ⟨zero_le_one, le_refl _⟩ e.step

theorem Lit.alpha_eq (h : row.Lit c) (hc : c.steps < 2 ^ 32) :
    row.colour.alpha = A.alphaAt row.direction.colour.alpha (levelOf A row) := by
  have his := h.is_intensity hA hc
  have hunit := levelOf_unit hA row
  unfold colour
  split
  · rename_i hdark
    rw [hA.le_iff_le his hA.is_zero] at hdark
    rw [le_antisymm hdark hunit.1, hA.alphaAt_zero]
    rfl
  · exact hA.alpha_faded _ row.direction.alpha_le his hunit

theorem Lit.intensity_unit (h : row.Lit c) (hc : c.steps < 2 ^ 32) : 0 ≤ row.intensity ∧ row.intensity ≤ 1 :=
  ⟨(hA.le_iff_le hA.is_zero (h.is_intensity hA hc)).mpr (levelOf_unit hA row).1,
    (hA.le_iff_le (h.is_intensity hA hc) hA.is_one).mpr (levelOf_unit hA row).2⟩

theorem Lit.alpha_le (h : row.Lit c) (hc : c.steps < 2 ^ 32) : row.colour.alpha ≤ row.direction.colour.alpha := by
  rw [h.alpha_eq hA hc]
  exact (hA.alphaAt_mono _ (levelOf_unit hA row).2).trans_eq (hA.alphaAt_one row.direction.alpha_le)

end

/-! ## Fading -/

/-- What has become of a row without a new pulse: it is no brighter, and dark if it was dark. -/
structure Fades (A : Reading π) (row later : Row π) : Prop where
  generation : later.generation = row.generation
  direction : later.direction = row.direction
  level : levelOf A later ≤ levelOf A row
  dark : row.decay = none → later.decay = none

omit [Scalar π] in
theorem Fades.refl (row : Row π) : Fades A row row := ⟨rfl, rfl, le_refl _, id⟩

omit [Scalar π] in
theorem Fades.trans (h : Fades A row later) (h' : Fades A later last) : Fades A row last :=
  ⟨h'.generation.trans h.generation, h'.direction.trans h.direction, h'.level.trans h.level, h'.dark ∘ h.dark⟩

section
variable (hf : Fades A row later) (h : row.Lit c) (h' : later.Lit c) (hc : c.steps < 2 ^ 32)
include hA hf h h' hc

theorem Fades.intensity_le : later.intensity ≤ row.intensity :=
  (hA.le_iff_le (h'.is_intensity hA hc) (h.is_intensity hA hc)).mpr hf.level

theorem Fades.alpha_le : later.colour.alpha ≤ row.colour.alpha := by
  rw [h'.alpha_eq hA hc, h.alpha_eq hA hc, hf.direction]
  exact hA.alphaAt_mono _ hf.level

end

theorem fades_update (r : Rate π) (h : (row.update r).pulse = none) : Fades A row (row.update r).row := by
  rcases row.update_cases r with ⟨_, he⟩ | ⟨_, he⟩
  · rw [he]
    exact ⟨rfl, rfl, le_refl _, id⟩
  · rw [he] at h
    cases h

include hA in
theorem fades_advance (generation step : Nat) : Fades A row (row.advance generation step).row := by
  rcases row.advance_cases generation step with ⟨he, _⟩ | ⟨e, hd, _, hlt, ⟨_, he⟩ | ⟨_, he⟩⟩ <;> rw [he]
  · exact .refl row
  · refine ⟨rfl, rfl, ?_, fun hdark => ?_⟩
    · simp only [levelOf, faded, hd]
      exact hA.level_antitone zero_le_one hlt.le
    · rw [hd] at hdark
      cases hdark
  · exact ⟨rfl, rfl, (levelOf_unit hA row).1, fun _ => rfl⟩

include hA in
theorem fades_perform (o : Op π) (h : ∀ g, (row.perform o).2 ≠ .pulse (some g)) :
    Fades A row (row.perform o).1 := by
  cases o with
  | advance generation step => exact fades_advance hA generation step
  | update r =>
    refine fades_update r ?_
    cases hp : (row.update r).pulse with
    | none => rfl
    | some g => exact absurd (congrArg Answer.pulse hp) (h g)

include hA in
theorem fades_run (os : List (Op π)) (h : ∀ g, .pulse (some g) ∉ (row.run os).2) : Fades A row (row.run os).1 := by
  induction os generalizing row with
  | nil => exact .refl row
  | cons o os ih =>
    have hfirst := fades_perform hA o fun g hg => h g (hg ▸ List.mem_cons_self)
    exact hfirst.trans (ih fun g hg => h g (List.mem_cons_of_mem _ hg))

include hA in
theorem Lit.decay_run (hl : row.Lit c) {step : Nat} (hs : c.steps ≤ step) {os : List (Op π)}
    (hmem : .advance row.generation step ∈ os) (h : ∀ g, .pulse (some g) ∉ (row.run os).2) :
    (row.run os).1.decay = none := by
  induction os generalizing row with
  | nil => cases hmem
  | cons o os ih =>
    have hrest : ∀ g, .pulse (some g) ∉ ((row.perform o).1.run os).2 := fun g hg => h g (List.mem_cons_of_mem _ hg)
    rcases List.mem_cons.mp hmem with rfl | hmem
    · exact (fades_run hA os hrest).dark (hl.dark_advance hs).1
    · have hfirst := fades_perform hA o fun g hg => h g (hg ▸ List.mem_cons_self)
      exact ih (hl.perform o) (hfirst.generation ▸ hmem) hrest

/-- Whatever the rounding, intensities only fall from the first step of a curve to its last, and
so do those of a row, and its alpha, from one pulse to the next. -/
theorem fades_of_run (hA : A.Lawful) (hc : c.steps < 2 ^ 32) :
    (∀ start : π, Scalar.finite start = true → 0 ≤ start → start ≤ 1 → A.round (A.value start) = A.value start →
      (c.intensityAt start 0 == start) = true ∧
      (∀ i, 0 ≤ c.intensityAt start i ∧ c.intensityAt start i ≤ start) ∧
      (∀ i j, i ≤ j → c.intensityAt start j ≤ c.intensityAt start i) ∧
      ∀ i, c.steps ≤ i → c.intensityAt start i = 0) ∧
    ∀ (first : Rate π) (os next : List (Op π)),
      let row := ((ofRate first c).run os).1
      let later := (row.run next).1
      (0 ≤ row.intensity ∧ row.intensity ≤ 1) ∧ row.colour.alpha ≤ row.direction.colour.alpha ∧
      ((∀ g, .pulse (some g) ∉ (row.run next).2) →
        later.intensity ≤ row.intensity ∧ later.colour.alpha ≤ row.colour.alpha ∧
        ∀ step, c.steps ≤ step → .advance row.generation step ∈ next →
          later.isDecaying = false ∧ later.intensity = 0) := by
  constructor
  · intro start hfinite hlow hup hround
    have hstart : A.Is start (A.value start) := ⟨hfinite, rfl⟩
    have hunit : A.value start ∈ Icc 0 1 :=
      ⟨(hA.le_iff_le hA.is_zero hstart).mp hlow, (hA.le_iff_le hstart hA.is_one).mp hup⟩
    exact ⟨hA.intensityAt_zero hc hstart hunit hround,
      fun i => ⟨hA.zero_le_intensityAt hc hstart hunit i, hA.intensityAt_le hc hstart hunit hround i⟩,
      fun i j hij => hA.intensityAt_le_intensityAt hc hstart hunit hij, fun i hi => if_pos hi⟩
  · intro first os next row later
    have hrow : row.Lit c := (lit_ofRate first c).run os
    have hlater : later.Lit c := hrow.run next
    refine ⟨hrow.intensity_unit hA hc, hrow.alpha_le hA hc, fun hcalm => ?_⟩
    have hfades := fades_run hA next hcalm
    refine ⟨hfades.intensity_le hA hrow hlater hc, hfades.alpha_le hA hrow hlater hc, fun step hs hmem => ?_⟩
    have hdecay := hrow.decay_run hA hs hmem hcalm
    exact ⟨by rw [isDecaying, hdecay]; rfl, hlater.dark hdecay⟩

/-- Steps of a rise out of order, one of another pulse among them, and its last. -/
theorem fades_of_run_shuffled_steps :
    let rate : Rate Float := .ofQuote "EURUSD" 1.08 1.09 "DESK" default
    let row := ((ofRate rate .standard).run [.update (.ofQuote "EURUSD" 1.10 1.11 "DESK" default)]).1
    let next : List (Op Float) := [.advance 1 30, .advance 2 40, .advance 1 10, .advance 1 50]
    (doubles.Lawful ∧ Curve.standard.steps < 2 ^ 32) ∧
    (doubles.round (doubles.value 1) = doubles.value 1 ∧
      Curve.standard.intensityAt (1 : Float) 30 ≤ Curve.standard.intensityAt 1 10) ∧
    ((∀ g, .pulse (some g) ∉ (row.run next).2) ∧ .advance row.generation 50 ∈ next ∧
      (row.run next).1.intensity ≤ row.intensity ∧ (row.run next).1.isDecaying = false) := by
  intro rate row next
  have hsteps : Curve.standard.steps < 2 ^ 32 := by decide
  obtain ⟨hcurve, hrow⟩ := fades_of_run (π := Float) (c := .standard) doubles_lawful hsteps
  have hone : doubles.round (doubles.value 1) = doubles.value 1 := by
    have h := doubles_lawful.is_one.2
    rw [h]
    exact doubles_lawful.round_one
  have hcalm : ∀ g, .pulse (some g) ∉ (row.run next).2 := by
    intro g hg
    simp [next, run, perform] at hg
  have hmem : .advance row.generation 50 ∈ next := by
    have hgeneration : row.generation = 1 := by decide +kernel
    rw [hgeneration]
    simp [next]
  obtain ⟨-, -, hfall, -⟩ := hcurve 1 (by decide +kernel) (by decide +kernel) (by decide +kernel) hone
  obtain ⟨-, -, hnext⟩ := hrow rate [.update (.ofQuote "EURUSD" 1.10 1.11 "DESK" default)] next
  obtain ⟨hintensity, -, hdark⟩ := hnext hcalm
  exact ⟨⟨doubles_lawful, hsteps⟩, ⟨hone, hfall 10 30 (by decide)⟩, hcalm, hmem, hintensity,
    (hdark 50 (by decide) hmem).1⟩

end PriceBoard.Row
