import PriceBoard.Proofs.Row.Runs

/-!
# Decay steps in any order

Of any steps without an update between them only the farthest of the row's own pulse
counts (`run_steps`). Steps of other pulses are as if they had not been (`run_pick`).
-/

namespace PriceBoard.Row

variable {π : Type} [Scalar π] {c : Curve} {row : Row π} {e : Decay π} {s t : Nat}

/-! ## One step after another -/

theorem advance_of_ne (h : row.Lit c) {generation : Nat} (hg : generation ≠ row.generation) (step : Nat) :
    row.advance generation step = ⟨row, [], .stale⟩ := by
  rcases row.advance_cases generation step with ⟨he, _⟩ | ⟨e, hd, hgen, _⟩
  · exact he
  · exact absurd (hgen.symm.trans (h.current e hd).1) hg

theorem generation_advance (row : Row π) (generation step : Nat) :
    (row.advance generation step).row.generation = row.generation := by
  rcases row.advance_cases generation step with ⟨he, _⟩ | ⟨_, _, _, _, ⟨_, he⟩ | ⟨_, he⟩⟩ <;> rw [he] <;> rfl

theorem advance_idle (hd : row.decay = none) (generation step : Nat) :
    (row.advance generation step).row = row := by
  simp [advance, hd]

theorem advance_decay (hd : row.decay = some e) (step : Nat) : (row.advance e.generation step).row =
    if step ≤ e.step then row else if row.curve.steps ≤ step then row.dark else row.faded e step := by
  by_cases hs : step ≤ e.step
  · simp [advance, hd, hs]
  · by_cases hn : row.curve.steps ≤ step
    · simp [advance, hd, hs, hn, dark]
    · simp [advance, hd, hs, hn, faded]

/-- Two steps of a pulse do what the farther one does. -/
theorem advance_advance (h : row.Lit c) (s t : Nat) :
    ((row.advance row.generation s).row.advance row.generation t).row =
      (row.advance row.generation (max s t)).row := by
  cases hd : row.decay with
  | none => rw [advance_idle hd, advance_idle hd, advance_idle hd]
  | some e =>
    rw [← (h.current e hd).1, advance_decay hd, advance_decay hd]
    by_cases hs : s ≤ e.step
    · rw [if_pos hs, advance_decay hd]
      by_cases ht : t ≤ e.step
      · rw [if_pos ht, if_pos (Nat.max_le.mpr ⟨hs, ht⟩)]
      · rw [Nat.max_eq_right (by omega)]
    · rw [if_neg hs, if_neg (fun hm => hs (Nat.max_le.mp hm).1)]
      by_cases hn : row.curve.steps ≤ s
      · rw [if_pos hn, if_pos (Nat.le_trans hn (Nat.le_max_left s t))]
        exact advance_idle rfl e.generation t
      · have hfaded : (row.faded e s).decay = some { e with step := s } := rfl
        rw [if_neg hn]
        refine (advance_decay hfaded t).trans ?_
        by_cases ht : t ≤ s
        · rw [if_pos ht, Nat.max_eq_left ht, if_neg hn]
        · rw [if_neg ht, Nat.max_eq_right (by omega)]
          rfl

/-! ## Many steps -/

/-- Decay steps, each with the generation that it is meant for. -/
def steps (calls : List (Nat × Nat)) : List (Op π) := calls.map fun call => .advance call.1 call.2

/-- The largest step that is meant for a generation. -/
def farthest (generation : Nat) (calls : List (Nat × Nat)) : Option Nat :=
  ((calls.filter (·.1 == generation)).map (·.2)).max?

/-- The row after a single step of its pulse, if there is one and it has not come so far. -/
def stepTo (row : Row π) : Option Nat → Row π
  | none => row
  | some step => if row.decay.any (·.step < step) then (row.advance row.generation step).row else row

theorem stepTo_some (h : row.Lit c) (step : Nat) :
    row.stepTo (some step) = (row.advance row.generation step).row := by
  unfold stepTo
  cases hd : row.decay with
  | none => simp [advance_idle hd]
  | some e =>
    by_cases hs : e.step < step
    · simp [hs]
    · have hstay := advance_decay hd step
      rw [if_pos (Nat.le_of_not_lt hs), (h.current e hd).1] at hstay
      simp [hs, hstay]

theorem farthest_cons_self (generation step : Nat) (calls : List (Nat × Nat)) :
    farthest generation ((generation, step) :: calls) =
      some ((farthest generation calls).elim step (max step)) := by
  simp [farthest, List.max?_cons]

theorem farthest_cons_of_ne {generation : Nat} {call : Nat × Nat} (h : call.1 ≠ generation)
    (calls : List (Nat × Nat)) : farthest generation (call :: calls) = farthest generation calls := by
  simp [farthest, h]

theorem run_steps (h : row.Lit c) (calls : List (Nat × Nat)) :
    (row.run (steps calls)).1 = row.stepTo (farthest row.generation calls) := by
  induction calls generalizing row with
  | nil => rfl
  | cons call calls ih =>
    have hrest : (row.run (steps (call :: calls))).1 = ((row.advance call.1 call.2).row.run (steps calls)).1 := rfl
    rw [hrest]
    by_cases hg : call.1 = row.generation
    · obtain ⟨generation, step⟩ := call
      obtain rfl : generation = row.generation := hg
      have hnext := h.advance row.generation step
      rw [ih hnext, generation_advance, farthest_cons_self, stepTo_some h]
      cases farthest row.generation calls with
      | none => rfl
      | some t =>
        rw [stepTo_some hnext, generation_advance]
        exact advance_advance h step t
    · rw [advance_of_ne h hg, farthest_cons_of_ne hg]
      exact ih h

theorem farthest_eq_some_iff {generation step : Nat} {calls : List (Nat × Nat)} :
    farthest generation calls = some step ↔
      (generation, step) ∈ calls ∧ ∀ t, (generation, t) ∈ calls → t ≤ step := by
  simp [farthest, List.max?_eq_some_iff]

theorem farthest_perm {calls calls' : List (Nat × Nat)} (h : calls.Perm calls') (generation : Nat) :
    farthest generation calls = farthest generation calls' := by
  apply Option.ext
  intro step
  simp only [farthest_eq_some_iff, h.mem_iff]

/-- A step makes no difference to the farthest if another of its pulse goes as far. -/
theorem farthest_drop {past later : List (Nat × Nat)} {call other : Nat × Nat} (hm : other ∈ past ++ later)
    (hg : other.1 = call.1) (hle : call.2 ≤ other.2) (generation : Nat) :
    farthest generation (past ++ call :: later) = farthest generation (past ++ later) := by
  apply Option.ext
  intro step
  obtain ⟨g, s⟩ := call
  obtain ⟨g', t⟩ := other
  simp only [farthest_eq_some_iff, List.mem_append, List.mem_cons, Prod.mk.injEq] at hm hg hle ⊢
  grind

/-! ## Steps of other pulses -/

/-- What is left of a list of which some members are taken out. -/
def pick {α : Type} : List Bool → List α → List α
  | true :: keep, a :: as => a :: pick keep as
  | false :: keep, _ :: as => pick keep as
  | _, _ => []

/-- Without steps of other pulses a run comes to the same row, the others are answered
the same, and the notices are the same. -/
theorem run_pick (h : row.Lit c) {os : List (Op π)} {keep : List Bool} (hl : keep.length = os.length)
    (hk : ∀ i, keep[i]? = some false → ∃ generation step, os[i]? = some (.advance generation step) ∧
      generation ≠ (row.run (os.take i)).1.generation) :
    row.run (pick keep os) = ((row.run os).1, pick keep (row.run os).2) ∧
    row.told (pick keep os) = row.told os := by
  induction os generalizing row keep with
  | nil =>
    obtain rfl := List.eq_nil_of_length_eq_zero hl
    exact ⟨rfl, rfl⟩
  | cons o os ih =>
    cases keep with
    | nil => cases hl
    | cons b keep =>
      have hnext := ih (h.perform o) (Nat.succ.inj hl) fun i hi => hk (i + 1) hi
      cases b with
      | true =>
        obtain ⟨hrun, htold⟩ := hnext
        refine ⟨?_, congrArg (row.tell o ++ ·) htold⟩
        simp only [pick, run, hrun]
      | false =>
        obtain ⟨generation, step, ho, hg⟩ := hk 0 rfl
        obtain rfl : o = .advance generation step := Option.some.inj ho
        have hstale := advance_of_ne h hg step
        simp only [perform, hstale] at hnext
        simpa [pick, run, told, tell, perform, hstale] using hnext

/-- Of a row that there can be: decay steps without an update between them come to what
a single one comes to, the largest that is meant for the row's pulse, if the pulse has
not come so far. So their order is of no account, and a step may go if another of its
pulse goes as far. And from any run steps of other pulses than the present one may be
taken out: the row, what is left of the answers and the notices are the same. -/
theorem steps_of_run (first : Rate π) (c : Curve) (os : List (Op π)) :
    let start := ofRate first c
    let row := (start.run os).1
    (∀ calls, (row.run (steps calls)).1 = row.stepTo (farthest row.generation calls)) ∧
    (∀ calls calls', calls.Perm calls' → (row.run (steps calls)).1 = (row.run (steps calls')).1) ∧
    (∀ past call later, (∃ other ∈ past ++ later, other.1 = call.1 ∧ call.2 ≤ other.2) →
      (row.run (steps (past ++ call :: later))).1 = (row.run (steps (past ++ later))).1) ∧
    ∀ keep : List Bool, keep.length = os.length →
      (∀ i, keep[i]? = some false → ∃ generation step, os[i]? = some (.advance generation step) ∧
        generation ≠ (start.run (os.take i)).1.generation) →
      (start.run (pick keep os)).1 = row ∧ (start.run (pick keep os)).2 = pick keep (start.run os).2 ∧
        start.told (pick keep os) = start.told os := by
  intro start row
  have hlit : row.Lit c := (lit_ofRate first c).run os
  refine ⟨run_steps hlit, ?_, ?_, ?_⟩
  · intro calls calls' hp
    rw [run_steps hlit, run_steps hlit, farthest_perm hp]
  · rintro past call later ⟨other, hm, hg, hle⟩
    rw [run_steps hlit, run_steps hlit, farthest_drop hm hg hle]
  · intro keep hl hk
    obtain ⟨hrun, htold⟩ := run_pick (lit_ofRate first c) hl hk
    obtain ⟨hrow, hanswers⟩ := Prod.ext_iff.mp hrun
    exact ⟨hrow, hanswers, htold⟩

/-- A step of a first pulse that arrives during the second. -/
theorem steps_of_run_late_step :
    let rate : Rate Float := .ofQuote "EURUSD" 1 1 "DESK" default
    let start := ofRate rate .standard
    let os : List (Op Float) := [.update rate, .update rate, .advance 1 1, .advance 2 1]
    let keep := [true, true, false, true]
    (∀ i, keep[i]? = some false → ∃ generation step, os[i]? = some (.advance generation step) ∧
      generation ≠ (start.run (os.take i)).1.generation) ∧
    (start.run (pick keep os)).1 = (start.run os).1 ∧
    (start.run (pick keep os)).2 = pick keep (start.run os).2 ∧
    start.told (pick keep os) = start.told os := by
  intro rate start os keep
  have hlate : ∀ i, keep[i]? = some false → ∃ generation step, os[i]? = some (.advance generation step) ∧
      generation ≠ (start.run (os.take i)).1.generation := by
    intro i hi
    match i with
    | 0 | 1 | 3 => cases hi
    | 2 => exact ⟨1, 1, rfl, by decide +kernel⟩
    | _ + 4 => cases hi
  exact ⟨hlate, (steps_of_run rate .standard os).2.2.2 keep rfl hlate⟩

end PriceBoard.Row
