import PriceBoard.Proofs.Screen.Pulses
import PriceBoard.Screen.Basic

/-!
# Timers in flight

A screen has a timer in flight for the rows that pulse. Showing a rate and taking
a decay step keep this, with all that pulses and timers have to do with each other
(`Screen.Sound`).
-/

namespace PriceBoard

open Time (Nanos)
open Function (update update_apply)

/-! ## Timers in flight -/

theorem lookup_cons_pair (key k : String) (g : Nat) (l : List (String × Nat)) :
    ((key, g) :: l).lookup k = if k = key then some g else l.lookup k := by
  by_cases hk : k = key
  · simp [hk]
  · rw [if_neg hk, List.lookup_cons, beq_false_of_ne hk]

theorem lookup_filter_ne (key k : String) : ∀ l : List (String × Nat),
    (l.filter (·.1 != key)).lookup k = if k = key then none else l.lookup k
  | [] => by simp
  | (j, g) :: l => by
    have ih := lookup_filter_ne key k l
    by_cases hj : j = key
    · rw [List.filter_cons_of_neg (by simpa using hj), ih, lookup_cons_pair, hj]
      split <;> rfl
    · rw [List.filter_cons_of_pos (by simpa using hj), lookup_cons_pair, lookup_cons_pair, ih]
      by_cases hk : k = j
      · rw [if_pos hk, if_pos hk, if_neg fun e => hj (hk.symm.trans e)]
      · rw [if_neg hk, if_neg hk]

namespace Screen

/-- What cancelling the timer in flight for an instrument does to a timer. -/
def cancelIf (s : Screen) (key : String) (t : Timer) : Timer :=
  if t.key = key ∧ s.generationOf? key = some t.generation then t.cancel else t

theorem timers_cancelTimer (s : Screen) (key : String) :
    (s.cancelTimer key).timers = s.timers.map (s.cancelIf key) := by
  unfold cancelTimer cancelIf
  cases s.generationOf? key with
  | none => simp
  | some g => simp [eq_comm]

theorem generationOf?_cancelTimer (s : Screen) (key k : String) :
    (s.cancelTimer key).generationOf? k = if k = key then none else s.generationOf? k := by
  cases hg : s.generationOf? key with
  | none =>
    simp only [cancelTimer, hg]
    split
    · rename_i hk
      exact hk ▸ hg
    · rfl
  | some g =>
    simp only [cancelTimer, hg]
    exact lookup_filter_ne key k s.inFlight

theorem board_cancelTimer (s : Screen) (key : String) : (s.cancelTimer key).board = s.board := by
  unfold cancelTimer
  split <;> rfl

theorem generationOf?_startTimer (s : Screen) (key : String) (g : Nat) (now : Nanos) (k : String) :
    (s.startTimer key g now).generationOf? k = if k = key then some g else s.generationOf? k :=
  lookup_cons_pair key k g s.inFlight

end Screen

/-! ## Boards -/

namespace Board

theorem get?_apply_update (b : Board Float) (r : Rate Float) :
    (b.apply r).board.get? = update b.get? r.key (some (b.rowAfter r)) := by
  funext k
  rw [get?_apply, update_apply]

theorem get?_advance_update {b : Board Float} {key : String} {row : Row Float} (h : b.get? key = some row)
    (g n : Nat) : (b.advance key g n).board.get? = update b.get? key (some (row.advance g n).row) := by
  funext k
  rw [(advance_of_get? h g n).2.2, update_apply]

end Board

/-! ## Screens -/

namespace Screen

/-- What holds of a screen with these messages to handle. -/
structure Sound (s : Screen) (queue : List Message) : Prop where
  timed : ∀ k, s.generationOf? k = (s.board.get? k).bind Row.pulse?
  pulses : Pulses s.board.curve s.board.get? s.timers queue

variable {s : Screen} {queue rest : List Message}

theorem Sound.drop {m : Message} (h : s.Sound (m :: rest)) (hm : ∀ key g n, m ≠ .decayStep key g n) :
    s.Sound rest :=
  ⟨h.timed, h.pulses.drop fun k g e => absurd e (hm k g _)⟩

theorem Sound.replace {b : Board Float} {key : String} {row' : Row Float} (h : s.Sound queue)
    (hcurve : b.curve = s.board.curve) (hrow : b.get? = update s.board.get? key (some row'))
    (hc : row'.curve = s.board.curve)
    (later : ∀ row, s.board.get? key = some row → row.generation ≤ row'.generation)
    (he : ∀ e, row'.decay = some e → e.generation = row'.generation ∧ e.step < s.board.curve.steps)
    (same : row'.pulse? = (s.board.get? key).bind Row.pulse?) (changes : List Change) :
    (s.change b changes).Sound queue where
  timed k := by
    refine (h.timed k).trans ?_
    simp only [change, hrow]
    rw [update_bind_pulse?]
    split
    · rename_i hk
      rw [hk, same]
    · rfl
  pulses := by
    simp only [change, hcurve, hrow]
    exact h.pulses.replace hc later he same

theorem Sound.decay {key : String} {g n : Nat} (h : s.Sound (.decayStep key g n :: rest)) :
    (s.decay key g n).Sound rest := by
  obtain ⟨row, hr, -⟩ := h.pulses.posted key g n List.mem_cons_self
  obtain ⟨hprogress, hcurve, -⟩ := Board.advance_of_get? hr g n
  have hrow := Board.get?_advance_update hr g n
  have hc := h.pulses.curve key row hr
  have hother : ∀ k g', Message.decayStep key g n = .decayStep k g' s.board.curve.steps →
      key = k ∧ g = g' ∧ n = s.board.curve.steps := fun k g' hm => by simpa using hm
  rcases row.advance_cases g n with ⟨he, hstale⟩ | ⟨e, hd, hg, hlt, ⟨hn, he⟩ | ⟨hn, he⟩⟩
  · have hs : s.decay key g n = s.change (s.board.advance key g n).board (s.board.advance key g n).changes := by
      simp [Screen.decay, hprogress, he]
    have hsame : (s.board.advance key g n).board.get? = s.board.get? := by
      rw [hrow, he, ← hr, Function.update_eq_self]
    rw [hs]
    refine ⟨fun k => (h.timed k).trans (by rw [← hsame]; rfl), ?_⟩
    simp only [change, hcurve, hsame]
    refine h.pulses.drop fun k g' hm hg' => ?_
    -- a stale step is not the end of the pulse under way
    obtain ⟨rfl, rfl, rfl⟩ := hother k g' hm
    rw [hr] at hg'
    obtain ⟨e, hd, hgen⟩ := Option.map_eq_some_iff.mp hg'
    obtain ⟨hcur, hstep⟩ := h.pulses.current key row e hr hd
    exact Nat.not_le_of_lt hstep (hstale e hd (hcur.trans hgen))
  · have hs : s.decay key g n = s.change (s.board.advance key g n).board (s.board.advance key g n).changes := by
      simp [Screen.decay, hprogress, he]
    obtain ⟨hcur, -⟩ := h.pulses.current key row e hr hd
    rw [he] at hrow
    have hsound := h.replace hcurve hrow hc (fun r hk => by rw [hr] at hk; cases hk; exact Nat.le_refl _)
      (fun e' he' => by cases he'; exact ⟨hcur, hc ▸ hn⟩) (by rw [hr]; simp [Row.pulse?, hd, Row.faded])
      (s.board.advance key g n).changes
    rw [hs]
    refine ⟨hsound.timed, hsound.pulses.drop fun k g' hm => ?_⟩
    simp only [change, hcurve] at hm
    obtain ⟨-, -, rfl⟩ := hother k g' hm
    exact absurd hn (hc ▸ Nat.lt_irrefl _)
  · obtain ⟨hcur, -⟩ := h.pulses.current key row e hr hd
    have hgen : s.generationOf? key = some g := by
      rw [h.timed, hr, Option.bind_some, Row.pulse?, hd, ← hg, ← hcur]
      rfl
    have hs : s.decay key g n = { s.change (s.board.advance key g n).board (s.board.advance key g n).changes with
        inFlight := s.inFlight.filter (·.1 != key) } := by
      simp only [Screen.decay, hprogress, he]
      exact if_pos hgen
    rw [he] at hrow
    -- the timer of this pulse has posted this step, its last, and is done
    have dark : ∀ t ∈ s.timers, t.key = key → t.isCancelled = true := fun t ht hk => by
      cases hnc : t.isCancelled with
      | true => rfl
      | false =>
        have hneed := h.pulses.needed t ht hnc
        rw [hk, ← h.timed, hgen] at hneed
        have hahead := h.pulses.ahead t ht n (by rw [hk, ← Option.some.inj hneed]; exact List.mem_cons_self)
        exact absurd (Nat.lt_of_lt_of_le hahead (h.pulses.ticking t ht).2) (Nat.not_lt_of_le (hc ▸ hn))
    have hpulses := h.pulses.quench key { row with decay := none, intensity := 0 } (f := id) hc
      (fun r hk => by rw [hr] at hk; cases hk; exact Nat.le_refl _) rfl (fun t => .inl rfl) (fun t _ => rfl) dark
    rw [List.map_id] at hpulses
    rw [hs]
    refine ⟨fun k => ?_, ?_⟩
    · simp only [change, hrow]
      rw [update_bind_pulse?]
      refine (lookup_filter_ne key k s.inFlight).trans ?_
      split
      · rfl
      · exact h.timed k
    · simp only [change, hcurve, hrow]
      refine hpulses.drop fun k g' hm => ?_
      obtain ⟨rfl, -, -⟩ := hother k g' hm
      simp [Row.pulse?]

theorem cancelIf_eq (s : Screen) (key : String) (t : Timer) :
    s.cancelIf key t = t ∨ s.cancelIf key t = t.cancel := by
  unfold cancelIf
  split
  · exact .inr rfl
  · exact .inl rfl

theorem key_cancelIf (s : Screen) (key : String) (t : Timer) : (s.cancelIf key t).key = t.key := by
  rcases s.cancelIf_eq key t with e | e
  · rw [e]
  · rw [e]
    rfl

theorem generation_cancelIf (s : Screen) (key : String) (t : Timer) :
    (s.cancelIf key t).generation = t.generation := by
  rcases s.cancelIf_eq key t with e | e
  · rw [e]
  · rw [e]
    rfl

theorem Sound.isCancelled_cancelIf {key : String} (h : s.Sound queue) :
    ∀ t ∈ s.timers, t.key = key → (s.cancelIf key t).isCancelled = true := by
  intro t ht hk
  unfold cancelIf
  split
  · rfl
  · rename_i hne
    cases hnc : t.isCancelled with
    | true => rfl
    | false =>
      have hneed := h.pulses.needed t ht hnc
      rw [← h.timed, hk] at hneed
      exact absurd ⟨hk, hneed⟩ hne

section
variable {b : Board Float} {key : String} {row row' : Row Float} {g : Nat}

theorem Sound.start (h : s.Sound queue) (hcurve : b.curve = s.board.curve)
    (hrow : b.get? = update s.board.get? key (some row')) (hr : s.board.get? key = some row)
    (hc : row'.curve = s.board.curve) (hg : g = row.generation + 1) (hgen : row'.generation = g)
    (hd : row'.decay = some ⟨g, 0, 1⟩) (changes : List Change) (now : Nanos) :
    (((s.change b changes).cancelTimer key).startTimer key g now).Sound queue where
  timed k := by
    have hb : (((s.change b changes).cancelTimer key).startTimer key g now).board = b :=
      board_cancelTimer (s.change b changes) key
    rw [hb, hrow, generationOf?_startTimer, generationOf?_cancelTimer, update_bind_pulse?]
    split
    · simp [Row.pulse?, hd, hgen]
    · exact h.timed k
  pulses := by
    have hlater : ∀ r, s.board.get? key = some r → r.generation ≤ row'.generation := fun r hk => by
      rw [hr] at hk
      cases hk
      omega
    have hquench := h.pulses.quench key { row' with decay := none } hc hlater rfl (s.cancelIf_eq key)
      (fun t hne => if_neg fun e => hne e.1) h.isCancelled_cancelIf
    have hsteps : (Timer.ofPulse key g s.board.curve now).next ≤ s.board.curve.steps := by
      simp only [Timer.ofPulse]
      split
      · exact Nat.le_refl _
      · exact s.board.curve.steps_pos
    have hignite := hquench.ignite row' (t := .ofPulse key g s.board.curve now) (Function.update_self ..)
      rfl hc (Nat.le_refl _) hd ⟨hgen.symm, s.board.curve.steps_pos⟩ (hgen ▸ rfl) ⟨rfl, hsteps⟩ rfl
      (fun u hu hk => by
        obtain ⟨t, ht, rfl⟩ := List.mem_map.mp hu
        obtain ⟨r, hkr, hle⟩ := h.pulses.started t ht
        rw [key_cancelIf] at hk
        rw [hk, hr] at hkr
        cases hkr
        rw [generation_cancelIf]
        omega)
      (fun n hn => by
        obtain ⟨r, hk, hle⟩ := h.pulses.posted _ _ n hn
        rw [hr] at hk
        cases hk
        omega)
    rw [Function.update_idem] at hignite
    have hb : ((s.change b changes).cancelTimer key).board = b := board_cancelTimer (s.change b changes) key
    have ht : ((s.change b changes).cancelTimer key).timers = s.timers.map (s.cancelIf key) :=
      timers_cancelTimer (s.change b changes) key
    simp only [startTimer, hb, ht, hcurve, hrow]
    exact hignite

theorem Sound.settle {b' : Board Float} (h : s.Sound queue) (row' : Row Float) (hcurve : b'.curve = s.board.curve)
    (hrow : b'.get? = update s.board.get? key (some row')) (hr : s.board.get? key = some row)
    (hc : row'.curve = s.board.curve) (later : row.generation ≤ row'.generation) (hd : row'.decay = none)
    (changes changes' : List Change) :
    (((s.change b changes).cancelTimer key).change b' changes').Sound queue where
  timed k := by
    simp only [change, hrow]
    rw [update_bind_pulse?]
    refine (generationOf?_cancelTimer (s.change b changes) key k).trans ?_
    split
    · simp [Row.pulse?, hd]
    · exact h.timed k
  pulses := by
    have ht : ((s.change b changes).cancelTimer key).timers = s.timers.map (s.cancelIf key) :=
      timers_cancelTimer (s.change b changes) key
    simp only [change, hcurve, hrow] at ht ⊢
    rw [ht]
    exact h.pulses.quench key row' hc (fun r hk => by rw [hr] at hk; cases hk; exact later) hd (s.cancelIf_eq key)
      (fun t hne => if_neg fun e => hne e.1) h.isCancelled_cancelIf

end

end Screen

end PriceBoard
