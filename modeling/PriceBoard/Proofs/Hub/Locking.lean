import Mathlib.Logic.Basic
import PriceBoard.Hub.Locks
import PriceBoard.Proofs.Hub.Sections

/-!
# No deadlock

A thread takes the lock of a move with nothing in its hands, and gives it back
before it does anything else (`Fitting`). Handlers therefore run without the locks
of the table and the registry, and a thread that waits holds at most the
publishing lock, whose holder does not wait for it (`locks_of_follow`).
-/

namespace PriceBoard

theorem Move.hold?_of_isHandlers {mv : Move} (h : mv.isHandlers) : mv.hold? = none := by
  cases mv with
  | act name r a => cases a <;> first | rfl | cases h
  | _ => first | rfl | cases h

theorem Hold.compatible_comm (c d : Hold) : c.compatible d = d.compatible c := by
  simp only [compatible, bne_comm (a := c.lock), Bool.and_comm (c.access == .shared)]

theorem Machine.exists_step?_of_free {m : Machine} {i : Nat} {mv : Move} {rest : List Move}
    (ha : m.agenda i = mv :: rest) (free : mv = .lockPublishing → m.holder = none) : ∃ m', m.step? i = some m' := by
  by_cases hl : mv = .lockPublishing
  · subst hl
    cases ht : m.threads[i]? with
    | none => simp [agenda, ht] at ha
    | some t =>
      have hta : t.agenda = .lockPublishing :: rest := by simpa [agenda, ht] using ha
      simp [step?, ht, hta, free rfl]
  · obtain ⟨m', hs, _⟩ := exists_step?_eq_some ha hl
    exact ⟨m', hs⟩

/-- What a thread has in its hands, given its next move: nothing, the lock of that
move, or the lock of the move before. -/
inductive Hand.Fits (next? : Option Move) : Hand → Prop
  | before : Fits next? ⟨[], []⟩
  | during {mv : Move} {c : Hold} (next : next? = some mv) (needs : mv.hold? = some c) :
      Fits next? ⟨[c], [.make, .give c]⟩
  | after (c : Hold) : Fits next? ⟨[c], [.give c]⟩

namespace LockedMachine

variable {m m' : LockedMachine} {i : Nat} {mv : Move} {c : Hold}

theorem nextMove?_eq (m : LockedMachine) (i : Nat) : m.nextMove? i = (m.machine.agenda i).head? := by
  unfold nextMove? Machine.agenda
  cases m.machine.threads[i]? <;> rfl

structure Fitting (m : LockedMachine) : Prop where
  sectioned : m.machine.Sectioned
  length : m.hands.length = m.machine.threads.length
  fits : ∀ (i : Nat) (hand : Hand), m.hands[i]? = some hand → hand.Fits (m.nextMove? i)
  compatible : ∀ i j, i ≠ j → ∀ c ∈ m.holds i, ∀ d ∈ m.holds j, c.compatible d

theorem fitting_ofPrograms (s : Shared) (programs : List (List Call)) : (ofPrograms s programs).Fitting where
  sectioned := Machine.sectioned_ofPrograms s programs
  length := by simp [ofPrograms, Machine.ofPrograms]
  fits i hand hi := by
    simp only [ofPrograms, List.getElem?_map, Option.map_eq_some_iff] at hi
    obtain ⟨_, _, rfl⟩ := hi
    exact .before
  compatible i j _ c hc := by
    simp only [holds, ofPrograms, List.getElem?_map] at hc
    cases hp : programs[i]? <;> simp [hp] at hc

/-! ## Threads -/

/-- Where a thread is with its next move, or with giving back the lock of the move
before. -/
inductive At (m : LockedMachine) (i : Nat) : Prop
  | idle (next : m.nextMove? i = none) (holds : m.holds i = []) (strokes : m.strokes i = [])
  | ready {mv : Move} (next : m.nextMove? i = some mv) (needs : mv.hold? = none) (holds : m.holds i = [])
      (strokes : m.strokes i = [.make])
  | wanting {mv : Move} {c : Hold} (next : m.nextMove? i = some mv) (needs : mv.hold? = some c)
      (holds : m.holds i = []) (strokes : m.strokes i = [.take c, .make, .give c])
  | holding {mv : Move} {c : Hold} (next : m.nextMove? i = some mv) (needs : mv.hold? = some c)
      (holds : m.holds i = [c]) (strokes : m.strokes i = [.make, .give c])
  | leaving {c : Hold} (holds : m.holds i = [c]) (strokes : m.strokes i = [.give c])

theorem Fitting.at (h : m.Fitting) (i : Nat) : m.At i := by
  cases hi : m.hands[i]? with
  | none =>
    have hn : m.nextMove? i = none := by
      rw [List.getElem?_eq_none_iff, h.length] at hi
      simp [nextMove?, List.getElem?_eq_none hi]
    exact .idle hn (by simp [holds, hi]) (by simp [strokes, hi])
  | some hand =>
    cases h.fits i hand hi with
    | before =>
      have hh : m.holds i = [] := by simp [holds, hi]
      have hs : m.strokes i = (m.nextMove? i).elim [] (·.strokes) := by simp [strokes, hi]
      cases hn : m.nextMove? i with
      | none => exact .idle hn hh (by simp [hs, hn])
      | some mv =>
        cases hc : mv.hold? with
        | none => exact .ready hn hc hh (by simp [hs, hn, Move.strokes, hc])
        | some c => exact .wanting hn hc hh (by simp [hs, hn, Move.strokes, hc])
    | during next needs => exact .holding next needs (by simp [holds, hi]) (by simp [strokes, hi])
    | after c => exact .leaving (c := c) (by simp [holds, hi]) (by simp [strokes, hi])

theorem Fitting.holds_of_takes (h : m.Fitting) (ht : m.takes i c) : m.holds i = [] := by
  unfold takes at ht
  cases h.at i with
  | wanting _ _ holds => exact holds
  | idle _ _ strokes | ready _ _ _ strokes | holding _ _ _ strokes | leaving _ strokes => simp [strokes] at ht

/-- A move is made under its own lock and no other. -/
theorem Fitting.holds_of_makes (h : m.Fitting) (hm : m.makes i mv) : m.holds i = mv.hold?.toList := by
  obtain ⟨head, hn⟩ := hm
  cases h.at i with
  | ready next needs holds | holding next needs holds =>
    rw [Option.some.inj (hn.symm.trans next), needs, holds]
    rfl
  | idle _ _ strokes | wanting _ _ _ strokes | leaving _ strokes => simp [strokes] at head

/-! ## Steps -/

theorem holds_set (m : LockedMachine) (machine : Machine) (i : Nat) (hand : Hand) (j : Nat) {c : Hold}
    (hc : c ∈ holds ⟨machine, m.hands.set i hand⟩ j) : j = i ∧ c ∈ hand.holds ∨ j ≠ i ∧ c ∈ m.holds j := by
  by_cases hj : j = i
  · subst hj
    rw [holds, List.getElem?_set_self'] at hc
    cases hi : m.hands[j]? with
    | none => simp [hi] at hc
    | some _ => exact .inl ⟨rfl, by simpa [hi] using hc⟩
  · rw [holds, List.getElem?_set_ne (Ne.symm hj)] at hc
    exact .inr ⟨hj, hc⟩

theorem compatible_of_admits (admits : m.admits c) {j : Nat} {d : Hold} (hd : d ∈ m.holds j) : c.compatible d := by
  cases hj : m.hands[j]? with
  | none => simp [holds, hj] at hd
  | some hand =>
    have hall := List.all_eq_true.mp admits hand (List.mem_of_getElem? hj)
    exact List.all_eq_true.mp hall d (by simpa [holds, hj] using hd)

/-- A step in which one thread alone moves and changes what it has in its hands. -/
theorem Fitting.change (h : m.Fitting) {hand : Hand} {machine : Machine} (sectioned : machine.Sectioned)
    (length : machine.threads.length = m.machine.threads.length)
    (others : ∀ j, j ≠ i → machine.agenda j = m.machine.agenda j)
    (fits : hand.Fits (machine.agenda i).head?) (holds : ∀ c ∈ hand.holds, c ∈ m.holds i ∨ m.admits c) :
    Fitting ⟨machine, m.hands.set i hand⟩ := by
  have own : ∀ c ∈ hand.holds, ∀ j, j ≠ i → ∀ d ∈ m.holds j, c.compatible d := fun c hc j hj d hd =>
    (holds c hc).elim (fun hc => h.compatible i j (Ne.symm hj) c hc d hd) fun ha => compatible_of_admits ha hd
  refine ⟨sectioned, by rw [List.length_set, length, h.length], fun j g hg => ?_, fun j k hjk c hc d hd => ?_⟩
  · rw [nextMove?_eq]
    by_cases hj : j = i
    · subst hj
      rw [List.getElem?_set_self'] at hg
      obtain ⟨_, _, rfl⟩ := Option.map_eq_some_iff.mp hg
      exact fits
    · rw [List.getElem?_set_ne (Ne.symm hj)] at hg
      have hf := h.fits j g hg
      rwa [nextMove?_eq, ← others j hj] at hf
  · rcases m.holds_set machine i hand j hc with ⟨rfl, mine⟩ | ⟨hj, old⟩
    · rcases m.holds_set machine j hand k hd with ⟨rfl, _⟩ | ⟨hk, old⟩
      · exact absurd rfl hjk
      · exact own c mine k hk d old
    · rcases m.holds_set machine i hand k hd with ⟨rfl, mine⟩ | ⟨_, old'⟩
      · rw [Hold.compatible_comm]
        exact own d mine j hj c old
      · exact h.compatible j k hjk c old d old'

theorem Fitting.step_make (h : m.Fitting) {left : List Stroke} (strokes : m.strokes i = .make :: left)
    (fits : ∀ next?, Hand.Fits next? ⟨m.holds i, left⟩) (hs : m.step? i = some m') : m'.Fitting := by
  simp only [step?, strokes, Option.map_eq_some_iff] at hs
  obtain ⟨machine, hmade, rfl⟩ := hs
  obtain ⟨mv, hm⟩ := Machine.step?_made hmade
  exact h.change (h.sectioned.made hm) hm.threads hm.others (fits _) fun _ hc => .inl hc

theorem Fitting.step (h : m.Fitting) (hs : m.step? i = some m') : m'.Fitting := by
  cases h.at i with
  | idle _ _ strokes => simp [step?, strokes] at hs
  | ready _ _ holds strokes => exact h.step_make strokes (fun _ => holds ▸ .before) hs
  | wanting next needs holds strokes =>
    simp only [step?, strokes, holds] at hs
    split at hs
    · rename_i admits
      cases hs
      refine h.change h.sectioned rfl (fun _ _ => rfl) (.during ((nextMove?_eq m i).symm.trans next) needs)
        fun d hd => ?_
      exact List.mem_singleton.mp hd ▸ .inr admits
    · cases hs
  | holding _ _ holds strokes => exact h.step_make strokes (fun _ => holds ▸ .after _) hs
  | leaving holds strokes =>
    simp only [step?, strokes, holds, List.erase_cons_head, Option.some.injEq] at hs
    subst hs
    exact h.change h.sectioned rfl (fun _ _ => rfl) .before nofun

theorem fitting_follow (s : Shared) (programs : List (List Call)) (schedule : List Nat) :
    ((ofPrograms s programs).follow schedule).Fitting := by
  suffices ∀ m : LockedMachine, m.Fitting → (m.follow schedule).Fitting from this _ (fitting_ofPrograms s programs)
  induction schedule with
  | nil => exact fun _ h => h
  | cons i schedule ih =>
    intro m h
    refine ih ((m.step? i).getD m) ?_
    cases hs : m.step? i with
    | none => exact h
    | some m' => exact h.step hs

/-! ## Progress -/

/-- Thread `i` can step, also when threads that are about to lock for writing go
ahead of those that lock for reading. -/
def Goes (m : LockedMachine) (i : Nat) : Prop :=
  (∃ m', m.step? i = some m') ∧ ∀ l, m.takes i ⟨l, .shared⟩ → ∀ j, ¬ m.takes j ⟨l, .exclusive⟩

theorem goes_of_makes (hm : m.makes i mv) (free : mv = .lockPublishing → m.machine.holder = none) : m.Goes i := by
  obtain ⟨head, next⟩ := hm
  obtain ⟨left, strokes⟩ := List.head?_eq_some_iff.mp head
  rw [nextMove?_eq] at next
  obtain ⟨rest, ha⟩ := List.head?_eq_some_iff.mp next
  obtain ⟨machine, hs⟩ := Machine.exists_step?_of_free ha free
  refine ⟨⟨_, by simp only [step?, strokes, hs]; rfl⟩, fun l ht => ?_⟩
  simp [takes, strokes] at ht

theorem goes_of_takes (ht : m.takes i c) (free : ∀ j, m.holds j = [])
    (first : c.access = .shared → ∀ j, ¬ m.takes j ⟨c.lock, .exclusive⟩) : m.Goes i := by
  have admits : m.admits c := by
    refine List.all_eq_true.mpr fun hand hh => ?_
    obtain ⟨j, hj⟩ := List.mem_iff_getElem?.mp hh
    have hn : hand.holds = [] := by simpa [holds, hj] using free j
    rw [hn]
    rfl
  obtain ⟨left, strokes⟩ := List.head?_eq_some_iff.mp ht
  refine ⟨⟨_, by simp only [step?, strokes, admits, if_true]; rfl⟩, fun l hl => ?_⟩
  obtain rfl : c = ⟨l, .shared⟩ := by simpa [takes, strokes] using hl
  exact first rfl

theorem Fitting.goes_of_holds (h : m.Fitting) (hi : m.holds i ≠ []) : m.Goes i := by
  cases h.at i with
  | idle _ holds | ready _ _ holds | wanting _ _ holds => exact absurd holds hi
  | holding next needs _ strokes =>
    refine goes_of_makes ⟨by rw [strokes]; rfl, next⟩ ?_
    rintro rfl
    cases needs
  | leaving _ strokes =>
    refine ⟨⟨_, by simp only [step?, strokes]; rfl⟩, fun l ht => ?_⟩
    simp [takes, strokes] at ht

theorem Fitting.goes_of_next (h : m.Fitting) (next : m.nextMove? i = some mv)
    (lock : mv = .lockPublishing → m.machine.holder = none) (free : ∀ j, m.holds j = [])
    (readers : ∀ j l, ¬ m.takes j ⟨l, .exclusive⟩) : m.Goes i := by
  cases h.at i with
  | idle none => cases none.symm.trans next
  | ready next' _ _ strokes =>
    cases next.symm.trans next'
    exact goes_of_makes ⟨by rw [strokes]; rfl, next⟩ lock
  | wanting _ _ _ strokes => exact goes_of_takes (by rw [takes, strokes]; rfl) free fun _ j => readers j _
  | holding _ _ holds | leaving holds => cases (free i).symm.trans holds

/-- Who holds the publishing lock has a move to make, which does not wait for it. -/
theorem Fitting.next_of_holder (h : m.Fitting) (hold : m.machine.holder = some i) :
    ∃ mv, m.nextMove? i = some mv ∧ mv ≠ .lockPublishing := by
  obtain ⟨now, rest, ha, hin, _⟩ := h.sectioned.inside i hold
  rw [nextMove?_eq, ha]
  cases now with
  | nil => exact ⟨_, rfl, nofun⟩
  | cons mv now => exact ⟨mv, rfl, hin.ne_lockPublishing⟩

theorem Fitting.strokes_ne_nil (h : m.Fitting) (next : m.nextMove? i = some mv) : m.strokes i ≠ [] := by
  cases h.at i with
  | idle none => cases next.symm.trans none
  | ready _ _ _ strokes | wanting _ _ _ strokes | holding _ _ _ strokes | leaving _ strokes => simp [strokes]

theorem Fitting.exists_goes (h : m.Fitting) (busy : m.strokes i ≠ []) : ∃ j, m.Goes j := by
  -- a thread that holds a lock can go on; if there is none, one that locks for writing
  obtain free | ⟨j, hj⟩ := forall_or_exists_not fun j => m.holds j = []
  · obtain readers | ⟨j, hj⟩ := forall_or_exists_not fun j => ∀ l, ¬ m.takes j ⟨l, .exclusive⟩
    · -- otherwise the holder of the publishing lock, and any thread if nobody holds it
      cases hold : m.machine.holder with
      | some j =>
        obtain ⟨mv, next, hl⟩ := h.next_of_holder hold
        exact ⟨j, h.goes_of_next next (absurd · hl) free readers⟩
      | none =>
        cases h.at i with
        | idle _ _ strokes => exact absurd strokes busy
        | ready next | wanting next | holding next => exact ⟨i, h.goes_of_next next (fun _ => hold) free readers⟩
        | leaving holds => cases (free i).symm.trans holds
    · obtain ⟨l, hl⟩ := not_forall_not.mp hj
      exact ⟨j, goes_of_takes hl free nofun⟩
  · exact ⟨j, h.goes_of_holds hj⟩

/-- Whatever threads do, locks exclude each other, a handler runs while its thread
holds neither the table's lock nor the registry's, and a thread that wants one of
these, or the publishing lock, holds neither of them. As long as a call has not
returned, or a lock is still to be given back, there is a thread that can go on,
even if one that locks for writing is let go ahead of readers. -/
theorem locks_of_follow (s : Shared) (programs : List (List Call)) (schedule : List Nat) :
    let m := (ofPrograms s programs).follow schedule
    (∀ i j, i ≠ j → ∀ c ∈ m.holds i, ∀ d ∈ m.holds j, c.compatible d) ∧
    (∀ i mv, m.makes i mv → mv.isHandlers → m.holds i = []) ∧
    (∀ i c, m.takes i c → m.holds i = []) ∧
    (∀ i, m.makes i .lockPublishing → m.holds i = []) ∧
    ∀ i, m.machine.agenda i ≠ [] ∨ m.strokes i ≠ [] → ∃ j, (∃ m', m.step? j = some m') ∧
      ∀ l, m.takes j ⟨l, .shared⟩ → ∀ k, ¬ m.takes k ⟨l, .exclusive⟩ := by
  intro m
  have h : m.Fitting := fitting_follow s programs schedule
  refine ⟨h.compatible, fun i mv hm hh => ?_, fun i c ht => h.holds_of_takes ht, fun i hm => ?_, fun i busy => ?_⟩
  · rw [h.holds_of_makes hm, Move.hold?_of_isHandlers hh]
    rfl
  · rw [h.holds_of_makes hm]
    rfl
  · rcases busy with unfinished | busy
    · obtain ⟨mv, rest, ha⟩ := List.exists_cons_of_ne_nil unfinished
      have next : m.nextMove? i = some mv := by rw [nextMove?_eq, ha, List.head?_cons]
      exact h.exists_goes (h.strokes_ne_nil next)
    · exact h.exists_goes busy

end LockedMachine

end PriceBoard
