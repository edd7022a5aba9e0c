import PriceBoard.Proofs.Hub.Delivery

/-!
# The order of publishes

Publishes copy the entries of the registry in the order in which they take the
publishing lock (`accepted_eq_entered`), so that one order of accepted rates
serves all subscribers.
-/

namespace PriceBoard

namespace Move

/-- The rate of a publish, at the move that copies the entries. -/
def accepted? : Move → Option (Rate Float)
  | copyEntries r => some r
  | _ => none

end Move

/-- The rates whose publishes have copied the entries, in that order. -/
def accepted (past : List Event) : List (Rate Float) := past.filterMap (·.move.accepted?)

/-- The same rates in the order in which their publishes took the lock: for each
thread that takes it, the rate it goes on with. -/
def entered : List Event → List (Rate Float)
  | [] => []
  | ⟨i, .lockPublishing⟩ :: later =>
    ((later.find? (·.thread == i)).bind (·.move.accepted?)).toList ++ entered later
  | _ :: later => entered later

theorem accepted_cons (e : Event) (later : List Event) :
    accepted (e :: later) = e.move.accepted?.toList ++ accepted later := by
  rw [accepted, List.filterMap_cons]
  cases e.move.accepted? <;> rfl

theorem accepted_append (first last : List Event) : accepted (first ++ last) = accepted first ++ accepted last :=
  List.filterMap_append ..

theorem accepted_snoc (past : List Event) (e : Event) :
    accepted (past ++ [e]) = accepted past ++ e.move.accepted?.toList := by
  rw [accepted_append, accepted_cons, show accepted [] = [] from rfl, List.append_nil]

theorem entered_cons {i : Nat} {mv : Move} (h : mv ≠ .lockPublishing) (later : List Event) :
    entered (⟨i, mv⟩ :: later) = entered later := by
  cases mv <;> first | rfl | exact absurd rfl h

/-! ## The order of the lock -/

namespace Machine

theorem agenda_of_find? {i : Nat} {e : Event} : ∀ (schedule : List Nat) {m : Machine},
    (m.trace schedule).find? (·.thread == i) = some e → ∃ rest, m.agenda i = e.move :: rest
  | [], _, h => by simp [trace] at h
  | j :: schedule, m, h => by
    cases hs : m.step? j with
    | none =>
      simp only [trace, hs] at h
      exact agenda_of_find? schedule h
    | some m' =>
      obtain ⟨mv, hm⟩ := step?_made hs
      rw [hm.trace_cons hs] at h
      by_cases hj : j = i
      · subst hj
        obtain ⟨t, rest, ha, _⟩ := hm.own
        simp only [List.find?_cons, beq_self_eq_true, Option.some.injEq] at h
        exact ⟨rest, by rw [ha, ← h]⟩
      · rw [List.find?_cons_of_neg (by simpa using hj)] at h
        rw [← hm.others i (Ne.symm hj)]
        exact agenda_of_find? schedule h

end Machine

theorem Move.accepted?_of_isPlain {mv : Move} (h : mv.isPlain) : mv.accepted? = none := by
  cases mv <;> first | rfl | simp [isPlain] at h

theorem Move.accepted?_of_mem_make {s : Shared} {t : Thread} {mv n : Move} (hn : n ∈ (mv.make s t).2.2) :
    n.accepted? = none := by
  cases h : n.accepted? with
  | none => rfl
  | some r =>
    obtain rfl : n = copyEntries r := by cases n <;> simp [accepted?] at h; rw [h]
    have hd := depth_lt_of_mem_make s t mv _ hn
    cases mv <;> simp [depth] at hd

theorem Delivering.accepted? {kind : Registration Handler → Rate Float → Prop} {last now : List Move}
    (h : Delivering kind last now) (hl : ∀ mv ∈ last, mv.accepted? = none) : ∀ mv ∈ now, mv.accepted? = none :=
  h.forall_mem (fun _ => Move.accepted?_of_isPlain) (fun _ _ _ => rfl) hl

theorem Inside.accepted? {table : RateTable Float} {mv : Move} {rest : List Move}
    (h : Inside table (mv :: rest)) : ∀ n ∈ rest, n.accepted? = none := by
  cases h with
  | countPublish hd => exact hd.accepted? (by simp [Move.accepted?])
  | publishing hd | loading hd =>
    exact (List.forall_mem_cons.mp (hd.accepted? (by simp [Move.accepted?]))).2
  | done hp => exact fun n hn => Move.accepted?_of_isPlain (hp n (List.mem_cons_of_mem _ hn))
  | _ => simp

namespace Machine

/-- The rate of the publish that holds the lock, if it has yet to copy the entries. -/
def entering (m : Machine) (later : List Event) : List (Rate Float) :=
  m.holder.elim [] fun i => ((later.find? (·.thread == i)).bind (·.move.accepted?)).toList

theorem entering_eq_nil {m : Machine} {i : Nat} (hold : m.holder = some i)
    (h : ∀ n rest, m.agenda i = n :: rest → n.accepted? = none) (schedule : List Nat) :
    m.entering (m.trace schedule) = [] := by
  rw [entering, hold, Option.elim_some]
  cases hf : (m.trace schedule).find? (·.thread == i) with
  | none => rfl
  | some e =>
    obtain ⟨rest, ha⟩ := agenda_of_find? schedule hf
    simp [h _ rest ha]

/-- Copies of the entries come in the order of the lock; the publish that holds it
already is ahead of all that have yet to take it. -/
theorem accepted_eq_entering_append : ∀ (schedule : List Nat) {m : Machine}, m.Sectioned →
    accepted (m.trace schedule) = m.entering (m.trace schedule) ++ entered (m.trace schedule)
  | [], m, _ => by cases h : m.holder <;> simp [trace, accepted, entering, entered, h]
  | i :: schedule, m, h => by
    cases hs : m.step? i with
    | none =>
      have ih := accepted_eq_entering_append schedule h
      simpa [trace, hs] using ih
    | some m' =>
      obtain ⟨mv, hm⟩ := step?_made hs
      obtain ⟨t, rest, ha, _, hb⟩ := hm.own
      have ih := accepted_eq_entering_append schedule (h.made hm)
      rw [hm.trace_cons hs]
      cases h.stage hm ha with
      | calm hc out ho =>
        have hp := Move.isPlain_of_isCalm hc
        have he : m.entering (⟨i, mv⟩ :: m'.trace schedule) = m'.entering (m'.trace schedule) := by
          unfold entering
          rw [hm.holder, Move.holderAfter_of_isPlain hp]
          cases hh : m.holder with
          | none => rfl
          | some j =>
            have hij : ¬ i = j := fun e => out (e ▸ hh)
            simp [hij]
        rw [he, entered_cons (by rintro rfl; cases hp), accepted_cons, Move.accepted?_of_isPlain hp]
        exact ih
      | enter hl free hr hn ho =>
        subst hl
        have he : m'.entering (m'.trace schedule) ++ entered (m'.trace schedule) =
            entered (⟨i, .lockPublishing⟩ :: m'.trace schedule) := by
          rw [entering, hm.holder]
          rfl
        rw [← he, accepted_cons, entering, free]
        exact ih
      | @go hold now after hr hi ho =>
        have hk : m'.holder = some i := by rw [hm.holder, hi.holderAfter, hold]
        have hz : m'.entering (m'.trace schedule) = [] := by
          refine entering_eq_nil hk (fun n rest' hn => ?_) schedule
          have hbody : ∀ x ∈ (mv.make m.shared t).2.2 ++ now, x.accepted? = none := fun x hx =>
            (List.mem_append.mp hx).elim Move.accepted?_of_mem_make (hi.accepted? x)
          rw [hb, hr, ← List.append_assoc] at hn
          rcases List.append_eq_cons_iff.mp hn with ⟨_, hu⟩ | ⟨_, hx, _⟩
          · cases hu
            rfl
          · exact hbody n (hx ▸ List.mem_cons_self)
        have he : m.entering (⟨i, mv⟩ :: m'.trace schedule) = mv.accepted?.toList := by
          rw [entering, hold]
          simp
        rw [hz] at ih
        rw [he, entered_cons hi.ne_lockPublishing, accepted_cons, ih]
        rfl
      | leave hl hold ho =>
        subst hl
        have hz : m'.entering (m'.trace schedule) = [] := by
          rw [entering, hm.holder]
          rfl
        have he : m.entering (⟨i, .unlockPublishing⟩ :: m'.trace schedule) = [] := by
          rw [entering, hold]
          simp [Move.accepted?]
        rw [hz] at ih
        rw [he, entered_cons (by simp), accepted_cons, ih]
        rfl

theorem accepted_eq_entered {m : Machine} (h : m.Sectioned) (free : m.holder = none) (schedule : List Nat) :
    accepted (m.trace schedule) = entered (m.trace schedule) := by
  have hp := accepted_eq_entering_append schedule h
  rwa [entering, free] at hp

theorem Sectioned.isValid_of_made {m m' : Machine} {i : Nat} {r : Rate Float} (h : m.Sectioned)
    (hm : m.Made i (.copyEntries r) m') : r.IsValid := by
  cases h.turn hm with
  | calm hc => cases hc
  | enter hl => cases hl
  | leave hl => cases hl
  | go hi =>
    cases hi with
    | «open» ho =>
      cases ho with
      | publish hv => exact hv
    | publishing hd | loading hd =>
      cases hd with
      | plain hp => cases hp
    | done hp => cases hp _ List.mem_cons_self

end Machine

end PriceBoard
