import PriceBoard.Hub.Machine

/-!
# Traces

The moves that threads make along a schedule, in order. `step?_made` says what
one step can do, and `trace_induction` carries what every move keeps through a
whole schedule.
-/

namespace PriceBoard

namespace Shared

theorem forward_hub (s : Shared) (name : String) (r : Rate Float) : (s.forward name r).hub = s.hub := by
  unfold forward
  dsimp only
  split <;> rfl

end Shared

namespace Move

def onHub (h : Hub) : Move → Hub
  | writeTable r _ => { h with table := h.table.insert r }
  | countPublish => { h with publishes := h.publishes + 1 }
  | deliver e r => { h with deliveries := h.deliveries.push ⟨e.id, r⟩ }
  | registerLoading a f _ | register a f _ => { h with registry := (h.registry.register a f).2 }
  | unregister id _ => { h with registry := (h.registry.unregister id).2 }
  | clearRegistry _ => { h with registry := h.registry.clear.2 }
  | _ => h

theorem make_hub (s : Shared) (t : Thread) (mv : Move) : (mv.make s t).1.hub = mv.onHub s.hub := by
  cases mv with
  | act name r a =>
    cases a with
    | forward => exact Shared.forward_hub s name r
    | _ => rfl
  | conclude name key ending =>
    simp only [make, onHub]
    split <;> rfl
  | reply asker r =>
    cases asker with
    | program => rfl
    | handler name => simp only [make, onHub]; cases r.note? name <;> rfl
  | _ => rfl

theorem make_agenda (s : Shared) (t : Thread) (mv : Move) : (mv.make s t).2.1.agenda = t.agenda := by
  cases mv with
  | conclude name key ending =>
    simp only [make]
    split <;> rfl
  | reply asker r => cases asker <;> rfl
  | _ => rfl

def holderAfter (i : Nat) (holder : Option Nat) : Move → Option Nat
  | lockPublishing => some i
  | unlockPublishing => none
  | _ => holder

end Move

structure Event where
  thread : Nat
  move : Move

namespace Machine

def agenda (m : Machine) (i : Nat) : List Move := (m.threads[i]?).elim [] (·.agenda)

theorem exists_thread_of_mem {m : Machine} {i : Nat} {mv : Move} (h : mv ∈ m.agenda i) :
    ∃ t ∈ m.threads, mv ∈ t.agenda := by
  cases ht : m.threads[i]? with
  | none => simp [agenda, ht] at h
  | some t => exact ⟨t, List.mem_of_getElem? ht, by simpa [agenda, ht] using h⟩

def trace (m : Machine) : List Nat → List Event
  | [] => []
  | i :: schedule =>
    match m.step? i with
    | none => m.trace schedule
    | some m' => ((m.agenda i).head?.map (⟨i, ·⟩)).toList ++ m'.trace schedule

/-- What it takes for thread `i` to make a move, and what comes of it. -/
structure Made (m : Machine) (i : Nat) (mv : Move) (m' : Machine) : Prop where
  admitted : mv = .lockPublishing → m.holder = none
  holder : m'.holder = mv.holderAfter i m.holder
  own : ∃ t rest, m.agenda i = mv :: rest ∧ m'.shared = (mv.make m.shared t).1 ∧
    m'.agenda i = (mv.make m.shared t).2.2 ++ rest
  others : ∀ j, j ≠ i → m'.agenda j = m.agenda j
  threads : m'.threads.length = m.threads.length

theorem agenda_set_self {m : Machine} {i : Nat} {t : Thread} (h : m.threads[i]? = some t)
    (s : Shared) (holder : Option Nat) (u : Thread) :
    agenda ⟨s, holder, m.threads.set i u⟩ i = u.agenda := by
  obtain ⟨hi, _⟩ := List.getElem?_eq_some_iff.mp h
  simp [agenda, List.getElem?_set_self hi]

theorem agenda_set_ne (m : Machine) {i j : Nat} (h : j ≠ i) (s : Shared) (holder : Option Nat)
    (u : Thread) : agenda ⟨s, holder, m.threads.set i u⟩ j = m.agenda j := by
  simp [agenda, List.getElem?_set_ne (Ne.symm h)]

theorem step?_made {m m' : Machine} {i : Nat} (h : m.step? i = some m') : ∃ mv, m.Made i mv m' := by
  unfold step? at h
  cases ht : m.threads[i]? with
  | none => simp [ht] at h
  | some t =>
    cases ha : t.agenda with
    | nil => simp [ht, ha] at h
    | cons mv rest =>
      have hm : m.agenda i = mv :: rest := by simp [agenda, ht, ha]
      simp only [ht, ha, Option.bind_eq_bind, Option.bind_some] at h
      refine ⟨mv, ?_⟩
      split at h
      · split at h
        · cases h
          exact ⟨fun _ => ‹_›, rfl, ⟨t, rest, hm, rfl, agenda_set_self ht ..⟩, fun j hj => agenda_set_ne m hj ..,
            List.length_set ..⟩
        · cases h
      · cases h
        exact ⟨nofun, rfl, ⟨t, rest, hm, rfl, agenda_set_self ht ..⟩, fun j hj => agenda_set_ne m hj ..,
          List.length_set ..⟩
      · rename_i h1 h2
        cases h
        refine ⟨fun e => absurd e h1, ?_, ⟨{ t with agenda := rest }, rest, hm, rfl, ?_⟩,
          fun j hj => agenda_set_ne m hj .., List.length_set ..⟩
        · cases mv <;> simp_all [Move.holderAfter]
        · rw [agenda_set_self ht]
          exact congrArg _ (Move.make_agenda ..)

theorem Made.mem {m m' : Machine} {i : Nat} {mv : Move} (h : m.Made i mv m') : mv ∈ m.agenda i := by
  obtain ⟨t, rest, ha, _⟩ := h.own
  exact ha ▸ List.mem_cons_self

theorem Made.ne_of_idle {m m' : Machine} {i j : Nat} {mv : Move} (h : m.Made i mv m') (idle : m.agenda j = []) :
    i ≠ j := by
  rintro rfl
  have hm := h.mem
  rw [idle] at hm
  cases hm

theorem Made.hub {m m' : Machine} {i : Nat} {mv : Move} (h : m.Made i mv m') :
    m'.shared.hub = mv.onHub m.shared.hub := by
  obtain ⟨t, rest, _, hs, _⟩ := h.own
  rw [hs, Move.make_hub]

theorem exists_step?_eq_some {m : Machine} {i : Nat} {mv : Move} {rest : List Move}
    (ha : m.agenda i = mv :: rest) (hl : mv ≠ .lockPublishing) : ∃ m', m.step? i = some m' ∧ m.Made i mv m' := by
  have hs : ∃ m', m.step? i = some m' := by
    cases ht : m.threads[i]? with
    | none => simp [agenda, ht] at ha
    | some t =>
      have hta : t.agenda = mv :: rest := by simpa [agenda, ht] using ha
      simp only [step?, ht, hta, Option.bind_eq_bind, Option.bind_some]
      split
      · exact absurd rfl hl
      · exact ⟨_, rfl⟩
      · exact ⟨_, rfl⟩
  obtain ⟨m', hs⟩ := hs
  obtain ⟨n, hm⟩ := step?_made hs
  obtain ⟨t, rest', ha', _⟩ := hm.own
  rw [ha] at ha'
  cases ha'
  exact ⟨m', hs, hm⟩

theorem Made.mem_agenda {m m' : Machine} {i j : Nat} {mv n : Move} (h : m.Made i mv m')
    (hn : n ∈ m'.agenda j) : n ∈ m.agenda j ∨ j = i ∧ ∃ t, n ∈ (mv.make m.shared t).2.2 := by
  obtain ⟨t, rest, ha, _, hb⟩ := h.own
  by_cases hj : j = i
  · subst hj
    rw [hb] at hn
    rcases List.mem_append.mp hn with hn | hn
    · exact .inr ⟨rfl, t, hn⟩
    · exact .inl (ha ▸ List.mem_cons_of_mem _ hn)
  · exact .inl (h.others j hj ▸ hn)

theorem Made.trace_cons {m m' : Machine} {i : Nat} {mv : Move} (h : m.Made i mv m')
    (hs : m.step? i = some m') (schedule : List Nat) :
    m.trace (i :: schedule) = ⟨i, mv⟩ :: m'.trace schedule := by
  obtain ⟨t, rest, ha, _⟩ := h.own
  simp [trace, hs, ha]

/-- What holds at first and is kept by every move holds along every schedule. -/
theorem trace_induction {P : List Event → Machine → Prop}
    (keep : ∀ past m i mv m', P past m → m.Made i mv m' → P (past ++ [⟨i, mv⟩]) m') :
    ∀ (schedule : List Nat) (past : List Event) (m : Machine), P past m →
      P (past ++ m.trace schedule) (m.follow schedule)
  | [], past, m, h => by simpa [trace, follow] using h
  | i :: schedule, past, m, h => by
    cases hs : m.step? i with
    | none =>
      have ih := trace_induction keep schedule past m h
      simpa [trace, follow, hs] using ih
    | some m' =>
      obtain ⟨mv, hm⟩ := step?_made hs
      have ih := trace_induction keep schedule _ m' (keep past m i mv m' h hm)
      rw [hm.trace_cons hs]
      simpa [follow, hs] using ih

theorem follow_induction {P : Machine → Prop} (keep : ∀ m i mv m', P m → m.Made i mv m' → P m')
    {m : Machine} (h : P m) (schedule : List Nat) : P (m.follow schedule) :=
  trace_induction (P := fun _ m => P m) (fun _ => keep) schedule [] m h

theorem follow_cons {m m' : Machine} {i : Nat} (hs : m.step? i = some m') (schedule : List Nat) :
    m.follow (i :: schedule) = m'.follow schedule := by
  simp [follow, hs]

theorem follow_append (m : Machine) (first last : List Nat) :
    m.follow (first ++ last) = (m.follow first).follow last := List.foldl_append ..

theorem trace_append (m : Machine) (first last : List Nat) :
    m.trace (first ++ last) = m.trace first ++ (m.follow first).trace last := by
  induction first generalizing m with
  | nil => rfl
  | cons i first ih =>
    cases hs : m.step? i with
    | none => simpa [trace, follow, hs] using ih m
    | some m' => simpa [trace, follow, hs] using ih m'

/-- A schedule that lets a thread make its next move, cut at that move. -/
theorem follow_through {m : Machine} {before : List Nat} {i : Nat} {mv : Move} {rest : List Move}
    (next : (m.follow before).agenda i = mv :: rest) (hl : mv ≠ .lockPublishing) :
    (m.follow before).Made i mv (m.follow (before ++ [i])) ∧ ∀ after,
      m.follow (before ++ i :: after) = (m.follow (before ++ [i])).follow after ∧
      m.trace (before ++ i :: after) = m.trace before ++ ⟨i, mv⟩ :: (m.follow (before ++ [i])).trace after := by
  obtain ⟨m', hs, hm⟩ := exists_step?_eq_some next hl
  have he : m.follow (before ++ [i]) = m' := by rw [follow_append, follow_cons hs]; rfl
  rw [he]
  refine ⟨hm, fun after => ⟨?_, ?_⟩⟩
  · rw [follow_append, follow_cons hs]
  · rw [trace_append, hm.trace_cons hs]

end Machine

end PriceBoard
