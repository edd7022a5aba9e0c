import PriceBoard.Notifier

/-!
# What listeners are called with

A listener is called with the events of its window: those told after it has subscribed
and before its id is unsubscribed, each once and in order (`windows_of_run`).
-/

namespace PriceBoard

/-- A listener after some more calls. -/
def Listener.called {α : Type} (l : Listener α) (count : Nat) : Listener α := { l with calls := l.calls + count }

theorem Listener.called_called {α : Type} (l : Listener α) (j k : Nat) :
    (l.called j).called k = l.called (j + k) := by
  rw [called, called, called, Nat.add_assoc]

namespace Notifier

variable {α ε : Type}

inductive Op (α ε : Type)
  | subscribe (tag : α)
  | unsubscribe (id : ListenerId)
  | notify (event : ε)

inductive Answer (α ε : Type)
  | subscribed (id : ListenerId)
  | unsubscribed (removed : Bool)
  | notified (calls : List (Listener α × ε))

def perform (n : Notifier α) : Op α ε → Notifier α × Answer α ε
  | .subscribe tag => ((n.subscribe tag).2, .subscribed (n.subscribe tag).1)
  | .unsubscribe id => ((n.unsubscribe id).2, .unsubscribed (n.unsubscribe id).1)
  | .notify e => ((n.notify e).2, .notified (n.notify e).1)

def run (n : Notifier α) : List (Op α ε) → Notifier α × List (Answer α ε)
  | [] => (n, [])
  | o :: os =>
    let rest := (n.perform o).1.run os
    (rest.1, (n.perform o).2 :: rest.2)

/-! ## What a history says -/

def Answer.id? : Answer α ε → Option ListenerId
  | subscribed id => some id
  | _ => none

def Answer.calls : Answer α ε → List (Listener α × ε)
  | notified calls => calls
  | _ => []

def Op.removes (id : ListenerId) : Op α ε → Bool
  | unsubscribe other => other == id
  | _ => false

def Op.events : Op α ε → List ε
  | notify e => [e]
  | _ => []

/-- The listener that an operation made, under the id that it was answered. -/
def made? : Op α ε × Answer α ε → Option (Listener α)
  | (.subscribe tag, .subscribed id) => some ⟨id, tag, 0⟩
  | _ => none

/-- What operations leave of some listeners: those that are not unsubscribed, called with
every event. -/
def kept (os : List (Op α ε)) (ls : List (Listener α)) : List (Listener α) :=
  (ls.filter fun l => !os.any (·.removes l.id)).map (·.called (os.flatMap Op.events).length)

/-- The listeners that subscribed along a history, as what came after has left them. -/
def live : List (Op α ε × Answer α ε) → List (Listener α)
  | [] => []
  | h :: later => kept (later.map (·.1)) (made? h).toList ++ live later

/-- The events that are told until an id is unsubscribed. -/
def window (id : ListenerId) (os : List (Op α ε)) : List ε :=
  (os.takeWhile fun o => !o.removes id).flatMap Op.events

def callsTo (id : ListenerId) (answers : List (Answer α ε)) : List (Listener α × ε) :=
  (answers.flatMap Answer.calls).filter (·.1.id == id)

/-! ## Along a run -/

theorem run_append (n : Notifier α) (past later : List (Op α ε)) :
    n.run (past ++ later) =
      (((n.run past).1.run later).1, (n.run past).2 ++ ((n.run past).1.run later).2) := by
  induction past generalizing n with
  | nil => rfl
  | cons o past ih => simp only [List.cons_append, run, ih]

/-- Ids are given out one after the other. -/
theorem ids_run (n : Notifier α) (os : List (Op α ε)) :
    let ids := (n.run os).2.filterMap Answer.id?
    ids = List.range' n.nextId ids.length ∧ (n.run os).1.nextId = n.nextId + ids.length := by
  induction os generalizing n with
  | nil => exact ⟨rfl, rfl⟩
  | cons o os ih =>
    obtain ⟨hrest, hnext⟩ := ih (n.perform o).1
    cases o with
    | subscribe tag =>
      have hcons : (n.run (.subscribe tag :: os)).2.filterMap Answer.id? =
          n.nextId :: ((n.perform (.subscribe tag)).1.run os).2.filterMap Answer.id? := rfl
      dsimp only
      rw [hcons, List.length_cons, List.range'_succ]
      exact ⟨congrArg _ hrest, hnext.trans (Nat.add_right_comm ..)⟩
    | unsubscribe id => exact ⟨hrest, hnext⟩
    | notify e => exact ⟨hrest, hnext⟩

theorem nextId_le_run (n : Notifier α) (os : List (Op α ε)) : n.nextId ≤ (n.run os).1.nextId := by
  rw [(n.ids_run os).2]
  exact Nat.le_add_right ..

theorem ops_run (n : Notifier α) (os : List (Op α ε)) : (os.zip (n.run os).2).map (·.1) = os := by
  induction os generalizing n with
  | nil => rfl
  | cons o os ih => exact congrArg (o :: ·) (ih (n.perform o).1)

/-! ## Who is left -/

theorem kept_of_forall {os : List (Op α ε)} {ls : List (Listener α)}
    (h : ∀ l ∈ ls, os.any (·.removes l.id) = false) :
    kept os ls = ls.map (·.called (os.flatMap Op.events).length) := by
  rw [kept, List.filter_eq_self.mpr fun l hl => by rw [h l hl, Bool.not_false]]

theorem kept_nil (ls : List (Listener α)) : kept ([] : List (Op α ε)) ls = ls :=
  (kept_of_forall fun _ _ => rfl).trans (List.map_id' ls)

theorem kept_append (os : List (Op α ε)) (ls ls' : List (Listener α)) :
    kept os (ls ++ ls') = kept os ls ++ kept os ls' := by
  rw [kept, List.filter_append, List.map_append, kept, kept]

theorem kept_cons (o : Op α ε) (os : List (Op α ε)) (ls : List (Listener α)) :
    kept (o :: os) ls = kept os (kept [o] ls) := by
  have hremoves : ∀ l ∈ ls, (!(o :: os).any (·.removes l.id)) =
      ((!os.any (·.removes l.id)) && !([o].any (·.removes l.id))) := fun l _ => by
    rw [List.any_cons, List.any_cons, List.any_nil, Bool.or_false, Bool.not_or, Bool.and_comm]
  have hevents : ((o :: os).flatMap Op.events).length =
      ([o].flatMap Op.events).length + (os.flatMap Op.events).length := by simp
  rw [kept, kept, kept, List.filter_map, List.map_map, List.filter_filter, List.filter_congr hremoves, hevents]
  exact List.map_congr_left fun l _ => (l.called_called ..).symm

theorem listeners_perform (n : Notifier α) (o : Op α ε) :
    (n.perform o).1.listeners = kept [o] n.listeners ++ (made? (o, (n.perform o).2)).toList := by
  cases o with
  | subscribe tag =>
    rw [kept_of_forall fun _ _ => rfl]
    exact congrArg (· ++ _) (List.map_id' n.listeners).symm
  | unsubscribe id =>
    have hid : ∀ l ∈ n.listeners,
        (l.id != id) = !([(Op.unsubscribe id : Op α ε)].any (·.removes l.id)) := fun l _ => by
      rw [List.any_cons, List.any_nil, Bool.or_false, Op.removes, bne, BEq.comm]
    refine Eq.trans ?_ (List.append_nil _).symm
    rw [kept, ← List.filter_congr hid]
    exact (List.map_id' _).symm
  | notify e =>
    rw [kept_of_forall fun _ _ => rfl]
    exact (List.append_nil _).symm

/-- Listeners that were there before come before those of the run. -/
theorem listeners_run (n : Notifier α) (os : List (Op α ε)) :
    (n.run os).1.listeners = kept os n.listeners ++ live (os.zip (n.run os).2) := by
  induction os generalizing n with
  | nil => rw [kept_nil, run, List.zip_nil_left, live, List.append_nil]
  | cons o os ih =>
    -- what the first operation made goes on as what was there before does
    rw [run, ih, listeners_perform, kept_append, ← kept_cons, List.append_assoc, List.zip_cons_cons, live, ops_run]

/-! ## Ids of listeners -/

structure Sound (n : Notifier α) : Prop where
  rising : n.listeners.Pairwise fun l m => l.id < m.id
  below : ∀ l ∈ n.listeners, l.id < n.nextId

theorem sound_empty : Sound (∅ : Notifier α) := ⟨.nil, nofun⟩

variable {n : Notifier α} {id : ListenerId}

theorem Sound.perform (h : n.Sound) (o : Op α ε) : (n.perform o).1.Sound := by
  cases o with
  | subscribe tag =>
    constructor
    · refine List.pairwise_append.mpr ⟨h.rising, List.pairwise_singleton .., fun l hl m hm => ?_⟩
      rw [List.mem_singleton.mp hm]
      exact h.below l hl
    · intro l hl
      rcases List.mem_append.mp hl with hl | hl
      · exact Nat.lt_succ_of_lt (h.below l hl)
      · rw [List.mem_singleton.mp hl]
        exact Nat.lt_succ_self _
  | unsubscribe id => exact ⟨h.rising.filter _, fun l hl => h.below l (List.mem_filter.mp hl).1⟩
  | notify e =>
    refine ⟨List.pairwise_map.mpr h.rising, fun l hl => ?_⟩
    obtain ⟨m, hm, rfl⟩ := List.mem_map.mp hl
    exact h.below m hm

theorem Sound.run (h : n.Sound) (os : List (Op α ε)) : (n.run os).1.Sound := by
  induction os generalizing n with
  | nil => exact h
  | cons o os ih => exact ih (h.perform o)

/-! ## Calls of one listener -/

theorem callsTo_append (id : ListenerId) (as bs : List (Answer α ε)) :
    callsTo id (as ++ bs) = callsTo id as ++ callsTo id bs := by
  rw [callsTo, List.flatMap_append, List.filter_append, callsTo, callsTo]

theorem callsTo_run_notify (n : Notifier α) (e : ε) (os : List (Op α ε)) (id : ListenerId) :
    callsTo id (n.run (.notify e :: os)).2 =
      ((n.listeners.filter (·.id == id)).map fun l => (l.called 1, e)) ++ callsTo id ((n.notify e).2.run os).2 := by
  have hhead : callsTo id [.notified (n.notify e).1] =
      (n.listeners.filter (·.id == id)).map fun l => (l.called 1, e) := by
    simp only [callsTo, List.flatMap_singleton, Answer.calls, notify, List.map_map]
    exact List.filter_map
  rw [← hhead]
  exact callsTo_append id [_] _

theorem window_cons_of_removes {o : Op α ε} (h : o.removes id) (os : List (Op α ε)) : window id (o :: os) = [] := by
  simp [window, h]

theorem window_cons_of_not_removes {o : Op α ε} (h : o.removes id = false) (os : List (Op α ε)) :
    window id (o :: os) = o.events ++ window id os := by
  simp [window, h]

/-- Listeners under an id that was given out before are called with every event until it is
unsubscribed. -/
theorem callsTo_run (n : Notifier α) (hid : id < n.nextId) (os : List (Op α ε)) :
    callsTo id (n.run os).2 = ((window id os).zipIdx 1).flatMap fun c =>
      (n.listeners.filter (·.id == id)).map fun l => (l.called c.2, c.1) := by
  induction os generalizing n with
  | nil => rfl
  | cons o os ih =>
    have hrest := ih (n.perform o).1
    cases o with
    | subscribe tag =>
      have hsame : (n.subscribe tag).2.listeners.filter (·.id == id) = n.listeners.filter (·.id == id) := by
        simp [subscribe, Nat.ne_of_gt hid]
      rw [window_cons_of_not_removes rfl, ← hsame]
      exact hrest (Nat.lt_succ_of_lt hid)
    | unsubscribe other =>
      by_cases ho : other = id
      · have hnone : (n.unsubscribe other).2.listeners.filter (·.id == id) = [] := by simp [unsubscribe, ho]
        rw [window_cons_of_removes (o := .unsubscribe other) (beq_iff_eq.mpr ho)]
        refine (hrest hid).trans (List.flatMap_eq_nil_iff.mpr fun c _ => ?_)
        exact congrArg (List.map _) hnone
      · have hsame : (n.unsubscribe other).2.listeners.filter (·.id == id) = n.listeners.filter (·.id == id) := by
          have hboth : ∀ l ∈ n.listeners, (l.id == id && l.id != other) = (l.id == id) := by grind
          rw [unsubscribe, List.filter_filter, List.filter_congr hboth]
        rw [window_cons_of_not_removes (o := .unsubscribe other) (beq_false_of_ne ho), ← hsame]
        exact hrest hid
    | notify e =>
      have hcalled : (n.notify e).2.listeners.filter (·.id == id) =
          (n.listeners.filter (·.id == id)).map (·.called 1) := List.filter_map
      -- the calls of the rest are one further on
      have hnumbers : ((window id os).zipIdx 2).flatMap (fun c =>
            (n.listeners.filter (·.id == id)).map fun l => (l.called c.2, c.1)) =
          callsTo id ((n.notify e).2.run os).2 := by
        rw [List.zipIdx_succ, List.flatMap_map]
        refine Eq.trans ?_ (hrest hid).symm
        rw [perform, hcalled]
        simp only [List.map_map, Function.comp_def, Listener.called_called, Nat.add_comm 1]
      rw [callsTo_run_notify, window_cons_of_not_removes rfl, Op.events, List.singleton_append, List.zipIdx_cons,
        List.flatMap_cons, hnumbers]

/-- Ids that have not been given out yet are not called. -/
theorem Sound.callsTo_run_of_le (h : n.Sound) (os : List (Op α ε)) (hid : (n.run os).1.nextId ≤ id) :
    callsTo id (n.run os).2 = [] := by
  induction os generalizing n with
  | nil => rfl
  | cons o os ih =>
    have hrest := ih (h.perform o) hid
    cases o with
    | subscribe tag => exact hrest
    | unsubscribe other => exact hrest
    | notify e =>
      have hlt : ∀ l ∈ n.listeners, ¬ (l.id == id) = true := fun l hl => by
        have hnext : n.nextId ≤ id := Nat.le_trans (n.nextId_le_run (.notify e :: os)) hid
        simpa using Nat.ne_of_lt (Nat.lt_of_lt_of_le (h.below l hl) hnext)
      rw [callsTo_run_notify, List.filter_eq_nil_iff.mpr hlt]
      exact hrest

theorem Sound.callsTo_run_subscribe (h : n.Sound) (tag : α) (later : List (Op α ε)) :
    callsTo n.nextId (n.run (.subscribe tag :: later)).2 =
      ((window n.nextId later).zipIdx 1).map fun c => (⟨n.nextId, tag, c.2⟩, c.1) := by
  have hold : n.listeners.filter (·.id == n.nextId) = [] :=
    List.filter_eq_nil_iff.mpr fun l hl => by simpa using Nat.ne_of_lt (h.below l hl)
  have honly : (n.subscribe tag).2.listeners.filter (·.id == n.nextId) = [⟨n.nextId, tag, 0⟩] := by
    rw [subscribe, List.filter_append, hold, List.nil_append]
    exact List.filter_cons_of_pos (by simp)
  refine ((n.subscribe tag).2.callsTo_run (Nat.lt_succ_self n.nextId) later).trans ?_
  rw [honly]
  simp only [List.map_cons, List.map_nil, Listener.called, Nat.zero_add]
  exact List.map_eq_flatMap.symm

/-! ## Unsubscribing -/

theorem unsubscribe_of_not_mem (h : id ∉ n.listeners.map (·.id)) : n.unsubscribe id = (false, n) := by
  have hne : ∀ l ∈ n.listeners, l.id ≠ id := fun l hl he => h (List.mem_map.mpr ⟨l, hl, he⟩)
  have hkeep : n.listeners.filter (·.id != id) = n.listeners :=
    List.filter_eq_self.mpr fun l hl => bne_iff_ne.mpr (hne l hl)
  have hany : n.listeners.any (·.id == id) = false :=
    List.any_eq_false.mpr fun l hl => by simpa using hne l hl
  rw [unsubscribe, hkeep, hany]

theorem Sound.unsubscribe_of_mem (h : n.Sound) (hm : id ∈ n.listeners.map (·.id)) :
    ∃ before l after, n.listeners = before ++ l :: after ∧ l.id = id ∧
      n.unsubscribe id = (true, ⟨before ++ after, n.nextId⟩) := by
  obtain ⟨l, hl, rfl⟩ := List.mem_map.mp hm
  obtain ⟨before, after, hsplit⟩ := List.append_of_mem hl
  have hrising := h.rising
  rw [hsplit] at hrising
  obtain ⟨-, hafter, hbefore⟩ := List.pairwise_append.mp hrising
  have hkeep : n.listeners.filter (·.id != l.id) = before ++ after := by
    rw [hsplit, List.filter_append, List.filter_cons_of_neg (by simp),
      List.filter_eq_self.mpr fun m hb => bne_iff_ne.mpr (Nat.ne_of_lt (hbefore m hb l List.mem_cons_self)),
      List.filter_eq_self.mpr fun m ha => bne_iff_ne.mpr (Nat.ne_of_gt ((List.pairwise_cons.mp hafter).1 m ha))]
  have hany : n.listeners.any (·.id == l.id) = true := List.any_eq_true.mpr ⟨l, hl, beq_self_eq_true _⟩
  refine ⟨before, l, after, hsplit, rfl, ?_⟩
  rw [unsubscribe, hkeep, hany]

/-- Whatever is done to a new notifier, no id is given out twice, and its listeners are those
that subscribed and were not unsubscribed since, in the order of subscription and each
called with every event since. The next event reaches them in that order, an id that is
one of theirs removes just that one, and any other changes nothing. Along all of a run the
calls of a listener are with the events of its window, and count on from the first. -/
theorem windows_of_run (os : List (Op α ε)) :
    let n := ((∅ : Notifier α).run os).1
    let answers := ((∅ : Notifier α).run os).2
    let ids := answers.filterMap Answer.id?
    ids.Pairwise (· < ·) ∧ n.nextId = ids.length + 1 ∧
    n.listeners = live (os.zip answers) ∧ n.listeners.Pairwise (fun l m => l.id < m.id) ∧
    n.size = (live (os.zip answers)).length ∧
    (∀ e : ε, (n.notify e).1 = (live (os.zip answers)).map fun l => (l.called 1, e)) ∧
    (∀ id, if id ∈ (live (os.zip answers)).map (·.id) then
        ∃ before l after, n.listeners = before ++ l :: after ∧ l.id = id ∧
          n.unsubscribe id = (true, ⟨before ++ after, n.nextId⟩)
      else n.unsubscribe id = (false, n)) ∧
    ∀ tag later, let id := (n.subscribe tag).1
      callsTo id ((∅ : Notifier α).run (os ++ .subscribe tag :: later)).2 =
        ((window id later).zipIdx 1).map fun c => (⟨id, tag, c.2⟩, c.1) := by
  intro n answers ids
  have hsound : n.Sound := sound_empty.run os
  have hlive : n.listeners = live (os.zip answers) := (∅ : Notifier α).listeners_run os
  obtain ⟨hids, hnext⟩ := (∅ : Notifier α).ids_run os
  refine ⟨?_, hnext.trans (Nat.add_comm ..), hlive, hsound.rising, congrArg _ hlive, fun e => ?_, fun id => ?_, ?_⟩
  · rw [show ids = List.range' 1 ids.length from hids]
    exact List.pairwise_lt_range'
  · rw [← hlive]
    exact List.map_map
  · rw [← hlive]
    split
    · exact hsound.unsubscribe_of_mem ‹_›
    · exact unsubscribe_of_not_mem ‹_›
  · intro tag later id
    have hpast : callsTo id answers = [] := sound_empty.callsTo_run_of_le os (Nat.le_refl _)
    rw [run_append, callsTo_append, hpast, List.nil_append]
    exact hsound.callsTo_run_subscribe tag later

example :
    callsTo 1 ((∅ : Notifier String).run
        [.notify 5, .subscribe "a", .notify 6, .subscribe "b", .notify 7, .unsubscribe 1, .notify 8]).2 =
      [(⟨1, "a", 1⟩, 6), (⟨1, "a", 2⟩, 7)] := rfl

end Notifier

end PriceBoard
