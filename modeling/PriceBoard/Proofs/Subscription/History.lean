import PriceBoard.Proofs.Subscription.Handles

/-!
# The registry along a history

A registry is an ordered set of registrations: those that were made and not removed
since, each under an id that no other was ever given (`registrations_of_run`).
-/

namespace PriceBoard

namespace Registry

variable {σ : Type}

inductive Op (σ : Type)
  | register (subscriber : σ) (filter : Filter)
  | unregister (id : SubscriptionId)
  | clear

inductive Answer
  | registered (id : SubscriptionId)
  | unregistered (removed : Bool)
  | cleared (removed : Nat)

def perform (r : Registry σ) : Op σ → Registry σ × Answer
  | .register a f => ((r.register a f).2, .registered (r.register a f).1)
  | .unregister id => ((r.unregister id).2, .unregistered (r.unregister id).1)
  | .clear => (r.clear.2, .cleared r.clear.1)

def run (r : Registry σ) : List (Op σ) → Registry σ × List Answer
  | [] => (r, [])
  | o :: os =>
    let rest := (r.perform o).1.run os
    (rest.1, (r.perform o).2 :: rest.2)

/-! ## What a history says -/

def Answer.handle? : Answer → Option SubscriptionId
  | registered id => some id
  | _ => none

def Op.removes (id : SubscriptionId) : Op σ → Bool
  | register .. => false
  | unregister other => other == id
  | clear => true

/-- The registration that an operation made, under the id that it was answered. -/
def made? : Op σ × Answer → Option (Registration σ)
  | (.register a f, .registered id) => some ⟨id, f, a⟩
  | _ => none

/-- The registrations that were made along a history and not removed since. -/
def standing : List (Op σ × Answer) → List (Registration σ)
  | [] => []
  | h :: later => (made? h).toList.filter (fun e => !later.any (·.1.removes e.id)) ++ standing later

/-! ## Along a run -/

variable {r : Registry σ}

theorem Sound.perform (h : r.Sound) (o : Op σ) : (r.perform o).1.Sound := by
  cases o with
  | register a f => exact h.register a f
  | unregister id => exact h.unregister id
  | clear => exact h.clear

theorem Sound.run (h : r.Sound) (os : List (Op σ)) : (r.run os).1.Sound := by
  induction os generalizing r with
  | nil => exact h
  | cons o os ih => exact ih (h.perform o)

/-- Ids are given out one after the other. -/
theorem handles_run (r : Registry σ) (os : List (Op σ)) :
    let handles := (r.run os).2.filterMap Answer.handle?
    handles = List.range' r.nextId handles.length ∧ (r.run os).1.nextId = r.nextId + handles.length := by
  induction os generalizing r with
  | nil => exact ⟨rfl, rfl⟩
  | cons o os ih =>
    obtain ⟨hrest, hnext⟩ := ih (r.perform o).1
    cases o with
    | register a f =>
      have hcons : (r.run (.register a f :: os)).2.filterMap Answer.handle? =
          r.nextId :: ((r.perform (.register a f)).1.run os).2.filterMap Answer.handle? := rfl
      dsimp only
      rw [hcons, List.length_cons, List.range'_succ]
      exact ⟨congrArg _ hrest, hnext.trans (Nat.add_right_comm ..)⟩
    | unregister id => exact ⟨hrest, hnext⟩
    | clear => exact ⟨hrest, hnext⟩

theorem Sound.entries_perform (h : r.Sound) (o : Op σ) :
    (r.perform o).1.entries =
      r.entries.filter (fun e => !o.removes e.id) ++ (made? (o, (r.perform o).2)).toList := by
  cases o with
  | register a f =>
    have hall : r.entries.filter (fun e => !(Op.register a f).removes e.id) = r.entries :=
      List.filter_eq_self.mpr fun _ _ => rfl
    rw [hall]
    rfl
  | unregister id =>
    have hid : ∀ e ∈ r.entries, (e.id != id) = !(id == e.id) := fun e _ => by rw [bne, BEq.comm]
    simp only [Registry.perform, Op.removes, made?, Option.toList_none, List.append_nil]
    rw [h.entries_unregister, List.filter_congr hid]
  | clear => simp [Registry.perform, Registry.clear, Op.removes, made?]

theorem any_removes_run (r : Registry σ) (os : List (Op σ)) (id : SubscriptionId) :
    (os.zip (r.run os).2).any (·.1.removes id) = os.any (·.removes id) := by
  induction os generalizing r with
  | nil => rfl
  | cons o os ih => exact congrArg (o.removes id || ·) (ih (r.perform o).1)

/-- What was there before and is never removed comes before what the run leaves. -/
theorem Sound.entries_run (h : r.Sound) (os : List (Op σ)) :
    (r.run os).1.entries =
      r.entries.filter (fun e => !os.any (·.removes e.id)) ++ standing (os.zip (r.run os).2) := by
  induction os generalizing r with
  | nil =>
    have hall : r.entries.filter (fun e => !([] : List (Op σ)).any (·.removes e.id)) = r.entries :=
      List.filter_eq_self.mpr fun _ _ => rfl
    rw [hall]
    exact (List.append_nil _).symm
  | cons o os ih =>
    have hmade : standing ((o :: os).zip (r.run (o :: os)).2) =
        (made? (o, (r.perform o).2)).toList.filter (fun e => !os.any (·.removes e.id)) ++
          standing (os.zip ((r.perform o).1.run os).2) := by
      simp only [Registry.run, List.zip_cons_cons, standing, any_removes_run]
    have hkept : ∀ e ∈ r.entries, ((!os.any (·.removes e.id)) && !o.removes e.id) =
        !(o :: os).any (·.removes e.id) := fun e _ => by
      rw [List.any_cons, Bool.not_or, Bool.and_comm]
    have hnext := ih (h.perform o)
    rw [h.entries_perform o, List.filter_append, List.filter_filter, List.append_assoc, ← hmade,
      List.filter_congr hkept] at hnext
    exact hnext

/-! ## Removing one -/

theorem contains_iff {id : SubscriptionId} : r.contains id = true ↔ ∃ e ∈ r.entries, e.id = id := by
  simp [contains]

theorem unregister_of_not_contains {id : SubscriptionId} (hc : r.contains id = false) :
    r.unregister id = (false, r) := by
  have hne : ∀ e ∈ r.entries, ¬ (e.id == id) = true := by simpa [contains] using hc
  simp only [unregister, hc, List.eraseP_of_forall_not hne]

theorem Sound.unregister_of_contains (h : r.Sound) {id : SubscriptionId} (hc : r.contains id) :
    ∃ before e after, r.entries = before ++ e :: after ∧ e.id = id ∧
      r.unregister id = (true, ⟨before ++ after, r.nextId⟩) ∧
      (r.unregister id).2.unregister id = (false, (r.unregister id).2) := by
  obtain ⟨d, hd, rfl⟩ := contains_iff.mp hc
  obtain ⟨e, before, after, -, he, hsplit, herase⟩ :=
    List.exists_of_eraseP (p := (·.id == d.id)) hd (beq_self_eq_true _)
  refine ⟨before, e, after, hsplit, eq_of_beq he, ?_, unregister_of_not_contains ?_⟩
  · simp only [Registry.unregister, hc, herase]
  · simp [contains, h.entries_unregister]

/-- Whatever is done to a new registry, ids rise as they are given out, and its entries
are the registrations that were made and not removed since, in order. An id that is
there is removed with its own entry, which leaves the others in order; any other
changes nothing. -/
theorem registrations_of_run (os : List (Op σ)) :
    let r := ((∅ : Registry σ).run os).1
    let answers := ((∅ : Registry σ).run os).2
    let handles := answers.filterMap Answer.handle?
    handles.Pairwise (· < ·) ∧ r.nextId = handles.length + 1 ∧
    r.entries = standing (os.zip answers) ∧
    r.entries.Pairwise (fun d e => d.id < e.id) ∧ (∀ e ∈ r.entries, e.id < r.nextId) ∧
    (∀ id, r.contains id = true ↔ ∃ e ∈ standing (os.zip answers), e.id = id) ∧
    (∀ id, if r.contains id then
        ∃ before e after, r.entries = before ++ e :: after ∧ e.id = id ∧
          r.unregister id = (true, ⟨before ++ after, r.nextId⟩) ∧
          (r.unregister id).2.unregister id = (false, (r.unregister id).2)
      else r.unregister id = (false, r)) ∧
    r.clear = (r.entries.length, ⟨[], r.nextId⟩) ∧
    r.stats.allInstruments = (r.entries.filter (·.filter.isAll)).length ∧
    r.stats.allInstruments + r.stats.filtered = r.stats.subscribers ∧ r.stats.subscribers = r.size := by
  intro r answers handles
  have hsound : r.Sound := sound_empty.run os
  have hentries : r.entries = standing (os.zip answers) := sound_empty.entries_run os
  obtain ⟨hhandles, hnext⟩ := (∅ : Registry σ).handles_run os
  refine ⟨?_, hnext.trans (Nat.add_comm ..), hentries, hsound.rising, hsound.below, fun id => ?_, fun id => ?_, rfl,
    List.countP_eq_length_filter, ?_, rfl⟩
  · rw [show handles = List.range' 1 handles.length from hhandles]
    exact List.pairwise_lt_range'
  · rw [contains_iff, hentries]
  · split
    · exact hsound.unregister_of_contains ‹_›
    · exact unregister_of_not_contains (Bool.eq_false_iff.mpr ‹_›)
  · exact Nat.add_sub_cancel' List.countP_le_length

end Registry

end PriceBoard
