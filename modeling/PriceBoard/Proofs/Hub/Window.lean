import Mathlib.Data.List.Basic
import PriceBoard.Proofs.Hub.Order

/-!
# Exact and ordered delivery

A registration is due the accepted rates that its filter admits and whose copy
of the entries falls between its making and its removal. Whatever threads do,
these are what it receives, each once and in order
(`deliveriesTo_of_subscribe`).
-/

namespace PriceBoard

def Move.removes (id : SubscriptionId) : Move → Bool
  | unregister other _ => other == id
  | clearRegistry _ => true
  | _ => false

/-- The moves that a publish has yet to make once it has copied the entries. -/
def Move.endsPublish : Move → Bool
  | writeTable .. | account .. => true
  | _ => false

/-- What happened up to the removal of a registration. -/
def whileKept (id : SubscriptionId) (since : List Event) : List Event :=
  since.takeWhile fun e => !e.move.removes id

/-- What a registration is to receive of the publishes since it was made. -/
def due (id : SubscriptionId) (f : Filter) (since : List Event) : List (Rate Float) :=
  (accepted (whileKept id since)).filter fun r => f.admits r.key

/-- What a move adds to what is due, given whether the registration is gone already. -/
def dueOf (f : Filter) (gone : Bool) (mv : Move) : List (Rate Float) :=
  if gone then [] else mv.accepted?.toList.filter fun r => f.admits r.key

theorem dueOf_of_removes {id : SubscriptionId} {mv : Move} (h : mv.removes id) (f : Filter) (gone : Bool) :
    dueOf f gone mv = [] := by
  cases mv with
  | unregister | clearRegistry => simp [dueOf, Move.accepted?]
  | _ => simp [Move.removes] at h

theorem due_cons (id : SubscriptionId) (f : Filter) (e : Event) (since : List Event) :
    due id f (e :: since) = if e.move.removes id then [] else dueOf f false e.move ++ due id f since := by
  cases hr : e.move.removes id
  · simp [due, whileKept, dueOf, hr, accepted_cons]
  · simp [due, whileKept, hr, accepted]

theorem due_snoc (id : SubscriptionId) (f : Filter) (since : List Event) (e : Event) :
    due id f (since ++ [e]) = due id f since ++ dueOf f (since.any (·.move.removes id)) e.move := by
  induction since with
  | nil =>
    rw [List.nil_append, due_cons]
    cases hr : e.move.removes id
    · simp [due, whileKept, accepted]
    · simp [due, whileKept, accepted, dueOf_of_removes hr]
  | cons d since ih =>
    rw [List.cons_append, due_cons, due_cons, ih]
    cases hr : d.move.removes id <;> simp [hr, dueOf]

/-! ## The registry -/

theorem Registry.Sound.onHub {hub : Hub} (h : hub.registry.Sound) (mv : Move) : (mv.onHub hub).registry.Sound := by
  cases mv with
  | register a f _ | registerLoading a f _ => exact h.register a f
  | unregister id _ => exact h.unregister id
  | clearRegistry _ => exact h.clear
  | _ => exact h

theorem Move.nextId_le_onHub (mv : Move) (hub : Hub) : hub.registry.nextId ≤ (mv.onHub hub).registry.nextId := by
  cases mv with
  | register | registerLoading => exact Nat.le_succ _
  | _ => exact Nat.le_refl _

theorem Registry.Sound.held_onHub {hub : Hub} (h : hub.registry.Sound) {id : SubscriptionId}
    (given : id < hub.registry.nextId) (mv : Move) :
    (mv.onHub hub).registry.entries.filter (·.id == id) =
      if mv.removes id then [] else hub.registry.entries.filter (·.id == id) := by
  cases mv with
  | register a f _ | registerLoading a f _ =>
    have hne : hub.registry.nextId ≠ id := Nat.ne_of_gt given
    simp [Move.onHub, Registry.register, Move.removes, hne]
  | unregister other _ =>
    simp only [Move.onHub, Move.removes, h.entries_unregister, List.filter_filter]
    by_cases ho : other = id
    · subst ho
      simp
    · have hp : ∀ e ∈ hub.registry.entries, ((e.id == id) && (e.id != other)) = (e.id == id) := fun e _ => by
        by_cases he : e.id = id
        · simp [he, Ne.symm ho]
        · simp [he]
      simp [ho, List.filter_congr hp]
  | clearRegistry _ => simp [Move.onHub, Registry.clear, Move.removes]
  | _ => simp [Move.onHub, Move.removes]

theorem Move.grants_eq_dueOf {hub : Hub} {id : SubscriptionId} {f : Filter} {gone : Bool}
    (given : id < hub.registry.nextId)
    (held : (hub.registry.entries.filter (·.id == id)).map (·.filter) = if gone then [] else [f]) (mv : Move) :
    mv.grants hub id = dueOf f gone mv := by
  cases mv with
  | copyEntries r =>
    rw [grants, List.filter_comm]
    cases gone with
    | true =>
      rw [List.map_eq_nil_iff.mp held]
      rfl
    | false =>
      obtain ⟨e, he, hf⟩ := List.map_eq_singleton_iff.mp held
      rw [he, ← hf]
      cases ha : e.filter.admits r.key <;> simp [dueOf, accepted?, ha]
  | registerLoading a g replay => simp [grants, dueOf, accepted?, Nat.ne_of_gt given]
  | _ => simp [grants, dueOf, accepted?]

theorem Move.grants_of_nextId_le (mv : Move) {hub : Hub} (h : hub.registry.Sound) {id : SubscriptionId}
    (hid : (mv.onHub hub).registry.nextId ≤ id) : mv.grants hub id = [] := by
  cases mv with
  | copyEntries r =>
    have hne : ∀ e ∈ hub.registry.entries.filter (·.filter.admits r.key), ¬ (e.id == id) = true := fun e he hi =>
      Nat.ne_of_lt (Nat.lt_of_lt_of_le (h.below e (List.mem_filter.mp he).1) hid) (beq_iff_eq.mp hi)
    rw [grants, List.filter_eq_nil_iff.mpr hne, List.map_nil]
  | registerLoading a g replay => exact if_neg (Nat.ne_of_lt hid)
  | _ => rfl

/-! ## Replays -/

theorem Outside.tellReplayed {agenda : List Move} (h : Outside agenda) (id : SubscriptionId) (n : Nat) :
    .tellReplayed id n ∉ agenda := by
  induction h with
  | nil => simp
  | calm hc _ ih =>
    refine fun hm => (List.mem_cons.mp hm).elim (fun e => ?_) ih
    rw [← e] at hc
    cases hc
  | «open» ho _ ih => cases ho <;> simpa using ih

theorem Move.tellReplayed_mem_make {s : Shared} {t : Thread} {mv : Move} {id : SubscriptionId} {n : Nat}
    (h : .tellReplayed id n ∈ (mv.make s t).2.2) :
    s.hub.registry.nextId = id ∧ (mv.onHub s.hub).registry.nextId = id + 1 := by
  by_cases hp : mv.isPlain
  · cases isPlain_of_mem_make hp h
  · cases mv with
    | registerLoading a f replay =>
      simp only [make, List.mem_append, List.mem_cons, List.mem_map] at h
      simp [Registry.register] at h
      exact ⟨h.1.symm, by simp [onHub, Registry.register, h.1]⟩
    | deliver e r => cases isPlain_of_mem_deliver h
    | _ => simp [make, isPlain] at h hp

/-! ## The end of a section -/

theorem Inside.promises_eq_nil {table : RateTable Float} {now : List Move} (h : Inside table now)
    {id : SubscriptionId} (idle : ∀ mv ∈ now, ¬ mv.endsPublish) (apart : ∀ n, .tellReplayed id n ∉ now) :
    now.flatMap (Move.promises id) = [] := by
  cases h with
  | «open» ho => cases ho <;> rfl
  | writeTable es _ => exact absurd rfl (idle _ List.mem_cons_self)
  | countPublish hd => exact absurd rfl (idle _ (List.mem_cons_of_mem _ (hd.mem_last List.mem_cons_self)))
  | publishing hd => exact absurd rfl (idle _ (hd.mem_last List.mem_cons_self))
  | registerLoading => rfl
  | @loading other n _ hd =>
    refine hd.promises_eq_nil (fun e r hk => ?_) (by simp [Move.promises])
    rw [Move.promises, if_neg]
    rintro rfl
    exact apart n (hk ▸ hd.mem_last List.mem_cons_self)
  | done hp => exact Move.flatMap_promises_of_isPlain hp id

namespace Machine

/-- What holds of a machine whose hub was new at the start. -/
structure Lawful (m : Machine) : Prop where
  sectioned : m.Sectioned
  sound : m.shared.hub.registry.Sound
  /-- An id that was not given yet has received nothing. -/
  fresh : ∀ id, m.shared.hub.registry.nextId ≤ id → m.shared.hub.deliveriesTo id ++ m.promised id = []
  replaying : ∀ i id n, .tellReplayed id n ∈ m.agenda i → id < m.shared.hub.registry.nextId

/-- How a registration with a filter stands, having started with some deliveries. -/
structure Following (id : SubscriptionId) (f : Filter) (base : List (Rate Float)) (since : List Event)
    (m : Machine) : Prop where
  sectioned : m.Sectioned
  sound : m.shared.hub.registry.Sound
  given : id < m.shared.hub.registry.nextId
  held : (m.shared.hub.registry.entries.filter (·.id == id)).map (·.filter) =
    if since.any (·.move.removes id) then [] else [f]
  received : m.shared.hub.deliveriesTo id ++ m.promised id = base ++ due id f since

theorem lawful_ofPrograms {s : Shared} (new : s.hub = {}) (programs : List (List Call)) :
    (ofPrograms s programs).Lawful where
  sectioned := sectioned_ofPrograms s programs
  sound := by
    rw [show (ofPrograms s programs).shared.hub = {} from new]
    exact Registry.sound_empty
  fresh id _ := by
    rw [show (ofPrograms s programs).shared.hub = {} from new]
    rfl
  replaying i id n hn :=
    absurd hn (((sectioned_ofPrograms s programs).outside i nofun).tellReplayed id n)

theorem Lawful.made {m m' : Machine} {i : Nat} {mv : Move} (h : m.Lawful) (hm : m.Made i mv m') :
    m'.Lawful where
  sectioned := h.sectioned.made hm
  sound := hm.hub ▸ h.sound.onHub mv
  fresh id hid := by
    rw [hm.hub] at hid
    have hlt := Nat.le_trans (mv.nextId_le_onHub _) hid
    rw [h.sectioned.conserve hm, h.fresh id hlt, mv.grants_of_nextId_le h.sound hid]
    rfl
  replaying j id n hn := by
    rw [hm.hub]
    rcases hm.mem_agenda hn with hn | ⟨-, t, hn⟩
    · exact Nat.lt_of_lt_of_le (h.replaying j id n hn) (mv.nextId_le_onHub _)
    · exact (Move.tellReplayed_mem_make hn).2 ▸ Nat.lt_succ_self _

theorem lawful_follow {s : Shared} (new : s.hub = {}) (programs : List (List Call)) (schedule : List Nat) :
    ((ofPrograms s programs).follow schedule).Lawful :=
  follow_induction (fun _ _ _ _ h hm => h.made hm) (lawful_ofPrograms new programs) schedule

theorem Following.made {id : SubscriptionId} {f : Filter} {base : List (Rate Float)} {since : List Event}
    {m m' : Machine} {i : Nat} {mv : Move} (h : m.Following id f base since) (hm : m.Made i mv m') :
    m'.Following id f base (since ++ [⟨i, mv⟩]) where
  sectioned := h.sectioned.made hm
  sound := hm.hub ▸ h.sound.onHub mv
  given := hm.hub ▸ Nat.lt_of_lt_of_le h.given (mv.nextId_le_onHub _)
  held := by
    rw [hm.hub, h.sound.held_onHub h.given]
    by_cases hr : mv.removes id
    · simp [hr]
    · simp [hr, h.held]
  received := by
    rw [h.sectioned.conserve hm, h.received, Move.grants_eq_dueOf h.given h.held, due_snoc, List.append_assoc]

/-! ## What is received -/

/-- Some publish has copied the entries and has not come to its end. -/
def IsPublishing (m : Machine) : Prop := ∃ t ∈ m.threads, ∃ mv ∈ t.agenda, mv.endsPublish

theorem Sectioned.promised_eq_nil {m : Machine} (h : m.Sectioned) (idle : ¬ m.IsPublishing) {id : SubscriptionId}
    (apart : ∀ i n, .tellReplayed id n ∉ m.agenda i) : m.promised id = [] := by
  rcases h.underway with hu | ⟨i, rest, ha, hi⟩
  · rw [promised, hu]
    rfl
  · have hmem : ∀ mv ∈ m.underway, mv ∈ m.agenda i := fun mv hm => ha ▸ List.mem_append_left _ hm
    refine hi.promises_eq_nil (fun mv hm he => ?_) fun n hm => apart i n (hmem _ hm)
    obtain ⟨t, ht, hmt⟩ := exists_thread_of_mem (hmem mv hm)
    exact idle ⟨t, ht, mv, hmt, he⟩

/-! ## Subscriptions -/

theorem Lawful.following {m m' : Machine} {i : Nat} {mv : Move} (hl : m.Lawful) (hm : m.Made i mv m')
    {h : Handler} {f : Filter} {base : List (Rate Float)}
    (made : (mv.onHub m.shared.hub).registry = (m.shared.hub.registry.register h f).2)
    (granted : mv.grants m.shared.hub (m.shared.hub.registry.register h f).1 = base) :
    m'.Following (m.shared.hub.registry.register h f).1 f base [] where
  sectioned := hl.sectioned.made hm
  sound := hm.hub ▸ hl.sound.onHub _
  given := by
    rw [hm.hub, made]
    exact Nat.lt_succ_self _
  held := by
    have hne : ∀ e ∈ m.shared.hub.registry.entries, ¬ (e.id == m.shared.hub.registry.nextId) = true :=
      fun e he hi => Nat.ne_of_lt (hl.sound.below e he) (beq_iff_eq.mp hi)
    rw [hm.hub, made]
    simp [Registry.register, List.filter_eq_nil_iff.mpr hne]
  received := by
    rw [hl.sectioned.conserve hm, hl.fresh (m.shared.hub.registry.register h f).1 (Nat.le_refl _), granted]
    simp [due, whileKept, accepted]

theorem Following.apart_made {id : SubscriptionId} {f : Filter} {base : List (Rate Float)} {since : List Event}
    {m m' : Machine} {i : Nat} {mv : Move} (h : m.Following id f base since) (hm : m.Made i mv m')
    (apart : ∀ j n, .tellReplayed id n ∉ m.agenda j) : ∀ j n, .tellReplayed id n ∉ m'.agenda j := by
  intro j n hn
  rcases hm.mem_agenda hn with hn | ⟨-, t, hn⟩
  · exact apart j n hn
  · exact Nat.ne_of_gt h.given (Move.tellReplayed_mem_make hn).1

/-- Along every schedule a subscription receives a beginning of what it is due,
and all of it once no publish is under way. -/
theorem deliveriesTo_of_subscribe {s : Shared} (new : s.hub = {}) (programs : List (List Call))
    (before after : List Nat) {i : Nat} {h : Handler} {f : Filter} {asker : Asker} {rest : List Move}
    (next : ((ofPrograms s programs).follow before).agenda i = .register h f asker :: rest) :
    let start := ofPrograms s programs
    let id := ((start.follow before).shared.hub.registry.register h f).1
    let since := (start.follow (before ++ [i])).trace after
    let m := start.follow (before ++ i :: after)
    accepted (start.trace (before ++ i :: after)) = entered (start.trace (before ++ i :: after)) ∧
    m.shared.hub.deliveriesTo id <+: due id f since ∧
    (¬ m.IsPublishing → m.shared.hub.deliveriesTo id = due id f since) := by
  intro start id since m
  have hl : (start.follow before).Lawful := lawful_follow new programs before
  obtain ⟨hm, cut⟩ := follow_through next (by simp)
  have hstart : (start.follow (before ++ [i])).Following id f [] [] ∧
      ∀ j n, .tellReplayed id n ∉ (start.follow (before ++ [i])).agenda j := by
    refine ⟨hl.following hm rfl rfl, fun j n hn => ?_⟩
    rcases hm.mem_agenda hn with hn | ⟨-, t, hn⟩
    · exact Nat.lt_irrefl _ (hl.replaying j id n hn)
    · simp [Move.make] at hn
  have hend := trace_induction
    (P := fun since m => m.Following id f [] since ∧ ∀ j n, .tellReplayed id n ∉ m.agenda j)
    (fun since m j mv m' h hm => ⟨h.1.made hm, h.1.apart_made hm h.2⟩) after [] _ hstart
  rw [List.nil_append, ← (cut after).1] at hend
  obtain ⟨hf, apart⟩ := hend
  have received : m.shared.hub.deliveriesTo id ++ m.promised id = due id f since := hf.received
  refine ⟨accepted_eq_entered (sectioned_ofPrograms s programs) rfl _, ⟨_, received⟩, fun idle => ?_⟩
  rwa [hf.sectioned.promised_eq_nil idle apart, List.append_nil] at received

/-- A publish takes the lock, a subscriber that always fails comes in between, and
the next publish is stopped once it has copied the entries. -/
theorem deliveriesTo_of_subscribe_amid_publishes :
    let r : Rate Float := .ofQuote "EURUSD" 1 2 "T" default
    let q : Rate Float := .ofQuote "GBPUSD" 2 3 "T" default
    let h : Handler := .steady "broken" [.note] (.fails .other)
    let programs : List (List Call) := [[.publish r], [.subscribe h .all], [.publish q]]
    let after := List.replicate 9 0 ++ [2, 2]
    ((ofPrograms {} programs).follow [0]).agenda 1 = [.register h .all .program] ∧
      (((ofPrograms {} programs).follow ([0] ++ 1 :: after)).shared.hub.deliveriesTo 1).map (·.key) = ["EURUSD"] ∧
      (due 1 .all (((ofPrograms {} programs).follow ([0] ++ [1])).trace after)).map (·.key) = ["EURUSD", "GBPUSD"] ∧
      ((ofPrograms {} programs).follow ([0] ++ 1 :: after)).shared.hub.deliveriesTo 1 <+:
        due 1 .all (((ofPrograms {} programs).follow ([0] ++ [1])).trace after) := by
  intro r q h programs after
  have valid : r.fault? = none := Option.isNone_iff_eq_none.mp (by decide +kernel)
  have next : ((ofPrograms {} programs).follow [0]).agenda 1 = [.register h .all .program] := by
    simp [programs, ofPrograms, follow, step?, agenda, Call.moves, valid]
  have first : (((ofPrograms {} programs).follow [0]).shared.hub.registry.register h .all).1 = 1 := by
    decide +kernel
  have received := (deliveriesTo_of_subscribe (s := {}) rfl programs [0] after next).2.1
  rw [first] at received
  exact ⟨next, by decide +kernel, by decide +kernel, received⟩

end Machine

end PriceBoard
