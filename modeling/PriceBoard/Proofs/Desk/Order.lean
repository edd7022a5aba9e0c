import PriceBoard.Proofs.Desk.Session

/-!
# Who uses the hub when

Until the feed has ended, the screen's registration is there and nobody touches it.
From then on nobody publishes, and the desk removes the registrations (`Orderly.move`,
`Orderly.step`). Whoever is registered after that has come since (`Run.cleared`).
-/

namespace PriceBoard

def Move.IsTeardown (id : SubscriptionId) (mv : Move) : Prop :=
  mv.isIdle ∨ mv = .unregister id .program ∨ mv = .clearRegistry .program

namespace Move

variable {id : SubscriptionId} {mv n : Move}

theorem IsTeardown.isIdle_of_mem_make {s : Shared} {t : Thread} (h : mv.IsTeardown id)
    (hn : n ∈ (mv.make s t).2.2) : n.isIdle := by
  rcases h with h | rfl | rfl
  · exact Move.isIdle_of_mem_make h hn
  · simp only [make, List.mem_cons, List.not_mem_nil, or_false] at hn
    rcases hn with rfl | rfl
    · split <;> rfl
    · rfl
  · simp only [make, List.mem_cons, List.not_mem_nil, or_false] at hn
    rcases hn with rfl | rfl <;> rfl

theorem IsTeardown.isPlain (h : mv.IsTeardown id) : mv.isPlain := by
  rcases h with h | rfl | rfl
  · exact isPlain_of_isIdle h
  · rfl
  · rfl

theorem IsTeardown.isApart (h : mv.IsTeardown id) : mv.IsApart id := by
  rcases h with h | rfl | rfl
  · exact isApart_of_isIdle h id
  · exact ⟨rfl, rfl, rfl⟩
  · exact ⟨rfl, rfl, rfl⟩

/-! ## Moves that register -/

def registers : Move → Bool
  | register .. | registerLoading .. => true
  | _ => false

theorem IsTeardown.registers (h : mv.IsTeardown id) : mv.registers = false := by
  rcases h with h | rfl | rfl
  · cases mv <;> first | rfl | cases h
  · rfl
  · rfl

theorem entries_onHub (h : mv.registers = false) (hub : Hub) :
    (mv.onHub hub).registry.entries.Sublist hub.registry.entries := by
  cases mv with
  | register | registerLoading => cases h
  | unregister => exact List.eraseP_sublist
  | clearRegistry => exact List.nil_sublist _
  | _ => exact List.Sublist.refl _

theorem nextId_onHub (mv : Move) (hub : Hub) :
    (mv.onHub hub).registry.nextId = hub.registry.nextId + if mv.registers then 1 else 0 := by
  cases mv <;> rfl

end Move

theorem Call.isTame_of_mem_moves {board : Registration Handler} {c : Call} (h : c.IsQuiet board.id) :
    ∀ mv ∈ c.moves, mv.IsTame board := by
  intro mv hm
  cases c with
  | publish r =>
    simp only [Call.moves] at hm
    split at hm <;> simp at hm
    · exact hm ▸ trivial
    · rcases hm with rfl | rfl | rfl <;> trivial
  | subscribeAndLoad g f =>
    simp only [Call.moves, List.mem_cons, List.not_mem_nil, or_false] at hm
    rcases hm with rfl | rfl | rfl
    · trivial
    · exact h
    · trivial
  | shutdown => exact absurd h not_false
  | _ => simp [Call.moves] at hm; exact hm ▸ h

theorem Call.isApart_of_mem_moves {c : Call} {mv : Move} (hm : mv ∈ c.moves) (h : mv.accepted? = none)
    (id : SubscriptionId) : mv.IsApart id := by
  have hinner : mv.isInner = false := (outside_moves c).isInner mv hm
  exact ⟨h, Move.owes_of_isInner hinner id, Move.counts_of_isInner hinner⟩

namespace Session

structure Orderly (s : Session) : Prop where
  present : 0 < s.machine.threads.length
  sectioned : s.machine.Sectioned
  registry : s.hub.registry.Sound
  given : s.subscription < s.hub.registry.nextId
  tame : ∀ e ∈ s.hub.registry.entries, s.registration.IsTame e
  others : ∀ i, i ≠ 0 → ∀ mv ∈ s.machine.agenda i,
    mv.IsTame s.registration ∧ (s.stage.isLate → mv.IsApart s.subscription)
  own : ∀ mv ∈ s.machine.agenda 0, mv.IsTeardown s.subscription
  early : s.stage.isLate = false →
    s.machine.agenda 0 = [] ∧ s.hub.registry.entries.filter (·.id == s.subscription) = [s.registration]
  told : s.stage = .told → s.machine.agenda 0 = []
  idle : s.tick = none → s.machine.agenda 1 = []
  ticking : s.tick ≠ none → ∃ due, s.feed.phase = .running due

variable {s : Session} {i : Nat} {mv : Move} {m : Machine}

theorem Orderly.teardown_or_tame (h : s.Orderly) (hm : s.machine.Made i mv m) :
    i = 0 ∧ mv.IsTeardown s.subscription ∨ i ≠ 0 ∧ mv.IsTame s.registration := by
  by_cases hi : i = 0
  · subst hi
    exact .inl ⟨rfl, h.own mv hm.mem⟩
  · exact .inr ⟨hi, (h.others i hi mv hm.mem).1⟩

theorem Orderly.apart (h : s.Orderly) (late : s.stage.isLate) {j : Nat} :
    ∀ n ∈ s.machine.agenda j, n.IsApart s.subscription := by
  intro n hn
  by_cases hj : j = 0
  · subst hj
    exact (h.own n hn).isApart
  · exact (h.others j hj n hn).2 late

theorem Orderly.move (h : s.Orderly) (hm : s.machine.Made i mv m) : { s with machine := m }.Orderly := by
  have hh : { s with machine := m }.hub = mv.onHub s.hub := hm.hub
  refine ⟨hm.threads ▸ h.present, h.sectioned.made hm, ?_, ?_, ?_, fun j hj n hn => ?_, fun n hn => ?_,
    fun hs => ?_, fun hs => ?_, fun hs => ?_, h.ticking⟩
  · rw [hh]
    exact h.registry.onHub mv
  · rw [hh]
    exact Nat.lt_of_lt_of_le h.given (mv.nextId_le_onHub _)
  · rw [hh]
    rcases h.teardown_or_tame hm with ⟨_, ht⟩ | ⟨_, ht⟩
    · exact fun e he => h.tame e ((Move.entries_onHub ht.registers _).subset he)
    · exact Move.isTame_onHub h.given h.tame ht
  · rcases hm.mem_agenda hn with hn | ⟨rfl, t, hn⟩
    · exact h.others j hj n hn
    · have hboard : s.registration.Forwards := ⟨rfl, fun _ _ => rfl⟩
      obtain ⟨ht, hl⟩ := h.others j hj mv hm.mem
      exact ⟨Move.isTame_of_mem_make hboard h.given h.tame ht hn,
        fun late => (hl late).of_mem_make hboard h.given ht hn⟩
  · rcases hm.mem_agenda hn with hn | ⟨rfl, t, hn⟩
    · exact h.own n hn
    · exact .inl ((h.own mv hm.mem).isIdle_of_mem_make hn)
  · obtain ⟨hnil, hone⟩ := h.early hs
    have hi : i ≠ 0 := hm.ne_of_idle hnil
    have hr : mv.removes s.subscription = false := Move.removes_of_isTame (h.others i hi mv hm.mem).1
    refine ⟨(hm.others 0 (Ne.symm hi)).trans hnil, ?_⟩
    rw [hh, h.registry.held_onHub h.given, hr]
    exact hone
  · have hnil := h.told hs
    exact (hm.others 0 (hm.ne_of_idle hnil).symm).trans hnil
  · have hnil := h.idle hs
    exact (hm.others 1 (hm.ne_of_idle hnil).symm).trans hnil

theorem Orderly.setDisplay (h : s.Orderly) {d : Display} (hd : d.shared.hub = s.hub) :
    (s.setDisplay d).Orderly := by
  have hh : (s.setDisplay d).hub = s.hub := hd
  refine ⟨h.present, ⟨h.sectioned.outside, fun i hi => ?_⟩, ?_, ?_, ?_, h.others, h.own, ?_, h.told, h.idle,
    h.ticking⟩
  · have hin := h.sectioned.inside i hi
    rwa [show s.machine.shared.hub = (s.setDisplay d).hub from hd.symm] at hin
  · exact hh ▸ h.registry
  · exact hh ▸ h.given
  · exact hh ▸ h.tame
  · exact hh ▸ h.early

theorem Orderly.assign (h : s.Orderly) (hi : i ≠ 0) (idle : s.machine.agenda i = []) {moves : List Move}
    (ho : Outside moves)
    (tame : ∀ mv ∈ moves, mv.IsTame s.registration ∧ (s.stage.isLate → mv.IsApart s.subscription))
    {tick : Option (List (Rate Float))} (ticking : tick ≠ none → ∃ due, s.feed.phase = .running due)
    (between : tick = none → i ≠ 1 ∧ s.tick = none) :
    { s with machine := s.machine.assign i moves, tick := tick }.Orderly := by
  have hown : (s.machine.assign i moves).agenda 0 = s.machine.agenda 0 :=
    s.machine.agenda_assign_ne (Ne.symm hi) moves
  refine ⟨?_, h.sectioned.assign idle ho, h.registry, h.given, h.tame, fun j hj mv hm => ?_, ?_, ?_, ?_,
    fun ht => ?_, ticking⟩
  · simpa [Machine.assign] using h.present
  · rcases Machine.mem_agenda_assign hm with ⟨-, hm⟩ | ⟨-, hm⟩
    · exact tame mv hm
    · exact h.others j hj mv hm
  · exact hown ▸ h.own
  · exact hown ▸ h.early
  · exact hown ▸ h.told
  · obtain ⟨h1, ht⟩ := between ht
    exact (s.machine.agenda_assign_ne (Ne.symm h1) moves).trans (h.idle ht)

theorem mem_teardown {s : Session} {mv : Move} :
    mv ∈ s.teardown ↔ mv = .unregister s.subscription .program ∨ mv = .clearRegistry .program := by
  simp [teardown, Call.moves]

theorem Orderly.unsubscribe (h : s.Orderly) (on : s.stage = .stopping) (ended : s.feed.phase.isFinished)
    (apart : ∀ i, 2 ≤ i → ∀ mv ∈ s.machine.agenda i, mv.IsApart s.subscription) :
    { s with machine := s.machine.assign 0 s.teardown, stage := .unsubscribing }.Orderly := by
  have hl : s.stage.isLate = false := by rw [on]; rfl
  have hown : (s.machine.assign 0 s.teardown).agenda 0 = s.teardown := by
    rw [Machine.agenda_assign_self, if_pos h.present]
  have hrest (i : Nat) (hi : i ≠ 0) : (s.machine.assign 0 s.teardown).agenda i = s.machine.agenda i :=
    s.machine.agenda_assign_ne hi _
  -- a feed that has ended is in no tick
  have hfeed : s.machine.agenda 1 = [] := by
    refine h.idle (Classical.byContradiction fun ht => ?_)
    obtain ⟨due, hd⟩ := h.ticking ht
    rw [hd] at ended
    cases ended
  refine ⟨?_, h.sectioned.assign (h.early hl).1 (.calm rfl (.calm rfl .nil)), h.registry, h.given, h.tame,
    fun i hi mv hm => ?_, fun mv hm => ?_, nofun, nofun, fun _ => ?_, h.ticking⟩
  · simpa [Machine.assign] using h.present
  · have hm : mv ∈ s.machine.agenda i := hrest i hi ▸ hm
    refine ⟨(h.others i hi mv hm).1, fun _ => ?_⟩
    by_cases h1 : i = 1
    · subst h1
      rw [hfeed] at hm
      cases hm
    · exact apart i (by omega) mv hm
  · have hm : mv ∈ s.teardown := hown ▸ hm
    exact .inr (mem_teardown.mp hm)
  · exact (hrest 1 (by simp)).trans hfeed

theorem Orderly.step {s s' : Session} (h : s.Orderly) (hs : Step s s') : s'.Orderly := by
  cases hs with
  | screen ht => exact h.setDisplay ht.shared.1
  | post | write => exact h.setDisplay rfl
  | call other idle quiet unpublished =>
    refine h.assign (by omega) idle (outside_moves _) (fun mv hm => ⟨?_, fun late => ?_⟩) h.ticking
      fun ht => ⟨by omega, ht⟩
    · exact Call.isTame_of_mem_moves quiet mv hm
    · exact Call.isApart_of_mem_moves hm (unpublished late mv hm) s.subscription
  | begin now hp =>
    refine { h with ticking := fun ht => ?_ }
    obtain ⟨due, hd⟩ := h.ticking ht
    rw [hp] at hd
    cases hd
  | tick time draws rng hp hd idle => exact { h with idle := nofun, ticking := fun _ => ⟨_, rfl⟩ }
  | publish ht idle on =>
    refine h.assign (by omega) idle (outside_moves _) (fun mv hm => ⟨?_, fun late => ?_⟩)
      (fun _ => h.ticking (by simp [ht])) nofun
    · exact Call.isTame_of_mem_moves (c := .publish _) trivial mv hm
    · rw [on] at late
      cases late
  | endTick ht idle last => exact { h with idle := fun _ => idle, ticking := fun hn => absurd rfl hn }
  | heed hp idle off => exact { h with ticking := fun hn => absurd idle hn }
  | close on =>
    have hl : s.stage.isLate = false := by rw [on]; rfl
    exact { h with
      others := fun i hi mv hm => ⟨(h.others i hi mv hm).1, nofun⟩
      early := fun _ => h.early hl
      told := nofun }
  | unsubscribe on ended apart => exact h.unsubscribe on ended apart
  | tell on idle =>
    have hd : (s.setDisplay (s.display.post .shutdown).2).Orderly := h.setDisplay rfl
    have hl : s.stage.isLate := by rw [on]; rfl
    refine { hd with
      others := fun i hi mv hm => ?_
      early := nofun
      told := fun _ => idle }
    exact ⟨(h.others i hi mv hm).1, fun _ => (h.others i hi mv hm).2 hl⟩

theorem Run.orderly {s₀ : Session} {past : List Event} (h₀ : s₀.Orderly) (run : Run s₀ past s) : s.Orderly := by
  induction run with
  | start => exact h₀
  | move _ hm ih => exact ih.move hm
  | step _ hs ih => exact ih.step hs

/-! ## Who is registered after the teardown -/

theorem Step.hub {s s' : Session} (hs : Step s s') : s'.hub = s.hub := by
  cases hs with
  | screen ht => exact ht.shared.1
  | _ => rfl

/-- The registry has been cleared, and is empty unless somebody registered since. -/
def Cleared (past : List Event) (hub : Hub) : Prop :=
  ∃ before after, past = before ++ ⟨0, .clearRegistry .program⟩ :: after ∧
    ((∀ e ∈ after, e.move.registers = false) → hub.registry.entries = [])

theorem Cleared.move {past : List Event} {hub : Hub} (h : Cleared past hub) (i : Nat) (mv : Move) :
    Cleared (past ++ [⟨i, mv⟩]) (mv.onHub hub) := by
  obtain ⟨before, after, rfl, empty⟩ := h
  refine ⟨before, after ++ [⟨i, mv⟩], by simp, fun none => ?_⟩
  have hnil := empty fun e he => none e (List.mem_append_left _ he)
  have hsub := Move.entries_onHub (none ⟨i, mv⟩ (by simp)) hub
  rw [hnil] at hsub
  exact List.sublist_nil.mp hsub

/-- Once the teardown has begun, the desk has cleared the registry or is still to do so. -/
theorem Run.cleared {s₀ : Session} {past : List Event} (h₀ : s₀.Orderly) (early : s₀.stage.isLate = false)
    (run : Run s₀ past s) (late : s.stage.isLate) :
    .clearRegistry .program ∈ s.machine.agenda 0 ∨ Cleared past s.hub := by
  induction run with
  | start =>
    rw [early] at late
    cases late
  | @move past s i mv m h hm ih =>
    show .clearRegistry .program ∈ m.agenda 0 ∨ Cleared (past ++ [⟨i, mv⟩]) m.shared.hub
    rw [hm.hub]
    obtain ⟨t, rest, ha, _, hb⟩ := hm.own
    rcases ih late with hc | hc
    · by_cases hi : i = 0
      · subst hi
        rw [ha] at hc
        rcases List.mem_cons.mp hc with rfl | hc
        · exact .inr ⟨past, [], rfl, fun _ => rfl⟩
        · exact .inl (hb ▸ List.mem_append_right _ hc)
      · exact .inl ((hm.others 0 (Ne.symm hi)).symm ▸ hc)
    · exact .inr (hc.move i mv)
  | @step past s s' h hs ih =>
    rw [hs.hub]
    cases hs with
    | screen | post | write | begin | tick | endTick | heed => exact ih late
    | call | publish =>
      rw [s.machine.agenda_assign_ne (by omega)]
      exact ih late
    | close => cases late
    | unsubscribe =>
      have present := (h.orderly h₀).present
      rw [Machine.agenda_assign_self, if_pos present]
      exact .inl (mem_teardown.mpr (.inr rfl))
    | tell on => exact ih (by rw [on]; rfl)

theorem Run.nextId {s₀ : Session} {past : List Event} (run : Run s₀ past s) :
    s.hub.registry.nextId = s₀.hub.registry.nextId + past.countP (·.move.registers) := by
  induction run with
  | start => rfl
  | @move past s i mv m _ hm ih =>
    have hnext : m.shared.hub.registry.nextId = s.hub.registry.nextId + if mv.registers then 1 else 0 := by
      rw [hm.hub]
      exact mv.nextId_onHub s.hub
    rw [List.countP_append, List.countP_singleton, ← Nat.add_assoc, ← ih]
    exact hnext
  | step _ hs ih =>
    rw [hs.hub]
    exact ih

end Session

end PriceBoard
