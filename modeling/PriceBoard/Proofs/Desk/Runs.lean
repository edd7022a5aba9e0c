import PriceBoard.Proofs.Desk.Session
import PriceBoard.Proofs.Hub.Alone
import PriceBoard.Proofs.Task.Process

/-!
# Desks at work

A desk that settles does everything at once, one component after the other. It does so
by steps of a session in which nobody moves in between (`Reaches.settle`), and so does
a desk that waits or is asked for its board (`Reaches.advance`, `Reaches.query`).
-/

namespace PriceBoard

open Time (Nanos)
open Relation (ReflTransGen)

namespace Machine

theorem agenda_place_self {m : Machine} {i : Nat} (hi : i < m.threads.length) (state : Shared × Thread)
    (moves : List Move) : (m.place i state moves).agenda i = moves := by
  simp [agenda, place, hi]

theorem agenda_place_ne (m : Machine) {i j : Nat} (h : j ≠ i) (state : Shared × Thread) (moves : List Move) :
    (m.place i state moves).agenda j = m.agenda j := by
  simp [agenda, place, Ne.symm h]

end Machine

def Desk.withFeed (d : Desk) (out : FeedLoop × Shared) : Desk := { d with feed := out.1 }.setShared out.2

namespace Session

variable {s₀ s : Session} {d : Desk} {tick : Option (List (Rate Float))} {stage : Stage}

theorem Run.trans {s₁ s₂ : Session} {first last : List Event} (h : Run s₀ first s₁) (k : Run s₁ last s₂) :
    Run s₀ (first ++ last) s₂ := by
  induction k with
  | start => rwa [List.append_nil]
  | move _ hm ih =>
    rw [← List.append_assoc]
    exact ih.move hm
  | step _ hs ih => exact ih.step hs

theorem exists_run_of_steps {m : Machine} (h : ReflTransGen Machine.Step s.machine m) :
    ∃ past, Run s past { s with machine := m } := by
  induction h with
  | refl => exact ⟨[], .start⟩
  | tail _ hs ih =>
    obtain ⟨past, hr⟩ := ih
    cases hs with
    | of i hs =>
      obtain ⟨mv, hm⟩ := Machine.step?_made hs
      exact ⟨_, hr.move hm⟩

/-! ## Rest -/

structure Rests (s : Session) (d : Desk) (tick : Option (List (Rate Float))) (stage : Stage) : Prop where
  display : s.display = d.display
  feed : s.feed = d.feed
  subscription : s.subscription = d.subscription
  tick : s.tick = tick
  stage : s.stage = stage
  free : s.machine.holder = none
  idle : ∀ i, s.machine.agenda i = []
  threads : 3 ≤ s.machine.threads.length

def Reaches (s₀ : Session) (d : Desk) (tick : Option (List (Rate Float))) (stage : Stage) : Prop :=
  ∃ past s, Run s₀ past s ∧ s.Rests d tick stage

theorem Reaches.display (h : Reaches s₀ d tick stage) {x : Display}
    (hx : ∀ s : Session, s.display = d.display → Step s (s.setDisplay x)) :
    Reaches s₀ { d with display := x } tick stage := by
  obtain ⟨past, s, hr, hs⟩ := h
  exact ⟨past, _, hr.step (hx s hs.display), rfl, hs.feed, hs.subscription, hs.tick, hs.stage, hs.free, hs.idle,
    hs.threads⟩

theorem Reaches.write (h : Reaches s₀ d tick stage) (e : LogEntry) : Reaches s₀ (d.write e) tick stage :=
  h.display fun s hs => by
    have hw := Step.write s e
    rwa [hs] at hw

theorem Reaches.same (h : Reaches s₀ d tick stage) {d' : Desk} (display : d'.display = d.display)
    (feed : d'.feed = d.feed) (subscription : d'.subscription = d.subscription) : Reaches s₀ d' tick stage := by
  obtain ⟨past, s, hr, hs⟩ := h
  exact ⟨past, s, hr, hs.display.trans display.symm, hs.feed.trans feed.symm,
    hs.subscription.trans subscription.symm, hs.tick, hs.stage, hs.free, hs.idle, hs.threads⟩

theorem Reaches.assign (h : Reaches s₀ d tick stage) {i : Nat} (hi : i < 3) (moves : List Move)
    {state : Shared × Thread} (tick' : Option (List (Rate Float))) (stage' : Stage)
    (hm : ∀ m : Machine, i < m.threads.length → m.holder = none →
      ReflTransGen Machine.Step (m.place i (d.shared, {}) moves) (m.place i state []))
    (hx : ∀ s : Session, s.Rests d tick stage →
      Step s { s with machine := s.machine.assign i moves, tick := tick', stage := stage' }) :
    Reaches s₀ (d.setShared state.1) tick' stage' := by
  obtain ⟨past, s, hr, hs⟩ := h
  have hlt : i < s.machine.threads.length := Nat.lt_of_lt_of_le hi hs.threads
  have hd : s.machine.shared = d.shared := congrArg Display.shared hs.display
  have hscreen : s.screen = d.display.screen := congrArg Display.screen hs.display
  have hstart : s.machine.assign i moves = s.machine.place i (d.shared, {}) moves := by
    rw [← hd]
    rfl
  obtain ⟨later, hl⟩ := exists_run_of_steps
    (s := { s with machine := s.machine.assign i moves, tick := tick', stage := stage' })
    (hstart ▸ hm s.machine hlt hs.free)
  refine ⟨_, _, (hr.step (hx s hs)).trans hl, ?_, hs.feed, hs.subscription, rfl, rfl, hs.free, fun j => ?_, ?_⟩
  · show Display.mk state.1 s.screen = _
    rw [hscreen]
    rfl
  · by_cases hj : j = i
    · rw [hj]
      exact Machine.agenda_place_self hlt _ []
    · exact (s.machine.agenda_place_ne hj _ []).trans (hs.idle j)
  · simpa [Machine.place] using hs.threads

theorem Reaches.call (h : Reaches s₀ d tick stage) {i : Nat} (hi : i < 3) {c : Call}
    (tick' : Option (List (Rate Float))) (stage' : Stage)
    (hx : ∀ s : Session, s.Rests d tick stage →
      Step s { s with machine := s.machine.assign i c.moves, tick := tick', stage := stage' }) :
    Reaches s₀ (d.setShared (d.shared.runMoves c.moves).1) tick' stage' :=
  h.assign hi c.moves tick' stage' (fun _ hlt free => Machine.steps_call hlt free c (d.shared, {})) hx

theorem Reaches.refeed (h : Reaches s₀ d tick stage) (feed : FeedLoop) (tick' : Option (List (Rate Float)))
    (hx : ∀ s : Session, s.Rests d tick stage → Step s { s with feed := feed, tick := tick' }) :
    Reaches s₀ { d with feed := feed } tick' stage := by
  obtain ⟨past, s, hr, hs⟩ := h
  exact ⟨past, _, hr.step (hx s hs), hs.display, rfl, hs.subscription, rfl, hs.stage, hs.free, hs.idle, hs.threads⟩

/-! ## The screen and the monitor -/

theorem reaches_turns {x : Display} (h : Reaches s₀ d tick stage) (hx : ReflTransGen Display.Turn d.display x) :
    Reaches s₀ { d with display := x } tick stage := by
  induction hx with
  | refl => exact h
  | tail _ ht ih =>
    refine ih.display fun s hs => .screen ?_
    rw [hs]
    exact ht

theorem Reaches.settleScreen (h : Reaches s₀ d tick stage) (now : Nanos) :
    Reaches s₀ (d.settleScreen now) tick stage := reaches_turns h (Display.turns_settle d.display now)

theorem Reaches.post (h : Reaches s₀ d tick stage) {m : Message} (noRate : m.rate? = none) (noEnd : m ≠ .shutdown) :
    Reaches s₀ { d with display := (d.display.post m).2 } tick stage :=
  h.display fun s hs => by
    have hp := Step.post s noRate noEnd
    rwa [hs] at hp

theorem Reaches.callOther (h : Reaches s₀ d tick stage) {c : Call} (quiet : c.IsQuiet d.subscription)
    (unpublished : stage.isLate → ∀ mv ∈ c.moves, mv.accepted? = none) :
    Reaches s₀ (d.setShared (d.shared.runMoves c.moves).1) tick stage := by
  refine h.call (i := 2) (by omega) tick stage fun s hs => ?_
  have hc := Step.call (Nat.le_refl 2) (hs.idle 2) (hs.subscription ▸ quiet) (hs.stage ▸ unpublished)
  rwa [← hs.tick, ← hs.stage]

theorem Reaches.settleMonitor (h : Reaches s₀ d tick stage) (now : Nanos) :
    Reaches s₀ (d.settleMonitor now) tick stage := by
  unfold Desk.settleMonitor Monitor.settle Monitor.beat
  dsimp only
  split
  · split
    · exact (h.write Monitor.cancelledEntry).same rfl rfl rfl
    · split
      · exact (h.callOther (c := .check) trivial fun _ mv hm => by
          rw [List.mem_singleton.mp hm]; rfl).same rfl rfl rfl
      · exact h.same rfl rfl rfl
  · exact h.same rfl rfl rfl

/-! ## The feed -/

def Knows (d : Desk) (stage : Stage) : Prop := d.isClosing = true ↔ stage ≠ .running

theorem shared_publish (isClosing : Bool) (r : Rate Float) (s : Shared) :
    ((Desk.outlet isClosing).publish r s).2 = (s.runMoves (Call.publish r).moves).1 := by
  simp only [Desk.outlet, Shared.publish]
  cases r.fault? <;> rfl

theorem Reaches.publishAll {rates : List (Rate Float)} (h : Reaches s₀ d (some rates) stage) (hc : Knows d stage)
    (t : TickSummary) :
    Reaches s₀ (d.setShared (Feed.publishAll (Desk.outlet d.isClosing) rates t d.shared).2) none stage := by
  -- the desk changes with every rate, but not whether it is closing
  induction rates generalizing d t with
  | nil =>
    refine h.refeed d.feed none fun s hs => ?_
    have he := Step.endTick hs.tick (hs.idle 1) (.inl rfl)
    rwa [← hs.feed]
  | cons r rates ih =>
    unfold Feed.publishAll
    split
    · rename_i hcancel
      refine h.refeed d.feed none fun s hs => ?_
      have he := Step.endTick hs.tick (hs.idle 1) (.inr (hs.stage ▸ hc.mp hcancel))
      rwa [← hs.feed]
    · rename_i hcancel
      have hrun : stage = .running := Classical.not_not.mp fun hn => hcancel (hc.mpr hn)
      have hpub := h.call (i := 1) (by omega) (c := .publish r) (some rates) stage fun s hs => by
        have hp := Step.publish hs.tick (hs.idle 1) (hs.stage.trans hrun)
        rwa [← hs.stage]
      have hone : Reaches s₀ (d.setShared (Feed.publishOne (Desk.outlet d.isClosing) r t d.shared).2) (some rates)
          stage := by
        simp only [Feed.publishOne, shared_publish]
        cases Verdict.entry? r.key ((Desk.outlet d.isClosing).publish r d.shared).1 with
        | none => exact hpub
        | some e => exact hpub.write e
      exact ih hone hc _

theorem Reaches.beginFeed (h : Reaches s₀ d none stage) (now : Nanos) :
    Reaches s₀ (d.withFeed (d.feed.begin (Desk.outlet d.isClosing) now d.shared)) none stage := by
  unfold FeedLoop.begin
  split
  · rename_i hp
    have hb := h.refeed ⟨d.feed.feed, .begin 0 d.feed.feed.config.interval now⟩ none fun s hs => by
      have hb := Step.begin (s := s) now (by rw [hs.feed]; exact hp)
      rwa [hs.feed, hs.tick] at hb
    dsimp only
    split
    · exact hb
    · exact hb.write _
  · exact h

theorem Reaches.heedFeed (h : Reaches s₀ d none stage) (hc : Knows d stage) :
    Reaches s₀ (d.withFeed (d.feed.heed (Desk.outlet d.isClosing) d.shared)) none stage := by
  unfold FeedLoop.heed
  split
  · rename_i due hp
    split
    · rename_i hcancel
      have hh := h.refeed { d.feed with phase := .ended .completed } none fun s hs => by
        have hh := Step.heed (s := s) (by rw [hs.feed]; exact hp) hs.tick (hs.stage ▸ hc.mp hcancel)
        rwa [hs.feed, hs.tick] at hh
      exact (hh.write _).write _
    · exact h
  · exact h

theorem Reaches.beatFeed (h : Reaches s₀ d none stage) (hc : Knows d stage) (now : Nanos) :
    Reaches s₀ (d.withFeed (d.feed.beat (Desk.outlet d.isClosing) now d.shared)) none stage := by
  unfold FeedLoop.beat
  split
  · rename_i due hp
    split
    · rename_i hd
      have ht := h.refeed _ _ fun s hs => by
        have ht := Step.tick (s := s) (.ofNanos now) (d.feed.feed.rng.draws d.feed.feed.instruments.length
          d.feed.feed.config.fraction).1 (d.feed.feed.rng.draws d.feed.feed.instruments.length
          d.feed.feed.config.fraction).2 (by rw [hs.feed]; exact hp) hd hs.tick
        rwa [hs.feed] at ht
      exact (ht.publishAll hc {}).write _
    · exact h
  · exact h

theorem Reaches.settleFeed (h : Reaches s₀ d none stage) (hc : Knows d stage) (now : Nanos) :
    Reaches s₀ (d.settleFeed now) none stage :=
  (((h.beginFeed now).heedFeed hc).beatFeed hc now).heedFeed hc

theorem Reaches.settle (h : Reaches s₀ d none stage) (hc : Knows d stage) (now : Nanos) :
    Reaches s₀ (d.settle now) none stage :=
  (((h.settleScreen now).settleFeed hc now).settleMonitor now).settleScreen now

theorem Reaches.advance (h : Reaches s₀ d none stage) (hc : Knows d stage) (now stop : Nanos) :
    Reaches s₀ (Desk.process.advance now stop d) none stage := by
  have hkeep (now : Nanos) (d : Desk) (hd : Reaches s₀ d none stage ∧ Knows d stage) :
      Reaches s₀ (d.settle now) none stage ∧ Knows (d.settle now) stage := ⟨hd.1.settle hd.2 now, hd.2⟩
  exact (Process.advance_keeps (p := Desk.process) hkeep now stop ⟨h, hc⟩).1

theorem Reaches.query (h : Reaches s₀ d none stage) (hc : Knows d stage) (now : Nanos) :
    Reaches s₀ (d.query now).2 none stage := by
  have hp := h.post (m := .invoke (.report d.display.shared.mailbox.accepted.size)) rfl (by simp)
  exact hp.settle hc now

end Session

end PriceBoard
