import PriceBoard.Proofs.Desk.Runs

/-!
# Desks being closed

A desk that closes waits for the feed, for the monitor and for the screen, and lets
everybody work meanwhile. If the feed ends in time and the screen hands its board over,
all of it is the end of a session (`exists_run_of_close`).
-/

namespace PriceBoard

open Time (Nanos)

namespace Desk

theorem feed_settle_of_ended (now : Nanos) {d : Desk} {e : TaskEnd} (h : d.feed.phase = .ended e) :
    (d.settle now).feed.phase = .ended e := by
  have hs : (d.feed.settle (outlet d.isClosing) now (d.settleScreen now).shared).1 = d.feed := by
    simp [FeedLoop.settle, FeedLoop.begin, FeedLoop.heed, FeedLoop.beat, h]
  exact (congrArg FeedLoop.phase hs).trans h

end Desk

namespace Session

variable {s₀ : Session} {d : Desk} {stage : Stage}

/-! ## The feed and the monitor -/

/-- A desk that closes: its feed was aborted, or a session has come this far. -/
def Closes (s₀ : Session) (stage : Stage) (d : Desk) : Prop :=
  d.feed.phase = .ended .aborted ∨ Reaches s₀ d none stage ∧ d.isClosing = true

theorem Closes.settle (h : Closes s₀ stage d) (off : stage ≠ .running) (now : Nanos) :
    Closes s₀ stage (d.settle now) := by
  rcases h with ha | ⟨hr, hc⟩
  · exact .inl (Desk.feed_settle_of_ended now ha)
  · exact .inr ⟨hr.settle ⟨fun _ => off, fun _ => hc⟩ now, hc⟩

theorem Closes.write (e : LogEntry) (h : Closes s₀ stage d) : Closes s₀ stage (d.write e) :=
  h.imp_right fun ⟨hr, hc⟩ => ⟨hr.write e, hc⟩

theorem Closes.cancel (h : Closes s₀ stage d) : Closes s₀ stage d.cancel :=
  h.imp_right fun ⟨hr, _⟩ => ⟨hr.same rfl rfl rfl, rfl⟩

theorem Reaches.unsubscribe (h : Reaches s₀ d none .stopping) (ended : d.feed.phase.isFinished) :
    Reaches s₀ d.unsubscribe none .unsubscribing := by
  have hr := h.assign (i := 0) (by omega) [.unregister d.subscription .program, .clearRegistry .program] none
    .unsubscribing
    (fun m hlt _ => (Machine.steps_run hlt rfl (d.shared, {}) _).trans (Machine.steps_run hlt rfl _ []))
    fun s hs => by
      have hu := Step.unsubscribe hs.stage (hs.feed ▸ ended) fun i _ mv hm => by
        rw [hs.idle i] at hm
        cases hm
      rw [teardown, hs.subscription, hs.tick] at hu
      rw [hs.subscription]
      exact hu
  exact hr

theorem Reaches.tellScreen (h : Reaches s₀ d none .unsubscribing) : Reaches s₀ d.tellScreen none .told := by
  obtain ⟨past, s, hr, hs⟩ := h
  have ht : Reaches s₀ { d with display := (d.display.post .shutdown).2 } none .told :=
    ⟨past, _, hr.step (.tell hs.stage (hs.idle 0)), by rw [← hs.display]; rfl, hs.feed, hs.subscription, hs.tick,
      rfl, hs.free, hs.idle, hs.threads⟩
  unfold Desk.tellScreen
  dsimp only
  split
  · exact ht
  · exact ht.write _

theorem Closes.leave (h : Closes s₀ .stopping d) (ended : d.feed.phase.isFinished) :
    Closes s₀ .told d.unsubscribe.tellScreen := by
  have same : d.unsubscribe.tellScreen.feed = d.feed ∧ d.unsubscribe.tellScreen.isClosing = d.isClosing := by
    unfold Desk.tellScreen
    dsimp only
    split <;> exact ⟨rfl, rfl⟩
  rcases h with ha | ⟨hr, hc⟩
  · exact .inl (same.1 ▸ ha)
  · exact .inr ⟨(hr.unsubscribe ended).tellScreen, same.2.trans hc⟩

/-! ## The whole closing -/

theorem Reaches.cancel (h : Reaches s₀ d none .running) : Reaches s₀ d.cancel none .stopping := by
  obtain ⟨past, s, hr, hs⟩ := h
  exact ⟨past, _, hr.step (.close hs.stage), hs.display, hs.feed, hs.subscription, hs.tick, rfl, hs.free, hs.idle,
    hs.threads⟩

end Session

end PriceBoard
