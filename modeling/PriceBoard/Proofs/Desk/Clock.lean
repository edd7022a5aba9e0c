import Mathlib.Algebra.Group.Nat.Defs
import PriceBoard.Desk
import PriceBoard.Proofs.Board.Product
import PriceBoard.Proofs.Screen.Turns
import PriceBoard.Proofs.Task.Process

/-!
# Desks and their clock

A loop with an empty interval and an instant that the clock cannot show would both end
the task that asks for them. With settings that were accepted neither can happen to
the screen, to its timers or to the feed, whatever a desk does and at whatever time
(`Reached.timely`), from its start to its closing (`Reached.close`). It happens to the
monitor exactly if its interval reaches beyond the end of the clock, since no interval
is refused for being too long.
-/

namespace PriceBoard

open Time (Nanos)

/-! ## Settings -/

theorem lt_of_readUnsigned? {bits n : Nat} {text : List Char} (h : readUnsigned? bits text = some n) :
    n < 2 ^ bits := by
  simp only [readUnsigned?, Option.ite_none_right_eq_some, Option.some.injEq] at h
  obtain ⟨⟨_, _, hlt⟩, rfl⟩ := h
  exact hlt

theorem Environment.lt_of_natural? {env : Environment} {bits n : Nat} {v : Variable}
    (h : env.natural? bits v = some n) : n < 2 ^ bits := by
  obtain ⟨text, _, ht⟩ := Option.bind_eq_some_iff.mp h
  exact lt_of_readUnsigned? ht

namespace Settings

structure Timely (s : Settings) : Prop where
  tick : 0 < s.tickInterval
  status : 0 < s.statusInterval ∧ s.statusInterval ≤ longestStatusInterval
  monitor : 0 < s.monitorInterval
  pulse : s.pulseDuration < Time.ofMillis (2 ^ 64)

theorem pulseDuration_read (env : Environment) : (read env).pulseDuration < Time.ofMillis (2 ^ 64) := by
  show ((env.natural? 64 .pulseDuration).map Time.ofMillis).getD (Time.ofMillis 500) < _
  cases h : env.natural? 64 .pulseDuration with
  | none => decide
  | some n => exact Nat.mul_lt_mul_of_pos_right (Environment.lt_of_natural? h) (by decide)

theorem timely_of_load {env : Environment} {s : Settings} (ok : load env = .ok s) : s.Timely := by
  unfold load at ok
  dsimp only at ok
  split at ok
  · cases ok
  · rename_i hf
    cases ok
    refine ⟨?_, ?_, ?_, pulseDuration_read env⟩ <;> grind [fault?]

theorem load_of_isNone {env : Environment} (h : (read env).fault?.isNone) : load env = .ok (read env) := by
  simp [load, Option.isNone_iff_eq_none.mp h]

theorem interval_curve_le (s : Settings) : s.curve.interval ≤ s.pulseDuration := Nat.div_le_self ..

end Settings

/-! ## The clock -/

/-- The clock does not end within the longest time that can be set in milliseconds. -/
def HasRoom (now : Nanos) : Prop := clockOffset + now + Time.ofMillis (2 ^ 64) ≤ clockEnd

theorem HasRoom.of_le {now later : Nanos} (h : HasRoom later) (hle : now ≤ later) : HasRoom now :=
  Nat.le_trans (Nat.add_le_add_right (Nat.add_le_add_left hle _) _) h

theorem isSome_after? {now span : Nanos} : (after? now span).isSome ↔ clockOffset + now + span < clockEnd := by
  simp [after?]

theorem HasRoom.isSome {now span : Nanos} (h : HasRoom now) (hs : span < Time.ofMillis (2 ^ 64)) :
    (after? now span).isSome :=
  isSome_after?.mpr (Nat.lt_of_lt_of_le (Nat.add_lt_add_left hs _) h)

theorem isSome_of_le {now later span : Nanos} (hle : now ≤ later) (h : (after? later span).isSome) :
    (after? now span).isSome :=
  isSome_after?.mpr (Nat.lt_of_le_of_lt (Nat.add_le_add_right (Nat.add_le_add_left hle _) _) (isSome_after?.mp h))

namespace LoopPhase

theorem eq_none_of_begin {delay period now : Nanos} {payload : Payload} (hp : 0 < period)
    (h : begin delay period now = .ended (.failed payload)) : after? now delay = none := by
  unfold begin at h
  split at h
  · assumption
  · rw [if_neg (Nat.ne_of_gt hp)] at h
    cases h

theorem isSome_of_begin {delay period now due : Nanos} (h : begin delay period now = .running due) :
    (after? now delay).isSome := by
  unfold begin at h
  split at h
  · cases h
  · rename_i hd
    rw [hd]
    rfl

theorem begin_ne_completed (delay period now : Nanos) : begin delay period now ≠ .ended .completed := by
  unfold begin
  split
  · intro h
    cases h
  · split
    · intro h
      cases h
    · intro h
      cases h

theorem of_abort {p : LoopPhase} {payload : Payload} (h : p.abort = .ended (.failed payload)) :
    p = .ended (.failed payload) := by
  cases p with
  | ended e => exact h
  | _ => cases h

theorem abort_ne_running (p : LoopPhase) (due : Nanos) : p.abort ≠ .running due := by
  cases p <;> nofun

theorem abort_ne_completed {p : LoopPhase} (h : p ≠ .ended .completed) : p.abort ≠ .ended .completed := by
  cases p with
  | ended e => exact h
  | _ => nofun

end LoopPhase

/-! ## The screen -/

/-- A timer of a fade. If the fade takes no time, only the last step is left, and the
timer waits for nothing. -/
structure Timer.Timely (c : Curve) (now : Nanos) (t : Timer) : Prop where
  curve : t.curve = c
  start : t.start ≤ now
  last : c.interval = 0 → t.next = c.steps

structure Screen.Timely (c : Curve) (n now : Nanos) (s : Screen) : Prop where
  curve : s.board.curve = c
  every : s.refreshEvery = n
  timers : ∀ t ∈ s.timers, t.Timely c now

namespace Screen.Timely

variable {c : Curve} {n now : Nanos} {s : Screen}

theorem of_le {later : Nanos} (h : s.Timely c n now) (hle : now ≤ later) : s.Timely c n later :=
  { h with timers := fun t ht => { h.timers t ht with start := Nat.le_trans (h.timers t ht).start hle } }

theorem change (h : s.Timely c n now) {b : Board Float} (hb : b.curve = s.board.curve) (changes : List Change) :
    (s.change b changes).Timely c n now := { h with curve := hb.trans h.curve }

theorem advance (h : s.Timely c n now) (key : String) (generation step : Nat) :
    let a := s.board.advance key generation step
    (s.change a.board a.changes).Timely c n now :=
  h.change (s.board.curve_perform (.advance key generation step)) _

theorem cancelTimer (h : s.Timely c n now) (key : String) : (s.cancelTimer key).Timely c n now := by
  unfold Screen.cancelTimer
  split
  · exact h
  · refine { h with timers := fun t ht => ?_ }
    obtain ⟨u, hu, rfl⟩ := List.mem_map.mp ht
    split
    · exact { h.timers u hu with }
    · exact h.timers u hu

theorem startTimer (h : s.Timely c n now) (key : String) (generation : Nat) :
    (s.startTimer key generation now).Timely c n now := by
  refine { h with timers := fun t ht => ?_ }
  rcases List.mem_append.mp ht with ht | ht
  · exact h.timers t ht
  · rw [List.mem_singleton.mp ht]
    refine ⟨h.curve, Nat.le_refl _, fun he => ?_⟩
    rw [← h.curve] at he ⊢
    exact if_pos he

theorem decay (h : s.Timely c n now) (key : String) (generation step : Nat) :
    (s.decay key generation step).Timely c n now := by
  have ha := h.advance key generation step
  unfold Screen.decay
  dsimp only
  split
  · split
    · exact { ha with }
    · exact ha
  · exact ha
  · exact ha

theorem stop (h : s.Timely c n now) : s.stop.Timely c n now := by
  refine { h with timers := fun t ht => ?_ }
  obtain ⟨u, hu, rfl⟩ := List.mem_map.mp ht
  exact { h.timers u hu with }

end Screen.Timely

namespace Display

variable {c : Curve} {n now : Nanos} {d : Display}

theorem timely_applyRate (h : d.screen.Timely c n now) (r : Rate Float) :
    (d.applyRate now r).screen.Timely c n now := by
  have hr : (d.showRate r).screen.Timely c n now := h.change (d.screen.board.curve_apply r) _
  rw [applyRate_eq]
  cases (d.screen.board.apply r).outcome.pulse? with
  | none => exact hr
  | some generation =>
    have hc := hr.cancelTimer r.key
    rw [Option.elim_some]
    unfold restartTimer
    dsimp only
    split
    · exact hc.startTimer r.key generation
    · exact hc.advance r.key generation _

theorem timely_handle (h : d.screen.Timely c n now) (m : Message) : (d.handle now m).screen.Timely c n now := by
  cases m with
  | rateUpdated r => exact timely_applyRate h r
  | decayStep key generation step => exact h.decay key generation step
  | refreshStatus => exact { h with }
  | invoke errand =>
    cases errand with
    | setStatus text => exact h.change (d.screen.board.curve_perform (.setStatus text)) _
    | report ticket => exact { h with }
    | fail text => exact { h with }
  | shutdown => exact h.stop

theorem timely_step (h : d.screen.Timely c n now) (a : Act) : (d.step now a).screen.Timely c n now := by
  cases a with
  | wait => exact h
  | begin => exact { h with }
  | heedCancel | leave => exact h.stop
  | take m => exact timely_handle (d := { d with shared := { d.shared with mailbox := d.shared.mailbox.take } }) h m
  | refresh due => exact { h with }

end Display

/-! ## Timers -/

namespace Timer

variable {c : Curve} {now later : Nanos} {t u : Timer} {b b' : Mailbox}

theorem Timely.post (h : t.Timely c now) (hp : t.post b = (some u, b')) : u.Timely c now := by
  simp only [Timer.post, Prod.mk.injEq, Option.ite_none_right_eq_some, Option.some.injEq] at hp
  obtain ⟨⟨⟨_, hlt⟩, rfl⟩, _⟩ := hp
  refine { h with last := fun he => ?_ }
  -- a timer that has only the last step left is done once it has posted it
  exact absurd (h.last he) (h.curve ▸ Nat.ne_of_lt hlt)

theorem Timely.wake (h : t.Timely c now) (hw : (t.wake later b).1 = some u) : u.Timely c now := by
  fun_induction Timer.wake later t b with
  | case1 => cases hw
  | case2 => cases hw
  | case3 t b _ _ v c hp ih => exact ih (h.post hp) hw
  | case4 => exact Option.some.inj hw ▸ h

theorem timely_wakeAll : ∀ {timers : List Timer} {b : Mailbox}, (∀ t ∈ timers, t.Timely c now) →
    ∀ u ∈ (wakeAll later timers b).1, u.Timely c now
  | [], _, _ => nofun
  | t :: timers, b, h => by
    obtain ⟨ht, hrest⟩ := List.forall_mem_cons.mp h
    intro u hu
    rcases List.mem_append.mp hu with hu | hu
    · exact ht.wake (Option.mem_toList.mp hu)
    · exact timely_wakeAll hrest u hu

end Timer

theorem Display.timely_wakeTimers {c : Curve} {n now : Nanos} {d : Display} (h : d.screen.Timely c n now) :
    (d.wakeTimers now).screen.Timely c n now := { h with timers := Timer.timely_wakeAll h.timers }

/-! ## The feed and the monitor -/

namespace FeedLoop

variable {σ : Type} {out : Outlet σ} {now : Nanos} {l : FeedLoop}

structure Timely (n : Nanos) (l : FeedLoop) : Prop where
  interval : l.feed.config.interval = n
  ne_failed : ∀ payload, l.phase ≠ .ended (.failed payload)

variable {n : Nanos}

theorem timely_settle (h : l.Timely n) (hn : 0 < n) (room : (after? now 0).isSome) (s : σ) :
    (l.settle out now s).1.Timely n := by
  have begun : (l.begin out now s).1.Timely n := by
    unfold begin
    split
    · refine ⟨h.interval, fun payload hp => ?_⟩
      have hnone := LoopPhase.eq_none_of_begin (h.interval ▸ hn) hp
      simp [hnone] at room
    · exact h
  have heeds : ∀ {l : FeedLoop} {s : σ}, l.Timely n → (l.heed out s).1.Timely n := fun {l s} h => by
    unfold heed
    split
    · split
      · exact ⟨h.interval, nofun⟩
      · exact h
    · exact h
  have beats : ∀ {l : FeedLoop} {s : σ}, l.Timely n → (l.beat out now s).1.Timely n := fun {l s} h => by
    unfold beat
    split
    · split
      · exact ⟨h.interval, nofun⟩
      · exact h
    · exact h
  exact heeds (beats (heeds begun))

end FeedLoop

/-- The monitor looks at an interval. It fails only if the clock cannot show the end of
its first one, and does nothing else if the clock never could. -/
structure Monitor.Timely (n first now : Nanos) (m : Monitor) : Prop where
  interval : m.interval = n
  failed : ∀ payload, m.phase = .ended (.failed payload) → after? now n = none
  idle : after? first n = none → (∀ due, m.phase ≠ .running due) ∧ m.phase ≠ .ended .completed

theorem Monitor.Timely.settle {n first now : Nanos} {m : Monitor} (h : m.Timely n first now) (hn : 0 < n)
    (hle : first ≤ now) (s : Shared) : (m.settle now s).1.Timely n first now := by
  have begun : (m.begin now).Timely n first now := by
    unfold begin
    split
    · refine ⟨h.interval, fun payload hp => ?_, fun overflow => ⟨fun due hd => ?_, ?_⟩⟩
      · have hnone := LoopPhase.eq_none_of_begin (h.interval ▸ hn) hp
        rwa [h.interval] at hnone
      · have hfits := isSome_of_le hle (h.interval ▸ LoopPhase.isSome_of_begin hd)
        simp [overflow] at hfits
      · exact LoopPhase.begin_ne_completed _ _ _
    · exact h
  unfold Monitor.settle Monitor.beat
  split
  · rename_i due hd
    have busy : after? first n ≠ none := fun overflow => (begun.idle overflow).1 due hd
    split
    · exact ⟨begun.interval, nofun, fun overflow => absurd overflow busy⟩
    · split
      · exact ⟨begun.interval, nofun, fun overflow => absurd overflow busy⟩
      · exact begun
  · exact begun

theorem Monitor.phase_settle_of_overflow {now : Nanos} {m : Monitor} (unstarted : m.phase = .unstarted)
    (overflow : after? now m.interval = none) (s : Shared) :
    (m.settle now s).1.phase = .ended (.failed (.text "overflow when adding duration to instant")) := by
  simp [settle, begin, beat, unstarted, LoopPhase.begin, overflow]

/-! ## The desk -/

namespace Desk

structure Origin where
  settings : Settings
  instruments : List (Instrument Float)
  status : Option String
  first : Nanos

/-- What can become of a desk. The clock does not go back; at any time the screen acts,
its timers wake, the feed or the monitor works, others use the hub and the mailbox, or
the desk is closed. -/
inductive Reached (o : Origin) : Nanos → Desk → Prop
  | start : Reached o o.first (Desk.start o.settings o.instruments o.status)
  | wait {now later : Nanos} {d : Desk} (h : Reached o now d) (hle : now ≤ later) :
      Reached o later d
  | act {now : Nanos} {d : Desk} (h : Reached o now d) :
      Reached o now { d with display := d.display.step now (d.display.act now) }
  | wake {now : Nanos} {d : Desk} (h : Reached o now d) :
      Reached o now { d with display := d.display.wakeTimers now }
  | feed {now : Nanos} {d : Desk} (h : Reached o now d) :
      Reached o now (d.settleFeed now)
  | monitor {now : Nanos} {d : Desk} (h : Reached o now d) :
      Reached o now (d.settleMonitor now)
  | share {now : Nanos} {d : Desk} (h : Reached o now d) (shared : Shared) :
      Reached o now (d.setShared shared)
  | cancel {now : Nanos} {d : Desk} (h : Reached o now d) :
      Reached o now d.cancel
  | abortFeed {now : Nanos} {d : Desk} (h : Reached o now d) :
      Reached o now (feedTask.abort d)
  | abortMonitor {now : Nanos} {d : Desk} (h : Reached o now d) :
      Reached o now (monitorTask.abort d)
  | abortScreen {now : Nanos} {d : Desk} (h : Reached o now d) :
      Reached o now { d with display := d.display.abort }

variable {o : Origin} {now : Nanos} {d : Desk}

theorem Reached.le (h : Reached o now d) : o.first ≤ now := by
  induction h with
  | start => exact Nat.le_refl _
  | wait _ hle ih => exact Nat.le_trans ih hle
  | _ => assumption

structure Timely (o : Origin) (now : Nanos) (d : Desk) : Prop where
  screen : d.display.screen.Timely o.settings.curve (max o.settings.statusInterval Screen.shortestRefresh) now
  feed : d.feed.Timely o.settings.tickInterval
  monitor : d.monitor.Timely o.settings.monitorInterval o.first now

theorem timely_start (o : Origin) : (start o.settings o.instruments o.status).Timely o o.first where
  screen := by
    obtain ⟨s, instruments, status, first⟩ := o
    cases status with
    | none => exact ⟨rfl, rfl, nofun⟩
    | some text => exact ⟨Board.curve_perform (Board.ofCurve s.curve) (.setStatus text), rfl, nofun⟩
  feed := ⟨rfl, nofun⟩
  monitor := ⟨rfl, nofun, fun _ => ⟨nofun, nofun⟩⟩

theorem Reached.timely (h : Reached o now d) (hs : o.settings.Timely) (room : HasRoom now) : d.Timely o now := by
  induction h with
  | start => exact timely_start ..
  | wait _ hle ih =>
    have before := ih (room.of_le hle)
    -- what the clock could not show it cannot show later either
    refine ⟨before.screen.of_le hle, before.feed, { before.monitor with failed := fun payload hp => ?_ }⟩
    by_contra hne
    have hsome := isSome_of_le hle (Option.isSome_iff_ne_none.mpr hne)
    simp [before.monitor.failed payload hp] at hsome
  | act _ ih => exact { ih room with screen := Display.timely_step (ih room).screen _ }
  | wake _ ih => exact { ih room with screen := Display.timely_wakeTimers (ih room).screen }
  | feed _ ih =>
    have shown : (after? _ 0).isSome := room.isSome (by decide)
    exact { ih room with feed := FeedLoop.timely_settle (ih room).feed hs.tick shown _ }
  | monitor h ih => exact { ih room with monitor := (ih room).monitor.settle hs.monitor h.le _ }
  | share _ _ ih => exact { ih room with }
  | cancel _ ih => exact { ih room with monitor := { (ih room).monitor with } }
  | abortFeed _ ih =>
    have before := (ih room).feed
    refine { ih room with feed := ⟨before.interval, fun payload hp => ?_⟩ }
    exact before.ne_failed payload (LoopPhase.of_abort hp)
  | abortMonitor _ ih =>
    have before := (ih room).monitor
    refine { ih room with monitor := ⟨before.interval, fun payload hp => ?_, fun overflow => ⟨?_, ?_⟩⟩ }
    · exact before.failed payload (LoopPhase.of_abort hp)
    · exact LoopPhase.abort_ne_running _
    · exact LoopPhase.abort_ne_completed (before.idle overflow).2
  | abortScreen _ ih =>
    refine { ih room with screen := ?_ }
    unfold Display.abort
    split
    · exact (ih room).screen
    · exact { (ih room).screen with }

/-! ## What a desk does -/

theorem monitor_settle (now : Nanos) (d : Desk) :
    (d.settle now).monitor = (d.monitor.settle now (settleFeed now (settleScreen now d)).shared).1 := rfl

theorem Reached.write (h : Reached o now d) (e : LogEntry) : Reached o now (d.write e) :=
  h.share _

theorem Reached.steps (n : Nat) (h : Reached o now d) :
    Reached o now { d with display := d.display.steps now n } := by
  induction n generalizing d with
  | zero => exact h
  | succ n ih =>
    unfold Display.steps
    split
    · exact h
    · exact ih h.act

theorem Reached.settleScreen (h : Reached o now d) :
    Reached o now (d.settleScreen now) := ((h.steps _).wake).steps _

theorem Reached.settle (h : Reached o now d) : Reached o now (d.settle now) :=
  h.settleScreen.feed.monitor.settleScreen

theorem Reached.advance {stop : Nanos} (h : Reached o now d) (hle : now ≤ stop) :
    Reached o stop (process.advance now stop d) :=
  process.advance_along (P := Reached o) (fun h hle => h.wait hle) (fun h => h.settle) hle h

theorem Reached.query (h : Reached o now d) : Reached o now (d.query now).2 :=
  (h.share (d.display.request.2).shared).settle

theorem Reached.await {ρ : Type} (h : Reached o now d) (result? : Desk → Option ρ) (stop : Nanos) :
    Reached o (process.await result? now stop d).2.1 (process.await result? now stop d).2.2 :=
  process.await_along (P := Reached o) (fun h hle => h.wait hle) (fun h => h.settle) h

theorem Reached.stopProducer {t : Task Desk} (h : Reached o now d) (ht : t.toProcess = process)
    (hw : t.write = Desk.write) (hc : t.cancel = Desk.cancel)
    (abort : ∀ {now d}, Reached o now d → Reached o now (t.abort d)) :
    Reached o (d.stopProducer t now).1 (d.stopProducer t now).2 := by
  have hawait := h.cancel.await t.ending? (now + d.grace)
  rw [← ht, ← hc] at hawait
  unfold Desk.stopProducer Task.shutdown
  dsimp only
  generalize t.await t.ending? now (now + d.grace) (t.cancel d) = out at *
  obtain ⟨ending, later, d'⟩ := out
  cases ending with
  | none => exact (abort hawait).write _
  | some e =>
    dsimp only
    cases e.detail? with
    | none => exact hw ▸ hawait.write _
    | some detail => exact hawait.write _

theorem Reached.awaitScreen (h : Reached o now d) :
    Reached o (d.awaitScreen now).2.1 (d.awaitScreen now).2.2 := by
  have hawait := h.await (·.display.screen.ending?) (now + d.grace)
  unfold Desk.awaitScreen
  dsimp only
  generalize process.await (·.display.screen.ending?) now (now + d.grace) d = out at *
  obtain ⟨ending, later, d'⟩ := out
  cases ending with
  | none => exact hawait.abortScreen
  | some e =>
    dsimp only
    cases e.detail? with
    | none => exact hawait.write _
    | some detail => exact hawait

theorem Reached.tellScreen (h : Reached o now d) : Reached o now d.tellScreen := by
  unfold Desk.tellScreen
  dsimp only
  split
  · exact h.share _
  · exact (h.share _).write _

theorem Reached.close (h : Reached o now d) :
    Reached o (d.close now).2.1 (d.close now).2.2 := by
  have hfeed := (h.write closingEntry).cancel.stopProducer (t := feedTask) rfl rfl rfl fun h => h.abortFeed
  have hmonitor := hfeed.stopProducer (t := monitorTask) rfl rfl rfl fun h => h.abortMonitor
  exact (hmonitor.share _).tellScreen.awaitScreen

/-! ## Times -/

/-- What the screen and its timers add to the time to know when to wake up. -/
def waits (d : Desk) : List Nanos :=
  d.display.screen.refreshEvery :: d.board.curve.interval :: d.display.screen.timers.map (·.curve.interval)

/-- However a desk with accepted settings runs, as long as the clock does not come to its
end: no loop has an empty interval, no fade has no steps, the clock can show when the
screen and its timers are to wake up, and the feed does not fail. The monitor fails only
if the clock cannot show the end of its interval. If the clock never could, the monitor
fails, or is aborted before it starts, and does nothing else. -/
theorem times_of_reached {env : Environment} {o : Origin} {now : Nanos} {d : Desk}
    (ok : Settings.load env = .ok o.settings) (room : HasRoom now) (h : Reached o now d) :
    (0 < d.feed.feed.config.interval ∧ 0 < d.display.screen.refreshEvery ∧ 0 < d.monitor.interval) ∧
    0 < d.board.curve.steps ∧
    (∀ t ∈ d.display.screen.timers, 0 < t.curve.steps ∧ (t.curve.interval = 0 → t.next = t.curve.steps)) ∧
    (∀ span ∈ d.waits, (after? now span).isSome) ∧
    (∀ payload, d.feed.phase ≠ .ended (.failed payload)) ∧
    (∀ payload, d.monitor.phase = .ended (.failed payload) → after? now d.monitor.interval = none) ∧
    (after? o.first d.monitor.interval = none →
      (∀ due, d.monitor.phase ≠ .running due) ∧ d.monitor.phase ≠ .ended .completed) := by
  have hs := Settings.timely_of_load ok
  have hd := h.timely hs room
  have hcurve : d.board.curve = o.settings.curve := hd.screen.curve
  have interval : (after? now o.settings.curve.interval).isSome :=
    room.isSome (Nat.lt_of_le_of_lt o.settings.interval_curve_le hs.pulse)
  have every : max o.settings.statusInterval Screen.shortestRefresh < Time.ofMillis (2 ^ 64) :=
    Nat.lt_of_le_of_lt (Nat.max_le.mpr ⟨hs.status.2, by decide⟩) (by decide : Settings.longestStatusInterval < _)
  refine ⟨⟨?_, ?_, ?_⟩, d.board.curve.steps_pos, fun t ht => ⟨t.curve.steps_pos, fun he => ?_⟩,
    fun span hspan => ?_, hd.feed.ne_failed, ?_, ?_⟩
  · rw [hd.feed.interval]
    exact hs.tick
  · rw [hd.screen.every]
    exact Nat.lt_of_lt_of_le hs.status.1 (Nat.le_max_left ..)
  · rw [hd.monitor.interval]
    exact hs.monitor
  · have timer := hd.screen.timers t ht
    rw [timer.curve] at he ⊢
    exact timer.last he
  · rcases List.mem_cons.mp hspan with rfl | hspan
    · rw [hd.screen.every]
      exact room.isSome every
    · rcases List.mem_cons.mp hspan with rfl | hspan
      · rwa [hcurve]
      · obtain ⟨t, ht, rfl⟩ := List.mem_map.mp hspan
        rwa [(hd.screen.timers t ht).curve]
  · rw [hd.monitor.interval]
    exact hd.monitor.failed
  · rw [hd.monitor.interval]
    exact hd.monitor.idle

/-- The first second of a desk with nothing set. -/
theorem times_of_reached_unset :
    let s := Settings.read fun _ => none
    let d := process.advance 0 (Time.ofSeconds 1) (start s [] none)
    Settings.load (fun _ => none) = .ok s ∧ HasRoom (Time.ofSeconds 1) ∧ 0 < d.feed.feed.config.interval ∧
      ∀ span ∈ d.waits, (after? (Time.ofSeconds 1) span).isSome := by
  intro s d
  have ok : Settings.load (fun _ => none) = .ok s := Settings.load_of_isNone (by decide +kernel)
  have room : HasRoom (Time.ofSeconds 1) := by
    unfold HasRoom
    decide
  have reached : Reached ⟨s, [], none, 0⟩ (Time.ofSeconds 1) d := Reached.start.advance (Nat.zero_le _)
  obtain ⟨⟨interval, -⟩, -, -, waits, -⟩ := times_of_reached ok room reached
  exact ⟨ok, room, interval, waits⟩

/-- The longest interval that can be read for the monitor is accepted, and the monitor
fails with it as soon as it starts. -/
theorem monitor_fails_at_once :
    let env : Environment := fun name =>
      if name = Variable.monitorInterval.name then some "18446744073709551615" else none
    let s := Settings.read env
    Settings.load env = .ok s ∧ ((start s [] none).settle 0).monitor.phase =
      .ended (.failed (.text "overflow when adding duration to instant")) := by
  intro env s
  have overflow : after? 0 s.monitorInterval = none := Option.isNone_iff_eq_none.mp (by decide +kernel)
  refine ⟨Settings.load_of_isNone (by decide +kernel), ?_⟩
  rw [monitor_settle]
  exact Monitor.phase_settle_of_overflow rfl overflow _

end Desk

end PriceBoard
