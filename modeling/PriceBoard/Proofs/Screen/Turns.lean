import Mathlib.Logic.Relation
import PriceBoard.Proofs.Board.Rows
import PriceBoard.Screen.Run

/-!
# Turns of a screen

What a screen and its timers do of their own accord, one turn at a time and in
any order: the screen does what it does next, a timer posts its next step, or a
timer finds itself cancelled. A settled screen has taken such turns
(`turns_settle`).
-/

namespace PriceBoard

open Time (Nanos)
open Relation (ReflTransGen)

namespace Mailbox

def queue (b : Mailbox) : List Message := b.accepted.toList.drop b.handled

theorem queue_of_next? {b : Mailbox} {m : Message} (h : b.next? = some m) :
    b.queue = m :: b.take.queue ∧ b.handled < b.accepted.size := by
  obtain ⟨hlt, hm⟩ := Array.getElem?_eq_some_iff.mp h
  refine ⟨?_, hlt⟩
  rw [queue, List.drop_eq_getElem_cons (by simpa using hlt)]
  simp [hm, queue, take]

theorem queue_post {b : Mailbox} (hb : b.isOpen) (hn : b.handled ≤ b.accepted.size) (m : Message) :
    (b.post m).2.queue = b.queue ++ [m] := by
  simp [post, hb, queue, List.drop_append_of_le_length, hn]

end Mailbox

namespace Display

/-- A timer posts its next step; it may be done then. -/
def tick (d : Display) (before : List Timer) (t : Timer) (after : List Timer) : Display where
  shared := { d.shared with mailbox := (t.post d.shared.mailbox).2 }
  screen := { d.screen with timers := before ++ ((t.post d.shared.mailbox).1.toList ++ after) }

inductive Turn : Display → Display → Prop
  | act (d : Display) (now : Nanos) : Turn d (d.step now (d.act now))
  | tick {d : Display} {before after : List Timer} {t : Timer} (h : d.screen.timers = before ++ t :: after) :
      Turn d (d.tick before t after)
  | retire {d : Display} {before after : List Timer} {t : Timer} (h : d.screen.timers = before ++ t :: after)
      (hc : t.isCancelled) (hh : t.heedsCancel) :
      Turn d { d with screen := { d.screen with timers := before ++ after } }

/-! ## Rates and messages -/

def showRate (d : Display) (r : Rate Float) : Display :=
  { d with screen := d.screen.change (d.screen.board.apply r).board (d.screen.board.apply r).changes }

theorem applyRate_eq (d : Display) (now : Nanos) (r : Rate Float) :
    d.applyRate now r = ((d.screen.board.apply r).outcome.pulse?.elim (d.showRate r) fun g =>
      (d.showRate r).restartTimer now r.key g) := by
  unfold applyRate
  dsimp only
  cases (d.screen.board.apply r).outcome with
  | added => rfl
  | updated i pulse => cases pulse <;> rfl

theorem mailbox_applyRate (d : Display) (now : Nanos) (r : Rate Float) :
    (d.applyRate now r).shared.mailbox = d.shared.mailbox := by
  rw [applyRate_eq]
  cases (d.screen.board.apply r).outcome.pulse? with
  | none => rfl
  | some g =>
    rw [Option.elim_some]
    unfold restartTimer
    dsimp only
    split <;> rfl

theorem next?_of_act {d : Display} {now : Nanos} {m : Message} (h : d.act now = .take m) :
    d.shared.mailbox.next? = some m := by
  unfold act at h
  split at h
  · cases h
  · cases h
  · cases h
  · cases h
  · split at h
    · cases h
    · split at h
      · cases h
        assumption
      · split at h
        · cases h
        · split at h <;> cases h

/-! ## Settling -/

theorem turns_steps (now : Nanos) : ∀ (n : Nat) (d : Display), ReflTransGen Turn d (d.steps now n)
  | 0, d => .refl
  | n + 1, d => by
    unfold steps
    split
    · exact .refl
    · exact .head (.act d now) (turns_steps now n _)

theorem turns_work (d : Display) (now : Nanos) : ReflTransGen Turn d (d.work now) := turns_steps now _ d

def withTimers (d : Display) (timers : List Timer) (b : Mailbox) : Display where
  shared := { d.shared with mailbox := b }
  screen := { d.screen with timers := timers }

theorem turns_wake (d : Display) (now : Nanos) (before after : List Timer) (t : Timer) (b : Mailbox) :
    ReflTransGen Turn (d.withTimers (before ++ t :: after) b)
      (d.withTimers (before ++ ((t.wake now b).1.toList ++ after)) (t.wake now b).2) := by
  fun_induction Timer.wake now t b with
  | case1 t b h => exact .single (.retire rfl h.1 h.2)
  | case2 t b h hd b' hp =>
    have hturn := Turn.tick (d := d.withTimers (before ++ t :: after) b) rfl
    simp only [Display.tick, withTimers, hp] at hturn
    exact .single hturn
  | case3 t b h hd u b' hp ih =>
    have hturn := Turn.tick (d := d.withTimers (before ++ t :: after) b) rfl
    simp only [Display.tick, withTimers, hp] at hturn
    exact .head hturn ih
  | case4 t b h hd => exact .refl

theorem turns_wakeAll (d : Display) (now : Nanos) : ∀ (before timers : List Timer) (b : Mailbox),
    ReflTransGen Turn (d.withTimers (before ++ timers) b)
      (d.withTimers (before ++ (Timer.wakeAll now timers b).1) (Timer.wakeAll now timers b).2)
  | before, [], b => .refl
  | before, t :: timers, b => by
    have hrest := turns_wakeAll d now (before ++ (t.wake now b).1.toList) timers (t.wake now b).2
    rw [List.append_assoc, List.append_assoc] at hrest
    exact (turns_wake d now before timers t b).trans hrest

theorem turns_settle (d : Display) (now : Nanos) : ReflTransGen Turn d (d.settle now) :=
  ((turns_work d now).trans (turns_wakeAll (d.work now) now [] _ _)).trans (turns_work _ now)

end Display

end PriceBoard
