import PriceBoard.Proofs.Hub.Forwarding
import PriceBoard.Proofs.Screen.Agreement
import PriceBoard.Proofs.Screen.Highlights

/-!
# What a screen handles

Whatever happens around a screen, its board is what comes of handling the first of
the accepted messages, each once and in order, with the status line refreshed in
between (`handled_of_run`). A task that was invoked has the board in its hands and
may leave any other in its place.
-/

namespace PriceBoard

open Time (Nanos)
open Relation (ReflTransGen)

/-! ## Deeds -/

/-- What handling a message makes of the board. When the screen is alone, with nobody
left who could post, a pulse is over as it begins. -/
def Message.on (alone : Bool) (now : Nanos) (b : Board Float) : Message → Board Float
  | .rateUpdated r =>
    let a := b.apply r
    match a.outcome.pulse?, alone with
    | some generation, true => (a.board.advance r.key generation a.board.curve.steps).board
    | _, _ => a.board
  | .decayStep key generation step => (b.advance key generation step).board
  | .refreshStatus => (b.refresh ((Time.Timestamp.ofNanos now).clockAt 0)).1
  | .invoke (.setStatus text) => (b.setStatus text).1
  | .invoke (.report _) | .invoke (.fail _) | .shutdown => b

/-- What a screen does to its board. -/
inductive Deed
  | handle (m : Message) (alone : Bool) (now : Nanos)
  /-- It handles an errand whose task also edits the board. -/
  | task (errand : Errand) (edit : Board Float → Board Float)
  | refresh (status : String)

namespace Deed

def on (b : Board Float) : Deed → Board Float
  | handle m alone now => m.on alone now b
  | task errand edit => edit (Message.on false 0 b (.invoke errand))
  | refresh status => { b with status := status }

def message? : Deed → Option Message
  | handle m _ _ => some m
  | task errand _ => some (.invoke errand)
  | refresh _ => none

def messages (past : List Deed) : List Message := past.filterMap message?

theorem messages_append (past later : List Deed) : messages (past ++ later) = messages past ++ messages later :=
  List.filterMap_append

end Deed

/-- The board after some deeds. -/
def Board.after (b : Board Float) (past : List Deed) : Board Float := past.foldl Deed.on b

theorem Board.after_append (b : Board Float) (past later : List Deed) :
    b.after (past ++ later) = (b.after past).after later := List.foldl_append

namespace Mailbox

def taken (b : Mailbox) : List Message := b.accepted.toList.take b.handled

theorem taken_take {b : Mailbox} {m : Message} (h : b.next? = some m) : b.take.taken = b.taken ++ [m] := by
  have hm : b.accepted.toList[b.handled]? = some m := by rw [Array.getElem?_toList]; exact h
  simp only [taken, take, List.take_add_one, hm, Option.toList_some]

theorem taken_of_prefix {b b' : Mailbox} (h : b.accepted.toList <+: b'.accepted.toList)
    (same : b'.handled = b.handled) (hle : b.handled ≤ b.accepted.size) : b'.taken = b.taken := by
  obtain ⟨later, hlater⟩ := h
  rw [taken, same, ← hlater, List.take_append_of_le_length (by simpa using hle), taken]

end Mailbox

def Message.isShutdown : Message → Bool
  | .shutdown => true
  | _ => false

/-! ## What happens -/

/-- Whether others post a message. They post errands that do not fail, and ask for the
board only by `request`. -/
def Message.IsOrdinary : Message → Prop
  | .invoke (.fail _) | .invoke (.report _) => False
  | _ => True

/-- Whether a message may be the one at a place of the mailbox: its task does not fail,
and who asks for the board holds the ticket of this place. -/
def Message.Fits (place : Nat) (m : Message) : Prop :=
  (∀ text, m ≠ .invoke (.fail text)) ∧ ∀ ticket, m = .invoke (.report ticket) → ticket = place

theorem Message.IsOrdinary.fits {m : Message} (h : m.IsOrdinary) (place : Nat) : m.Fits place := by
  constructor
  · rintro text rfl
    exact h
  · rintro ticket rfl
    exact h.elim

namespace Mailbox

/-- What others do to a mailbox. -/
inductive Grows (b : Mailbox) : Mailbox → Prop
  | same : Grows b b
  | push {m : Message} (accepting : b.isOpen) (fits : m.Fits b.accepted.size) :
    Grows b { b with accepted := b.accepted.push m }
  | close : Grows b b.close

variable {b b' : Mailbox}

theorem grows_post {m : Message} (fits : m.Fits b.accepted.size) : b.Grows (b.post m).2 := by
  unfold post
  split
  · rename_i accepting
    exact .push accepting fits
  · exact .same

theorem Grows.handled_eq (h : b.Grows b') : b'.handled = b.handled := by
  cases h <;> rfl

theorem Grows.accepted_eq (h : b.Grows b') : b'.accepted = b.accepted ∨
    ∃ m : Message, m.Fits b.accepted.size ∧ b'.accepted = b.accepted.push m := by
  cases h with
  | push _ fits => exact .inr ⟨_, fits, rfl⟩
  | same | close => exact .inl rfl

theorem Grows.accepted_prefix (h : b.Grows b') : b.accepted.toList <+: b'.accepted.toList := by
  rcases h.accepted_eq with he | ⟨m, -, he⟩
  · exact he ▸ List.prefix_rfl
  · rw [he, Array.toList_push]
    exact List.prefix_append ..

theorem Grows.isOpen_eq_false (h : b.Grows b') (hc : b.isOpen = false) : b'.isOpen = false := by
  cases h with
  | same | push => exact hc
  | close => rfl

theorem Grows.fits (h : b.Grows b') (fits : ∀ i (m : Message), b.accepted[i]? = some m → m.Fits i) {i : Nat}
    {m : Message} (hm : b'.accepted[i]? = some m) : m.Fits i := by
  rcases h.accepted_eq with he | ⟨n, hn, he⟩ <;> rw [he] at hm
  · exact fits i m hm
  · rw [Array.getElem?_push] at hm
    split at hm
    · rename_i hi
      cases hm
      exact hi ▸ hn
    · exact fits i m hm

end Mailbox

namespace Display

/-- What a screen does to its board when it acts. -/
def deeds (d : Display) (now : Nanos) : List Deed :=
  match d.act now with
  | .take .shutdown => []
  | .take m => [.handle m (!d.hasSender) now]
  | .refresh _ => [.refresh (d.screen.refresh now).board.status]
  | .wait | .begin | .heedCancel | .leave => []

def editBoard (d : Display) (edit : Board Float → Board Float) : Display :=
  { d with screen := { d.screen with board := edit d.screen.board } }

/-- What happens around a screen. -/
inductive Meets : Display → Display → Prop
  | tick {d : Display} {before after : List Timer} {t : Timer} (h : d.screen.timers = before ++ t :: after) :
      Meets d (d.tick before t after)
  | retire {d : Display} {before after : List Timer} {t : Timer} (h : d.screen.timers = before ++ t :: after)
      (hc : t.isCancelled) (hh : t.heedsCancel) :
      Meets d { d with screen := { d.screen with timers := before ++ after } }
  | post (d : Display) {m : Message} (h : m.IsOrdinary) : Meets d (d.post m).2
  | request (d : Display) : Meets d d.request.2
  /-- A thread that uses the hub makes a move. -/
  | move (d : Display) (mv : Move) (t : Thread) : Meets d { d with shared := (mv.make d.shared t).1 }
  | share (d : Display) {s : Shared} (h : s.mailbox = d.shared.mailbox) : Meets d { d with shared := s }
  | start (d : Display) : Meets d d.start
  | cancel (d : Display) : Meets d d.cancel
  | release (d : Display) : Meets d d.release
  | drop (d : Display) : Meets d d.drop
  | abort (d : Display) : Meets d d.abort

/-- What can come of a screen, and what it did to its board. -/
inductive Run (d₀ : Display) : List Deed → Display → Prop
  | start : Run d₀ [] d₀
  | act {past : List Deed} {d : Display} (h : Run d₀ past d) (now : Nanos) :
      Run d₀ (past ++ d.deeds now) (d.step now (d.act now))
  | task {past : List Deed} {d : Display} {errand : Errand} (h : Run d₀ past d) (now : Nanos)
      (ha : d.act now = .take (.invoke errand)) (edit : Board Float → Board Float) :
      Run d₀ (past ++ [.task errand edit]) ((d.step now (d.act now)).editBoard edit)
  | meet {past : List Deed} {d d' : Display} (h : Run d₀ past d) (hm : Meets d d') : Run d₀ past d'

/-! ## Handling a message -/

variable {d₀ d d' : Display} {past : List Deed} {m : Message} {now : Nanos}

theorem hasSender_cancelTimer (d : Display) (key : String) (s : Shared) (h : s.hub = d.shared.hub) :
    hasSender ⟨s, d.screen.cancelTimer key⟩ = d.hasSender := by
  unfold hasSender
  rw [h]
  unfold Screen.cancelTimer
  split
  · rfl
  · simp

/-- What a screen does with a message that does not end it. -/
structure Handles (d : Display) (now : Nanos) (m : Message) (d' : Display) : Prop where
  board : d'.screen.board = m.on (!d.hasSender) now d.screen.board
  mailbox : d'.shared.mailbox = d.shared.mailbox
  phase : d'.screen.phase = d.screen.phase
  reports : d'.screen.reports = d.screen.reports ∨
    ∃ ticket, m = .invoke (.report ticket) ∧ d'.screen.reports = d.screen.reports ++ [(ticket, d.screen.board)]

theorem handles_applyRate (d : Display) (now : Nanos) (r : Rate Float) :
    d.Handles now (.rateUpdated r) (d.applyRate now r) := by
  rw [applyRate_eq]
  cases hp : (d.screen.board.apply r).outcome.pulse? with
  | none => exact ⟨by simp [showRate, Screen.change, Message.on, hp], rfl, rfl, .inl rfl⟩
  | some generation =>
    rw [Option.elim_some]
    unfold restartTimer
    have hs := (d.showRate r).hasSender_cancelTimer r.key (d.shared.record (·.recordPulse)) rfl
    have hb := (d.showRate r).screen.board_cancelTimer r.key
    obtain ⟨inFlight, timers, he⟩ := (d.showRate r).screen.cancelTimer_eq r.key
    dsimp only
    rw [show (d.showRate r).shared = d.shared from rfl, hs, show (d.showRate r).hasSender = d.hasSender from rfl]
    cases hd : d.hasSender with
    | true =>
      refine ⟨?_, rfl, ?_, .inl ?_⟩ <;> rw [if_pos rfl, he]
      · simp [Screen.startTimer, showRate, Screen.change, Message.on, hp, hd]
      · rfl
      · rfl
    | false =>
      refine ⟨?_, rfl, ?_, .inl ?_⟩ <;> rw [if_neg Bool.false_ne_true, he]
      · simp [showRate, Screen.change, Message.on, hp, hd]
      · rfl
      · rfl

theorem handles (d : Display) (now : Nanos) (end' : m ≠ .shutdown) (calm : ∀ text, m ≠ .invoke (.fail text)) :
    d.Handles now m (d.handle now m) := by
  cases m with
  | rateUpdated r => exact d.handles_applyRate now r
  | decayStep key generation step =>
    obtain ⟨hs, hb⟩ := d.screen.decay_eq key generation step
    refine ⟨hb, rfl, hs.phase, .inl ?_⟩
    show (d.screen.decay key generation step).reports = d.screen.reports
    unfold Screen.decay
    dsimp only
    split
    · split <;> rfl
    · rfl
    · rfl
  | refreshStatus => exact ⟨rfl, rfl, rfl, .inl rfl⟩
  | invoke errand =>
    cases errand with
    | setStatus text => exact ⟨rfl, rfl, rfl, .inl rfl⟩
    | report ticket => exact ⟨rfl, rfl, rfl, .inr ⟨ticket, rfl, rfl⟩⟩
    | fail text => exact absurd rfl (calm text)
  | shutdown => exact absurd rfl end'

/-! ## What happens around a screen -/

def HasStopped (d : Display) : Prop := (∃ e, d.screen.phase = .ended e) ∨ d.screen.phase = .dropped

theorem not_hasStopped_of_act (h : d.act now ≠ .wait) : ¬ d.HasStopped := by
  rintro (⟨e, hp⟩ | hp) <;> exact h (by simp only [act, hp])

/-- What leaves the board alone. -/
structure Passes (d d' : Display) : Prop where
  board : d'.screen.board = d.screen.board
  reports : d'.screen.reports = d.screen.reports
  mailbox : d.shared.mailbox.Grows d'.shared.mailbox
  stops : d'.HasStopped → d.HasStopped ∨ d'.shared.mailbox.isOpen = false
  ended : ∀ e, d.screen.phase = .ended e → d'.screen.phase = .ended e

theorem Meets.passes (h : Meets d d') : d.Passes d' := by
  have same {d' : Display} (hs : d'.screen = d.screen) (hb : d.shared.mailbox.Grows d'.shared.mailbox) :
      d.Passes d' :=
    ⟨by rw [hs], by rw [hs], hb, by rw [HasStopped, hs]; exact .inl, fun e he => by rw [hs, he]⟩
  cases h with
  | @tick before after t _ =>
    have fits : t.message.Fits d.shared.mailbox.accepted.size := Message.IsOrdinary.fits (m := t.message) trivial _
    exact ⟨rfl, rfl, Mailbox.grows_post fits, .inl, fun _ he => he⟩
  | retire => exact ⟨rfl, rfl, .same, .inl, fun _ he => he⟩
  | post hm => exact same rfl (Mailbox.grows_post (hm.fits _))
  | request => exact same rfl (Mailbox.grows_post ⟨nofun, fun ticket he => by cases he; rfl⟩)
  | move mv t =>
    refine same rfl ?_
    show d.shared.mailbox.Grows (mv.make d.shared t).1.mailbox
    rw [Move.make_mailbox]
    rcases mv.onMailbox_cases d.shared.mailbox with ⟨name, r, -, he⟩ | ⟨-, he⟩ <;> rw [he]
    · exact Mailbox.grows_post (Message.IsOrdinary.fits (m := .rateUpdated r) trivial _)
    · exact .same
  | share hs => exact same rfl (show d.shared.mailbox.Grows _ from hs ▸ .same)
  | start =>
    unfold Display.start
    split
    · rename_i hp
      exact ⟨rfl, rfl, .same, fun hs => by simp [HasStopped, setPhase] at hs,
        fun e he => by rw [hp] at he; cases he⟩
    · exact same rfl .same
  | cancel | release => exact ⟨rfl, rfl, .same, .inl, fun _ he => he⟩
  | drop =>
    unfold Display.drop
    split
    · rename_i hp
      exact ⟨rfl, rfl, .close, fun _ => .inr rfl, fun e he => by rw [hp] at he; cases he⟩
    · exact same rfl .same
  | abort =>
    unfold Display.abort
    split
    · exact same rfl .same
    · rename_i hn
      exact ⟨rfl, rfl, .close, fun _ => .inr rfl, fun e he => by simp [Screen.ending?, he] at hn⟩

/-! ## What a screen has handled -/

/-- What a screen, which did something to its board so far, has made of its messages. -/
structure Handled (d₀ : Display) (past : List Deed) (d : Display) : Prop where
  board : d.screen.board = d₀.screen.board.after past
  handled : d.shared.mailbox.handled ≤ d.shared.mailbox.accepted.size
  taken : d.shared.mailbox.taken = Deed.messages past ∨
    d.shared.mailbox.taken = Deed.messages past ++ [.shutdown] ∧ d.screen.phase = .ended .completed
  unended : .shutdown ∉ Deed.messages past
  closed : d.HasStopped → d.shared.mailbox.isOpen = false
  fits : ∀ i (m : Message), d.shared.mailbox.accepted[i]? = some m → m.Fits i
  reports : ∀ ticket b, (ticket, b) ∈ d.screen.reports → ticket < d.shared.mailbox.accepted.size ∧
    ∃ earlier, earlier <+: past ∧ Deed.messages earlier = d.shared.mailbox.accepted.toList.take ticket ∧
      b = d₀.screen.board.after earlier

theorem Handled.pass (h : Handled d₀ past d) (hp : d.Passes d') : Handled d₀ past d' where
  board := hp.board.trans h.board
  handled := by
    rw [hp.mailbox.handled_eq]
    simpa using h.handled.trans (by simpa using hp.mailbox.accepted_prefix.length_le)
  taken := by
    rw [Mailbox.taken_of_prefix hp.mailbox.accepted_prefix hp.mailbox.handled_eq h.handled]
    exact h.taken.imp_right fun ⟨ht, he⟩ => ⟨ht, hp.ended _ he⟩
  unended := h.unended
  closed hs := (hp.stops hs).elim (fun hs => hp.mailbox.isOpen_eq_false (h.closed hs)) id
  fits i m := hp.mailbox.fits h.fits
  reports ticket b hb := by
    rw [hp.reports] at hb
    obtain ⟨hlt, earlier, hpast, hmessages, he⟩ := h.reports ticket b hb
    obtain ⟨later, hlater⟩ := hp.mailbox.accepted_prefix
    have hlt' : ticket ≤ d.shared.mailbox.accepted.toList.length := by simpa using Nat.le_of_lt hlt
    have hsize := hp.mailbox.accepted_prefix.length_le
    refine ⟨Nat.lt_of_lt_of_le hlt (by simpa using hsize), earlier, hpast, ?_, he⟩
    rw [← hlater, List.take_append_of_le_length hlt', hmessages]

theorem Handled.taken_eq (h : Handled d₀ past d) (live : ¬ d.HasStopped) :
    d.shared.mailbox.taken = Deed.messages past :=
  h.taken.resolve_right fun ⟨_, he⟩ => live (.inl ⟨_, he⟩)

theorem Handled.take (h : Handled d₀ past d) (hm : d.shared.mailbox.next? = some m) (live : ¬ d.HasStopped)
    (unended : m ≠ .shutdown) {deed : Deed} (hd : deed.message? = some m)
    (board : d'.screen.board = deed.on d.screen.board) (mailbox : d'.shared.mailbox = d.shared.mailbox.take)
    (phase : d'.screen.phase = d.screen.phase)
    (reports : d'.screen.reports = d.screen.reports ∨
      ∃ ticket, m = .invoke (.report ticket) ∧ d'.screen.reports = d.screen.reports ++ [(ticket, d.screen.board)]) :
    Handled d₀ (past ++ [deed]) d' := by
  have hmessages : Deed.messages (past ++ [deed]) = Deed.messages past ++ [m] := by
    rw [Deed.messages_append]
    simp [Deed.messages, hd]
  obtain ⟨hlt, -⟩ := Array.getElem?_eq_some_iff.mp hm
  have stopped : ¬ d'.HasStopped := by rwa [HasStopped, phase]
  refine ⟨?_, ?_, .inl ?_, ?_, fun hs => absurd hs stopped, ?_, fun ticket b hb => ?_⟩ <;> (try rw [mailbox])
  · rw [board, h.board, Board.after_append]
    rfl
  · exact hlt
  · rw [Mailbox.taken_take hm, h.taken_eq live, hmessages]
  · rw [hmessages, List.mem_append, List.mem_singleton]
    exact not_or.mpr ⟨h.unended, Ne.symm unended⟩
  · exact h.fits
  · have old (hb : (ticket, b) ∈ d.screen.reports) : ticket < d.shared.mailbox.accepted.size ∧
        ∃ earlier, earlier <+: past ++ [deed] ∧
          Deed.messages earlier = d.shared.mailbox.accepted.toList.take ticket ∧
          b = d₀.screen.board.after earlier := by
      obtain ⟨hlt, earlier, hpast, hrest⟩ := h.reports ticket b hb
      exact ⟨hlt, earlier, hpast.trans (List.prefix_append ..), hrest⟩
    rcases reports with he | ⟨own, rfl, he⟩
    · exact old (he ▸ hb)
    · rw [he, List.mem_append, List.mem_singleton] at hb
      rcases hb with hb | hb
      · exact old hb
      · cases hb
        -- who asks at this place gets the board as it is before its message
        obtain rfl : ticket = d.shared.mailbox.handled := (h.fits _ _ hm).2 ticket rfl
        exact ⟨hlt, past, List.prefix_append .., (h.taken_eq live).symm, h.board⟩

theorem Handled.shutdown (h : Handled d₀ past d) (hm : d.shared.mailbox.next? = some .shutdown)
    (live : ¬ d.HasStopped) : Handled d₀ past d.taken.stop where
  board := h.board
  handled := (Array.getElem?_eq_some_iff.mp hm).1
  taken := .inr ⟨by rw [← h.taken_eq live]; exact Mailbox.taken_take hm, rfl⟩
  unended := h.unended
  closed _ := rfl
  fits := h.fits
  reports := h.reports

theorem Handled.refresh (h : Handled d₀ past d) (live : ¬ d.HasStopped) (due now : Nanos) :
    Handled d₀ (past ++ [.refresh (d.screen.refresh now).board.status]) (d.step now (.refresh due)) where
  board := by
    rw [Board.after_append, ← h.board]
    rfl
  handled := h.handled
  taken := .inl (by rw [Deed.messages_append]; exact (h.taken_eq live).trans (List.append_nil _).symm)
  unended := by
    rw [Deed.messages_append]
    exact fun he => h.unended ((List.append_nil _).subst he)
  closed hs := by simp [HasStopped, Display.step, setPhase] at hs
  fits := h.fits
  reports ticket b hb := by
    obtain ⟨hlt, earlier, hpast, hrest⟩ := h.reports ticket b hb
    exact ⟨hlt, earlier, hpast.trans (List.prefix_append ..), hrest⟩

theorem deeds_of_take (ha : d.act now = .take m) (unended : m ≠ .shutdown) :
    d.deeds now = [.handle m (!d.hasSender) now] := by
  unfold deeds
  rw [ha]
  cases m with
  | shutdown => exact absurd rfl unended
  | _ => rfl

theorem Handled.act (h : Handled d₀ past d) (now : Nanos) :
    Handled d₀ (past ++ d.deeds now) (d.step now (d.act now)) := by
  have idle (hd : d.deeds now = []) (hp : d.Passes (d.step now (d.act now))) :
      Handled d₀ (past ++ d.deeds now) (d.step now (d.act now)) := by
    rw [hd, List.append_nil]
    exact h.pass hp
  by_cases hw : d.act now = .wait
  · refine idle (by simp only [deeds, hw]) ?_
    rw [hw]
    exact ⟨rfl, rfl, .same, .inl, fun _ he => he⟩
  have live := not_hasStopped_of_act hw
  cases ha : d.act now with
  | wait => exact absurd ha hw
  | begin =>
    refine ha ▸ idle (by simp only [deeds, ha]) ?_
    rw [ha]
    exact ⟨rfl, rfl, .same, fun hs => by simp [HasStopped, Display.step, setPhase] at hs,
      fun e he => absurd (.inl ⟨e, he⟩) live⟩
  | heedCancel | leave =>
    refine ha ▸ idle (by simp only [deeds, ha]) ?_
    rw [ha]
    exact ⟨rfl, rfl, .close, fun _ => .inr rfl, fun e he => absurd (.inl ⟨e, he⟩) live⟩
  | refresh due =>
    rw [show d.deeds now = [.refresh (d.screen.refresh now).board.status] by simp only [deeds, ha]]
    exact h.refresh live due now
  | take m =>
    have hm := next?_of_act ha
    by_cases hend : m = .shutdown
    · subst hend
      rw [show d.deeds now = [] by simp only [deeds, ha], List.append_nil]
      exact h.shutdown hm live
    · rw [deeds_of_take ha hend]
      have hh := d.taken.handles now hend (h.fits _ _ hm).1
      exact h.take hm live hend rfl hh.board hh.mailbox hh.phase hh.reports

theorem Handled.task (h : Handled d₀ past d) {errand : Errand} (ha : d.act now = .take (.invoke errand))
    (edit : Board Float → Board Float) :
    Handled d₀ (past ++ [.task errand edit]) ((d.step now (d.act now)).editBoard edit) := by
  have live : ¬ d.HasStopped := not_hasStopped_of_act (by rw [ha]; exact nofun)
  have hm := next?_of_act ha
  have hh : d.taken.Handles now (.invoke errand) (d.taken.handle now (.invoke errand)) :=
    d.taken.handles now nofun (h.fits _ _ hm).1
  rw [ha]
  refine h.take hm live nofun rfl ?_ hh.mailbox hh.phase hh.reports
  refine congrArg edit (hh.board.trans ?_)
  cases errand <;> rfl

structure IsFresh (d : Display) : Prop where
  phase : d.screen.phase = .created
  reports : d.screen.reports = []
  mailbox : d.shared.mailbox = {}

theorem handled_of_isFresh (h : d.IsFresh) : Handled d [] d where
  board := rfl
  handled := by simp [h.mailbox]
  taken := .inl (by rw [h.mailbox]; rfl)
  unended := List.not_mem_nil
  closed hs := by simp [HasStopped, h.phase] at hs
  fits i m hm := by simp [h.mailbox] at hm
  reports ticket b hb := by simp [h.reports] at hb

theorem Run.handled (h : Run d₀ past d) (fresh : d₀.IsFresh) : Handled d₀ past d := by
  induction h with
  | start => exact handled_of_isFresh fresh
  | act _ now ih => exact ih.act now
  | task _ now ha edit ih => exact ih.task ha edit
  | meet _ hm ih => exact ih.pass hm.passes

/-! ## A screen that is down -/

theorem isUp_of_deeds (h : d.deeds now ≠ []) : d.IsUp := by
  have acts : d.act now ≠ .wait := fun hw => h (by simp only [deeds, hw])
  have live : ¬ d.HasStopped := not_hasStopped_of_act acts
  obtain ⟨unended, undropped⟩ := not_or.mp live
  refine ⟨?_, fun e he => unended ⟨e, he⟩, undropped⟩
  cases hc : d.screen.isCancelled with
  | false => rfl
  | true =>
    unfold deeds act at h
    rw [hc] at h
    cases hp : d.screen.phase <;> simp [hp] at h

theorem board_of_deeds (h : d.deeds now = []) : (d.step now (d.act now)).screen.board = d.screen.board := by
  cases ha : d.act now with
  | take m =>
    by_cases hend : m = .shutdown
    · subst hend
      rfl
    · rw [deeds_of_take ha hend] at h
      cases h
  | refresh due =>
    simp only [deeds, ha] at h
    cases h
  | _ => rfl

theorem Meets.isUp (h : Meets d d') (up : d'.IsUp) : d.IsUp := by
  cases h with
  | start => exact (Step.start d).isUp up
  | cancel => exact (Step.cancel d).isUp up
  | drop => exact (Step.drop d).isUp up
  | abort => exact (Step.abort d).isUp up
  | _ => exact up

theorem Run.of_not_isUp {later : List Deed} (h : Run d later d') (down : ¬ d.IsUp) :
    later = [] ∧ d'.screen.board = d.screen.board ∧ ¬ d'.IsUp := by
  induction h with
  | start => exact ⟨rfl, rfl, down⟩
  | @act later e _ now ih =>
    obtain ⟨hlater, hboard, down⟩ := ih
    have hd : e.deeds now = [] := by_contra fun hd => down (isUp_of_deeds hd)
    exact ⟨by rw [hlater, hd, List.append_nil], (board_of_deeds hd).trans hboard,
      fun up => down ((Turn.act e now).isUp up)⟩
  | task _ now ha _ ih => exact absurd (isUp_of_deeds (by rw [deeds_of_take ha nofun]; exact nofun)) ih.2.2
  | meet _ hm ih => exact ⟨ih.1, hm.passes.board.trans ih.2.1, fun up => ih.2.2 (hm.isUp up)⟩

/-! ## Questions -/

theorem Run.trans {later : List Deed} (h : Run d₀ past d) (h' : Run d later d') : Run d₀ (past ++ later) d' := by
  induction h' with
  | start => exact (List.append_nil past).symm ▸ h
  | act _ now ih => exact List.append_assoc .. ▸ ih.act now
  | task _ now ha edit ih => exact List.append_assoc .. ▸ ih.task now ha edit
  | meet _ hm ih => exact ih.meet hm

theorem Run.accepted_prefix {later : List Deed} (h : Run d later d') :
    d.shared.mailbox.accepted.toList <+: d'.shared.mailbox.accepted.toList := by
  have grows {e : Display} (now : Nanos) :
      e.shared.mailbox.accepted.toList <+: (e.step now (e.act now)).shared.mailbox.accepted.toList := by
    rcases (Turn.act e now).shared.2 with he | ⟨key, g, n, he⟩
    · exact he ▸ List.prefix_rfl
    · rw [he, Array.toList_push]
      exact List.prefix_append ..
  induction h with
  | start => exact List.prefix_rfl
  | act _ now ih => exact ih.trans (grows now)
  | task _ now _ _ ih => exact ih.trans (grows now)
  | meet _ hm ih => exact ih.trans hm.passes.mailbox.accepted_prefix

theorem Run.report (h : Run d₀ past d) (fresh : d₀.IsFresh) {later : List Deed} (h' : Run d.request.2 later d')
    {b : Board Float} (hb : d'.report? d.request.1 = some b) :
    ∃ earlier, earlier <+: past ++ later ∧ Deed.messages earlier = d.shared.mailbox.accepted.toList ∧
      b = d₀.screen.board.after earlier := by
  have hall := ((h.meet (.request d)).trans h').handled fresh
  obtain ⟨l₁, l₂, he, -⟩ := List.lookup_eq_some_iff.mp hb
  have hmem : (d.request.1, b) ∈ d'.screen.reports := by simp [he]
  obtain ⟨-, earlier, hpast, hmessages, hboard⟩ := hall.reports _ _ hmem
  refine ⟨earlier, hpast, ?_, hboard⟩
  obtain ⟨rest, hrest⟩ := (Meets.request d).passes.mailbox.accepted_prefix.trans h'.accepted_prefix
  rw [hmessages, ← hrest]
  exact List.take_left' Array.length_toList

/-! ## Runs -/

theorem exists_run_of_turns (h : ReflTransGen Turn d d') : ∃ past, Run d past d' := by
  induction h with
  | refl => exact ⟨[], .start⟩
  | tail _ ht ih =>
    obtain ⟨past, h⟩ := ih
    cases ht with
    | act now => exact ⟨_, h.act now⟩
    | tick ht => exact ⟨past, h.meet (.tick ht)⟩
    | retire ht hc hh => exact ⟨past, h.meet (.retire ht hc hh)⟩

theorem forward_of_not_isOpen {s : Shared} (h : s.mailbox.isOpen = false) (name : String) (r : Rate Float) :
    s.forward name r = (s.write (Hub.droppedEntry name r.key)).record (·.recordDrop) := by
  unfold Shared.forward
  rw [Mailbox.post_of_not_isOpen h]
  rfl

/-- In every state that a new screen comes to, its board is what has come of handling
the first of the accepted messages, in order. Of a message to end and what comes
behind it, and after a cancellation, it handles nothing. When it has stopped, posts are
refused; a subscriber's is counted as dropped, and as delivered. Who asks for the board
is shown what has come of all the messages that were accepted before the question. -/
theorem handled_of_run (fresh : d₀.IsFresh) (h : Run d₀ past d) :
    let accepted := d.shared.mailbox.accepted.toList
    Deed.messages past <+: accepted ∧ d.screen.board = d₀.screen.board.after past ∧
    (.shutdown ∈ d.shared.mailbox.taken → d.screen.phase = .ended .completed ∧
      Deed.messages past = accepted.takeWhile (!·.isShutdown)) ∧
    (¬ d.IsUp → ∀ later d', Run d later d' → later = [] ∧ d'.screen.board = d.screen.board) ∧
    (d.HasStopped → (∀ m, d.post m = (false, d)) ∧ ∀ name r,
      let s := d.shared.forward name r
      s.ledger.droppedPosts = d.shared.ledger.droppedPosts + 1 ∧
      { s with ledger := d.shared.ledger, log := d.shared.log } = d.shared ∧
      ∀ id f t, ((Move.deliver ⟨id, f, .screen name⟩ r).make d.shared t).2.2 =
        [.act name r .forward, .conclude name r.key .returns] ∧
        (Move.act name r .forward).make d.shared t = (s, t, []) ∧
        ((Move.conclude name r.key .returns).make s t).2.1.report =
          { t.report with delivered := t.report.delivered + 1 }) ∧
    ∀ later d' b, Run d.request.2 later d' → d'.report? d.request.1 = some b →
      ∃ earlier, earlier <+: past ++ later ∧ Deed.messages earlier = accepted ∧
        b = d₀.screen.board.after earlier := by
  intro accepted
  have hh := h.handled fresh
  obtain ⟨rest, hrest⟩ : d.shared.mailbox.taken <+: accepted := List.take_prefix ..
  refine ⟨?_, hh.board, fun hs => ?_, fun down later d' h' => ?_, fun hs => ⟨fun m => ?_, fun name r => ?_⟩,
    fun later d' b h' hb => h.report fresh h' hb⟩
  · rw [← hrest]
    rcases hh.taken with ht | ⟨ht, -⟩ <;> rw [ht]
    · exact List.prefix_append ..
    · exact (List.prefix_append ..).trans (List.prefix_append ..)
  · obtain ⟨ht, ended⟩ := hh.taken.resolve_left fun ht => hh.unended (ht ▸ hs)
    refine ⟨ended, ?_⟩
    have others : ∀ m ∈ Deed.messages past, (!m.isShutdown) = true := by
      intro m hm
      cases m with
      | shutdown => exact absurd hm hh.unended
      | _ => rfl
    rw [← hrest, ht, List.append_assoc, List.takeWhile_append_of_pos others]
    exact (List.append_nil _).symm
  · obtain ⟨hlater, hboard, -⟩ := h'.of_not_isUp down
    exact ⟨hlater, hboard⟩
  · unfold Display.post
    rw [Mailbox.post_of_not_isOpen (hh.closed hs)]
  · intro s
    have he : s = (d.shared.write (Hub.droppedEntry name r.key)).record (·.recordDrop) :=
      forward_of_not_isOpen (hh.closed hs) name r
    refine ⟨?_, ?_, fun id f t => ⟨rfl, rfl, rfl⟩⟩ <;> rw [he] <;> rfl

/-- Of two rates, one is accepted before a message to end and one behind it. -/
theorem handled_of_run_told_to_end :
    let d₀ : Display := { screen := .ofCurve (.ofSteps 2 2000000) 1000000000 }
    let r : Rate Float := .ofQuote "EURUSD" 1 2 "T" default
    let d := (((d₀.start.post (.rateUpdated r)).2.post .shutdown).2.post (.rateUpdated r)).2.settle 0
    d₀.IsFresh ∧ ∃ past, Run d₀ past d ∧ Deed.messages past = [.rateUpdated r] ∧
      d.screen.board = d₀.screen.board.after past ∧ d.screen.phase = .ended .completed ∧
      d.post .refreshStatus = (false, d) := by
  intro d₀ r d
  have fresh : d₀.IsFresh := ⟨rfl, rfl, rfl⟩
  have rate : (Message.rateUpdated r).IsOrdinary := trivial
  have shutdown : Message.shutdown.IsOrdinary := trivial
  have posts : Run d₀ [] (((d₀.start.post (.rateUpdated r)).2.post .shutdown).2.post (.rateUpdated r)).2 :=
    (((Run.start.meet (.start d₀)).meet (.post _ rate)).meet (.post _ shutdown)).meet (.post _ rate)
  have accepted : (((d₀.start.post (.rateUpdated r)).2.post .shutdown).2.post
      (.rateUpdated r)).2.shared.mailbox.accepted.toList = [.rateUpdated r, .shutdown, .rateUpdated r] := rfl
  have handled : d.shared.mailbox.handled = 2 := by decide +kernel
  subst d
  generalize (((d₀.start.post (.rateUpdated r)).2.post .shutdown).2.post (.rateUpdated r)).2 = e at *
  obtain ⟨past, settles⟩ := exists_run_of_turns (turns_settle e 0)
  obtain ⟨rest, hrest⟩ := settles.accepted_prefix
  rw [accepted] at hrest
  have told : .shutdown ∈ (e.settle 0).shared.mailbox.taken := by simp [Mailbox.taken, handled, ← hrest]
  obtain ⟨-, hboard, hend, -, hstop, -⟩ := handled_of_run fresh (posts.trans settles)
  obtain ⟨ended, hmessages⟩ := hend told
  refine ⟨fresh, past, posts.trans settles, hmessages.trans ?_, hboard, ended, (hstop (.inl ⟨_, ended⟩)).1 _⟩
  rw [← hrest]
  rfl

end Display

end PriceBoard
