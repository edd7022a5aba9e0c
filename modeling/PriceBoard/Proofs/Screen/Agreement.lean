import PriceBoard.Proofs.Board.Agreement
import PriceBoard.Proofs.Screen.Turns

/-!
# What a screen shows

A screen that goes on shows the rates that it has handled, whatever else is posted
to it. It ends in order only when it is told to, and then shows all the rates that
were posted, if none was posted after that (`Agrees.turn`).
-/

namespace PriceBoard

open Time (Nanos)

def Message.rate? : Message → Option (Rate Float)
  | .rateUpdated r => some r
  | _ => none

/-! ## The mailbox -/

namespace Mailbox

def rates (b : Mailbox) : List (Rate Float) := b.accepted.toList.filterMap Message.rate?

def handledRates (b : Mailbox) : List (Rate Float) :=
  (b.accepted.toList.take b.handled).filterMap Message.rate?

/-- No rate was posted after a message to end. -/
def RatesFirst (b : Mailbox) : Prop :=
  ∀ k, b.accepted[k]? = some .shutdown → (b.accepted.toList.drop k).filterMap Message.rate? = []

theorem post_of_isOpen {b : Mailbox} (h : b.isOpen) (m : Message) :
    b.post m = (true, { b with accepted := b.accepted.push m }) := if_pos h

theorem post_of_not_isOpen {b : Mailbox} (h : b.isOpen = false) (m : Message) : b.post m = (false, b) :=
  if_neg (by simp [h])

theorem rates_push {b b' : Mailbox} {m : Message} (h : b'.accepted = b.accepted.push m) :
    b'.rates = b.rates ++ m.rate?.toList := by
  simp only [rates, h, Array.toList_push, List.filterMap_append]
  cases hm : m.rate? <;> simp [hm]

theorem rates_post {b : Mailbox} (h : b.isOpen) (m : Message) : (b.post m).2.rates = b.rates ++ m.rate?.toList := by
  rw [post_of_isOpen h]
  exact rates_push rfl

theorem handledRates_push {b b' : Mailbox} {m : Message} (h : b'.accepted = b.accepted.push m)
    (same : b'.handled = b.handled) (hle : b.handled ≤ b.accepted.size) : b'.handledRates = b.handledRates := by
  simp [handledRates, h, same, List.take_append_of_le_length, hle]

theorem handledRates_take {b : Mailbox} {m : Message} (h : b.next? = some m) :
    b.take.handledRates = b.handledRates ++ m.rate?.toList := by
  have hm : b.accepted.toList[b.handled]? = some m := by rw [Array.getElem?_toList]; exact h
  simp only [handledRates, take, List.take_add_one, hm, List.filterMap_append]
  cases hr : m.rate? <;> simp [hr]

theorem RatesFirst.push {b b' : Mailbox} {m : Message} (h : b.RatesFirst) (he : b'.accepted = b.accepted.push m)
    (hm : m.rate? = none ∨ .shutdown ∉ b.accepted.toList) : b'.RatesFirst := by
  intro k hk
  rw [he, Array.getElem?_push] at hk
  rw [he, Array.toList_push]
  by_cases hn : k = b.accepted.size
  · rw [if_pos hn] at hk
    cases hk
    simp [hn, Message.rate?]
  · rw [if_neg hn] at hk
    obtain ⟨hlt, _⟩ := Array.getElem?_eq_some_iff.mp hk
    have hmem : .shutdown ∈ b.accepted.toList := Array.mem_toList_iff.mpr (Array.mem_of_getElem? hk)
    rw [List.drop_append_of_le_length (by simpa using Nat.le_of_lt hlt), List.filterMap_append, h k hk]
    simp [hm.resolve_right (not_not_intro hmem)]

theorem RatesFirst.grow {b b' : Mailbox} (h : b.RatesFirst)
    (hg : b'.accepted = b.accepted ∨ ∃ m, m.rate? = none ∧ b'.accepted = b.accepted.push m) :
    b'.RatesFirst ∧ b'.rates = b.rates := by
  rcases hg with he | ⟨m, hm, he⟩
  · refine ⟨fun k hk => ?_, by rw [rates, he, rates]⟩
    rw [he] at hk ⊢
    exact h k hk
  · refine ⟨h.push he (.inl hm), ?_⟩
    rw [rates_push he, hm, Option.toList_none, List.append_nil]

theorem accepted_post (b : Mailbox) (m : Message) :
    (b.post m).2.accepted = b.accepted ∨ (b.post m).2.accepted = b.accepted.push m := by
  unfold post
  split
  · exact .inr rfl
  · exact .inl rfl

/-- A message to end is handled after all the rates. -/
theorem RatesFirst.handledRates {b : Mailbox} (h : b.RatesFirst) (hn : b.next? = some .shutdown) :
    b.handledRates = b.rates := by
  have hs : b.accepted.toList = b.accepted.toList.take b.handled ++ b.accepted.toList.drop b.handled :=
    (List.take_append_drop ..).symm
  rw [rates, hs, List.filterMap_append, h b.handled hn, List.append_nil]
  rfl

end Mailbox

/-! ## Screens -/

namespace Screen

/-- What only the beginning and the end of a screen change. -/
structure Keeps (s s' : Screen) : Prop where
  phase : s'.phase = s.phase
  isCancelled : s'.isCancelled = s.isCancelled
  isHeld : s'.isHeld = s.isHeld

theorem cancelTimer_eq (s : Screen) (key : String) :
    ∃ inFlight timers, s.cancelTimer key = { s with inFlight := inFlight, timers := timers } := by
  unfold cancelTimer
  split
  · exact ⟨_, _, rfl⟩
  · exact ⟨_, _, rfl⟩

theorem decay_eq (s : Screen) (key : String) (generation step : Nat) :
    s.Keeps (s.decay key generation step) ∧
      (s.decay key generation step).board = (s.board.advance key generation step).board := by
  unfold decay
  dsimp only
  split
  · split <;> exact ⟨⟨rfl, rfl, rfl⟩, rfl⟩
  · exact ⟨⟨rfl, rfl, rfl⟩, rfl⟩
  · exact ⟨⟨rfl, rfl, rfl⟩, rfl⟩

end Screen

namespace Display

theorem keeps_applyRate (d : Display) (now : Nanos) (r : Rate Float) :
    d.screen.Keeps (d.applyRate now r).screen := by
  rw [applyRate_eq]
  cases (d.screen.board.apply r).outcome.pulse? with
  | none => exact ⟨rfl, rfl, rfl⟩
  | some g =>
    rw [Option.elim_some]
    unfold restartTimer
    obtain ⟨inFlight, timers, he⟩ := (d.showRate r).screen.cancelTimer_eq r.key
    dsimp only
    rw [he]
    split <;> exact ⟨rfl, rfl, rfl⟩

theorem shows_applyRate {d : Display} {rs : List (Rate Float)} (h : d.screen.board.Shows rs) (now : Nanos)
    {r : Rate Float} (hv : r.IsValid) : (d.applyRate now r).screen.board.Shows (rs ++ [r]) := by
  rw [applyRate_eq]
  cases (d.screen.board.apply r).outcome.pulse? with
  | none => exact h.apply hv
  | some g =>
    rw [Option.elim_some]
    unfold restartTimer
    obtain ⟨inFlight, timers, he⟩ := (d.showRate r).screen.cancelTimer_eq r.key
    dsimp only
    rw [he]
    split
    · exact h.apply hv
    · exact (h.apply hv).advance ..

/-- A screen that goes on, and shows what it has handled. -/
structure Current (d : Display) : Prop where
  phase : d.screen.phase = .started ∨ ∃ due, d.screen.phase = .running due
  isCancelled : d.screen.isCancelled = false
  isHeld : d.screen.isHeld
  accepting : d.shared.mailbox.isOpen
  handled : d.shared.mailbox.handled ≤ d.shared.mailbox.accepted.size
  shows : d.screen.board.Shows d.shared.mailbox.handledRates

def IsFailed (d : Display) : Prop := ∃ p, d.screen.phase = .ended (.failed p)

/-- A screen goes on, has ended as it was told to, or has failed. -/
inductive Agrees (d : Display) : Prop
  | current (h : d.Current)
  | done (phase : d.screen.phase = .ended .completed) (closed : d.shared.mailbox.isOpen = false)
      (told : .shutdown ∈ d.shared.mailbox.accepted.toList)
      (shows : d.screen.board.Shows d.shared.mailbox.rates)
  | failed (h : d.IsFailed) (closed : d.shared.mailbox.isOpen = false)

/-! ## What others see -/

theorem mailbox_handle (d : Display) (now : Nanos) (m : Message) :
    (d.handle now m).shared.hub = d.shared.hub ∧
      (d.handle now m).shared.mailbox.accepted = d.shared.mailbox.accepted := by
  cases m with
  | rateUpdated r =>
    refine ⟨?_, congrArg Mailbox.accepted (mailbox_applyRate d now r)⟩
    simp only [handle]
    rw [applyRate_eq]
    cases (d.screen.board.apply r).outcome.pulse? with
    | none => rfl
    | some g =>
      rw [Option.elim_some]
      unfold restartTimer
      dsimp only
      split <;> rfl
  | invoke errand => cases errand <;> exact ⟨rfl, rfl⟩
  | _ => exact ⟨rfl, rfl⟩

theorem Turn.shared {d d' : Display} (h : Turn d d') : d'.shared.hub = d.shared.hub ∧
    (d'.shared.mailbox.accepted = d.shared.mailbox.accepted ∨
      ∃ key g n, d'.shared.mailbox.accepted = d.shared.mailbox.accepted.push (.decayStep key g n)) := by
  cases h with
  | act now =>
    cases ha : d.act now with
    | take m =>
      obtain ⟨hh, hm⟩ :=
        mailbox_handle { d with shared := { d.shared with mailbox := d.shared.mailbox.take } } now m
      exact ⟨hh, .inl hm⟩
    | _ => exact ⟨rfl, .inl rfl⟩
  | @tick before after t ht =>
    refine ⟨rfl, ?_⟩
    simp only [Display.tick, Timer.post, Mailbox.post]
    split
    · exact .inr ⟨_, _, _, rfl⟩
    · exact .inl rfl
  | retire => exact ⟨rfl, .inl rfl⟩

/-! ## Messages of others -/

variable {d d' : Display}

theorem Agrees.of_mailbox (h : d.Agrees) (hs : d'.screen = d.screen) (hb : d'.shared.mailbox = d.shared.mailbox) :
    d'.Agrees := by
  cases h with
  | current h =>
    obtain ⟨phase, free, held, accepting, handled, shows⟩ := h
    refine .current ⟨?_, ?_, ?_, ?_, ?_, ?_⟩ <;> (try rw [hs]) <;> (try rw [hb]) <;> assumption
  | done phase closed told shows => exact .done (hs ▸ phase) (hb ▸ closed) (hb ▸ told) (by rw [hs, hb]; exact shows)
  | failed h closed => exact .failed (by rw [IsFailed, hs]; exact h) (hb ▸ closed)

theorem Agrees.post (h : d.Agrees) (hs : d'.screen = d.screen) {m : Message}
    (hb : d'.shared.mailbox = (d.shared.mailbox.post m).2) : d'.Agrees := by
  cases h with
  | current h =>
    rw [Mailbox.post_of_isOpen h.accepting] at hb
    refine .current ⟨hs ▸ h.phase, hs ▸ h.isCancelled, hs ▸ h.isHeld, hb ▸ h.accepting, ?_, ?_⟩
    · rw [hb, Array.size_push]
      exact Nat.le_succ_of_le h.handled
    · have hsame : d'.shared.mailbox.handledRates = d.shared.mailbox.handledRates :=
        Mailbox.handledRates_push (m := m) (by rw [hb]) (by rw [hb]) h.handled
      rw [hs, hsame]
      exact h.shows
  | done phase closed told shows =>
    rw [Mailbox.post_of_not_isOpen closed] at hb
    exact (Agrees.done phase closed told shows).of_mailbox hs hb
  | failed h closed =>
    rw [Mailbox.post_of_not_isOpen closed] at hb
    exact (Agrees.failed h closed).of_mailbox hs hb

/-! ## Turns -/

theorem Current.change (h : d.Current) (hs : d.screen.Keeps d'.screen)
    (hb : d'.shared.mailbox = d.shared.mailbox)
    (shows : d'.screen.board.Shows d.shared.mailbox.handledRates) : d'.Current where
  phase := hs.phase ▸ h.phase
  isCancelled := hs.isCancelled ▸ h.isCancelled
  isHeld := hs.isHeld ▸ h.isHeld
  accepting := hb ▸ h.accepting
  handled := hb ▸ h.handled
  shows := hb ▸ shows

def taken (d : Display) : Display := { d with shared := { d.shared with mailbox := d.shared.mailbox.take } }

theorem Current.handle (h : d.Current) {m : Message} (hm : d.shared.mailbox.next? = some m) (now : Nanos)
    (valid : ∀ r ∈ d.shared.mailbox.rates, r.IsValid) (last : d.shared.mailbox.RatesFirst) :
    (d.taken.handle now m).Agrees := by
  obtain ⟨hlt, hget⟩ := Array.getElem?_eq_some_iff.mp hm
  have hmem : m ∈ d.shared.mailbox.accepted.toList := Array.mem_toList_iff.mpr (Array.mem_of_getElem? hm)
  have htake := Mailbox.handledRates_take hm
  -- what holds once the message is taken, if it is no rate
  have rest (hr : m.rate? = none) : d.taken.Current := by
    refine ⟨h.phase, h.isCancelled, h.isHeld, h.accepting, hlt, ?_⟩
    rw [show d.taken.shared.mailbox = d.shared.mailbox.take from rfl, htake, hr, Option.toList_none,
      List.append_nil]
    exact h.shows
  cases m with
  | rateUpdated r =>
    have hv : r.IsValid := valid r (List.mem_filterMap.mpr ⟨_, hmem, rfl⟩)
    have hs := d.taken.keeps_applyRate now r
    have hb := d.taken.mailbox_applyRate now r
    refine .current ⟨hs.phase ▸ h.phase, hs.isCancelled ▸ h.isCancelled, hs.isHeld ▸ h.isHeld, ?_, ?_, ?_⟩
    · exact hb ▸ h.accepting
    · exact hb ▸ hlt
    · rw [show (d.taken.handle now (.rateUpdated r)).shared.mailbox = d.shared.mailbox.take from hb, htake]
      exact shows_applyRate (d := d.taken) h.shows now hv
  | decayStep key g n =>
    have hc := rest rfl
    obtain ⟨hs, hb⟩ := d.taken.screen.decay_eq key g n
    refine .current (hc.change hs rfl ?_)
    rw [show (d.taken.handle now (.decayStep key g n)).screen.board = _ from hb]
    exact hc.shows.advance ..
  | refreshStatus => exact .current ((rest rfl).change ⟨rfl, rfl, rfl⟩ rfl ((rest rfl).shows.of_rows rfl rfl))
  | invoke errand =>
    cases errand with
    | setStatus text => exact .current ((rest rfl).change ⟨rfl, rfl, rfl⟩ rfl ((rest rfl).shows.setStatus text))
    | report ticket => exact .current ((rest rfl).change ⟨rfl, rfl, rfl⟩ rfl (rest rfl).shows)
    | fail text => exact .failed ⟨_, rfl⟩ rfl
  | shutdown => exact .done rfl rfl hmem (last.handledRates hm ▸ h.shows)

theorem act_of_ended {e : TaskEnd} (h : d.screen.phase = .ended e) (now : Nanos) : d.act now = .wait := by
  simp only [act, h]

theorem Turn.isFailed (h : Turn d d') (hf : d.IsFailed) : d'.IsFailed := by
  cases h with
  | act now =>
    obtain ⟨p, hp⟩ := hf
    rw [act_of_ended hp]
    exact ⟨p, hp⟩
  | tick | retire => exact hf

theorem Current.act (h : d.Current) (now : Nanos)
    (valid : ∀ r ∈ d.shared.mailbox.rates, r.IsValid) (last : d.shared.mailbox.RatesFirst) :
    (d.step now (d.act now)).Agrees := by
  rcases h.phase with hp | ⟨due, hp⟩
  · have ha : d.act now = .begin := by simp only [Display.act, hp]
    rw [ha]
    exact .current ⟨.inr ⟨_, rfl⟩, h.isCancelled, h.isHeld, h.accepting, h.handled, h.shows⟩
  · have hsend : d.hasSender := by simp [hasSender, h.isHeld]
    cases hm : d.shared.mailbox.next? with
    | some m =>
      have ha : d.act now = .take m := by simp [Display.act, hp, h.isCancelled, hm]
      rw [ha]
      exact h.handle hm now valid last
    | none =>
      by_cases hd : due ≤ now
      · have ha : d.act now = .refresh due := by simp [Display.act, hp, h.isCancelled, hm, hsend, hd]
        rw [ha]
        exact .current ⟨.inr ⟨_, rfl⟩, h.isCancelled, h.isHeld, h.accepting, h.handled, h.shows.of_rows rfl rfl⟩
      · have ha : d.act now = .wait := by simp [Display.act, hp, h.isCancelled, hm, hsend, hd]
        rw [ha]
        exact .current h

theorem Agrees.turn (h : d.Agrees) (ht : Turn d d')
    (valid : d.Current → ∀ r ∈ d.shared.mailbox.rates, r.IsValid) (last : d.shared.mailbox.RatesFirst) :
    d'.Agrees := by
  cases h with
  | current h =>
    cases ht with
    | act now => exact h.act now (valid h) last
    | @tick before after t ht =>
      have hpost := Mailbox.post_of_isOpen h.accepting t.message
      refine .current ⟨h.phase, h.isCancelled, h.isHeld, ?_, ?_, ?_⟩ <;> simp only [Display.tick, Timer.post, hpost]
      · exact h.accepting
      · simpa using Nat.le_succ_of_le h.handled
      · have hsame : Mailbox.handledRates { d.shared.mailbox with
            accepted := d.shared.mailbox.accepted.push t.message } = d.shared.mailbox.handledRates :=
          Mailbox.handledRates_push rfl rfl h.handled
        exact hsame ▸ h.shows
    | retire => exact .current ⟨h.phase, h.isCancelled, h.isHeld, h.accepting, h.handled, h.shows⟩
  | done phase closed told shows =>
    cases ht with
    | act now =>
      rw [act_of_ended phase]
      exact .done phase closed told shows
    | @tick before after t ht =>
      have hpost := Mailbox.post_of_not_isOpen closed t.message
      refine .done phase ?_ ?_ ?_ <;> simp only [Display.tick, Timer.post, hpost]
      · exact closed
      · exact told
      · exact shows
    | retire => exact .done phase closed told shows
  | failed phase closed =>
    cases ht with
    | act now =>
      obtain ⟨p, hp⟩ := phase
      rw [act_of_ended hp]
      exact .failed ⟨p, hp⟩ closed
    | @tick before after t ht =>
      have hpost := Mailbox.post_of_not_isOpen closed t.message
      refine .failed phase ?_
      simp only [Display.tick, Timer.post, hpost]
      exact closed
    | retire => exact .failed phase closed

end Display

end PriceBoard
