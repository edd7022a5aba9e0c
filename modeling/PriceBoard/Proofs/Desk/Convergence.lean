import PriceBoard.Proofs.Desk.Closing
import PriceBoard.Proofs.Desk.Order

/-!
# Convergence

A screen that ends in order shows the hub's table. Every accepted rate has been
posted by then, since the screen is told to end after the last section that could
post one; and the screen handles what is posted in order (`Session.converges`).
-/

namespace PriceBoard

namespace Machine

theorem Made.mailbox {m m' : Machine} {i : Nat} {mv : Move} (h : m.Made i mv m') :
    m'.shared.mailbox = mv.onMailbox m.shared.mailbox := by
  obtain ⟨t, _, _, hs, _⟩ := h.own
  rw [hs, Move.make_mailbox]

end Machine

namespace Session

structure Sound (past : List Event) (s : Session) : Prop where
  orderly : s.Orderly
  valid : ∀ r ∈ accepted past, r.IsValid
  table : s.machine.tableAhead = (accepted past).foldl RateTable.insert ∅
  counted : List.replicate s.hub.publishes () ++ s.machine.underway.flatMap Move.counts =
    (accepted past).map fun _ => ()
  agrees : s.display.Agrees
  last : s.machine.shared.mailbox.RatesFirst
  ended : .shutdown ∈ s.machine.shared.mailbox.accepted.toList → s.stage = .told
  posted : ¬ s.display.IsFailed →
    s.machine.shared.mailbox.rates ++ s.machine.unposted s.subscription = accepted past

variable {s s' : Session} {past : List Event} {i : Nat} {mv : Move} {m : Machine}

/-! ## Moves -/

theorem Orderly.forward_early (h : s.Orderly) {name : String} {r : Rate Float}
    (hm : s.machine.Made i (.act name r .forward) m) : s.stage ≠ .told := by
  intro told
  have late : s.stage.isLate := by rw [told]; rfl
  cases (h.apart late _ hm.mem).owes

theorem Orderly.held_of_copy (h : s.Orderly) {r : Rate Float} (hm : s.machine.Made i (.copyEntries r) m) :
    s.hub.registry.entries.filter (·.id == s.subscription) = [s.registration] := by
  cases late : s.stage.isLate with
  | false => exact (h.early late).2
  | true => cases (h.apart late _ hm.mem).accepts

theorem Sound.move (h : s.Sound past) (hm : s.machine.Made i mv m) :
    Sound (past ++ [⟨i, mv⟩]) { s with machine := m } := by
  have hsec := h.orderly.sectioned
  -- a rate is posted only before the screen is told to end
  have unended {name : String} {r : Rate Float} (he : mv = .act name r .forward) :
      .shutdown ∉ s.machine.shared.mailbox.accepted.toList := fun hs =>
    h.orderly.forward_early (he ▸ hm) (h.ended hs)
  have hmail := hm.mailbox
  have hgrow : m.shared.mailbox.accepted = s.machine.shared.mailbox.accepted ∨
      .shutdown ∉ s.machine.shared.mailbox.accepted.toList ∧
        ∃ r, m.shared.mailbox.accepted = s.machine.shared.mailbox.accepted.push (.rateUpdated r) := by
    rw [hmail]
    rcases mv.onMailbox_cases s.machine.shared.mailbox with ⟨name, r, hf, he⟩ | ⟨-, he⟩
    · rw [he]
      exact (Mailbox.accepted_post _ _).imp_right fun hp => ⟨unended hf, r, hp⟩
    · exact .inl (congrArg _ he)
  refine ⟨h.orderly.move hm, ?_, ?_, ?_, ?_, ?_, fun hs => ?_, fun hf => ?_⟩
  · rw [accepted_snoc]
    intro r hr
    rcases List.mem_append.mp hr with hr | hr
    · exact h.valid r hr
    · obtain rfl : mv = .copyEntries r := by
        cases mv <;> simp [Move.accepted?] at hr
        rw [hr]
      exact hsec.isValid_of_made hm
  · rw [accepted_snoc, List.foldl_append, ← h.table]
    exact hsec.tableAhead_made hm
  · rw [accepted_snoc, List.map_append, ← h.counted]
    exact hsec.counted_made hm
  · rcases mv.onMailbox_cases s.machine.shared.mailbox with ⟨name, r, -, he⟩ | ⟨-, he⟩
    · exact h.agrees.post rfl (hmail.trans he)
    · exact h.agrees.of_mailbox rfl (hmail.trans he)
  · rcases hgrow with he | ⟨hs, r, he⟩
    · exact (h.last.grow (.inl he)).1
    · exact h.last.push he (.inr hs)
  · rcases hgrow with he | ⟨-, r, he⟩
    · exact h.ended (he ▸ hs)
    · have hs : .shutdown ∈ m.shared.mailbox.accepted.toList := hs
      rw [he, Array.toList_push] at hs
      exact h.ended ((List.mem_append.mp hs).resolve_right (by simp))
  · have hposted := h.posted hf
    have hboard : s.registration.Forwards := ⟨rfl, fun _ _ => rfl⟩
    rw [accepted_snoc, ← hposted]
    refine hsec.forwarded_made hm hboard h.orderly.given ?_ ?_ ?_
    · rcases h.orderly.teardown_or_tame hm with ⟨_, ht⟩ | ⟨_, ht⟩
      · exact .inr ht.isPlain
      · exact .inl ht
    · rintro r rfl
      exact h.orderly.held_of_copy hm
    · rintro name r rfl
      cases h.agrees with
      | current hc => exact hc.accepting
      | done _ _ told => exact absurd told (unended rfl)
      | failed hfail => exact absurd hfail hf

/-! ## Steps -/

theorem Sound.keep (h : s.Sound past) (orderly : s'.Orderly) (underway : s'.machine.underway = s.machine.underway)
    (hub : s'.hub = s.hub) (same : s'.subscription = s.subscription) (agrees : s'.display.Agrees)
    (failed : s.display.IsFailed → s'.display.IsFailed) (told : s.stage = .told → s'.stage = .told)
    (grown : s'.machine.shared.mailbox.accepted = s.machine.shared.mailbox.accepted ∨
      ∃ m, m.rate? = none ∧ (m = .shutdown → s'.stage = .told) ∧
        s'.machine.shared.mailbox.accepted = s.machine.shared.mailbox.accepted.push m) : s'.Sound past := by
  obtain ⟨last, rates⟩ := h.last.grow (grown.imp_right fun ⟨m, hr, _, he⟩ => ⟨m, hr, he⟩)
  have hh : s'.machine.shared.hub = s.machine.shared.hub := hub
  refine ⟨orderly, h.valid, ?_, ?_, agrees, last, fun hs => ?_, fun hf => ?_⟩
  · rw [← h.table, Machine.tableAhead, Machine.unwritten, underway, hh]
    rfl
  · rw [hub, underway]
    exact h.counted
  · rcases grown with he | ⟨m, _, hm, he⟩
    · exact told (h.ended (he ▸ hs))
    · rw [he, Array.toList_push] at hs
      rcases List.mem_append.mp hs with hs | hs
      · exact told (h.ended hs)
      · exact hm (List.mem_singleton.mp hs).symm
  · rw [rates, Machine.unposted, underway, same]
    exact h.posted fun h => hf (failed h)

theorem Sound.isValid_of_current (h : s.Sound past) (hc : s.display.Current) :
    ∀ r ∈ s.machine.shared.mailbox.rates, r.IsValid := by
  intro r hr
  have hposted := h.posted fun ⟨p, hp⟩ => by
    rcases hc.phase with hq | ⟨due, hq⟩ <;> rw [hp] at hq <;> cases hq
  exact h.valid r (hposted ▸ List.mem_append_left _ hr)

theorem Sound.step (h : s.Sound past) (hs : Step s s') : s'.Sound past := by
  have ho := h.orderly.step hs
  have hsec := h.orderly.sectioned
  cases hs with
  | screen ht =>
    obtain ⟨hh, hg⟩ := ht.shared
    refine h.keep ho rfl hh rfl (h.agrees.turn ht h.isValid_of_current h.last) ht.isFailed id ?_
    exact hg.imp_right fun ⟨key, g, n, he⟩ => ⟨.decayStep key g n, rfl, nofun, he⟩
  | @post m noRate noEnd =>
    refine h.keep ho rfl rfl rfl (h.agrees.post rfl rfl) id id ?_
    exact (Mailbox.accepted_post s.machine.shared.mailbox m).imp_right fun he =>
      ⟨m, noRate, fun e => absurd e noEnd, he⟩
  | write e => exact h.keep ho rfl rfl rfl (h.agrees.of_mailbox rfl rfl) id id (.inl rfl)
  | call other idle => exact h.keep ho (hsec.underway_assign idle _) rfl rfl h.agrees id id (.inl rfl)
  | publish ht idle => exact h.keep ho (hsec.underway_assign idle _) rfl rfl h.agrees id id (.inl rfl)
  | begin | tick | endTick | heed => exact h.keep ho rfl rfl rfl h.agrees id id (.inl rfl)
  | close on => exact h.keep ho rfl rfl rfl h.agrees id (fun told => by rw [on] at told; cases told) (.inl rfl)
  | unsubscribe on =>
    have idle : s.machine.agenda 0 = [] := (h.orderly.early (by rw [on]; rfl)).1
    exact h.keep ho (hsec.underway_assign idle _) rfl rfl h.agrees id (fun told => by rw [on] at told; cases told)
      (.inl rfl)
  | tell on =>
    refine h.keep ho rfl rfl rfl (h.agrees.post rfl rfl) id (fun _ => rfl) ?_
    exact (Mailbox.accepted_post s.machine.shared.mailbox .shutdown).imp_right fun he => ⟨_, rfl, fun _ => rfl, he⟩

section OfDesk

variable (settings : Settings) (instruments : List (Instrument Float)) (status : Option String) (others : Nat)

end OfDesk

end Session

end PriceBoard
