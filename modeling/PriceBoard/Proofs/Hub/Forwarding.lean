import PriceBoard.Proofs.Hub.Replay
import PriceBoard.Proofs.Screen.Agreement

/-!
# Forwarding

One registration forwards what it is delivered to the screen. As long as no other
handler posts to the screen or takes that registration away, the rates that were
posted, followed by those that the section under way still has to post, are the
accepted ones (`Sectioned.forwarded_made`). What is apart from publishing stays so
(`IsApart.of_mem_make`).
-/

namespace PriceBoard

/-! ## Quiet handlers -/

/-- A handler that does not post to the screen, does not take a registration away,
and subscribes only such handlers. -/
inductive Handler.Quiet (id : SubscriptionId) : Handler → Prop
  | of (h : Handler) (silent : h.forwards = false)
      (keeps : ∀ turn r, .unsubscribe id ∉ (h.conduct turn r).actions ∧ .shutdown ∉ (h.conduct turn r).actions)
      (brings : ∀ turn r g f, .subscribe g f ∈ (h.conduct turn r).actions → Quiet id g) : Quiet id h

def Action.IsQuiet (id : SubscriptionId) : Action Handler → Prop
  | .forward | .shutdown => False
  | .unsubscribe other => other ≠ id
  | .subscribe h _ => h.Quiet id
  | .note | .read _ | .ask _ | .check => True

theorem Handler.Quiet.isQuiet {id : SubscriptionId} {h : Handler} (hq : h.Quiet id) {turn : Nat} {r : Rate Float}
    {a : Action Handler} (ha : a ∈ h.actionsOn turn r) : a.IsQuiet id := by
  obtain ⟨_, silent, keeps, brings⟩ := hq
  obtain ⟨hm, hf⟩ := List.mem_filter.mp ha
  cases a with
  | forward => simp [silent, Action.isForward] at hf
  | shutdown => exact absurd hm (keeps turn r).2
  | unsubscribe other =>
    intro e
    exact (keeps turn r).1 (e ▸ hm)
  | subscribe g f => exact brings turn r g f hm
  | note | read | ask | check => trivial

structure Registration.Forwards (board : Registration Handler) : Prop where
  all : board.filter = .all
  forward : ∀ turn r, board.subscriber.actionsOn turn r = [.forward]

/-- The one that forwards, or another one that leaves it alone. -/
def Registration.IsTame (board e : Registration Handler) : Prop :=
  e = board ∨ e.id ≠ board.id ∧ e.subscriber.Quiet board.id

namespace Move

variable {board : Registration Handler} {mv n : Move} {s : Shared} {t : Thread}

/-- The moves of threads that leave the forwarding registration alone. -/
def IsTame (board : Registration Handler) : Move → Prop
  | writeTable _ es => ∀ e ∈ es, board.IsTame e
  | deliver e _ => board.IsTame e
  | act _ _ a => a = .forward ∨ a.IsQuiet board.id
  | copyTable h _ | registerLoading h _ _ | register h _ _ => h.Quiet board.id
  | unregister id _ => id ≠ board.id
  | clearRegistry _ => False
  | _ => True

theorem isTame_of_mem_make (hb : board.Forwards) (given : board.id < s.hub.registry.nextId)
    (tame : ∀ e ∈ s.hub.registry.entries, board.IsTame e) (h : mv.IsTame board)
    (hn : n ∈ (mv.make s t).2.2) : n.IsTame board := by
  cases mv with
  | copyEntries r =>
    simp only [make, List.mem_singleton] at hn
    exact hn ▸ tame
  | writeTable r es =>
    simp only [make, List.mem_append, List.mem_cons, List.mem_map, List.mem_filter] at hn
    rcases hn with (rfl | ⟨e, ⟨he, _⟩, rfl⟩) | rfl | hn
    · trivial
    · exact h e he
    · trivial
    · cases hn
  | deliver e r =>
    simp only [make, List.mem_append, List.mem_map, List.mem_singleton] at hn
    rcases hn with ⟨a, ha, rfl⟩ | rfl
    · rcases h with rfl | ⟨_, hq⟩
      · rw [hb.forward, List.mem_singleton] at ha
        exact .inl ha
      · exact .inr (hq.isQuiet ha)
    · trivial
  | act name r a =>
    cases a with
    | unsubscribe | subscribe =>
      simp only [make, Action.moves, List.mem_singleton] at hn
      exact hn ▸ h.resolve_left (by simp)
    | ask | check =>
      simp only [make, Action.moves, List.mem_singleton] at hn
      exact hn ▸ trivial
    | shutdown => exact absurd (h.resolve_left (by simp)) not_false
    | forward | note | read => cases hn
  | copyTable g f =>
    simp only [make, List.mem_singleton] at hn
    exact hn ▸ h
  | registerLoading g f replay =>
    simp only [make, List.mem_append, List.mem_cons, List.mem_map] at hn
    rcases hn with (rfl | ⟨r, _, rfl⟩) | rfl | rfl | hn
    · trivial
    · exact .inr ⟨Nat.ne_of_gt given, h⟩
    · trivial
    · trivial
    · cases hn
  | unregister id asker =>
    simp only [make, List.mem_cons, List.not_mem_nil, or_false] at hn
    rcases hn with rfl | rfl
    · split <;> trivial
    · trivial
  | reply asker r => cases asker <;> simp [make] at hn
  | conclude name key ending => cases hp : ending.payload? key <;> simp [make, hp] at hn
  | clearRegistry => exact absurd h not_false
  | _ => simp [make] at hn <;> grind [IsTame]

theorem isTame_onHub {hub : Hub} (given : board.id < hub.registry.nextId)
    (tame : ∀ e ∈ hub.registry.entries, board.IsTame e) (h : mv.IsTame board) :
    ∀ e ∈ (mv.onHub hub).registry.entries, board.IsTame e := by
  intro e he
  cases mv with
  | register g f _ | registerLoading g f _ =>
    rcases List.mem_append.mp he with he | he
    · exact tame e he
    · exact .inr (List.mem_singleton.mp he ▸ ⟨Nat.ne_of_gt given, h⟩)
  | unregister id _ => exact tame e (List.mem_of_mem_eraseP he)
  | clearRegistry => cases he
  | _ => exact tame e he

theorem removes_of_isTame (h : mv.IsTame board) : mv.removes board.id = false := by
  cases mv with
  | unregister => simpa [removes, IsTame] using h
  | clearRegistry => exact absurd h not_false
  | _ => rfl

/-! ## Idle moves -/

/-- The moves that leave the hub as it is, and so do those that they bring on. -/
def isIdle : Move → Bool
  | reject .. | tellRegistered .. | tellRemoved .. | tellUnknown _ | tellCleared _ | look .. | checkTable _
  | checkRegistry .. | tellSnapshot .. | reply .. => true
  | _ => false

theorem isIdle_of_mem_make (h : mv.isIdle) (hn : n ∈ (mv.make s t).2.2) : n.isIdle := by
  cases mv with
  | reply asker r => cases asker <;> simp [make] at hn
  | _ => simp [make] at hn <;> simp [isIdle] at h <;> grind [isIdle]

theorem isPlain_of_isIdle (h : mv.isIdle) : mv.isPlain := by
  cases mv <;> first | rfl | simp [isIdle] at h

theorem onHub_of_isIdle (h : mv.isIdle) (hub : Hub) : mv.onHub hub = hub := by
  cases mv <;> first | rfl | simp [isIdle] at h

/-! ## What is posted -/

def onMailbox (b : Mailbox) : Move → Mailbox
  | act _ r .forward => (b.post (.rateUpdated r)).2
  | _ => b

theorem make_mailbox (s : Shared) (t : Thread) (mv : Move) : (mv.make s t).1.mailbox = mv.onMailbox s.mailbox := by
  cases mv with
  | act name r a =>
    cases a with
    | forward =>
      simp only [make, Action.effect, Shared.forward, onMailbox]
      split <;> rfl
    | _ => rfl
  | conclude name key ending =>
    simp only [make, onMailbox]
    split <;> rfl
  | reply asker r =>
    cases asker with
    | program => rfl
    | handler name => simp only [make, onMailbox]; cases r.note? name <;> rfl
  | _ => rfl

theorem onMailbox_cases (mv : Move) (b : Mailbox) :
    (∃ name r, mv = act name r .forward ∧ mv.onMailbox b = (b.post (.rateUpdated r)).2) ∨
    (∀ name r, mv ≠ act name r .forward) ∧ mv.onMailbox b = b := by
  cases mv with
  | act name r a =>
    cases a with
    | forward => exact .inl ⟨name, r, rfl, rfl⟩
    | _ => exact .inr ⟨by simp, rfl⟩
  | _ => exact .inr ⟨nofun, rfl⟩

/-- The rates that a move is going to have posted. -/
def owes (id : SubscriptionId) : Move → List (Rate Float)
  | act _ r .forward => [r]
  | mv => mv.promises id

theorem owes_of_isInner (h : mv.isInner = false) (id : SubscriptionId) : mv.owes id = [] := by
  cases mv <;> first | rfl | cases h

theorem flatMap_owes_to (r : Rate Float) (id : SubscriptionId) (es : List (Registration Handler)) :
    (es.map (deliver · r)).flatMap (owes id) = (es.filter (·.id == id)).map fun _ => r := by
  rw [← flatMap_promises_to r id es, List.flatMap_map, List.flatMap_map]
  rfl

theorem owes_of_isQuiet {a : Action Handler} {id : SubscriptionId} (h : a.IsQuiet id) (name : String)
    (r : Rate Float) : (act name r a).owes id = [] := by
  cases a with
  | forward => exact absurd h not_false
  | _ => rfl

/-- What a move posts it owed, and what it owes was accepted. -/
theorem forwarded (hb : board.Forwards) (given : board.id < s.hub.registry.nextId)
    (h : mv.IsTame board ∨ mv.isPlain)
    (held : ∀ r, mv = .copyEntries r → s.hub.registry.entries.filter (·.id == board.id) = [board])
    (accepting : ∀ name r, mv = .act name r .forward → s.mailbox.isOpen) :
    (mv.onMailbox s.mailbox).rates ++ (mv.make s t).2.2.flatMap (owes board.id) =
      s.mailbox.rates ++ mv.owes board.id ++ mv.accepted?.toList := by
  cases mv with
  | act name r a =>
    have hmake : ((act name r a).make s t).2.2.flatMap (owes board.id) = [] :=
      List.flatMap_eq_nil_iff.mpr fun n hn =>
        owes_of_isInner (isInner_of_isCalm (by cases a <;> simp [make, Action.moves] at hn <;> subst hn <;> rfl)) _
    rw [hmake, List.append_nil]
    cases a with
    | forward =>
      rw [onMailbox, Mailbox.rates_post (accepting name r rfl)]
      simp [owes, accepted?, Message.rate?]
    | _ => simp [onMailbox, owes, promises, accepted?]
  | copyEntries r =>
    have hone : (s.hub.registry.entries.filter (·.filter.admits r.key)).filter (·.id == board.id) = [board] := by
      rw [List.filter_comm, held r rfl]
      simp [hb.all, Filter.admits]
    simp [make, onMailbox, owes, promises, accepted?, hone]
  | writeTable r es =>
    have hes := flatMap_owes_to r board.id (es.filter (·.filter.admits r.key))
    simp [make, onMailbox, owes, promises, accepted?, hes]
  | deliver e r =>
    rcases h.resolve_right (by simp [isPlain]) with rfl | ⟨hne, hq⟩
    · simp [make, onMailbox, hb.forward, owes, promises, accepted?]
    · have hacts : ((e.subscriber.actionsOn s.hub.deliveries.size r).map (act e.subscriber.name r ·)).flatMap
          (owes board.id) = [] := by
        rw [List.flatMap_map]
        exact List.flatMap_eq_nil_iff.mpr fun a ha => owes_of_isQuiet (hq.isQuiet ha) _ r
      simp [make, onMailbox, hacts, owes, promises, accepted?, hne]
  | registerLoading g f replay =>
    have hrs : (replay.map (deliver ⟨s.hub.registry.nextId, f, g⟩ ·)).flatMap (owes board.id) = [] := by
      rw [List.flatMap_map]
      exact List.flatMap_eq_nil_iff.mpr fun r _ => if_neg (Nat.ne_of_gt given)
    simp [make, Registry.register, onMailbox, hrs, owes, promises, accepted?]
  | unregister id asker =>
    simp only [make, onMailbox, List.flatMap_cons, List.flatMap_nil]
    split <;> simp [owes, promises, accepted?]
  | reply asker r => cases asker <;> simp [make, onMailbox, owes, promises, accepted?]
  | conclude name key ending =>
    cases hp : ending.payload? key <;> simp [make, hp, onMailbox, owes, promises, accepted?]
  | _ => simp [make, onMailbox, owes, promises, accepted?]

/-! ## What is counted -/

/-- One token for each rate that a move is going to have counted. -/
def counts : Move → List Unit
  | writeTable .. | countPublish => [()]
  | _ => []

theorem counts_of_isInner (h : mv.isInner = false) : mv.counts = [] := by
  cases mv <;> first | rfl | cases h

theorem publishes_onHub_of_counts (h : mv.counts = []) (hub : Hub) : (mv.onHub hub).publishes = hub.publishes := by
  cases mv <;> first | rfl | cases h

theorem counted (s : Shared) (t : Thread) (mv : Move) :
    List.replicate (mv.onHub s.hub).publishes () ++ (mv.make s t).2.2.flatMap counts =
      List.replicate s.hub.publishes () ++ mv.counts ++ mv.accepted?.toList.map fun _ => () := by
  cases mv with
  | countPublish => simp [make, onHub, counts, accepted?, List.replicate_succ']
  | act name r a => cases a <;> simp [make, Action.moves, onHub, counts, accepted?]
  | unregister id asker =>
    simp only [make, onHub, List.flatMap_cons, List.flatMap_nil]
    split <;> simp [counts, accepted?]
  | reply asker r => cases asker <;> simp [make, onHub, counts, accepted?]
  | conclude name key ending => cases hp : ending.payload? key <;> simp [make, hp, onHub, counts, accepted?]
  | _ => simp [make, onHub, counts, accepted?, List.flatMap_map]

/-! ## Apart from publishing -/

/-- The moves that have no part in a publish, as far as one registration is concerned:
no rate is going to be accepted, posted for it or counted on their account. -/
structure IsApart (id : SubscriptionId) (mv : Move) : Prop where
  accepts : mv.accepted? = none
  owes : mv.owes id = []
  counts : mv.counts = []

theorem isApart_of_isIdle (h : mv.isIdle) (id : SubscriptionId) : mv.IsApart id := by
  cases mv <;> first | exact ⟨rfl, rfl, rfl⟩ | cases h

theorem IsApart.of_mem_make (h : mv.IsApart board.id) (hb : board.Forwards)
    (given : board.id < s.hub.registry.nextId) (tame : mv.IsTame board) (hn : n ∈ (mv.make s t).2.2) :
    n.IsApart board.id := by
  obtain ⟨accepts, owes, counts⟩ := h
  have nothing : mv.accepted?.toList = [] := by rw [accepts]; rfl
  refine ⟨accepted?_of_mem_make hn, ?_, ?_⟩
  · have unposted (name : String) (r : Rate Float) : mv ≠ .act name r .forward := by
      rintro rfl
      cases owes
    have hmail := ((mv.onMailbox_cases s.mailbox).resolve_left fun ⟨name, r, he, _⟩ => unposted name r he).2
    have hf := forwarded (t := t) hb given (.inl tame) (fun r he => by rw [he] at accepts; cases accepts)
      fun name r he => absurd he (unposted name r)
    rw [hmail, owes, nothing, List.append_nil, List.append_nil, List.append_right_eq_self] at hf
    exact List.flatMap_eq_nil_iff.mp hf n hn
  · have hc := counted s t mv
    rw [publishes_onHub_of_counts counts, counts, nothing, List.map_nil, List.append_nil, List.append_nil,
      List.append_right_eq_self] at hc
    exact List.flatMap_eq_nil_iff.mp hc n hn

end Move

namespace Machine

variable {m m' : Machine} {i : Nat} {mv : Move}

/-- The rates that the section under way is going to have posted. -/
def unposted (m : Machine) (id : SubscriptionId) : List (Rate Float) := m.underway.flatMap (Move.owes id)

theorem Sectioned.forwarded_made (h : m.Sectioned) (hm : m.Made i mv m') {board : Registration Handler}
    (hb : board.Forwards) (given : board.id < m.shared.hub.registry.nextId) (tame : mv.IsTame board ∨ mv.isPlain)
    (held : ∀ r, mv = .copyEntries r → m.shared.hub.registry.entries.filter (·.id == board.id) = [board])
    (accepting : ∀ name r, mv = .act name r .forward → m.shared.mailbox.isOpen) :
    m'.shared.mailbox.rates ++ m'.unposted board.id =
      m.shared.mailbox.rates ++ m.unposted board.id ++ mv.accepted?.toList := by
  obtain ⟨t, _, _, hs, _⟩ := hm.own
  refine h.balance hm (fun n hn => Move.owes_of_isInner hn board.id) (fun u => ?_) fun hg => ?_
  · rw [hs, Move.make_mailbox]
    exact Move.forwarded hb given tame held accepting
  · cases mv <;> first | rfl | cases hg

theorem Sectioned.counted_made (h : m.Sectioned) (hm : m.Made i mv m') :
    List.replicate m'.shared.hub.publishes () ++ m'.underway.flatMap Move.counts =
      List.replicate m.shared.hub.publishes () ++ m.underway.flatMap Move.counts ++
        mv.accepted?.toList.map fun _ => () := by
  refine h.balance hm (fun n => Move.counts_of_isInner) (fun t => ?_) fun hg => ?_
  · rw [hm.hub]
    exact Move.counted m.shared t mv
  · cases mv <;> first | rfl | cases hg

end Machine

end PriceBoard
