import PriceBoard.Proofs.Hub.Forwarding
import PriceBoard.Proofs.Rate.Validity

/-!
# The table and the deliveries

The table holds for each key the last rate that was written for it. Since a
section writes before it delivers and nobody else writes meanwhile, a handler is
called only with the rate that the table holds for the rate's key
(`table_of_follow`).
-/

namespace PriceBoard

/-- The moves that are made for a call: its own, and those that they bring on. -/
inductive Call.Makes (c : Call) : Move → Prop
  | own {mv : Move} : mv ∈ c.moves → c.Makes mv
  | next {mv n : Move} (s : Shared) (t : Thread) : c.Makes mv → n ∈ (mv.make s t).2.2 → c.Makes n

theorem Call.isIdle_of_makes {r : Rate Float} (h : ¬ r.IsValid) {mv : Move} (hm : (publish r).Makes mv) :
    mv.isIdle := by
  induction hm with
  | own hm =>
    cases hf : r.fault? with
    | none => exact absurd (by simp [Rate.IsValid, hf]) h
    | some fault =>
      simp only [moves, hf, List.mem_singleton] at hm
      exact hm ▸ rfl
  | next s t _ hn ih => exact Move.isIdle_of_mem_make ih hn

theorem Call.writes_of_makes {c : Call} (h : ∀ r, c ≠ .publish r) {mv : Move} (hm : c.Makes mv) :
    mv.accepted? = none ∧ mv.writes = [] := by
  induction hm with
  | own hm =>
    cases c with
    | publish r => exact absurd rfl (h r)
    | subscribeAndLoad =>
      simp only [moves, List.mem_cons, List.not_mem_nil, or_false] at hm
      rcases hm with rfl | rfl | rfl <;> exact ⟨rfl, rfl⟩
    | _ =>
      simp only [moves, List.mem_singleton] at hm
      subst hm
      exact ⟨rfl, rfl⟩
  | @next mv n s t _ hn ih =>
    refine ⟨Move.accepted?_of_mem_make hn, ?_⟩
    have hw := Move.flatMap_writes_make s t mv
    rw [ih.1, Option.toList_none] at hw
    exact List.flatMap_eq_nil_iff.mp hw n hn

namespace Move

/-- The rate that a handler is called with, and keeps while it acts. -/
def handed : Move → Option (Rate Float)
  | deliver _ r | act _ r _ => some r
  | _ => none

theorem writes_of_handed {mv : Move} {r : Rate Float} (h : mv.handed = some r) : mv.writes = [] := by
  cases mv <;> first | rfl | cases h

theorem handed_of_isCalm {mv : Move} (h : mv.isCalm) : mv.handed = none := by
  cases mv <;> first | rfl | simp [isCalm, isPlain] at h

theorem handed_of_mem_make {s : Shared} {t : Thread} {mv n : Move} {r : Rate Float} (hn : n ∈ (mv.make s t).2.2)
    (hr : n.handed = some r) :
    mv.handed = some r ∨ (∃ es, mv = writeTable r es) ∨
      ∃ h f replay, mv = registerLoading h f replay ∧ r ∈ replay := by
  by_cases hc : mv.isCalm
  · rw [handed_of_isCalm (isCalm_of_mem_make hc hn)] at hr
    cases hr
  cases mv with
  | deliver e q =>
    simp only [make, List.mem_append, List.mem_map, List.mem_singleton] at hn
    rcases hn with ⟨a, -, rfl⟩ | rfl
    · exact .inl hr
    · cases hr
  | act name q a => cases a <;> simp [make, Action.moves] at hn <;> subst hn <;> cases hr
  | conclude name key ending => cases hp : ending.payload? key <;> simp [make, hp] at hn
  | writeTable q es =>
    simp only [make, List.mem_append, List.mem_cons, List.mem_map, List.not_mem_nil, or_false] at hn
    rcases hn with (rfl | ⟨e, -, rfl⟩) | rfl
    · cases hr
    · cases hr
      exact .inr (.inl ⟨es, rfl⟩)
    · cases hr
  | registerLoading h f replay =>
    simp only [make, List.mem_append, List.mem_cons, List.mem_map, List.not_mem_nil, or_false] at hn
    rcases hn with (rfl | ⟨q, hq, rfl⟩) | rfl | rfl
    · cases hr
    · cases hr
      exact .inr (.inr ⟨h, f, replay, rfl, hq⟩)
    · cases hr
    · cases hr
  | copyEntries | copyTable | account =>
    simp only [make, List.mem_singleton] at hn
    subst hn
    cases hr
  | lockPublishing | unlockPublishing | countPublish | tellReplayed => cases hn
  | _ => exact absurd rfl hc

end Move

theorem Inside.eq_nil_of_writeTable {table : RateTable Float} {r : Rate Float} {es : List (Registration Handler)}
    {rest : List Move} (h : Inside table (.writeTable r es :: rest)) : rest = [] := by
  cases h with
  | «open» ho => cases ho
  | writeTable => rfl
  | publishing hd | loading hd =>
    cases hd with
    | plain hp => cases hp
  | done hp => cases hp _ List.mem_cons_self

theorem Inside.counts_eq_nil {table : RateTable Float} {now : List Move} (h : Inside table now)
    (idle : ∀ mv ∈ now, ¬ mv.endsPublish) : now.flatMap Move.counts = [] := by
  cases h with
  | «open» ho => cases ho <;> rfl
  | writeTable es _ => exact absurd rfl (idle _ List.mem_cons_self)
  | countPublish hd => exact absurd rfl (idle _ (List.mem_cons_of_mem _ (hd.mem_last List.mem_cons_self)))
  | publishing hd => exact absurd rfl (idle _ (hd.mem_last List.mem_cons_self))
  | registerLoading => rfl
  | loading hd =>
    refine List.flatMap_eq_nil_iff.mpr (hd.forall_mem (fun mv hp => ?_) (fun _ _ _ => rfl) (by simp [Move.counts]))
    cases mv <;> first | rfl | cases hp
  | done hp =>
    refine List.flatMap_eq_nil_iff.mpr fun mv hm => ?_
    have hp := hp mv hm
    cases mv <;> first | rfl | cases hp

/-- The rates that were written, in order. -/
def written (past : List Event) : List (Rate Float) := past.flatMap (·.move.writes)

theorem written_snoc (past : List Event) (e : Event) : written (past ++ [e]) = written past ++ e.move.writes := by
  simp [written]

namespace Machine

variable {m m' : Machine} {i : Nat} {mv : Move}

/-- The table holds every rate that a handler has or is going to be called with. -/
def Agrees (m : Machine) : Prop :=
  ∀ n ∈ m.underway, ∀ r, n.handed = some r → m.shared.hub.table.get? r.key = some r

theorem Sectioned.agrees_made (h : m.Sectioned) (hm : m.Made i mv m') (agrees : m.Agrees) : m'.Agrees := by
  intro n hn r hr
  rw [hm.hub, Move.table_onHub]
  cases h.turn hm with
  | calm hc same =>
    rw [Move.writes_of_isPlain (Move.isPlain_of_isCalm hc)]
    exact agrees n (same ▸ hn) r hr
  | enter hl ho was is =>
    rw [is, List.mem_singleton] at hn
    cases ho <;> subst hn <;> cases hr
  | leave hl was is =>
    rw [is] at hn
    cases hn
  | @go t now hi was is =>
    rw [is] at hn
    rw [Agrees, was] at agrees
    rcases List.mem_append.mp hn with hmake | hnow
    · rcases Move.handed_of_mem_make hmake hr with hr | ⟨es, rfl⟩ | ⟨g, f, replay, rfl, hmem⟩
      · rw [Move.writes_of_handed hr]
        exact agrees mv List.mem_cons_self r hr
      · exact (RateTable.get?_insert _ r r.key).trans (if_pos rfl)
      · rw [(h.replay_eq hm).1] at hmem
        exact (RateTable.mem_rates_iff _ r).mp (List.mem_filter.mp hmem).1
    · cases mv with
      | writeTable q es =>
        obtain rfl : now = [] := hi.eq_nil_of_writeTable
        exact absurd hnow List.not_mem_nil
      | _ => exact agrees n (List.mem_cons_of_mem _ hnow) r hr

theorem Sectioned.mem_underway (h : m.Sectioned) (hm : m.Made i mv m') {r : Rate Float} (hr : mv.handed = some r) :
    mv ∈ m.underway := by
  cases h.turn hm with
  | calm hc =>
    rw [Move.handed_of_isCalm hc] at hr
    cases hr
  | enter hl =>
    subst hl
    cases hr
  | leave hl =>
    subst hl
    cases hr
  | go hi was => exact was ▸ List.mem_cons_self

/-- What the hub holds after some events. -/
structure Recorded (past : List Event) (m : Machine) : Prop where
  sectioned : m.Sectioned
  accepted : accepted past = written past ++ m.unwritten
  counted : List.replicate m.shared.hub.publishes () ++ m.underway.flatMap Move.counts =
    (PriceBoard.accepted past).map fun _ => ()
  table : m.shared.hub.table = (written past).foldl RateTable.insert ∅
  agrees : m.Agrees
  valid : ∀ r ∈ PriceBoard.accepted past, r.IsValid
  delivered : ∀ d ∈ m.shared.hub.deliveries.toList, d.rate.IsValid

theorem recorded_ofPrograms {s : Shared} (new : s.hub = {}) (programs : List (List Call)) :
    (ofPrograms s programs).Recorded [] := by
  have hub : (ofPrograms s programs).shared.hub = {} := new
  refine ⟨sectioned_ofPrograms s programs, rfl, ?_, ?_, nofun, nofun, ?_⟩ <;> rw [hub]
  · rfl
  · rfl
  · nofun

theorem Recorded.isValid_of_get? {past : List Event} (h : m.Recorded past) {key : String} {r : Rate Float}
    (hr : m.shared.hub.table.get? key = some r) : r.IsValid := by
  rw [h.table, RateTable.get?_foldl_insert] at hr
  have hw : r ∈ written past := (List.mem_filter.mp (List.mem_of_getLast? hr)).1
  exact h.valid r (h.accepted ▸ List.mem_append_left _ hw)

theorem Recorded.made {past : List Event} (h : m.Recorded past) (hm : m.Made i mv m') :
    m'.Recorded (past ++ [⟨i, mv⟩]) where
  sectioned := h.sectioned.made hm
  accepted := by
    rw [accepted_snoc, written_snoc, h.accepted, List.append_assoc, List.append_assoc,
      h.sectioned.unwritten_made hm]
  counted := by rw [h.sectioned.counted_made hm, h.counted, accepted_snoc, List.map_append]
  table := by rw [hm.hub, Move.table_onHub, h.table, written_snoc, List.foldl_append]
  agrees := h.sectioned.agrees_made hm h.agrees
  valid r hr := by
    rw [accepted_snoc] at hr
    rcases List.mem_append.mp hr with hr | hr
    · exact h.valid r hr
    · cases mv with
      | copyEntries q =>
        cases List.mem_singleton.mp hr
        exact h.sectioned.isValid_of_made hm
      | _ => cases hr
  delivered d hd := by
    rw [hm.hub] at hd
    cases mv with
    | deliver e r =>
      simp only [Move.onHub, Array.toList_push, List.mem_append, List.mem_singleton] at hd
      rcases hd with hd | rfl
      · exact h.delivered d hd
      · exact h.isValid_of_get? (h.agrees _ (h.sectioned.mem_underway hm rfl) r rfl)
    | _ => exact h.delivered d hd

theorem recorded_follow {s : Shared} (new : s.hub = {}) (programs : List (List Call)) (schedule : List Nat) :
    ((ofPrograms s programs).follow schedule).Recorded ((ofPrograms s programs).trace schedule) :=
  trace_induction (P := fun past m => m.Recorded past) (fun _ _ _ _ _ h hm => h.made hm) schedule [] _
    (recorded_ofPrograms new programs)

theorem Recorded.counts_eq_nil {past : List Event} (h : m.Recorded past) (idle : ¬ m.IsPublishing) :
    m.underway.flatMap Move.counts = [] := by
  rcases h.sectioned.underway with hu | ⟨j, rest, ha, hi⟩
  · rw [hu]
    rfl
  · refine hi.counts_eq_nil fun mv hmv he => ?_
    obtain ⟨t, ht, hmt⟩ := exists_thread_of_mem (ha ▸ List.mem_append_left _ hmv)
    exact idle ⟨t, ht, mv, hmt, he⟩

theorem Recorded.idle {past : List Event} (h : m.Recorded past) (idle : ¬ m.IsPublishing) :
    written past = PriceBoard.accepted past ∧ m.shared.hub.publishes = (PriceBoard.accepted past).length := by
  constructor
  · rw [h.accepted, h.sectioned.unwritten_eq_nil idle, List.append_nil]
  · have hc := congrArg List.length h.counted
    rwa [h.counts_eq_nil idle, List.append_nil, List.length_replicate, List.length_map] at hc

theorem exists_makes_of_made {s : Shared} {programs : List (List Call)} {schedule : List Nat}
    (hm : ((ofPrograms s programs).follow schedule).Made i mv m') : ∃ c ∈ (programs[i]?).getD [], c.Makes mv := by
  have hall : ∀ j, ∀ n ∈ ((ofPrograms s programs).follow schedule).agenda j,
      ∃ c ∈ (programs[j]?).getD [], c.Makes n := by
    refine follow_induction (P := fun m => ∀ j, ∀ n ∈ m.agenda j, ∃ c ∈ (programs[j]?).getD [], c.Makes n)
      (fun m k mv m' h hm j n hn => ?_) (fun j n hn => ?_) schedule
    · rcases hm.mem_agenda hn with hn | ⟨rfl, t, hn⟩
      · exact h j n hn
      · obtain ⟨c, hc, hmakes⟩ := h j mv hm.mem
        exact ⟨c, hc, .next _ t hmakes hn⟩
    · rw [agenda_ofPrograms] at hn
      obtain ⟨c, hc, hn⟩ := List.mem_flatMap.mp hn
      exact ⟨c, hc, .own hn⟩
  exact hall i mv hm.mem

/-- Along every schedule the table holds for each key the last rate that was
written for it, in the order of the publishing lock, and every rate that is stored
or delivered is well formed. When no publish is under way, nothing is left to be
written or counted. A refused publish changes nothing in the hub, other calls do
not change the table, and a handler has the rate that the table holds. -/
theorem table_of_follow {s : Shared} (new : s.hub = {}) (programs : List (List Call)) (schedule : List Nat) :
    let past := (ofPrograms s programs).trace schedule
    let m := (ofPrograms s programs).follow schedule
    let hub := m.shared.hub
    written past <+: entered past ∧
    (∀ key, hub.table.get? key = latest (written past) key) ∧
    (∀ key r, hub.table.get? key = some r → r.key = key) ∧
    (∀ r ∈ hub.table.rates, r.WellFormed) ∧ (∀ d ∈ hub.deliveries.toList, d.rate.WellFormed) ∧
    (¬ m.IsPublishing → written past = entered past ∧
      hub.table.size = ((entered past).map (·.key)).eraseDups.length ∧ hub.publishes = (entered past).length) ∧
    ∀ i mv m', m.Made i mv m' →
      (∃ c ∈ (programs[i]?).getD [], c.Makes mv) ∧
      (∀ r, ¬ r.IsValid → (Call.publish r).Makes mv → m'.shared.hub = hub) ∧
      (∀ c : Call, (∀ r, c ≠ .publish r) → c.Makes mv → m'.shared.hub.table = hub.table) ∧
      ∀ r, mv.handed = some r → hub.table.get? r.key = some r := by
  intro past m hub
  have h : m.Recorded past := recorded_follow new programs schedule
  have hentered : accepted past = entered past := accepted_eq_entered (sectioned_ofPrograms s programs) rfl schedule
  refine ⟨?_, fun key => ?_, fun key r hr => ?_, fun r hr => ?_, fun d hd => (h.delivered d hd).wellFormed,
    fun idle => ?_, fun i mv m' hm =>
      ⟨exists_makes_of_made hm, fun r hv hc => ?_, fun c hc hmakes => ?_, fun r hr => ?_⟩⟩
  · rw [← hentered, h.accepted]
    exact List.prefix_append ..
  · rw [h.table, RateTable.get?_foldl_insert]
  · simpa using List.find?_some hr
  · exact (h.isValid_of_get? ((RateTable.mem_rates_iff _ r).mp hr)).wellFormed
  · obtain ⟨hwritten, hcount⟩ := h.idle idle
    rw [hentered] at hwritten hcount
    refine ⟨hwritten, ?_, hcount⟩
    rw [RateTable.size, h.table, ← hwritten, ← RateTable.keys_foldl_insert, List.length_map]
  · rw [hm.hub, Move.onHub_of_isIdle (Call.isIdle_of_makes hv hc)]
  · rw [hm.hub, Move.table_onHub, (Call.writes_of_makes hc hmakes).2]
    rfl
  · exact h.agrees mv (h.sectioned.mem_underway hm hr) r hr

/-- A rate with a crossed book is refused, and the next one is in the hands of a
subscriber that is going to fail. -/
theorem table_of_follow_after_refusal :
    let r : Rate Float := .ofQuote "EURUSD" 1 2 "T" default
    let crossed : Rate Float := .ofQuote "EURUSD" 2 1 "T" default
    let h : Handler := .steady "broken" [.note] (.fails .other)
    let m := (ofPrograms {} [[.publish crossed, .publish r], [.subscribe h .all]]).follow [0, 0, 1, 0, 0, 0, 0, 0]
    (∃ rest, m.agenda 0 = .act "broken" r .note :: rest) ∧ m.shared.hub.table.get? r.key = some r ∧
      ∀ d ∈ m.shared.hub.deliveries.toList, d.rate.WellFormed := by
  intro r crossed h m
  have next : ∃ rest, m.agenda 0 = .act "broken" r .note :: rest := by
    have valid : r.fault? = none := Option.isNone_iff_eq_none.mp (by decide +kernel)
    obtain ⟨fault, invalid⟩ : ∃ fault, crossed.fault? = some fault :=
      Option.isSome_iff_exists.mp (by decide +kernel)
    have alone : (∅ : Registry Handler).entries = [] := rfl
    have acts : h.actionsOn 0 r = [.note] := rfl
    simp [m, ofPrograms, follow, step?, agenda, Call.moves, valid, invalid, Move.make, alone,
      Shared.record, Shared.write, Shared.setRegistry, Registry.register, Filter.admits]
    exact ⟨_, rfl⟩
  obtain ⟨rest, hnext⟩ := next
  obtain ⟨m', -, hm⟩ := exists_step?_eq_some hnext (by simp)
  obtain ⟨-, -, -, -, hdelivered, -, hmade⟩ :=
    table_of_follow (s := {}) rfl [[.publish crossed, .publish r], [.subscribe h .all]] [0, 0, 1, 0, 0, 0, 0, 0]
  refine ⟨⟨rest, hnext⟩, ?_⟩
  -- As a variable the machine would be run again by every unification below.
  subst m
  exact ⟨(hmade 0 _ m' hm).2.2.2 r rfl, hdelivered⟩

end Machine

end PriceBoard
