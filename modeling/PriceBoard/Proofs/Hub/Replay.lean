import Mathlib.Data.List.TakeWhile
import PriceBoard.Proofs.Hub.Window
import PriceBoard.Proofs.Rate.Latest

/-!
# Replay without a gap

A load registers and copies the table in one section. No publish is under way
then, so that the table holds the latest of the accepted rates, and every later
publish finds the registration among its entries (`deliveriesTo_of_subscribeAndLoad`).
-/

namespace PriceBoard

namespace Move

def writes : Move → List (Rate Float)
  | writeTable r _ => [r]
  | _ => []

theorem writes_of_isPlain {mv : Move} (h : mv.isPlain) : mv.writes = [] := by
  cases mv <;> first | rfl | simp [isPlain] at h

theorem table_onHub (hub : Hub) (mv : Move) :
    (mv.onHub hub).table = mv.writes.foldl RateTable.insert hub.table := by
  cases mv <;> rfl

/-- What a move brings on to be written is what it accepts. -/
theorem flatMap_writes_make (s : Shared) (t : Thread) (mv : Move) :
    (mv.make s t).2.2.flatMap writes = mv.accepted?.toList := by
  cases mv with
  | act name r a => cases a <;> rfl
  | unregister id asker =>
    simp only [make, List.flatMap_cons, List.flatMap_nil]
    split <;> rfl
  | reply asker r => cases asker <;> rfl
  | conclude name key ending => cases hp : ending.payload? key <;> simp [make, hp, accepted?]
  | _ => simp [make, writes, accepted?, List.flatMap_map]

end Move

/-! ## The table -/

namespace Machine

/-- The rates that the section under way is going to store. -/
def unwritten (m : Machine) : List (Rate Float) := m.underway.flatMap Move.writes

/-- The table as it is once the section under way has stored its rate. -/
def tableAhead (m : Machine) : RateTable Float := m.unwritten.foldl RateTable.insert m.shared.hub.table

theorem Sectioned.unwritten_made {m m' : Machine} {i : Nat} {mv : Move} (h : m.Sectioned) (hm : m.Made i mv m') :
    mv.writes ++ m'.unwritten = m.unwritten ++ mv.accepted?.toList := by
  refine h.balance (x := []) hm (fun n hn => ?_) (fun t => ?_) fun hg => ?_
  · cases n <;> first | rfl | cases hn
  · rw [Move.flatMap_writes_make, List.nil_append]
  · cases mv <;> first | rfl | cases hg

theorem Sectioned.tableAhead_made {m m' : Machine} {i : Nat} {mv : Move} (h : m.Sectioned) (hm : m.Made i mv m') :
    m'.tableAhead = mv.accepted?.toList.foldl RateTable.insert m.tableAhead := by
  rw [tableAhead, tableAhead, hm.hub, Move.table_onHub, ← List.foldl_append, h.unwritten_made hm, List.foldl_append]

/-- A load copies the rates that its filter admits while no rate is to be stored. -/
theorem Sectioned.replay_eq {m m' : Machine} {i : Nat} {h : Handler} {f : Filter} {replay : List (Rate Float)}
    (hs : m.Sectioned) (hm : m.Made i (.registerLoading h f replay) m') :
    replay = m.shared.hub.table.rates.filter (fun r => f.admits r.key) ∧ m.tableAhead = m.shared.hub.table := by
  cases hs.turn hm with
  | calm hc => cases hc
  | enter hl => cases hl
  | leave hl => cases hl
  | go hi was =>
    rw [tableAhead, unwritten, was]
    cases hi with
    | «open» ho => cases ho
    | registerLoading => exact ⟨rfl, rfl⟩
    | publishing hd | loading hd =>
      cases hd with
      | plain hp => cases hp
    | done hp => cases hp _ List.mem_cons_self

theorem Sectioned.unwritten_eq_nil {m : Machine} (h : m.Sectioned) (idle : ¬ m.IsPublishing) :
    m.unwritten = [] := by
  rcases h.underway with hu | ⟨i, rest, ha, hi⟩
  · rw [unwritten, hu]
    rfl
  · refine List.flatMap_eq_nil_iff.mpr fun mv hm => ?_
    cases mv with
    | writeTable r es =>
      obtain ⟨t, ht, hmt⟩ := exists_thread_of_mem (ha ▸ List.mem_append_left _ hm)
      exact absurd ⟨t, ht, _, hmt, rfl⟩ idle
    | _ => rfl

theorem Sectioned.tableAhead_eq {m : Machine} (h : m.Sectioned) (idle : ¬ m.IsPublishing) :
    m.tableAhead = m.shared.hub.table := by
  rw [tableAhead, h.unwritten_eq_nil idle]
  rfl

theorem get?_tableAhead {s : Shared} (new : s.hub = {}) (programs : List (List Call)) (schedule : List Nat)
    (key : String) :
    ((ofPrograms s programs).follow schedule).tableAhead.get? key =
      latest (accepted ((ofPrograms s programs).trace schedule)) key := by
  have hstart : (ofPrograms s programs).tableAhead = ∅ := by
    rw [tableAhead, show (ofPrograms s programs).shared.hub = {} from new]
    rfl
  have hend := trace_induction
    (P := fun past m => m.Sectioned ∧ m.tableAhead = (accepted past).foldl RateTable.insert ∅)
    (fun past m i mv m' h hm => by
      refine ⟨h.1.made hm, ?_⟩
      rw [h.1.tableAhead_made hm, h.2, accepted_snoc, List.foldl_append])
    schedule [] _ ⟨sectioned_ofPrograms s programs, hstart⟩
  rw [hend.2, List.nil_append, RateTable.get?_foldl_insert]

end Machine

/-! ## One key -/

theorem drop_length_sub_one {α : Type} (l m : List α) : (l ++ m).drop (l.length - 1) = l.getLast?.toList ++ m := by
  rcases List.eq_nil_or_concat l with rfl | ⟨l, a, rfl⟩
  · rfl
  · simp

theorem getLast?_toList_append {α : Type} (l m : List α) :
    (l.getLast?.toList ++ m).getLast? = (l ++ m).getLast? := by
  cases h : l.getLast? <;> simp [List.getLast?_append, List.getLast?_cons, h]

theorem filter_admits_key {f : Filter} {key : String} (ha : f.admits key) (rs : List (Rate Float)) :
    (rs.filter (f.admits ·.key)).filter (·.key == key) = rs.filter (·.key == key) := by
  have hk : ∀ r ∈ rs, ((r.key == key) && f.admits r.key) = (r.key == key) := fun r _ => by
    by_cases h : r.key = key <;> simp [h, ha]
  rw [List.filter_filter, List.filter_congr hk]

theorem due_filter_key {f : Filter} {key : String} (ha : f.admits key) (id : SubscriptionId) (since : List Event) :
    (due id f since).filter (·.key == key) = (accepted (whileKept id since)).filter (·.key == key) :=
  filter_admits_key ha _

theorem accepted_whileKept (id : SubscriptionId) (since : List Event) :
    accepted (whileKept id since) <+: accepted since := (List.takeWhile_prefix _).filterMap _

theorem whileKept_eq {id : SubscriptionId} {since : List Event} (kept : ∀ e ∈ since, ¬ e.move.removes id) :
    whileKept id since = since := List.takeWhile_eq_self_iff.mpr (by simpa using kept)

/-! ## Loads -/

/-- The moves of a load that has registered or is about to. -/
def Move.endsLoad : Move → Bool
  | registerLoading .. | tellReplayed .. => true
  | _ => false

namespace Machine

/-- Some load has copied the table and has not come to its end. -/
def IsLoading (m : Machine) : Prop := ∃ t ∈ m.threads, ∃ mv ∈ t.agenda, mv.endsLoad

theorem tellReplayed_not_mem {m : Machine} (loaded : ¬ m.IsLoading) (id : SubscriptionId) (i n : Nat) :
    .tellReplayed id n ∉ m.agenda i := by
  intro hn
  obtain ⟨t, ht, hn⟩ := exists_thread_of_mem hn
  exact loaded ⟨t, ht, _, hn, rfl⟩

/-- Along every schedule a load hands its subscriber the latest accepted rate of
each key that it admits, and from then on what is due. For each key these are
the accepted rates from the last one before the load on, without a gap. -/
theorem deliveriesTo_of_subscribeAndLoad {s : Shared} (new : s.hub = {}) (programs : List (List Call))
    (before after : List Nat) {i : Nat} {h : Handler} {f : Filter} {replay : List (Rate Float)} {rest : List Move}
    (next : ((ofPrograms s programs).follow before).agenda i = .registerLoading h f replay :: rest) :
    let start := ofPrograms s programs
    let id := ((start.follow before).shared.hub.registry.register h f).1
    let earlier := accepted (start.trace before)
    let since := (start.follow (before ++ [i])).trace after
    let m := start.follow (before ++ i :: after)
    let received := m.shared.hub.deliveriesTo id
    entered (start.trace (before ++ i :: after)) = earlier ++ accepted since ∧
    (∀ key, (start.follow before).shared.hub.table.get? key = latest earlier key) ∧
    (replay.map (·.key)).Nodup ∧
    (∀ r, r ∈ replay ↔ f.admits r.key ∧ (start.follow before).shared.hub.table.get? r.key = some r) ∧
    received <+: replay ++ due id f since ∧
    (¬ m.IsPublishing → ¬ m.IsLoading → received = replay ++ due id f since) ∧
    ∀ key, f.admits key →
      received.filter (·.key == key) <+:
        ((earlier ++ accepted since).filter (·.key == key)).drop ((earlier.filter (·.key == key)).length - 1) ∧
      (¬ m.IsPublishing → ¬ m.IsLoading → (∀ e ∈ since, ¬ e.move.removes id) →
        latest received key = m.shared.hub.table.get? key) := by
  intro start id earlier since m received
  have hl : (start.follow before).Lawful := lawful_follow new programs before
  obtain ⟨hm, cut⟩ := follow_through next (by simp)
  obtain ⟨hreplay, hahead⟩ := hl.sectioned.replay_eq hm
  have hgrants : (Move.registerLoading h f replay).grants (start.follow before).shared.hub id = replay := if_pos rfl
  have hf : m.Following id f replay since := by
    have hend := trace_induction (P := fun since m => m.Following id f replay since)
      (fun since m j mv m' h hm => h.made hm) after [] _ (hl.following hm rfl hgrants)
    rwa [List.nil_append, ← (cut after).1] at hend
  have hall : received ++ m.promised id = replay ++ due id f since := hf.received
  have hdone (idle : ¬ m.IsPublishing) (loaded : ¬ m.IsLoading) : received = replay ++ due id f since := by
    rwa [hf.sectioned.promised_eq_nil idle (tellReplayed_not_mem loaded id), List.append_nil] at hall
  have htrace : accepted (start.trace (before ++ i :: after)) = earlier ++ accepted since := by
    rw [(cut after).2, accepted_append, accepted_cons]
    rfl
  have htable (key : String) : (start.follow before).shared.hub.table.get? key = latest earlier key := by
    rw [← hahead, get?_tableAhead new programs before key]
  have hkey {key : String} (ha : f.admits key) :
      replay.filter (·.key == key) = (earlier.filter (·.key == key)).getLast?.toList := by
    rw [hreplay, filter_admits_key ha, RateTable.filter_key_rates, htable]
    rfl
  refine ⟨?_, htable, ?_, fun r => ?_, ⟨_, hall⟩, hdone, fun key ha => ⟨?_, fun idle loaded kept => ?_⟩⟩
  · rw [← htrace, accepted_eq_entered (sectioned_ofPrograms s programs) rfl]
  · rw [hreplay]
    exact (List.filter_sublist.map _).nodup (start.follow before).shared.hub.table.nodup_keys
  · rw [hreplay, List.mem_filter, RateTable.mem_rates_iff, and_comm]
  · have hp : received <+: replay ++ due id f since := ⟨_, hall⟩
    have hp := hp.filter (·.key == key)
    rw [List.filter_append, hkey ha, due_filter_key ha] at hp
    rw [List.filter_append, drop_length_sub_one]
    exact hp.trans ((List.prefix_append_right_inj _).mpr ((accepted_whileKept id since).filter _))
  · rw [← hf.sectioned.tableAhead_eq idle, get?_tableAhead new programs, htrace, latest, latest,
      hdone idle loaded, List.filter_append, List.filter_append, hkey ha, due_filter_key ha, whileKept_eq kept,
      getLast?_toList_append]

/-- A subscriber that always fails loads between two publishes, and the second one
is stopped once it has delivered its rate. -/
theorem deliveriesTo_of_subscribeAndLoad_between_publishes :
    let r : Rate Float := .ofQuote "EURUSD" 1 2 "T" default
    let q : Rate Float := .ofQuote "GBPUSD" 2 3 "T" default
    let h : Handler := .steady "broken" [.note] (.fails .other)
    let programs : List (List Call) := [[.publish r, .publish q], [.subscribeAndLoad h .all]]
    let before := List.replicate 7 0 ++ [1, 1]
    let after := List.replicate 8 1 ++ List.replicate 5 0
    ((ofPrograms {} programs).follow before).agenda 1 = [.registerLoading h .all [r], .unlockPublishing] ∧
      (((ofPrograms {} programs).follow (before ++ 1 :: after)).shared.hub.deliveriesTo 1).map (·.key) =
        ["EURUSD", "GBPUSD"] ∧
      ((ofPrograms {} programs).follow (before ++ 1 :: after)).shared.hub.deliveriesTo 1 <+:
        [r] ++ due 1 .all (((ofPrograms {} programs).follow (before ++ [1])).trace after) := by
  intro r q h programs before after
  have next : ((ofPrograms {} programs).follow before).agenda 1 =
      [.registerLoading h .all [r], .unlockPublishing] := by
    have valid : r.fault? = none := Option.isNone_iff_eq_none.mp (by decide +kernel)
    have valid' : q.fault? = none := Option.isNone_iff_eq_none.mp (by decide +kernel)
    have alone : (∅ : Registry Handler).entries = [] := rfl
    have blank : (∅ : RateTable Float).rates = [] := rfl
    simp [programs, before, ofPrograms, follow, step?, agenda, Call.moves, valid, valid', Move.make, alone, blank,
      Shared.record, Shared.write, RateTable.insert, storeRate, Filter.admits]
  have first : (((ofPrograms {} programs).follow before).shared.hub.registry.register h .all).1 = 1 := by
    decide +kernel
  have received := (deliveriesTo_of_subscribeAndLoad (s := {}) rfl programs before after next).2.2.2.2.1
  rw [first] at received
  exact ⟨next, by decide +kernel, received⟩

end Machine

end PriceBoard
