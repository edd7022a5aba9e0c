import Mathlib.Algebra.BigOperators.Group.Finset.Basic
import Mathlib.Algebra.Order.Group.Multiset
import Mathlib.Tactic.Abel
import PriceBoard.Proofs.Hub.Sections

/-!
# The gauge of subscribers

Each change of the registry has its size written to a gauge, by a later move and
outside the registry's lock. Once all calls have returned the gauge has been given
every size once, but maybe not in the order of the changes: it is right exactly if
the size written last is that of the last change (`gauge_of_follow`).
-/

namespace PriceBoard

namespace Move

def told : Move → List Nat
  | tellRegistered _ _ n | tellRemoved _ n => [n]
  | tellCleared _ => [0]
  | _ => []

def changesRegistry (hub : Hub) : Move → Bool
  | register .. | registerLoading .. | clearRegistry _ => true
  | unregister id _ => hub.registry.contains id
  | _ => false

def sizes (hub : Hub) (mv : Move) : List Nat :=
  if mv.changesRegistry hub then [(mv.onHub hub).registry.size] else []

theorem subscribers_make (s : Shared) (t : Thread) (mv : Move) :
    (mv.make s t).1.ledger.subscribers = mv.told.getLast?.or s.ledger.subscribers := by
  cases mv with
  | act name r a =>
    cases a with
    | forward =>
      simp only [make, Action.effect, Shared.forward]
      split <;> rfl
    | _ => rfl
  | conclude name key ending =>
    simp only [make]
    split <;> rfl
  | reply asker r =>
    cases asker with
    | program => rfl
    | handler name => simp only [make]; cases r.note? name <;> rfl
  | _ => rfl

/-- A change brings on one writing to the gauge, and nothing else does. -/
theorem told_make (s : Shared) (t : Thread) (mv : Move) : (mv.make s t).2.2.flatMap told = mv.sizes s.hub := by
  cases mv with
  | act name r a => cases a <;> rfl
  | conclude name key ending => cases hp : ending.payload? key <;> simp [make, hp, sizes, changesRegistry]
  | reply asker r => cases asker <;> rfl
  | unregister id asker =>
    cases hc : s.hub.registry.contains id <;>
      simp [make, sizes, changesRegistry, told, onHub, Registry.unregister, hc]
  | _ => simp [make, sizes, changesRegistry, told, onHub, Registry.clear, Registry.size, List.flatMap_map]

theorem size_onHub (hub : Hub) (mv : Move) :
    (mv.onHub hub).registry.size = ((mv.sizes hub).getLast?).getD hub.registry.size := by
  unfold sizes
  split
  · rfl
  · rename_i h
    cases mv with
    | unregister id asker =>
      have absent : ∀ e ∈ hub.registry.entries, ¬ (e.id == id) = true := by
        simpa [changesRegistry, Registry.contains] using h
      simp only [onHub, Registry.unregister, List.eraseP_of_forall_not absent]
      rfl
    | register | registerLoading | clearRegistry => exact absurd rfl h
    | _ => rfl

end Move

theorem Call.flatMap_told_moves (c : Call) : c.moves.flatMap Move.told = [] := by
  cases c with
  | publish r =>
    simp only [moves]
    split <;> rfl
  | _ => rfl

def told (past : List Event) : List Nat := past.flatMap (·.move.told)

/-- The sizes of the registry after its changes, in order, where `hub` is the hub
before them. -/
def sizes : Hub → List Event → List Nat
  | _, [] => []
  | hub, e :: past => e.move.sizes hub ++ sizes (e.move.onHub hub) past

theorem sizes_snoc (past : List Event) (e : Event) : ∀ hub : Hub,
    sizes hub (past ++ [e]) = sizes hub past ++ e.move.sizes (past.foldl (fun hub e => e.move.onHub hub) hub) := by
  induction past with
  | nil => intro hub; simp [sizes]
  | cons d past ih => intro hub; simp [sizes, ih]

namespace Machine

def untoldBy (m : Machine) (i : Nat) : Multiset Nat := ((m.agenda i).flatMap Move.told : List Nat)

def untold (m : Machine) : Multiset Nat := ∑ i ∈ Finset.range m.threads.length, m.untoldBy i

variable {m m' : Machine} {i : Nat} {mv : Move}

theorem Made.untoldBy (hm : m.Made i mv m') : m'.untoldBy i + mv.told = m.untoldBy i + mv.sizes m.shared.hub := by
  obtain ⟨t, rest, ha, _, hb⟩ := hm.own
  rw [Machine.untoldBy, Machine.untoldBy, ha, hb, List.flatMap_append, Move.told_make, List.flatMap_cons,
    ← Multiset.coe_add, ← Multiset.coe_add]
  abel

theorem Made.untold (hm : m.Made i mv m') : m'.untold + mv.told = m.untold + mv.sizes m.shared.hub := by
  have hi : i ∈ Finset.range m.threads.length := by
    rw [Finset.mem_range]
    rcases Nat.lt_or_ge i m.threads.length with hi | hi
    · exact hi
    · obtain ⟨t, rest, ha, _⟩ := hm.own
      simp [agenda, List.getElem?_eq_none hi] at ha
  have others : ∀ j ∈ (Finset.range m.threads.length).erase i, m'.untoldBy j = m.untoldBy j := fun j hj => by
    rw [Machine.untoldBy, hm.others j (Finset.ne_of_mem_erase hj), Machine.untoldBy]
  rw [Machine.untold, Machine.untold, hm.threads, ← Finset.add_sum_erase _ _ hi, ← Finset.add_sum_erase _ _ hi,
    Finset.sum_congr rfl others, add_right_comm, hm.untoldBy, add_right_comm]

structure Gauged (s : Shared) (past : List Event) (m : Machine) : Prop where
  hub : m.shared.hub = past.foldl (fun hub e => e.move.onHub hub) s.hub
  gauge : m.shared.ledger.subscribers = (told past).getLast?.or s.ledger.subscribers
  size : m.shared.hub.registry.size = (sizes s.hub past).getLast?.getD s.hub.registry.size
  -- no size is lost or written twice on its way, however the threads interleave
  untold : m.untold + (told past : List Nat) = (sizes s.hub past : List Nat)

theorem gauged_ofPrograms (s : Shared) (programs : List (List Call)) : (ofPrograms s programs).Gauged s [] where
  hub := rfl
  gauge := rfl
  size := rfl
  untold := by
    have calm (i : Nat) : ((ofPrograms s programs).agenda i).flatMap Move.told = [] := by
      rw [agenda_ofPrograms, List.flatMap_assoc]
      exact List.flatMap_eq_nil_iff.mpr fun c _ => c.flatMap_told_moves
    simp only [Machine.untold, Machine.untoldBy, calm]
    simp [told, sizes]

theorem Gauged.made {s : Shared} {past : List Event} (h : m.Gauged s past) (hm : m.Made i mv m') :
    m'.Gauged s (past ++ [⟨i, mv⟩]) where
  hub := by rw [hm.hub, h.hub, List.foldl_append]; rfl
  gauge := by
    obtain ⟨t, rest, _, hs, _⟩ := hm.own
    rw [hs, Move.subscribers_make, h.gauge, told, told, List.flatMap_append, List.getLast?_append,
      Option.or_assoc]
    simp
  size := by
    rw [hm.hub, Move.size_onHub, h.size, sizes_snoc, ← h.hub, List.getLast?_append]
    cases (mv.sizes m.shared.hub).getLast? <;> rfl
  untold := by
    have htold : told (past ++ [⟨i, mv⟩]) = told past ++ mv.told := by simp [told]
    rw [sizes_snoc, ← h.hub, htold, ← Multiset.coe_add, ← Multiset.coe_add, ← h.untold]
    calc m'.untold + ((told past : List Nat) + (mv.told : List Nat))
        = m'.untold + mv.told + told past := by abel
      _ = m.untold + mv.sizes m.shared.hub + told past := by rw [hm.untold]
      _ = m.untold + told past + mv.sizes m.shared.hub := by abel

def AtRest (m : Machine) : Prop := ∀ t ∈ m.threads, t.agenda.isEmpty

instance (m : Machine) : Decidable m.AtRest := inferInstanceAs (Decidable (∀ t ∈ m.threads, t.agenda.isEmpty))

theorem AtRest.agenda (h : m.AtRest) (i : Nat) : m.agenda i = [] := by
  cases ht : m.threads[i]? with
  | none => simp [Machine.agenda, ht]
  | some t => simpa [Machine.agenda, ht] using h t (List.mem_of_getElem? ht)

/-- Once all calls have returned, the gauge shows what was written to it last, and
what was written are the sizes of the registry after its changes, in some order. If
there was a change, the gauge is right exactly if the size written last is the one
after the last change. -/
theorem gauge_of_follow {s : Shared} {programs : List (List Call)} {schedule : List Nat}
    (rest : ((ofPrograms s programs).follow schedule).AtRest) :
    let past := (ofPrograms s programs).trace schedule
    let m := (ofPrograms s programs).follow schedule
    (told past).Perm (sizes s.hub past) ∧
    m.shared.ledger.subscribers = (told past).getLast?.or s.ledger.subscribers ∧
    (sizes s.hub past ≠ [] →
      (m.shared.ledger.subscribers = some m.shared.hub.registry.size ↔
        (told past).getLast? = (sizes s.hub past).getLast?)) := by
  intro past m
  have h : m.Gauged s past :=
    trace_induction (P := fun past m => m.Gauged s past) (fun _ _ _ _ _ h hm => h.made hm) schedule [] _
      (gauged_ofPrograms s programs)
  have hperm : (told past).Perm (sizes s.hub past) := by
    have idle : ∀ i, m.agenda i = [] := AtRest.agenda rest
    simpa [Machine.untold, Machine.untoldBy, idle] using h.untold
  refine ⟨hperm, h.gauge, fun hne => ?_⟩
  have hsome : told past ≠ [] := fun hn => hne (List.perm_nil.mp (hn ▸ hperm.symm))
  obtain ⟨n, hn⟩ := Option.isSome_iff_exists.mp (List.getLast?_isSome.mpr hsome)
  obtain ⟨k, hk⟩ := Option.isSome_iff_exists.mp (List.getLast?_isSome.mpr hne)
  rw [h.gauge, h.size, hn, hk]
  simp

/-- Three calls of two threads, where each has written to the gauge before the next
one changes the registry. -/
theorem gauge_of_follow_in_turn :
    let m := (ofPrograms {} [[.subscribe (.collector "a") .all, .unsubscribe 1],
      [.subscribe (.collector "b") .all]]).follow [0, 0, 0, 1, 1, 1, 0, 0, 0]
    m.AtRest ∧ m.shared.ledger.subscribers = some m.shared.hub.registry.size := by
  intro m
  have rest : m.AtRest := by decide +kernel
  obtain ⟨-, -, exact⟩ := gauge_of_follow rest
  exact ⟨rest, (exact (by decide +kernel)).mpr (by decide +kernel)⟩

/-- Two threads subscribe, and the first one to change the registry is the last one
to write to the gauge: it shows one subscriber where there are two. -/
theorem gauge_of_crossed_subscribes :
    let m := (ofPrograms {} [[.subscribe (.collector "a") .all], [.subscribe (.collector "b") .all]]).follow
      [0, 1, 1, 1, 0, 0]
    m.AtRest ∧ m.shared.hub.registry.size = 2 ∧ m.shared.ledger.subscribers = some 1 := by
  decide +kernel

end Machine

end PriceBoard
