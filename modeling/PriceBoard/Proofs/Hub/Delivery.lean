import PriceBoard.Proofs.Hub.Sections
import PriceBoard.Proofs.Subscription.Handles

/-!
# Deliveries

What was delivered under a registration, followed by what the section under way
still has to deliver, is what moves have granted it (`Sectioned.conserve`). A
copy of the entries grants the rate of a publish, a load grants its replay, and
nothing else grants anything.
-/

namespace PriceBoard

namespace Move

/-- The rates that a move is going to deliver under a registration. -/
def promises (id : SubscriptionId) : Move → List (Rate Float)
  | deliver e r => if e.id = id then [r] else []
  | writeTable r es => ((es.filter (·.filter.admits r.key)).filter (·.id == id)).map fun _ => r
  | _ => []

/-- The rates that a move entitles a registration to. -/
def grants (hub : Hub) (id : SubscriptionId) : Move → List (Rate Float)
  | copyEntries r =>
    ((hub.registry.entries.filter (·.filter.admits r.key)).filter (·.id == id)).map fun _ => r
  | registerLoading _ _ replay => if hub.registry.nextId = id then replay else []
  | _ => []

theorem promises_of_isPlain {mv : Move} (h : mv.isPlain) (id : SubscriptionId) : mv.promises id = [] := by
  cases mv <;> first | rfl | simp [isPlain] at h

theorem grants_of_isPlain {mv : Move} (h : mv.isPlain) (hub : Hub) (id : SubscriptionId) :
    mv.grants hub id = [] := by
  cases mv <;> first | rfl | simp [isPlain] at h

theorem deliveriesTo_of_isPlain {mv : Move} (h : mv.isPlain) (hub : Hub) (id : SubscriptionId) :
    (mv.onHub hub).deliveriesTo id = hub.deliveriesTo id := by
  cases mv <;> first | rfl | simp [isPlain] at h

theorem flatMap_promises_of_isPlain {now : List Move} (h : ∀ mv ∈ now, mv.isPlain) (id : SubscriptionId) :
    now.flatMap (promises id) = [] :=
  List.flatMap_eq_nil_iff.mpr fun mv hm => promises_of_isPlain (h mv hm) id

theorem flatMap_promises_to (r : Rate Float) (id : SubscriptionId) : ∀ es : List (Registration Handler),
    (es.map (deliver · r)).flatMap (promises id) = (es.filter (·.id == id)).map fun _ => r
  | [] => rfl
  | e :: es => by
    rw [List.map_cons, List.flatMap_cons, flatMap_promises_to r id es]
    by_cases h : e.id = id <;> simp [promises, h]

theorem flatMap_promises_of (e : Registration Handler) (id : SubscriptionId) : ∀ rs : List (Rate Float),
    (rs.map (deliver e ·)).flatMap (promises id) = if e.id = id then rs else []
  | [] => by simp
  | r :: rs => by
    rw [List.map_cons, List.flatMap_cons, flatMap_promises_of e id rs]
    by_cases h : e.id = id <;> simp [promises, h]

end Move

theorem Hub.deliveriesTo_push (h : Hub) (d : Delivery) (id : SubscriptionId) :
    { h with deliveries := h.deliveries.push d }.deliveriesTo id =
      h.deliveriesTo id ++ if d.id = id then [d.rate] else [] := by
  by_cases hd : d.id = id <;> simp [Hub.deliveriesTo, hd]

section
variable {kind : Registration Handler → Rate Float → Prop} {last now : List Move}

theorem Delivering.mem_last (h : Delivering kind last now) {mv : Move} (hm : mv ∈ last) : mv ∈ now := by
  induction h with
  | last => exact hm
  | plain _ _ ih => exact List.mem_cons_of_mem _ ih
  | deliver _ _ ih => exact List.mem_cons_of_mem _ ih

theorem Delivering.promises_eq_nil (h : Delivering kind last now) {id : SubscriptionId}
    (hk : ∀ e r, kind e r → (Move.deliver e r).promises id = [])
    (hl : ∀ mv ∈ last, mv.promises id = []) : now.flatMap (Move.promises id) = [] :=
  List.flatMap_eq_nil_iff.mpr (h.forall_mem (fun _ hp => Move.promises_of_isPlain hp id) hk hl)

end

/-! ## Conservation -/

/-- What a move delivers it has promised, and what it promises it is granted. -/
theorem Move.conserve (s : Shared) (t : Thread) (mv : Move) (id : SubscriptionId) :
    (mv.onHub s.hub).deliveriesTo id ++ (mv.make s t).2.2.flatMap (promises id) =
      s.hub.deliveriesTo id ++ mv.promises id ++ mv.grants s.hub id := by
  by_cases hp : mv.isPlain
  · rw [deliveriesTo_of_isPlain hp, grants_of_isPlain hp, promises_of_isPlain hp,
      flatMap_promises_of_isPlain fun n hn => isPlain_of_mem_make hp hn, List.append_nil, List.append_nil]
  · cases mv with
    | deliver e r =>
      rw [flatMap_promises_of_isPlain fun n hn => isPlain_of_mem_deliver hn]
      simp [onHub, Hub.deliveriesTo_push, grants, promises]
    | writeTable r es =>
      have hes := flatMap_promises_to r id (es.filter (·.filter.admits r.key))
      simp [make, onHub, grants, promises, Hub.deliveriesTo, hes]
    | registerLoading h f replay =>
      have hrs := flatMap_promises_of ⟨s.hub.registry.nextId, f, h⟩ id replay
      simp [make, onHub, grants, promises, Hub.deliveriesTo, Registry.register, hrs]
    | copyEntries | copyTable | countPublish | account | lockPublishing | unlockPublishing | tellReplayed =>
      simp [make, onHub, grants, promises, Hub.deliveriesTo]
    | _ => exact absurd rfl hp

namespace Machine

/-- The rates that the section under way is going to deliver under a registration. -/
def promised (m : Machine) (id : SubscriptionId) : List (Rate Float) := m.underway.flatMap (Move.promises id)

theorem Sectioned.conserve {m m' : Machine} {i : Nat} {mv : Move} (h : m.Sectioned) (hm : m.Made i mv m')
    (id : SubscriptionId) :
    m'.shared.hub.deliveriesTo id ++ m'.promised id =
      m.shared.hub.deliveriesTo id ++ m.promised id ++ mv.grants m.shared.hub id := by
  refine h.balance hm (fun n hn => ?_) (fun t => ?_) fun hs => ?_
  · cases n <;> first | rfl | cases hn
  · rw [hm.hub]
    exact Move.conserve m.shared t mv id
  · cases mv <;> first | rfl | cases hs

end Machine

end PriceBoard
