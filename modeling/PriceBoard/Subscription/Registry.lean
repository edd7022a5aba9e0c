import PriceBoard.Subscription.Filter

/-!
# The subscriber registry

Registrations in the order in which they were made. Each has an id of its own
that is never used again, not even after it has been removed.
-/

namespace PriceBoard

abbrev SubscriptionId := Nat

structure Registration (σ : Type) where
  id : SubscriptionId
  filter : Filter
  subscriber : σ

structure Registry (σ : Type) where
  entries : List (Registration σ) := []
  nextId : SubscriptionId := 1

structure SubscriptionStats where
  subscribers : Nat
  allInstruments : Nat
  filtered : Nat
deriving DecidableEq, Repr

namespace Registry

variable {σ : Type}

instance : EmptyCollection (Registry σ) := ⟨{}⟩

instance : Inhabited (Registry σ) := ⟨∅⟩

def size (r : Registry σ) : Nat := r.entries.length

def isEmpty (r : Registry σ) : Bool := r.entries.isEmpty

def contains (r : Registry σ) (id : SubscriptionId) : Bool := r.entries.any (·.id == id)

def register (r : Registry σ) (subscriber : σ) (filter : Filter) : SubscriptionId × Registry σ :=
  (r.nextId, ⟨r.entries ++ [⟨r.nextId, filter, subscriber⟩], r.nextId + 1⟩)

def unregister (r : Registry σ) (id : SubscriptionId) : Bool × Registry σ :=
  (r.contains id, { r with entries := r.entries.eraseP (·.id == id) })

def clear (r : Registry σ) : Nat × Registry σ := (r.size, { r with entries := [] })

def matching (r : Registry σ) (key : String) : List (Registration σ) :=
  r.entries.filter (·.filter.admits key)

def stats (r : Registry σ) : SubscriptionStats :=
  let all := r.entries.countP (·.filter.isAll)
  ⟨r.size, all, r.size - all⟩

end Registry

end PriceBoard
