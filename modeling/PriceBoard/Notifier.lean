/-!
# Change notification

A notifier calls its listeners in the order in which they subscribed. Ids are
never used again. Each listener counts the calls it has had.
-/

namespace PriceBoard

abbrev ListenerId := Nat

structure Listener (α : Type) where
  id : ListenerId
  tag : α
  calls : Nat := 0
deriving DecidableEq, Repr

structure Notifier (α : Type) where
  listeners : List (Listener α) := []
  nextId : ListenerId := 1
deriving DecidableEq, Repr

namespace Notifier

variable {α ε : Type}

instance : EmptyCollection (Notifier α) := ⟨{}⟩

instance : Inhabited (Notifier α) := ⟨∅⟩

def size (n : Notifier α) : Nat := n.listeners.length

def describe (n : Notifier α) : String := s!"ChangeNotifier \x7b listeners: {n.size} \x7d"

def subscribe (n : Notifier α) (tag : α) : ListenerId × Notifier α :=
  (n.nextId, ⟨n.listeners ++ [⟨n.nextId, tag, 0⟩], n.nextId + 1⟩)

def unsubscribe (n : Notifier α) (id : ListenerId) : Bool × Notifier α :=
  (n.listeners.any (·.id == id), { n with listeners := n.listeners.filter (·.id != id) })

/-- Calls every listener with an event. The calls are answered in order, each
with its listener after the call. -/
def notify (n : Notifier α) (event : ε) : List (Listener α × ε) × Notifier α :=
  let called := n.listeners.map fun l => { l with calls := l.calls + 1 }
  (called.map (·, event), { n with listeners := called })

def notifyAll (n : Notifier α) : List ε → List (Listener α × ε) × Notifier α
  | [] => ([], n)
  | e :: events =>
    let (calls, n) := n.notify e
    let (later, n) := n.notifyAll events
    (calls ++ later, n)

end Notifier

end PriceBoard
