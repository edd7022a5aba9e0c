import PriceBoard.Rate.Basic

/-!
# The table of latest rates

One rate per instrument, in the order in which the instruments were first
stored.
-/

namespace PriceBoard

variable {π : Type}

/-- Replaces the rate with the same key in its place, or adds the rate at the end. -/
def storeRate (r : Rate π) : List (Rate π) → List (Rate π)
  | [] => [r]
  | s :: rest => if s.key = r.key then r :: rest else s :: storeRate r rest

theorem mem_keys_storeRate (r : Rate π) (rates : List (Rate π)) (k : String) :
    k ∈ (storeRate r rates).map (·.key) ↔ k = r.key ∨ k ∈ rates.map (·.key) := by
  induction rates with
  | nil => simp [storeRate]
  | cons s rest ih =>
    unfold storeRate
    split
    · rename_i h; simp [h]
    · simp only [List.map_cons, List.mem_cons, ih]; grind

theorem nodup_storeRate (r : Rate π) (rates : List (Rate π)) (h : (rates.map (·.key)).Nodup) :
    ((storeRate r rates).map (·.key)).Nodup := by
  induction rates with
  | nil => simp [storeRate]
  | cons s rest ih =>
    simp only [List.map_cons, List.nodup_cons] at h
    unfold storeRate
    split
    · rename_i hk; simpa [← hk] using h
    · rename_i hk
      simp only [List.map_cons, List.nodup_cons, mem_keys_storeRate]
      exact ⟨by grind, ih h.2⟩

structure RateTable (π : Type) where
  rates : List (Rate π) := []
  nodup_keys : (rates.map (·.key)).Nodup := by simp

namespace RateTable

instance : EmptyCollection (RateTable π) := ⟨{}⟩

instance : Inhabited (RateTable π) := ⟨∅⟩

def get? (t : RateTable π) (key : String) : Option (Rate π) := t.rates.find? (·.key = key)

def contains (t : RateTable π) (key : String) : Bool := (t.get? key).isSome

def size (t : RateTable π) : Nat := t.rates.length

def isEmpty (t : RateTable π) : Bool := t.rates.isEmpty

def insert (t : RateTable π) (r : Rate π) : RateTable π where
  rates := storeRate r t.rates
  nodup_keys := nodup_storeRate r t.rates t.nodup_keys

/-- Stores a rate; answers the one that it replaces. -/
def upsert (t : RateTable π) (r : Rate π) : Option (Rate π) × RateTable π := (t.get? r.key, t.insert r)

def sorted (t : RateTable π) : List (Rate π) := t.rates.mergeSort fun r s => r.key ≤ s.key

/-- The rates under their keys, in the order of the keys. -/
def entries (t : RateTable π) : List (String × Rate π) := t.sorted.map fun r => (r.key, r)

/-- Equality as maps, whatever the order in which keys were first stored. -/
def same [Scalar π] (t u : RateTable π) : Bool :=
  t.size == u.size && t.rates.all fun r => (u.get? r.key).any (r.same ·)

instance [Scalar π] : BEq (RateTable π) := ⟨same⟩

end RateTable

end PriceBoard
