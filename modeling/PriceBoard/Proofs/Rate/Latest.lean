import Mathlib.Data.List.Induction
import Mathlib.Data.List.Nodup
import PriceBoard.Rate.Table

/-!
# Latest rates

A table that was filled by storing rates one after the other holds for each key
the last rate that was stored under it (`get?_foldl_insert`), in the order in which
the keys were first stored (`keys_foldl_insert`).
-/

namespace PriceBoard

variable {π : Type}

def latest (rs : List (Rate π)) (key : String) : Option (Rate π) := (rs.filter (·.key == key)).getLast?

theorem latest_snoc (rs : List (Rate π)) (r : Rate π) (key : String) :
    latest (rs ++ [r]) key = if r.key = key then some r else latest rs key := by
  by_cases h : r.key = key <;> simp [latest, h]

theorem eraseDups_snoc {α : Type} [BEq α] [LawfulBEq α] (l : List α) (a : α) :
    (l ++ [a]).eraseDups = if a ∈ l.eraseDups then l.eraseDups else l.eraseDups ++ [a] := by
  rw [List.eraseDups_append]
  by_cases h : a ∈ l
  · simp [List.removeAll, List.mem_eraseDups.mpr h, h]
  · have hd : a ∉ l.eraseDups := fun e => h (List.mem_eraseDups.mp e)
    simp [List.removeAll, List.eraseDups_cons, hd, h]

theorem nodup_eraseDups {α : Type} [BEq α] [LawfulBEq α] (l : List α) : l.eraseDups.Nodup := by
  induction l using List.reverseRecOn with
  | nil => exact .nil
  | append_singleton l a ih =>
    rw [eraseDups_snoc]
    split
    · exact ih
    · rename_i h
      rw [← List.concat_eq_append]
      exact ih.concat h

theorem keys_storeRate (r : Rate π) : ∀ rates : List (Rate π),
    (storeRate r rates).map (·.key) =
      if r.key ∈ rates.map (·.key) then rates.map (·.key) else rates.map (·.key) ++ [r.key]
  | [] => rfl
  | s :: rest => by
    unfold storeRate
    by_cases hs : s.key = r.key
    · simp [hs]
    · rw [if_neg hs, List.map_cons, keys_storeRate r rest]
      by_cases h : r.key ∈ rest.map (·.key)
      · simp [h]
      · simp [h, Ne.symm hs]

theorem find?_storeRate (r : Rate π) (key : String) : ∀ rates : List (Rate π),
    (storeRate r rates).find? (·.key = key) = if r.key = key then some r else rates.find? (·.key = key)
  | [] => by by_cases h : r.key = key <;> simp [storeRate, h]
  | s :: rest => by
    unfold storeRate
    by_cases hs : s.key = r.key
    · by_cases h : r.key = key <;> simp [hs, h]
    · rw [if_neg hs]
      by_cases h : s.key = key
      · have hr : ¬ r.key = key := fun e => hs (h.trans e.symm)
        simp [h, hr]
      · simp [h, find?_storeRate r key rest]

namespace RateTable

theorem get?_insert (t : RateTable π) (r : Rate π) (key : String) :
    (t.insert r).get? key = if r.key = key then some r else t.get? key := find?_storeRate r key t.rates

theorem get?_foldl_insert (rs : List (Rate π)) (key : String) :
    (rs.foldl insert (∅ : RateTable π)).get? key = latest rs key := by
  induction rs using List.reverseRecOn with
  | nil => rfl
  | append_singleton rs r ih => rw [List.foldl_append, latest_snoc, ← ih]; exact get?_insert _ r key

theorem keys_foldl_insert (rs : List (Rate π)) :
    (rs.foldl insert (∅ : RateTable π)).rates.map (·.key) = (rs.map (·.key)).eraseDups := by
  induction rs using List.reverseRecOn with
  | nil => rfl
  | append_singleton rs r ih =>
    rw [List.foldl_append, List.map_append, List.map_singleton, eraseDups_snoc, ← ih]
    exact keys_storeRate r _

theorem filter_key : ∀ {rates : List (Rate π)}, (rates.map (·.key)).Nodup → ∀ key,
    rates.filter (·.key == key) = (rates.find? (·.key = key)).toList
  | [], _, _ => rfl
  | r :: rest, h, key => by
    obtain ⟨hr, hn⟩ := List.nodup_cons.mp h
    by_cases hk : r.key = key
    · have hne : ∀ s ∈ rest, ¬ (s.key == key) = true := fun s hs he =>
        hr (List.mem_map.mpr ⟨s, hs, (beq_iff_eq.mp he).trans hk.symm⟩)
      rw [List.filter_cons_of_pos (by simpa using hk), List.filter_eq_nil_iff.mpr hne,
        List.find?_cons_of_pos (by simpa using hk)]
      rfl
    · rw [List.filter_cons_of_neg (by simpa using hk), List.find?_cons_of_neg (by simpa using hk),
        filter_key hn key]

theorem filter_key_rates (t : RateTable π) (key : String) :
    t.rates.filter (·.key == key) = (t.get? key).toList := filter_key t.nodup_keys key

theorem mem_rates_iff (t : RateTable π) (r : Rate π) : r ∈ t.rates ↔ t.get? r.key = some r := by
  have h : r ∈ t.rates.filter (·.key == r.key) ↔ r ∈ (t.get? r.key).toList := by rw [filter_key_rates]
  simpa using h

end RateTable

end PriceBoard
