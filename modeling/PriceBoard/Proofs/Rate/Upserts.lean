import Mathlib.Data.Finset.Card
import Mathlib.Data.List.Perm.Basic
import PriceBoard.Proofs.Decimal.Equality
import PriceBoard.Proofs.Rate.Latest

/-!
# Tables and their histories

A table that was filled by upserts is the map from each key to the last rate that was
stored under it, and nothing else of its history shows (`table_of_upserts`).
-/

namespace PriceBoard

/-- Whether no price is NaN. -/
structure Rate.IsNumeric (r : Rate Float) : Prop where
  bid : r.bid.isNaN = false
  ask : r.ask.isNaN = false
  mid : r.mid.isNaN = false

theorem Rate.IsNumeric.same_self {r : Rate Float} (h : r.IsNumeric) : r.same r = true := by
  have hself : ∀ {x : Float}, x.isNaN = false → (x == x) = true := fun hx => by simpa using hx
  simp [Rate.same, hself h.bid, hself h.ask, hself h.mid]

namespace RateTable

variable {π : Type} {t u : RateTable π}

/-- The table after a history of upserts. -/
def ofUpserts (rs : List (Rate π)) : RateTable π := rs.foldl (fun t r => (t.upsert r).2) ∅

theorem get?_ofUpserts (rs : List (Rate π)) (key : String) : (ofUpserts rs).get? key = latest rs key :=
  get?_foldl_insert rs key

theorem keys_ofUpserts (rs : List (Rate π)) :
    (ofUpserts rs).rates.map (·.key) = (rs.map (·.key)).eraseDups := keys_foldl_insert rs

theorem size_ofUpserts (rs : List (Rate π)) : (ofUpserts rs).size = (rs.map (·.key)).toFinset.card := by
  have hkeys : (rs.map (·.key)).toFinset = (rs.map (·.key)).eraseDups.toFinset := by
    ext key
    simp only [List.mem_toFinset, List.mem_eraseDups]
  rw [hkeys, List.toFinset_card_of_nodup (nodup_eraseDups _), ← keys_ofUpserts, List.length_map]
  rfl

theorem latest_isSome_iff {rs : List (Rate π)} {key : String} :
    (latest rs key).isSome = true ↔ ∃ r ∈ rs, r.key = key := by
  simp [latest]

/-! ## Entries -/

theorem sorted_perm (t : RateTable π) : t.sorted.Perm t.rates := List.mergeSort_perm ..

theorem keys_entries_perm (t : RateTable π) : (t.entries.map (·.1)).Perm (t.rates.map (·.key)) := by
  rw [entries, List.map_map]
  exact t.sorted_perm.map _

theorem mem_entries_iff {key : String} {r : Rate π} : (key, r) ∈ t.entries ↔ t.get? key = some r := by
  rw [entries, List.mem_map]
  constructor
  · rintro ⟨s, hs, he⟩
    obtain ⟨rfl, rfl⟩ := Prod.mk.inj he
    exact (t.mem_rates_iff s).mp (t.sorted_perm.mem_iff.mp hs)
  · intro h
    obtain rfl : r.key = key := by simpa using List.find?_some h
    exact ⟨r, t.sorted_perm.mem_iff.mpr ((t.mem_rates_iff r).mpr h), rfl⟩

/-! ## Tables that answer alike -/

section
variable (h : ∀ key, u.get? key = t.get? key)
include h

theorem rates_perm_of_get? : u.rates.Perm t.rates := by
  refine (List.perm_ext_iff_of_nodup u.nodup_keys.of_map t.nodup_keys.of_map).mpr fun r => ?_
  rw [mem_rates_iff, mem_rates_iff, h]

theorem sorted_eq_of_get? : u.sorted = t.sorted := by
  have hperm : u.sorted.Perm t.sorted :=
    u.sorted_perm.trans ((rates_perm_of_get? h).trans t.sorted_perm.symm)
  have hsorted : ∀ v : RateTable π, v.sorted.Pairwise fun r s => decide (r.key ≤ s.key) = true := fun v =>
    List.pairwise_mergeSort
      (fun _ _ _ hrs hst => by simpa using String.le_trans (by simpa using hrs) (by simpa using hst))
      (fun r s => by simpa using String.le_total r.key s.key) v.rates
  refine hperm.eq_of_pairwise (fun r s hr hs hrs hsr => ?_) (hsorted u) (hsorted t)
  -- only one rate of the table has the key
  have hkey : r.key = s.key := String.le_antisymm (by simpa using hrs) (by simpa using hsr)
  have hr' := (t.mem_rates_iff r).mp (t.sorted_perm.mem_iff.mp (hperm.mem_iff.mp hr))
  have hs' := (t.mem_rates_iff s).mp (t.sorted_perm.mem_iff.mp hs)
  rw [hkey, hs'] at hr'
  exact (Option.some.inj hr').symm

end

theorem same_of_get? {t u : RateTable Float} (h : ∀ key, u.get? key = t.get? key)
    (hn : ∀ r ∈ t.rates, r.IsNumeric) : (t == u) = true := by
  have hsize : (t.size == u.size) = true := beq_iff_eq.mpr (rates_perm_of_get? h).length_eq.symm
  refine Bool.and_eq_true_iff.mpr ⟨hsize, List.all_eq_true.mpr fun r hr => ?_⟩
  rw [h, (t.mem_rates_iff r).mp hr]
  exact (hn r hr).same_self

/-- Along a history of upserts each answers the last rate that was stored under its key
before it. A look-up finds the last rate under the key, the size is the number of
different keys, and the entries are the keys, each once and with its last rate. Two
histories with the same last rates, in whatever order and over whatever earlier ones,
fill tables that answer every question alike, and are equal unless a price is NaN. -/
theorem table_of_upserts (rs : List (Rate Float)) :
    let t := ofUpserts rs
    (∀ r, (t.upsert r).1 = latest rs r.key ∧ (t.upsert r).2 = ofUpserts (rs ++ [r])) ∧
    (∀ key, t.get? key = latest rs key ∧ (t.contains key = true ↔ ∃ r ∈ rs, r.key = key)) ∧
    t.size = (rs.map (·.key)).toFinset.card ∧ (t.isEmpty = true ↔ rs = []) ∧
    (t.entries.map (·.1)).Nodup ∧
    (∀ key r, (key, r) ∈ t.entries ↔ latest rs key = some r) ∧ (∀ e ∈ t.entries, e.2.key = e.1) ∧
    ∀ ss, (∀ key, latest ss key = latest rs key) →
      let u := ofUpserts ss
      (∀ key, u.get? key = t.get? key ∧ u.contains key = t.contains key) ∧
      u.size = t.size ∧ u.isEmpty = t.isEmpty ∧ u.entries = t.entries ∧
      ((∀ key r, latest rs key = some r → r.IsNumeric) → (t == u) = true) := by
  intro t
  have hget : ∀ key, t.get? key = latest rs key := get?_ofUpserts rs
  refine ⟨fun r => ⟨hget r.key, ?_⟩, fun key => ⟨hget key, ?_⟩, size_ofUpserts rs, ?_, ?_, ?_, ?_, ?_⟩
  · rw [ofUpserts, List.foldl_append]
    rfl
  · rw [contains, hget, latest_isSome_iff]
  · have hsize : t.rates.length = (rs.map (·.key)).toFinset.card := size_ofUpserts rs
    rw [isEmpty, List.isEmpty_iff_length_eq_zero, hsize, Finset.card_eq_zero]
    simp
  · exact (t.keys_entries_perm.nodup_iff).mpr t.nodup_keys
  · intro key r
    rw [mem_entries_iff, hget]
  · rintro ⟨key, r⟩ he
    simpa using List.find?_some (mem_entries_iff.mp he)
  · intro ss hlatest u
    have hsame : ∀ key, u.get? key = t.get? key := fun key => by
      rw [hget, ← hlatest]
      exact get?_ofUpserts ss key
    have hperm := rates_perm_of_get? hsame
    refine ⟨fun key => ⟨hsame key, ?_⟩, hperm.length_eq, ?_, ?_, fun hn => ?_⟩
    · rw [contains, contains, hsame]
    · rw [isEmpty, isEmpty, Bool.eq_iff_iff, List.isEmpty_iff_length_eq_zero, List.isEmpty_iff_length_eq_zero,
        hperm.length_eq]
    · rw [entries, entries, sorted_eq_of_get? hsame]
    · refine same_of_get? hsame fun r hr => hn r.key r ?_
      rw [← hget]
      exact (t.mem_rates_iff r).mp hr

end RateTable

end PriceBoard
