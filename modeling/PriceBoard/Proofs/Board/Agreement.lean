import Mathlib.Data.List.Nodup
import PriceBoard.Proofs.Board.Rows
import PriceBoard.Proofs.Rate.Latest
import PriceBoard.Proofs.Rate.Validity

/-!
# What a board shows

A board that was given valid rates one after the other shows them: it has a row
for each key, in the order in which the keys first came, and a row shows the
latest rate for its key (`Shows.apply`). Highlights and the status line make no
difference.
-/

namespace PriceBoard

theorem beq_self_of_isFinite {x : Float} (h : x.isFinite) : (x == x) = true := by
  obtain ⟨o, hxx, hswap⟩ := exists_compare (a := x.toModel.unpack) (b := x.toModel.unpack) h h
  show (x.toModel.unpack.compare x.toModel.unpack == some .eq) = true
  rw [hxx]
  -- only equality is its own reverse
  cases o with
  | eq => rfl
  | lt | gt => cases hxx.symm.trans hswap

theorem Rate.IsValid.beq_self {r : Rate Float} (h : r.IsValid) :
    (r.bid == r.bid) = true ∧ (r.ask == r.ask) = true ∧ (r.mid == r.mid) = true := by
  have hprices := h.wellFormed
  exact ⟨beq_self_of_isFinite hprices.bid, beq_self_of_isFinite hprices.ask, beq_self_of_isFinite hprices.mid⟩

namespace Row

/-- Whether a row shows a rate, with prices compared as numbers. -/
structure Shows (row : Row Float) (r : Rate Float) : Prop where
  bid : (row.bid == r.bid) = true
  ask : (row.ask == r.ask) = true
  mid : (row.mid == r.mid) = true
  source : row.source = r.source
  lastUpdated : row.lastUpdated = r.lastUpdated
  isActive : row.isActive = r.isActive

theorem shows_ofRate {r : Rate Float} (h : r.IsValid) (c : Curve) : (ofRate r c).Shows r :=
  ⟨h.beq_self.1, h.beq_self.2.1, h.beq_self.2.2, rfl, rfl, rfl⟩

theorem shows_update (row : Row Float) {r : Rate Float} (h : r.IsValid) : (row.update r).row.Shows r := by
  obtain ⟨hb, ha, hm⟩ := h.beq_self
  have hshow : (Editing.show ⟨row, []⟩ r).row.Shows r := by
    rw [Editing.show_row]
    exact ⟨shown_beq hb, shown_beq ha, shown_beq hm, shown_eq .., shown_eq .., shown_eq ..⟩
  unfold update
  dsimp only
  split
  · exact hshow
  · exact ⟨hshow.bid, hshow.ask, hshow.mid, hshow.source, hshow.lastUpdated, hshow.isActive⟩

theorem Shows.advance {row : Row Float} {r : Rate Float} (h : row.Shows r) (generation step : Nat) :
    (row.advance generation step).row.Shows r := by
  rcases row.advance_cases generation step with ⟨he, _⟩ | ⟨e, _, _, _, ⟨_, he⟩ | ⟨_, he⟩⟩ <;> rw [he]
  · exact h
  · exact ⟨h.bid, h.ask, h.mid, h.source, h.lastUpdated, h.isActive⟩
  · exact ⟨h.bid, h.ask, h.mid, h.source, h.lastUpdated, h.isActive⟩

end Row

namespace Board

variable {π : Type}

/-! ## Keys -/

def keys (b : Board π) : List String := b.rows.map (·.key)

theorem get?_isSome (b : Board π) (key : String) : (b.get? key).isSome ↔ key ∈ b.keys := by
  simp [get?_eq_find?, keys, List.find?_isSome]

theorem get?_of_mem {b : Board π} (h : b.keys.Nodup) {row : Row π} (hr : row ∈ b.rows) :
    b.get? row.key = some row := by
  obtain ⟨found, hf⟩ := Option.isSome_iff_exists.mp ((b.get?_isSome row.key).mpr (List.mem_map_of_mem hr))
  have hk : found.key = row.key := (exists_index?_of_get? hf).1
  rw [get?_eq_find?] at hf
  rw [get?_eq_find?, hf, List.inj_on_of_nodup_map h (List.mem_of_find?_eq_some hf) hr hk]

theorem keys_setRow {b : Board π} {key : String} {i : Nat} (h : b.index? key = some i) {row : Row π}
    (hk : row.key = key) : (b.setRow h row hk).keys = b.keys :=
  map_key_set ⟨i, lt_size h⟩ (hk.trans (key_rowAt h).symm)

variable [Scalar π]

theorem keys_apply (b : Board π) (r : Rate π) :
    (b.apply r).board.keys = if r.key ∈ b.keys then b.keys else b.keys ++ [r.key] := by
  cases h : b.index? r.key with
  | none =>
    have hk : r.key ∉ b.keys := fun hk => by
      simpa [get?_of_index?_none h] using (b.get?_isSome r.key).mpr hk
    rw [if_neg hk, (apply_of_index?_none h).1]
    exact List.map_append
  | some i =>
    have hk : r.key ∈ b.keys := (b.get?_isSome r.key).mp (by simp [get?_of_index? h])
    rw [if_pos hk, (apply_of_index? h).1]
    exact keys_setRow h ((Row.key_update ..).trans (key_rowAt h))

theorem updates_apply (b : Board π) (r : Rate π) : (b.apply r).board.updates = b.updates + 1 := by
  cases h : b.index? r.key with
  | none => rw [(apply_of_index?_none h).1]
  | some i => rw [(apply_of_index? h).1]

theorem keys_advance (b : Board π) (key : String) (generation step : Nat) :
    (b.advance key generation step).board.keys = b.keys ∧
    (b.advance key generation step).board.updates = b.updates := by
  cases h : b.index? key with
  | none =>
    rw [advance_of_index?_none h]
    exact ⟨rfl, rfl⟩
  | some i =>
    rw [advance_of_index? h]
    exact ⟨keys_setRow h ((Row.key_advance ..).trans (key_rowAt h)), rfl⟩

/-! ## Agreement -/

/-- Whether a board shows the rates of a list, given in this order. -/
structure Shows (b : Board Float) (rs : List (Rate Float)) : Prop where
  updates : b.updates = rs.length
  keys : b.keys = (rs.map (·.key)).eraseDups
  rows : ∀ key row, b.get? key = some row → ∃ r, latest rs key = some r ∧ row.Shows r

variable {b : Board Float} {rs : List (Rate Float)}

theorem Shows.apply (h : b.Shows rs) {r : Rate Float} (hv : r.IsValid) : (b.apply r).board.Shows (rs ++ [r]) where
  updates := by rw [updates_apply, h.updates, List.length_append, List.length_singleton]
  keys := by rw [keys_apply, h.keys, List.map_append, List.map_singleton, eraseDups_snoc]
  rows key row hrow := by
    rw [get?_apply] at hrow
    rw [latest_snoc]
    by_cases hk : key = r.key
    · rw [if_pos hk] at hrow
      refine ⟨r, if_pos hk.symm, ?_⟩
      cases hrow
      unfold rowAfter
      cases b.get? r.key with
      | none => exact Row.shows_ofRate hv _
      | some row => exact row.shows_update hv
    · rw [if_neg hk] at hrow
      rw [if_neg (Ne.symm hk)]
      exact h.rows key row hrow

theorem Shows.advance (h : b.Shows rs) (key : String) (generation step : Nat) :
    (b.advance key generation step).board.Shows rs where
  updates := (b.keys_advance key generation step).2.trans h.updates
  keys := (b.keys_advance key generation step).1.trans h.keys
  rows k row hrow := by
    cases hb : b.get? key with
    | none =>
      rw [advance_of_get?_none hb] at hrow
      exact h.rows k row hrow
    | some old =>
      rw [(advance_of_get? hb generation step).2.2] at hrow
      by_cases hk : k = key
      · rw [if_pos hk] at hrow
        cases hrow
        obtain ⟨r, hl, hs⟩ := h.rows key old hb
        exact ⟨r, hk ▸ hl, hs.advance generation step⟩
      · rw [if_neg hk] at hrow
        exact h.rows k row hrow

theorem Shows.of_rows {b' : Board Float} (h : b.Shows rs) (hu : b'.updates = b.updates) (hr : b'.rows = b.rows) :
    b'.Shows rs where
  updates := hu.trans h.updates
  keys := by rw [Board.keys, hr]; exact h.keys
  rows key row hrow := h.rows key row (by rwa [get?_eq_find?, hr, ← get?_eq_find?] at hrow)

theorem Shows.setStatus (h : b.Shows rs) (text : String) : (b.setStatus text).1.Shows rs := by
  rw [board_setStatus]
  exact h.of_rows rfl rfl

end Board

end PriceBoard
