import PriceBoard.Proofs.Decimal.Equality
import PriceBoard.Proofs.Row.Runs

/-!
# What notices tell

An operation tells the properties that it changes, in order and each when it has its
new value, and between two notices nothing else changes (`Steady`). So a listener that
reads a property again only when it is told always knows the row (`notices_of_run`).
-/

namespace PriceBoard

/-! ## Views -/

def Property.Value (π : Type) : Property → Type
  | .bid | .ask | .mid | .spread => π
  | .source => String
  | .lastUpdated => Time.Timestamp
  | .isActive => Bool
  | .highlight => π × Direction

/-- The properties of a rate, in the order in which they are told. -/
def Property.ofRate : List Property := [.bid, .ask, .mid, .spread, .source, .lastUpdated, .isActive]

namespace Row

open Decimal (bne_price_iff)

variable {π : Type}

def view (row : Row π) : (p : Property) → p.Value π
  | .bid => row.bid
  | .ask => row.ask
  | .mid => row.mid
  | .spread => row.spread
  | .source => row.source
  | .lastUpdated => row.lastUpdated
  | .isActive => row.isActive
  | .highlight => (row.intensity, row.direction)

/-! ## Between notices -/

/-- Whether each notice is of all that has changed since the one before it, or since the
row at first, and nothing changes after the last. -/
def Steady : Row π → List (Notice π) → Row π → Prop
  | row, [], last => last.view = row.view
  | row, n :: ns, last => (∀ p, p ≠ n.property → n.row.view p = row.view p) ∧ n.row.Steady ns last

theorem steady_nil (row : Row π) : row.Steady [] row := rfl

section

variable {row row' mid last : Row π} {ns later : List (Notice π)}

theorem Steady.of_view (h : row.Steady ns last) (hv : row.view = row'.view) : row'.Steady ns last := by
  cases ns with
  | nil => exact h.trans hv
  | cons n ns =>
    refine ⟨fun p hp => ?_, h.2⟩
    rw [h.1 p hp, hv]

theorem Steady.append (h : row.Steady ns mid) (hl : mid.Steady later last) : row.Steady (ns ++ later) last := by
  induction ns generalizing row with
  | nil => exact hl.of_view h
  | cons n ns ih => exact ⟨h.1, ih h.2⟩

theorem steady_highlight (only : ∀ p, p ≠ .highlight → row'.view p = row.view p := by
      intro p hp
      cases p <;> first | rfl | exact absurd rfl hp) : row.Steady [⟨.highlight, row'⟩] row' :=
  ⟨only, steady_nil row'⟩

theorem Steady.take {n : Notice π} (h : row.Steady (ns ++ n :: later) last) : row.Steady (ns ++ [n]) n.row := by
  induction ns generalizing row with
  | nil => exact ⟨h.1, steady_nil n.row⟩
  | cons m ns ih => exact ⟨h.1, ih h.2⟩

end

/-! ## A listener -/

/-- What a listener knows after it has read the property that it was told. -/
def reread (known : (p : Property) → p.Value π) (n : Notice π) : (p : Property) → p.Value π :=
  Function.update known n.property (n.row.view n.property)

theorem Steady.reread {row last : Row π} {ns : List (Notice π)} (h : row.Steady ns last) :
    ns.foldl Row.reread row.view = last.view := by
  induction ns generalizing row with
  | nil => exact h.symm
  | cons n ns ih =>
    have hread : Row.reread row.view n = n.row.view := by
      funext p
      by_cases hp : p = n.property
      · subst hp
        exact Function.update_self ..
      · rw [Row.reread, Function.update_of_ne hp, h.1 p hp]
    rw [List.foldl_cons, hread]
    exact ih h.2

/-! ## Updates -/

section

variable [Scalar π]

instance (p : Property) : BEq (p.Value π) :=
  match p with
  | .bid | .ask | .mid | .spread => inferInstanceAs (BEq π)
  | .source => inferInstanceAs (BEq String)
  | .lastUpdated => inferInstanceAs (BEq Time.Timestamp)
  | .isActive => inferInstanceAs (BEq Bool)
  | .highlight => inferInstanceAs (BEq (π × Direction))

/-- Whether a row shows something else than a rate. -/
def differs (row : Row π) (r : Rate π) (p : Property) : Bool := row.view p != (Row.ofRate r row.curve).view p

/-- What holds of an update when the properties `done` have been seen to. -/
structure Editing.Shows (row : Row π) (r : Rate π) (done : List Property) (e : Editing π) : Prop where
  told : e.notices.map (·.property) = done.filter (row.differs r)
  fresh : ∀ n ∈ e.notices, n.row.view n.property = (Row.ofRate r row.curve).view n.property
  steady : row.Steady e.notices e.row
  rest : ∀ p, p ∉ done → e.row.view p = row.view p

variable {row : Row π} {r : Rate π} {done : List Property} {e : Editing π} {p : Property} {f : Row π → Row π}

theorem Editing.shows_start (row : Row π) (r : Rate π) : Editing.Shows row r [] ⟨row, []⟩ :=
  ⟨rfl, nofun, steady_nil row, fun _ _ => rfl⟩

theorem Editing.Shows.changeIf (h : e.Shows row r done) (hp : p ∉ done)
    (new : (f e.row).view p = (Row.ofRate r row.curve).view p)
    (only : ∀ q, q ≠ p → (f e.row).view q = e.row.view q := by
      intro q hq
      cases q <;> first | rfl | exact absurd rfl hq) :
    (e.changeIf (e.row.view p != (Row.ofRate r row.curve).view p) p f).Shows row r (done ++ [p]) := by
  have rest : ∀ q, q ∉ done ++ [p] → e.row.view q = row.view q ∧ (f e.row).view q = row.view q := by
    intro q hq
    simp only [List.mem_append, List.mem_singleton, not_or] at hq
    rw [only q hq.2, h.rest q hq.1]
    exact ⟨rfl, rfl⟩
  rw [h.rest p hp]
  cases hd : row.differs r p with
  | false =>
    rw [show (row.view p != (Row.ofRate r row.curve).view p) = false from hd]
    refine ⟨?_, h.fresh, h.steady, fun q hq => (rest q hq).1⟩
    simp [Editing.changeIf, h.told, hd]
  | true =>
    rw [show (row.view p != (Row.ofRate r row.curve).view p) = true from hd]
    refine ⟨?_, ?_, h.steady.append ⟨only, steady_nil _⟩, fun q hq => (rest q hq).2⟩
    · simp [Editing.changeIf, Editing.change, h.told, hd]
    · intro n hn
      rcases List.mem_append.mp hn with hn | hn
      · exact h.fresh n hn
      · rw [List.mem_singleton.mp hn]
        exact new

theorem Editing.shows_show (row : Row π) (r : Rate π) :
    (Editing.show ⟨row, []⟩ r).Shows row r Property.ofRate := by
  unfold Editing.show
  extract_lets e₁ e₂ e₃ e₄ e₅ e₆
  have h₁ : e₁.Shows row r [.bid] := (shows_start row r).changeIf (p := .bid) (by simp) rfl
  have h₂ : e₂.Shows row r [.bid, .ask] := h₁.changeIf (p := .ask) (by simp) rfl
  have h₃ : e₃.Shows row r [.bid, .ask, .mid] := h₂.changeIf (p := .mid) (by simp) rfl
  have h₄ : e₄.Shows row r [.bid, .ask, .mid, .spread] := h₃.changeIf (p := .spread) (by simp) rfl
  have h₅ : e₅.Shows row r [.bid, .ask, .mid, .spread, .source] := h₄.changeIf (p := .source) (by simp) rfl
  have h₆ : e₆.Shows row r [.bid, .ask, .mid, .spread, .source, .lastUpdated] :=
    h₅.changeIf (p := .lastUpdated) (by simp) rfl
  exact h₆.changeIf (p := .isActive) (by simp) rfl

/-! ## Operations -/

theorem told_update (row : Row π) (r : Rate π) :
    (row.update r).notices.map (·.property) =
      Property.ofRate.filter (row.differs r) ++ if (row.update r).pulse.isSome then [.highlight] else [] := by
  have h := (Editing.shows_show row r).told
  rcases row.update_cases r with ⟨_, he⟩ | ⟨_, he⟩ <;> rw [he]
  · simp [h]
  · simp [h]

theorem told_advance (row : Row π) (generation step : Nat) :
    (row.advance generation step).notices.map (·.property) =
      if (row.advance generation step).progress.isStale then [] else [.highlight] := by
  rcases row.advance_cases generation step with ⟨he, _⟩ | ⟨_, _, _, _, ⟨_, he⟩ | ⟨_, he⟩⟩ <;> rw [he] <;> rfl

theorem fresh_update {row : Row π} {r : Rate π} {n : Notice π} (hn : n ∈ (row.update r).notices)
    (hp : n.property ≠ .highlight) : n.row.view n.property = (Row.ofRate r row.curve).view n.property := by
  have h := (Editing.shows_show row r).fresh
  rcases row.update_cases r with ⟨_, he⟩ | ⟨_, he⟩ <;> rw [he] at hn
  · exact h n hn
  · rcases List.mem_append.mp hn with hn | hn
    · exact h n hn
    · rw [List.mem_singleton.mp hn] at hp
      exact absurd rfl hp

theorem steady_update (row : Row π) (r : Rate π) : row.Steady (row.update r).notices (row.update r).row := by
  have h := (Editing.shows_show row r).steady
  rw [Editing.show_row] at h
  rcases row.update_cases r with ⟨_, he⟩ | ⟨_, he⟩ <;> rw [he]
  · exact h
  · exact h.append steady_highlight

theorem steady_advance (row : Row π) (generation step : Nat) :
    row.Steady (row.advance generation step).notices (row.advance generation step).row := by
  rcases row.advance_cases generation step with ⟨he, _⟩ | ⟨_, _, _, _, ⟨_, he⟩ | ⟨_, he⟩⟩ <;> rw [he]
  · exact steady_nil row
  · exact steady_highlight
  · exact steady_highlight

theorem steady_tell (row : Row π) (o : Op π) : row.Steady (row.tell o) (row.perform o).1 := by
  cases o with
  | update r => exact row.steady_update r
  | advance generation step => exact row.steady_advance generation step

theorem steady_told (row : Row π) (os : List (Op π)) : row.Steady (row.told os) (row.run os).1 := by
  induction os generalizing row with
  | nil => exact steady_nil row
  | cons o os ih => exact (row.steady_tell o).append (ih (row.perform o).1)

end

def price? (row : Row Float) : Property → Option Float
  | .bid => some row.bid
  | .ask => some row.ask
  | .mid => some row.mid
  | .spread => some row.spread
  | _ => none

theorem differs_price {row : Row Float} {r : Rate Float} {p : Property} {x y : Float} (hx : row.price? p = some x)
    (hy : (Row.ofRate r row.curve).price? p = some y) :
    row.differs r p = (x != y) ∧ p ∈ Property.ofRate := by
  cases p with
  | bid | ask | mid | spread =>
    cases hx
    cases hy
    exact ⟨rfl, by simp [Property.ofRate]⟩
  | _ => cases hx

/-- Of every row that there can be: an update tells, in order, the properties that differ
from the rate's, each when it has the rate's value, and then the highlight if it starts
a pulse; a step that is not stale tells the highlight. Prices differ as numbers. Nothing
changes between two notices but what the second is of, so a listener that reads a property
again when it is told knows the row at each notice and after the last. -/
theorem notices_of_run (first : Rate Float) (c : Curve) (os : List (Op Float)) :
    let start := Row.ofRate first c
    let row := (start.run os).1
    (∀ r, let u := row.update r
      u.notices.map (·.property) =
        Property.ofRate.filter (row.differs r) ++ (if u.pulse.isSome then [.highlight] else []) ∧
      (∀ p x y, row.price? p = some x → (Row.ofRate r row.curve).price? p = some y →
        (p ∈ u.notices.map (·.property) ↔
          x.isNaN = true ∨ y.isNaN = true ∨ (x ≠ y ∧ ¬ ((x == 0) = true ∧ (y == 0) = true)))) ∧
      (∀ n ∈ u.notices, n.property ≠ .highlight →
        n.row.view n.property = (Row.ofRate r row.curve).view n.property) ∧
      row.Steady u.notices u.row) ∧
    (∀ generation step, let a := row.advance generation step
      a.notices.map (·.property) = (if a.progress.isStale then [] else [.highlight]) ∧
      row.Steady a.notices a.row) ∧
    (start.told os).foldl reread start.view = row.view ∧
    ∀ past n later, start.told os = past ++ n :: later → (past ++ [n]).foldl reread start.view = n.row.view := by
  intro start row
  have hrun : start.Steady (start.told os) row := start.steady_told os
  refine ⟨fun r => ⟨row.told_update r, ?_, fun n hn hp => fresh_update hn hp, row.steady_update r⟩,
    fun generation step => ⟨row.told_advance generation step, row.steady_advance generation step⟩,
    hrun.reread, ?_⟩
  · intro p x y hx hy
    obtain ⟨hd, hp⟩ := differs_price hx hy
    have hne : p ≠ .highlight := by
      rintro rfl
      cases hx
    rw [told_update, ← bne_price_iff, ← hd]
    split
    · simp [hp, hne]
    · simp [hp]
  · intro past n later htold
    rw [htold] at hrun
    exact hrun.take.reread

end Row

end PriceBoard
