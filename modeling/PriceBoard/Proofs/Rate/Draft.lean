import PriceBoard.Proofs.Json.Numbers
import PriceBoard.Proofs.Json.Strings
import PriceBoard.Proofs.Time.Rfc3339
import PriceBoard.Rate.Wire

/-!
# Drafts of rates

A field is read back from its text if its value can be written
(`RateDraft.take_valueText`), a null is not (`take_null`), and whatever is read
can be written (`Carried.take`). A rate is what its nine fields show.
-/

namespace PriceBoard

open Decimal (isDigit digitChars padZeros allDigits_padZeros allDigits_digitChars)
open Json (Fault Follows IsPlain map_eq_ok bind_eq_ok)
open Time (Timestamp TimeOfDay Date twoDigits secondFraction yearText)

/-! ## Times in strings -/

theorem isPlain_of_isDigit {c : Char} (h : isDigit c = true) : IsPlain c := by
  have hlow : 0x20 ≤ c.toNat := by
    unfold isDigit at h
    rw [Bool.and_eq_true, decide_eq_true_eq, decide_eq_true_eq] at h
    have : '0'.toNat ≤ c.toNat := h.1
    simp only [Char.reduceToNat] at this
    omega
  refine ⟨?_, ?_, by omega⟩
  · rintro rfl
    exact absurd h (by decide)
  · rintro rfl
    exact absurd h (by decide)

theorem isPlain_padZeros (width n : Nat) : ∀ c ∈ padZeros width (digitChars n), IsPlain c :=
  fun c hc => isPlain_of_isDigit (allDigits_padZeros width (allDigits_digitChars n) c hc)

theorem isPlain_twoDigits (n : Nat) : ∀ c ∈ twoDigits n, IsPlain c :=
  fun c hc => isPlain_of_isDigit (Time.allDigits_twoDigits n c hc)

theorem isPlain_yearText (year : Int) : ∀ c ∈ yearText year, IsPlain c := by
  unfold yearText
  dsimp only
  split
  · exact isPlain_padZeros 4 _
  · refine List.forall_mem_cons.mpr ⟨?_, isPlain_padZeros 4 _⟩
    split <;> simp [IsPlain]

theorem isPlain_secondFraction (nanos : Nat) : ∀ c ∈ secondFraction nanos, IsPlain c := by
  have row : ∀ width n, ∀ c ∈ '.' :: padZeros width (digitChars n), IsPlain c :=
    fun width n => List.forall_mem_cons.mpr ⟨by simp [IsPlain], isPlain_padZeros width n⟩
  unfold secondFraction
  split
  · nofun
  split
  · exact row 3 _
  split
  · exact row 6 _
  · exact row 9 _

theorem isPlain_wire (t : Timestamp) : ∀ c ∈ t.wire, IsPlain c := by
  unfold Timestamp.wire Date.text TimeOfDay.clock
  simp only [List.forall_mem_append, List.forall_mem_cons]
  refine ⟨⟨⟨⟨⟨isPlain_yearText _, ?_, isPlain_twoDigits _⟩, ?_, isPlain_twoDigits _⟩, ?_,
    ⟨isPlain_twoDigits _, ?_, isPlain_twoDigits _⟩, ?_, isPlain_twoDigits _⟩, isPlain_secondFraction _⟩, ?_⟩ <;>
    simp [IsPlain]

/-! ## Values -/

theorem takeString_quote (expected : String) (cs : List Char) :
    Json.takeString expected ('"' :: cs) = Json.decode cs := rfl

theorem takeText_encode (s : String) (rest : List Char) :
    takeText (Json.encode s.toList ++ rest) = .ok (s, rest) := by
  unfold takeText Json.encode
  rw [List.cons_append, List.append_assoc, takeString_quote, List.singleton_append, Json.decode_flatMap]
  exact congrArg (fun s => Except.ok (s, rest)) String.ofList_toList

theorem takeTime_wire {t : Timestamp} (h : t.Representable) (rest : List Char) :
    takeTime ('"' :: t.wire ++ ['"'] ++ rest) = .ok (t, rest) := by
  unfold takeTime
  rw [List.cons_append, List.cons_append, List.append_assoc, takeString_quote, List.singleton_append,
    Json.decode_plain rest (isPlain_wire t)]
  dsimp only
  rw [Time.read_wire h]

theorem takeBoolean_text (b : Bool) (rest : List Char) :
    Json.takeBoolean ((if b then "true" else "false").toList ++ rest) = .ok (b, rest) := by
  cases b <;> rfl

/-! ## Fields -/

/-- The wire has a value for the field. -/
def RateField.Readable (r : Rate Float) : RateField → Prop
  | .bid => r.bid.isFinite
  | .ask => r.ask.isFinite
  | .mid => r.mid.isFinite
  | .asOf => r.asOf.Representable
  | .lastUpdated => r.lastUpdated.Representable
  | .key | .source | .lastUpdatedBy | .isActive => True

def RateField.price? (r : Rate Float) : RateField → Option Float
  | .bid => some r.bid
  | .ask => some r.ask
  | .mid => some r.mid
  | .key | .source | .asOf | .lastUpdated | .lastUpdatedBy | .isActive => none

/-- The rates that the wire can carry. -/
structure Rate.Writable (r : Rate Float) : Prop where
  bid : r.bid.isFinite
  ask : r.ask.isFinite
  mid : r.mid.isFinite
  asOf : r.asOf.Representable
  lastUpdated : r.lastUpdated.Representable

theorem Rate.Writable.readable {r : Rate Float} (h : r.Writable) (f : RateField) : f.Readable r := by
  cases f with
  | bid => exact h.bid
  | ask => exact h.ask
  | mid => exact h.mid
  | asOf => exact h.asOf
  | lastUpdated => exact h.lastUpdated
  | key | source | lastUpdatedBy | isActive => trivial

namespace RateDraft

/-- The draft with the field's value. -/
def put (r : Rate Float) (d : RateDraft) : RateField → RateDraft
  | .key => { d with key := some r.key }
  | .bid => { d with bid := some r.bid }
  | .ask => { d with ask := some r.ask }
  | .mid => { d with mid := some r.mid }
  | .source => { d with source := some r.source }
  | .asOf => { d with asOf := some r.asOf }
  | .lastUpdated => { d with lastUpdated := some r.lastUpdated }
  | .lastUpdatedBy => { d with lastUpdatedBy := some r.lastUpdatedBy }
  | .isActive => { d with isActive := some r.isActive }

/-- The field is in the draft, with the rate's value. -/
def Shows (r : Rate Float) (d : RateDraft) : RateField → Prop
  | .key => d.key = some r.key
  | .bid => d.bid = some r.bid
  | .ask => d.ask = some r.ask
  | .mid => d.mid = some r.mid
  | .source => d.source = some r.source
  | .asOf => d.asOf = some r.asOf
  | .lastUpdated => d.lastUpdated = some r.lastUpdated
  | .lastUpdatedBy => d.lastUpdatedBy = some r.lastUpdatedBy
  | .isActive => d.isActive = some r.isActive

variable {r : Rate Float} {d : RateDraft} {f g : RateField}

theorem has_put (r : Rate Float) (d : RateDraft) (f g : RateField) : (d.put r f).has g = (f == g || d.has g) := by
  cases f <;> cases g <;> rfl

theorem has_put_empty (r : Rate Float) (h : f ≠ g) : (({} : RateDraft).put r f).has g = false := by
  rw [has_put, beq_false_of_ne h]
  cases g <;> rfl

theorem shows_put (r : Rate Float) (d : RateDraft) (f : RateField) : (d.put r f).Shows r f := by
  cases f <;> rfl

theorem Shows.put (h : d.Shows r g) (f : RateField) : (d.put r f).Shows r g := by
  cases f <;> cases g <;> first | exact h | rfl

theorem finish_eq (h : ∀ f, d.Shows r f) : d.finish = .ok r := by
  obtain ⟨key, bid, ask, mid, source, asOf, lastUpdated, lastUpdatedBy, isActive⟩ := d
  obtain rfl : key = some r.key := h .key
  obtain rfl : bid = some r.bid := h .bid
  obtain rfl : ask = some r.ask := h .ask
  obtain rfl : mid = some r.mid := h .mid
  obtain rfl : source = some r.source := h .source
  obtain rfl : asOf = some r.asOf := h .asOf
  obtain rfl : lastUpdated = some r.lastUpdated := h .lastUpdated
  obtain rfl : lastUpdatedBy = some r.lastUpdatedBy := h .lastUpdatedBy
  obtain rfl : isActive = some r.isActive := h .isActive
  rfl

theorem take_valueText (d : RateDraft) (h : f.Readable r) {rest : List Char} (hr : Follows rest) :
    d.take (f.valueText r ++ rest) f = .ok (d.put r f, rest) := by
  cases f with
  | key | source | lastUpdatedBy =>
    unfold take RateField.valueText
    dsimp only
    rw [takeText_encode]
    rfl
  | bid | ask | mid =>
    unfold take RateField.valueText
    dsimp only
    rw [Json.takeReal_realText h hr]
    rfl
  | asOf | lastUpdated =>
    unfold take RateField.valueText
    dsimp only
    rw [takeTime_wire h]
    rfl
  | isActive =>
    unfold take RateField.valueText
    dsimp only
    rw [takeBoolean_text]
    rfl

theorem take_null (d : RateDraft) {x : Float} (h : f.price? r = some x) (hx : ¬ x.isFinite) (rest : List Char) :
    d.take (f.valueText r ++ rest) f = .error (.shape (.wrongKind .null "f64")) := by
  cases f with
  | bid | ask | mid =>
    obtain rfl := Option.some.inj h
    unfold take RateField.valueText
    dsimp only
    rw [Json.takeReal_null hx]
    rfl
  | key | source | asOf | lastUpdated | lastUpdatedBy | isActive => cases h

end RateDraft

/-! ## What is read can be written -/

namespace RateDraft

/-- The values read so far can be written. -/
structure Carried (d : RateDraft) : Prop where
  bid : ∀ x ∈ d.bid, x.isFinite
  ask : ∀ x ∈ d.ask, x.isFinite
  mid : ∀ x ∈ d.mid, x.isFinite
  asOf : ∀ t ∈ d.asOf, t.Representable
  lastUpdated : ∀ t ∈ d.lastUpdated, t.Representable

theorem forall_mem_some {α : Type} {p : α → Prop} {a : α} (h : p a) : ∀ b ∈ some a, p b := by
  intro b hb
  rw [← Option.some.inj hb]
  exact h

theorem carried_empty : ({} : RateDraft).Carried := ⟨nofun, nofun, nofun, nofun, nofun⟩

theorem representable_of_takeTime {cs rest : List Char} {t : Timestamp} (h : takeTime cs = .ok (t, rest)) :
    t.Representable := by
  unfold takeTime at h
  split at h
  · cases h
  · split at h
    · rename_i hread
      obtain ⟨rfl, -⟩ := Prod.mk.inj (Except.ok.inj h)
      exact Time.representable_of_read hread
    · cases h

variable {d d' : RateDraft} {cs rest : List Char}

theorem Carried.take {f : RateField} (h : d.Carried) (ht : d.take cs f = .ok (d', rest)) : d'.Carried := by
  cases f with
  | key | source | lastUpdatedBy | isActive =>
    obtain ⟨_, -, heq⟩ := map_eq_ok ht
    obtain ⟨rfl, -⟩ := Prod.mk.inj heq
    exact ⟨h.bid, h.ask, h.mid, h.asOf, h.lastUpdated⟩
  | bid =>
    obtain ⟨⟨x, _⟩, hx, heq⟩ := map_eq_ok ht
    obtain ⟨rfl, -⟩ := Prod.mk.inj heq
    exact ⟨forall_mem_some (Json.isFinite_of_takeReal hx), h.ask, h.mid, h.asOf, h.lastUpdated⟩
  | ask =>
    obtain ⟨⟨x, _⟩, hx, heq⟩ := map_eq_ok ht
    obtain ⟨rfl, -⟩ := Prod.mk.inj heq
    exact ⟨h.bid, forall_mem_some (Json.isFinite_of_takeReal hx), h.mid, h.asOf, h.lastUpdated⟩
  | mid =>
    obtain ⟨⟨x, _⟩, hx, heq⟩ := map_eq_ok ht
    obtain ⟨rfl, -⟩ := Prod.mk.inj heq
    exact ⟨h.bid, h.ask, forall_mem_some (Json.isFinite_of_takeReal hx), h.asOf, h.lastUpdated⟩
  | asOf =>
    obtain ⟨⟨t, _⟩, htime, heq⟩ := map_eq_ok ht
    obtain ⟨rfl, -⟩ := Prod.mk.inj heq
    exact ⟨h.bid, h.ask, h.mid, forall_mem_some (representable_of_takeTime htime), h.lastUpdated⟩
  | lastUpdated =>
    obtain ⟨⟨t, _⟩, htime, heq⟩ := map_eq_ok ht
    obtain ⟨rfl, -⟩ := Prod.mk.inj heq
    exact ⟨h.bid, h.ask, h.mid, h.asOf, forall_mem_some (representable_of_takeTime htime)⟩

theorem need_eq_ok {α : Type} {f : RateField} {o : Option α} {a : α} (h : need f o = .ok a) : o = some a := by
  cases o with
  | none => cases h
  | some b => rw [Except.ok.inj h]

theorem Carried.finish {r : Rate Float} (h : d.Carried) (hf : d.finish = .ok r) : r.Writable := by
  unfold RateDraft.finish at hf
  obtain ⟨key, -, hf⟩ := bind_eq_ok hf
  obtain ⟨bid, hbid, hf⟩ := bind_eq_ok hf
  obtain ⟨ask, hask, hf⟩ := bind_eq_ok hf
  obtain ⟨mid, hmid, hf⟩ := bind_eq_ok hf
  obtain ⟨source, -, hf⟩ := bind_eq_ok hf
  obtain ⟨asOf, hasOf, hf⟩ := bind_eq_ok hf
  obtain ⟨lastUpdated, hlastUpdated, hf⟩ := bind_eq_ok hf
  obtain ⟨lastUpdatedBy, -, hf⟩ := bind_eq_ok hf
  obtain ⟨isActive, -, hf⟩ := bind_eq_ok hf
  obtain rfl := Except.ok.inj hf
  exact ⟨h.bid _ (need_eq_ok hbid), h.ask _ (need_eq_ok hask), h.mid _ (need_eq_ok hmid),
    h.asOf _ (need_eq_ok hasOf), h.lastUpdated _ (need_eq_ok hlastUpdated)⟩

end RateDraft

end PriceBoard
