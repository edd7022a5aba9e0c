import Mathlib.Algebra.Group.Nat.Defs
import Mathlib.Tactic.Common
import PriceBoard.Decimal.Notation
import PriceBoard.Decimal.Reader

/-!
# Rows of digits

What `digitChars` writes, with or without zeros in front, `natOfDigits` reads,
and a row of digits ends where something else stands.
-/

namespace PriceBoard.Decimal

def AllDigits (cs : List Char) : Prop := ∀ c ∈ cs, isDigit c = true

def NoDigit (cs : List Char) : Prop := ∀ c ∈ cs.head?, isDigit c = false

theorem AllDigits.append {as bs : List Char} (ha : AllDigits as) (hb : AllDigits bs) : AllDigits (as ++ bs) := by
  intro c hc
  rcases List.mem_append.mp hc with h | h
  · exact ha c h
  · exact hb c h

theorem allDigits_replicate (n : Nat) : AllDigits (List.replicate n '0') := by
  intro c hc
  rw [List.eq_of_mem_replicate hc]
  rfl

theorem allDigits_digitChars (n : Nat) : AllDigits (digitChars n) := by
  intro c hc
  exact Nat.isDigit_of_mem_toDigits (by decide) (by decide) hc

theorem allDigits_padZeros (width : Nat) {ds : List Char} (h : AllDigits ds) : AllDigits (padZeros width ds) :=
  (allDigits_replicate _).append h

theorem isDigit_digitChar {n : Nat} (h : n < 10) : isDigit (Nat.digitChar n) = true := by
  have : digitChars n = [Nat.digitChar n] := Nat.toDigits_of_lt_base h
  exact allDigits_digitChars n _ (by rw [this]; exact List.mem_singleton_self _)

/-! ## Lengths -/

theorem length_padZeros {width : Nat} {ds : List Char} (h : ds.length ≤ width) :
    (padZeros width ds).length = width := by
  unfold padZeros
  rw [List.length_append, List.length_replicate]
  omega

theorem le_length_padZeros (width : Nat) (ds : List Char) : width ≤ (padZeros width ds).length := by
  unfold padZeros
  rw [List.length_append, List.length_replicate]
  omega

theorem digitChars_ne_nil (n : Nat) : digitChars n ≠ [] := Nat.toDigits_ne_nil

theorem length_digitChars_le {n width : Nat} (hw : 0 < width) (h : n < 10 ^ width) :
    (digitChars n).length ≤ width := (Nat.length_toDigits_le_iff (by decide) hw).mpr h

/-! ## Values -/

theorem natOfDigits_cons (c : Char) (cs : List Char) :
    natOfDigits (c :: cs) = digitValue c * 10 ^ cs.length + natOfDigits cs := by
  change Nat.ofDigitChars 10 cs (10 * 0 + digitValue c) = _
  rw [Nat.ofDigitChars_eq_ofDigitChars_zero, Nat.mul_zero, Nat.zero_add, Nat.mul_comm]
  rfl

theorem natOfDigits_append (as bs : List Char) :
    natOfDigits (as ++ bs) = natOfDigits as * 10 ^ bs.length + natOfDigits bs := by
  change Nat.ofDigitChars 10 (as ++ bs) 0 = _
  rw [Nat.ofDigitChars_append, Nat.ofDigitChars_eq_ofDigitChars_zero, Nat.mul_comm]
  rfl

theorem natOfDigits_digitChars (n : Nat) : natOfDigits (digitChars n) = n := Nat.ofDigitChars_ten_toDigits

theorem natOfDigits_replicate (n : Nat) : natOfDigits (List.replicate n '0') = 0 := by
  change Nat.ofDigitChars 10 _ 0 = 0
  rw [Nat.ofDigitChars_replicate_zero, Nat.mul_zero]

theorem natOfDigits_padZeros (width : Nat) (ds : List Char) : natOfDigits (padZeros width ds) = natOfDigits ds := by
  unfold padZeros
  rw [natOfDigits_append, natOfDigits_replicate, Nat.zero_mul, Nat.zero_add]

theorem digitValue_digitChar {n : Nat} (h : n < 10) : digitValue (Nat.digitChar n) = n :=
  Nat.toNat_digitChar_sub_48_of_lt_ten h

theorem digitValue_lt {c : Char} (h : isDigit c = true) : digitValue c < 10 := by
  unfold isDigit at h
  rw [Bool.and_eq_true, decide_eq_true_eq, decide_eq_true_eq] at h
  have hup : c.toNat ≤ '9'.toNat := h.2
  unfold digitValue
  simp only [Char.reduceToNat] at hup ⊢
  omega

theorem natOfDigits_lt {cs : List Char} (h : AllDigits cs) : natOfDigits cs < 10 ^ cs.length := by
  induction cs with
  | nil => decide
  | cons c cs ih =>
    have hc := digitValue_lt (h c List.mem_cons_self)
    have hcs := ih fun d hd => h d (List.mem_cons_of_mem c hd)
    have hmul : digitValue c * 10 ^ cs.length ≤ 9 * 10 ^ cs.length := Nat.mul_le_mul_right _ (by omega)
    rw [natOfDigits_cons, List.length_cons, Nat.pow_succ]
    omega

theorem head_digitChars {n : Nat} (hn : 0 < n) : (digitChars n).head? ≠ some '0' := by
  intro hhead
  obtain ⟨cs, hcs⟩ := List.head?_eq_some_iff.mp hhead
  have hval := natOfDigits_digitChars n
  have hall := allDigits_digitChars n
  rw [hcs] at hval hall
  have hlt := natOfDigits_lt fun d hd => hall d (List.mem_cons_of_mem _ hd)
  have hzero : digitValue '0' = 0 := rfl
  rw [natOfDigits_cons, hzero, Nat.zero_mul, Nat.zero_add] at hval
  rcases Nat.eq_zero_or_pos cs.length with h0 | hpos
  · rw [h0, hval] at hlt
    omega
  · have hle := length_digitChars_le hpos (hval ▸ hlt)
    rw [hcs, List.length_cons] at hle
    omega

/-! ## Ends -/

theorem takeWhile_digits {ds rest : List Char} (h : AllDigits ds) (hr : NoDigit rest) :
    (ds ++ rest).takeWhile isDigit = ds := by
  rw [List.takeWhile_append_of_pos h]
  cases rest with
  | nil => exact List.append_nil ds
  | cons c rest =>
    have hc : isDigit c = false := hr c rfl
    rw [List.takeWhile_cons, hc]
    exact List.append_nil ds

theorem dropWhile_digits {ds rest : List Char} (h : AllDigits ds) (hr : NoDigit rest) :
    (ds ++ rest).dropWhile isDigit = rest := by
  rw [List.dropWhile_append_of_pos h]
  cases rest with
  | nil => rfl
  | cons c rest =>
    have hc : isDigit c = false := hr c rfl
    rw [List.dropWhile_cons, hc]
    rfl

end PriceBoard.Decimal
