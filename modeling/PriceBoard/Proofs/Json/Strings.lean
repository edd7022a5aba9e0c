import Mathlib.Tactic.Common
import PriceBoard.Json.Strings

/-!
# Strings are read back

`decode` undoes `encode`, one character at a time: a short escape, the four
digits of a control character, or the character itself.
-/

namespace PriceBoard.Json

variable (read rest : List Char)

/-- The characters written as they are. -/
def IsPlain (c : Char) : Prop := c ≠ '"' ∧ c ≠ '\\' ∧ ¬ c.toNat < 0x20

theorem decodeFrom_plain {c : Char} (h : IsPlain c) :
    decodeFrom read (c :: rest) = decodeFrom (c :: read) rest := by
  obtain ⟨hquote, hslash, hcontrol⟩ := h
  conv_lhs => unfold decodeFrom
  split
  · rename_i heq
    cases heq
  · rename_i heq
    exact absurd (List.cons.inj heq).1 hquote
  · rename_i heq
    exact absurd (List.cons.inj heq).1 hslash
  · rename_i heq
    exact absurd (List.cons.inj heq).1 hslash
  · rename_i heq
    exact absurd (List.cons.inj heq).1 hslash
  · rename_i heq
    exact absurd (List.cons.inj heq).1 hslash
  · rename_i heq
    cases heq
    exact if_neg hcontrol

theorem decodeFrom_short {c e : Char} (hu : c ≠ 'u') (h : shortEscape? c = some e) :
    decodeFrom read ('\\' :: c :: rest) = decodeFrom (e :: read) rest := by
  conv_lhs => unfold decodeFrom
  split
  · rename_i heq
    cases heq
  · rename_i heq
    exact absurd (List.cons.inj heq).1 (by decide)
  · rename_i heq
    exact absurd (List.cons.inj (List.cons.inj heq).2).1 hu
  · rename_i heq
    exact absurd (List.cons.inj (List.cons.inj heq).2).1 hu
  · rename_i heq
    cases heq
  · rename_i heq
    cases heq
    rw [h]
  · rename_i hne heq
    cases heq
    exact (hne c rest rfl rfl).elim

theorem hexNumber_control :
    ∀ n : Fin 0x20, hexNumber? '0' '0' (hexDigit (n.val / 16)) (hexDigit n.val) = some n.val := by
  decide

theorem decodeFrom_control {c : Char} (h : c.toNat < 0x20) :
    decodeFrom read ('\\' :: 'u' :: '0' :: '0' :: hexDigit (c.toNat / 16) :: hexDigit c.toNat :: rest) =
      decodeFrom (c :: read) rest := by
  have hhex := hexNumber_control ⟨c.toNat, h⟩
  have hlead : isLeadingHalf c.toNat = false := by
    unfold isLeadingHalf
    rw [decide_eq_false (by omega), Bool.false_and]
  have htrail : isTrailingHalf c.toNat = false := by
    unfold isTrailingHalf
    rw [decide_eq_false (by omega), Bool.false_and]
  dsimp only at hhex
  conv_lhs => unfold decodeFrom
  simp only [hhex, hlead, htrail, Char.ofNat_toNat, Bool.false_eq_true, if_false]

theorem decodeFrom_encodeChar (c : Char) :
    decodeFrom read (encodeChar c ++ rest) = decodeFrom (c :: read) rest := by
  unfold encodeChar
  split_ifs with quote slash backspace feed newline carriage tab control
  · rw [quote]
    exact decodeFrom_short read rest (by decide) rfl
  · rw [slash]
    exact decodeFrom_short read rest (by decide) rfl
  · rw [backspace]
    exact decodeFrom_short read rest (by decide) rfl
  · rw [feed]
    exact decodeFrom_short read rest (by decide) rfl
  · rw [newline]
    exact decodeFrom_short read rest (by decide) rfl
  · rw [carriage]
    exact decodeFrom_short read rest (by decide) rfl
  · rw [tab]
    exact decodeFrom_short read rest (by decide) rfl
  · exact decodeFrom_control read rest control
  · exact decodeFrom_plain read rest ⟨quote, slash, control⟩

theorem decodeFrom_flatMap (s : List Char) :
    decodeFrom read (s.flatMap encodeChar ++ '"' :: rest) = .ok (read.reverse ++ s, rest) := by
  induction s generalizing read with
  | nil =>
    rw [List.flatMap_nil, List.nil_append, List.append_nil]
    unfold decodeFrom
    rfl
  | cons c s ih =>
    rw [List.flatMap_cons, List.append_assoc, decodeFrom_encodeChar, ih, List.reverse_cons, List.append_assoc]
    rfl

theorem decode_flatMap (s : List Char) : decode (s.flatMap encodeChar ++ '"' :: rest) = .ok (s, rest) :=
  decodeFrom_flatMap [] rest s

theorem encodeChar_plain {c : Char} (h : IsPlain c) : encodeChar c = [c] := by
  obtain ⟨hquote, hslash, hcontrol⟩ := h
  have hne : ∀ d : Char, d.toNat < 0x20 → c ≠ d := by
    rintro d hd rfl
    exact hcontrol hd
  unfold encodeChar
  rw [if_neg hquote, if_neg hslash, if_neg (hne _ (by decide)), if_neg (hne _ (by decide)),
    if_neg (hne _ (by decide)), if_neg (hne _ (by decide)), if_neg (hne _ (by decide)), if_neg hcontrol]

theorem decode_plain {s : List Char} (h : ∀ c ∈ s, IsPlain c) : decode (s ++ '"' :: rest) = .ok (s, rest) := by
  have hsame : s.flatMap encodeChar = s := by
    induction s with
    | nil => rfl
    | cons c s ih =>
      rw [List.flatMap_cons, encodeChar_plain (h c List.mem_cons_self), List.singleton_append,
        ih fun d hd => h d (List.mem_cons_of_mem c hd)]
  rw [← decode_flatMap, hsame]

end PriceBoard.Json
