import PriceBoard.Proofs.Rate.Draft
import PriceBoard.Proofs.Rate.Validity

/-!
# Rates over the wire

`wire_roundtrip`: a rate with finite prices is read back from its text, whatever
text is accepted reads as such a rate, and a rate with another price is written
with a null that is not accepted.
-/

namespace PriceBoard

open Json (Follows IsPlain ok_bind bind_eq_ok)

/-! ## Members -/

namespace RateField

theorem isPlain_name (f : RateField) : ∀ c ∈ f.name.toList, IsPlain c := by
  have hall : (f.name.toList.all fun c => decide (c ≠ '"' ∧ c ≠ '\\' ∧ ¬ c.toNat < 0x20)) = true := by
    cases f <;> decide
  intro c hc
  have hplain := of_decide_eq_true (List.all_eq_true.mp hall c hc)
  exact hplain

theorem ofName?_name (f : RateField) : ofName? f.name.toList = some f := by
  cases f <;> decide

variable (r : Rate Float)

/-- The members that follow another one. -/
def tailText (fs : List RateField) : List Char := fs.flatMap fun f => ',' :: f.memberText r

theorem intersperse_memberText (f : RateField) (fs : List RateField) :
    (List.intersperse [','] ((f :: fs).map (·.memberText r))).flatten = f.memberText r ++ tailText r fs := by
  induction fs generalizing f with
  | nil => simp [tailText]
  | cons g fs ih =>
    rw [List.map_cons, List.map_cons, List.intersperse_cons_cons, ← List.map_cons, List.flatten_cons,
      List.flatten_cons, ih]
    rfl

theorem length_le_tailText (fs : List RateField) : fs.length ≤ (tailText r fs).length := by
  induction fs with
  | nil => exact Nat.zero_le _
  | cons f fs ih =>
    unfold tailText at ih ⊢
    rw [List.flatMap_cons, List.length_append, List.length_cons, List.length_cons]
    omega

theorem follows_tailText (fs : List RateField) {rest : List Char} (hr : Follows rest) :
    Follows (tailText r fs ++ rest) := by
  cases fs with
  | nil => exact hr
  | cons f fs => exact ⟨',', _, rfl, .inl rfl⟩

end RateField

namespace RateDraft

variable {r : Rate Float} {d : RateDraft} {f : RateField} {fuel : Nat} {rest : List Char}

theorem memberText_append (r : Rate Float) (f : RateField) (rest : List Char) :
    f.memberText r ++ rest = '"' :: (f.name.toList ++ '"' :: ':' :: (f.valueText r ++ rest)) := by
  unfold RateField.memberText
  rw [List.append_assoc, List.cons_append, List.cons_append, List.cons_append]

theorem nextMember_first (r : Rate Float) (f : RateField) (rest : List Char) :
    Json.nextMember true (f.memberText r ++ rest) = .ok (.inl (f.name.toList, ':' :: (f.valueText r ++ rest))) := by
  have hdecode := Json.decode_plain (':' :: (f.valueText r ++ rest)) f.isPlain_name
  rw [memberText_append]
  change (Sum.inl <$> Json.decode _) = _
  rw [hdecode]
  rfl

theorem nextMember_next (r : Rate Float) (f : RateField) (rest : List Char) :
    Json.nextMember false (',' :: f.memberText r ++ rest) =
      .ok (.inl (f.name.toList, ':' :: (f.valueText r ++ rest))) := by
  have hdecode := Json.decode_plain (':' :: (f.valueText r ++ rest)) f.isPlain_name
  rw [List.cons_append, memberText_append]
  change (Sum.inl <$> Json.decode _) = _
  rw [hdecode]
  rfl

theorem takeMembers_named {first : Bool} {cs : List Char} (hd : d.has f = false)
    (hnext : Json.nextMember first cs = .ok (.inl (f.name.toList, ':' :: rest))) :
    takeMembers (fuel + 1) first d cs = d.take rest f >>= fun p => takeMembers fuel false p.1 p.2 := by
  have hcolon : Json.takeColon (':' :: rest) = .ok rest := rfl
  conv_lhs => unfold takeMembers
  rw [hnext, ok_bind]
  dsimp only
  rw [RateField.ofName?_name]
  dsimp only
  rw [hd, if_neg Bool.false_ne_true, hcolon]
  rfl

theorem takeMembers_closing (d : RateDraft) (rest : List Char) :
    takeMembers (fuel + 1) false d ('\x7d' :: rest) = .ok (d, '\x7d' :: rest) := rfl

theorem takeMembers_tailText (fs : List RateField) (hr : Follows rest) (hnodup : fs.Nodup)
    (hnew : ∀ f ∈ fs, d.has f = false) (h : ∀ f ∈ fs, f.Readable r) :
    takeMembers (fs.length + fuel) false d (RateField.tailText r fs ++ rest) =
      takeMembers fuel false (fs.foldl (put r) d) rest := by
  induction fs generalizing d with
  | nil => rw [List.length_nil, Nat.zero_add]; rfl
  | cons f fs ih =>
    obtain ⟨hf, hnodup⟩ := List.nodup_cons.mp hnodup
    have hafter : ∀ g ∈ fs, (d.put r f).has g = false := by
      intro g hg
      have hne : f ≠ g := by
        rintro rfl
        exact hf hg
      rw [has_put, hnew g (List.mem_cons_of_mem f hg), Bool.or_false]
      exact beq_false_of_ne hne
    have htext : RateField.tailText r (f :: fs) ++ rest =
        ',' :: f.memberText r ++ (RateField.tailText r fs ++ rest) := by
      unfold RateField.tailText
      rw [List.flatMap_cons, List.append_assoc]
    have hfuel : (f :: fs).length + fuel = (fs.length + fuel) + 1 := by
      rw [List.length_cons]
      omega
    rw [htext, hfuel, takeMembers_named (hnew f List.mem_cons_self) (nextMember_next r f _),
      take_valueText d (h f List.mem_cons_self) (RateField.follows_tailText r fs hr), ok_bind]
    exact ih hnodup hafter fun g hg => h g (List.mem_cons_of_mem f hg)

theorem has_foldl (fs : List RateField) (g : RateField) :
    (fs.foldl (put r) d).has g = (fs.contains g || d.has g) := by
  induction fs generalizing d with
  | nil => rfl
  | cons f fs ih =>
    rw [List.foldl_cons, ih, has_put, List.contains_cons, BEq.comm (a := g), Bool.or_assoc, Bool.or_left_comm]

theorem Shows.foldl {g : RateField} (h : d.Shows r g) (fs : List RateField) :
    (fs.foldl (RateDraft.put r) d).Shows r g := by
  induction fs generalizing d with
  | nil => exact h
  | cons f fs ih => exact ih (h.put f)

theorem shows_foldl {fs : List RateField} {g : RateField} (hg : g ∈ fs) : (fs.foldl (put r) d).Shows r g := by
  induction fs generalizing d with
  | nil => cases hg
  | cons f fs ih =>
    rcases List.mem_cons.mp hg with rfl | hg
    · exact Shows.foldl (shows_put r d g) fs
    · exact ih hg

end RateDraft

/-! ## What is written is read -/

theorem RateField.mem_all (f : RateField) : f ∈ all := by
  cases f <;> decide

namespace Rate

variable {r : Rate Float}

/-- The rate as an object whose members stand in the order `fs`. -/
def objectText (r : Rate Float) (fs : List RateField) : List Char :=
  '\x7b' :: (List.intersperse [','] (fs.map (·.memberText r))).flatten ++ ['\x7d']

theorem objectText_cons (r : Rate Float) (f : RateField) (fs : List RateField) :
    r.objectText (f :: fs) = '\x7b' :: (f.memberText r ++ (RateField.tailText r fs ++ ['\x7d'])) := by
  unfold objectText
  rw [RateField.intersperse_memberText, List.cons_append, List.append_assoc]

theorem ofWire_object (cs : List Char) :
    ofWire ('\x7b' :: cs) = Rate.takeObject cs >>= fun p => Json.takeEnd p.2 >>= fun _ => .ok p.1 := rfl

/-- The first member is read, and there is fuel for the others. -/
theorem takeMembers_objectText {f : RateField} (h : f.Readable r) (fs : List RateField) {cs : List Char}
    (hcs : f.memberText r ++ (RateField.tailText r fs ++ ['\x7d']) = cs) :
    ∃ fuel, RateDraft.takeMembers (cs.length + 1) true {} cs =
      RateDraft.takeMembers (fs.length + (fuel + 1)) false (({} : RateDraft).put r f)
        (RateField.tailText r fs ++ ['\x7d']) := by
  -- every member takes up characters, so the fuel outlasts them
  have hlen := RateField.length_le_tailText r fs
  have hclosing : Follows ['\x7d'] := ⟨'\x7d', [], rfl, .inr (.inl rfl)⟩
  have hfuel : cs.length = fs.length + (cs.length - fs.length - 1 + 1) := by
    rw [← hcs, List.length_append, List.length_append, List.length_singleton]
    omega
  refine ⟨cs.length - fs.length - 1, ?_⟩
  rw [← hfuel, RateDraft.takeMembers_named (by cases f <;> rfl) (hcs ▸ RateDraft.nextMember_first r f _),
    RateDraft.take_valueText _ h (RateField.follows_tailText r fs hclosing), ok_bind]

theorem ofWire_objectText (h : r.Writable) {fs : List RateField} (hfs : fs.Perm RateField.all) :
    ofWire (r.objectText fs) = .ok r := by
  have hnodup : fs.Nodup := hfs.nodup_iff.mpr (by decide)
  have hmem : ∀ f, f ∈ fs := fun f => hfs.mem_iff.mpr f.mem_all
  cases fs with
  | nil => exact absurd (hmem .key) List.not_mem_nil
  | cons f fs =>
    obtain ⟨hf, hnodup⟩ := List.nodup_cons.mp hnodup
    have hnew : ∀ g ∈ fs, (({} : RateDraft).put r f).has g = false :=
      fun g hg => RateDraft.has_put_empty r (ne_of_mem_of_not_mem hg hf).symm
    obtain ⟨cs, hcs⟩ : ∃ cs, f.memberText r ++ (RateField.tailText r fs ++ ['\x7d']) = cs := ⟨_, rfl⟩
    obtain ⟨fuel, hfuel⟩ := takeMembers_objectText (h.readable f) fs hcs
    have hfinish : ((f :: fs).foldl (RateDraft.put r) {}).finish = .ok r :=
      RateDraft.finish_eq fun g => RateDraft.shows_foldl (hmem g)
    rw [List.foldl_cons] at hfinish
    rw [objectText_cons, hcs, ofWire_object]
    unfold takeObject
    rw [hfuel,
      RateDraft.takeMembers_tailText fs ⟨'\x7d', [], rfl, .inr (.inl rfl)⟩ hnodup hnew fun g _ => h.readable g,
      RateDraft.takeMembers_closing, ok_bind]
    dsimp only
    rw [hfinish]
    rfl

theorem ofWire_wire (h : r.Writable) : ofWire r.wire = .ok r := ofWire_objectText h (List.Perm.refl _)

end Rate

/-! ## What is read can be written -/

namespace RateDraft

variable {d d' : RateDraft} {cs rest : List Char}

theorem Carried.takeMembers {fuel : Nat} {first : Bool} (h : d.Carried)
    (ht : RateDraft.takeMembers fuel first d cs = .ok (d', rest)) : d'.Carried := by
  induction fuel generalizing first d cs with
  | zero => cases ht
  | succ fuel ih =>
    unfold RateDraft.takeMembers at ht
    obtain ⟨next, -, ht⟩ := bind_eq_ok ht
    cases next with
    | inr after =>
      cases ht
      exact h
    | inl member =>
      dsimp only at ht
      split at ht
      · split at ht
        · cases ht
        · obtain ⟨_, -, ht⟩ := bind_eq_ok ht
          obtain ⟨⟨d₁, cs₁⟩, htake, ht⟩ := bind_eq_ok ht
          exact ih (h.take htake) ht
      · obtain ⟨_, -, ht⟩ := bind_eq_ok ht
        obtain ⟨_, -, ht⟩ := bind_eq_ok ht
        exact ih h ht

theorem Carried.takeItems {taken : Nat} {fs : List RateField} (h : d.Carried)
    (ht : RateDraft.takeItems taken fs d cs = .ok (d', rest)) : d'.Carried := by
  induction fs generalizing taken d cs with
  | nil =>
    cases ht
    exact h
  | cons f fs ih =>
    unfold RateDraft.takeItems at ht
    obtain ⟨next, -, ht⟩ := bind_eq_ok ht
    cases next with
    | none => cases ht
    | some after =>
      obtain ⟨⟨d₁, cs₁⟩, htake, ht⟩ := bind_eq_ok ht
      exact ih (h.take htake) ht

end RateDraft

namespace Rate

theorem writable_of_takeObject {cs rest : List Char} {r : Rate Float} (h : takeObject cs = .ok (r, rest)) :
    r.Writable := by
  unfold takeObject at h
  obtain ⟨⟨d, _⟩, hd, h⟩ := bind_eq_ok h
  obtain ⟨s, hs, h⟩ := bind_eq_ok h
  obtain ⟨_, -, h⟩ := bind_eq_ok h
  obtain ⟨rfl, -⟩ := Prod.mk.inj (Except.ok.inj h)
  exact (RateDraft.carried_empty.takeMembers hd).finish hs

theorem writable_of_takeArray {cs rest : List Char} {r : Rate Float} (h : takeArray cs = .ok (r, rest)) :
    r.Writable := by
  unfold takeArray at h
  obtain ⟨⟨d, _⟩, hd, h⟩ := bind_eq_ok h
  obtain ⟨s, hs, h⟩ := bind_eq_ok h
  obtain ⟨_, -, h⟩ := bind_eq_ok h
  obtain ⟨rfl, -⟩ := Prod.mk.inj (Except.ok.inj h)
  exact (RateDraft.carried_empty.takeItems hd).finish hs

theorem writable_of_ofWire {text : List Char} {r : Rate Float} (h : ofWire text = .ok r) : r.Writable := by
  have hkind : ∀ cs : List Char, ∀ p : Rate Float × List Char, Json.wrongKind "struct Rate" cs ≠ .ok p := by
    intro cs p hcs
    unfold Json.wrongKind at hcs
    split at hcs <;> cases hcs
  unfold ofWire at h
  dsimp only at h
  split at h
  · obtain ⟨⟨s, rest⟩, hs, h⟩ := bind_eq_ok h
    obtain ⟨_, -, h⟩ := bind_eq_ok h
    obtain rfl := Except.ok.inj h
    exact writable_of_takeObject hs
  · obtain ⟨⟨s, rest⟩, hs, h⟩ := bind_eq_ok h
    obtain ⟨_, -, h⟩ := bind_eq_ok h
    obtain rfl := Except.ok.inj h
    exact writable_of_takeArray hs
  · obtain ⟨p, hp, -⟩ := bind_eq_ok h
    exact absurd hp (hkind _ p)

end Rate

/-! ## Prices without a value -/

namespace RateField

variable {r : Rate Float} {f : RateField} {x : Float}

theorem valueText_eq_null (h : f.price? r = some x) (hx : ¬ x.isFinite) : f.valueText r = ['n', 'u', 'l', 'l'] := by
  cases f with
  | bid | ask | mid =>
    obtain rfl := Option.some.inj h
    exact Json.realText_eq_null hx
  | key | source | asOf | lastUpdated | lastUpdatedBy | isActive => cases h

theorem exists_first (h : f.price? r = some x) (hx : ¬ x.isFinite) :
    ∃ before g after y, all = .key :: (before ++ g :: after) ∧ (∀ e ∈ before, e.Readable r) ∧
      g.price? r = some y ∧ ¬ y.isFinite := by
  by_cases hbid : r.bid.isFinite
  · by_cases hask : r.ask.isFinite
    · refine ⟨[.bid, .ask], .mid, _, r.mid, rfl, ?_, rfl, ?_⟩
      · exact List.forall_mem_cons.mpr ⟨hbid, List.forall_mem_singleton.mpr hask⟩
      · intro hmid
        cases f with
        | bid => exact hx (Option.some.inj h ▸ hbid)
        | ask => exact hx (Option.some.inj h ▸ hask)
        | mid => exact hx (Option.some.inj h ▸ hmid)
        | key | source | asOf | lastUpdated | lastUpdatedBy | isActive => cases h
    · exact ⟨[.bid], .ask, _, r.ask, rfl, List.forall_mem_singleton.mpr hbid, rfl, hask⟩
  · exact ⟨[], .bid, _, r.bid, rfl, nofun, rfl, hbid⟩

end RateField

namespace Rate

variable {r : Rate Float} {f : RateField} {x : Float}

theorem takeMembers_null {d : RateDraft} {before after : List RateField} {rest : List Char} (fuel : Nat)
    (hnodup : (before ++ f :: after).Nodup) (hnew : ∀ g ∈ before ++ f :: after, d.has g = false)
    (hbefore : ∀ g ∈ before, g.Readable r) (h : f.price? r = some x) (hx : ¬ x.isFinite) :
    RateDraft.takeMembers ((before ++ f :: after).length + fuel) false d
      (RateField.tailText r (before ++ f :: after) ++ rest) = .error (.shape (.wrongKind .null "f64")) := by
  obtain ⟨hnodup, -, hdisjoint⟩ := List.nodup_append.mp hnodup
  have htext : RateField.tailText r (before ++ f :: after) ++ rest =
      RateField.tailText r before ++ (',' :: f.memberText r ++ (RateField.tailText r after ++ rest)) := by
    unfold RateField.tailText
    rw [List.flatMap_append, List.flatMap_cons, List.append_assoc, List.append_assoc]
  have hfuel : (before ++ f :: after).length + fuel = before.length + (after.length + fuel + 1) := by
    rw [List.length_append, List.length_cons]
    omega
  have hhas : (before.foldl (.put r) d).has f = false := by
    have hout : f ∉ before := fun hf => hdisjoint f hf f List.mem_cons_self rfl
    rw [RateDraft.has_foldl, hnew f (List.mem_append_right before List.mem_cons_self), Bool.or_false]
    simpa using hout
  have hcomma : Follows (',' :: f.memberText r ++ (RateField.tailText r after ++ rest)) := ⟨',', _, rfl, .inl rfl⟩
  rw [htext, hfuel, RateDraft.takeMembers_tailText before hcomma hnodup
      (fun g hg => hnew g (List.mem_append_left _ hg)) hbefore,
    RateDraft.takeMembers_named hhas (RateDraft.nextMember_next r f _), RateDraft.take_null _ h hx]
  rfl

theorem ofWire_null (h : f.price? r = some x) (hx : ¬ x.isFinite) :
    ofWire r.wire = .error (.shape (.wrongKind .null "f64")) := by
  obtain ⟨before, g, after, y, hall, hbefore, hg, hy⟩ := RateField.exists_first h hx
  have hnodup : (RateField.key :: (before ++ g :: after)).Nodup := hall ▸ (by decide)
  obtain ⟨hkey, hnodup⟩ := List.nodup_cons.mp hnodup
  have hnew : ∀ e ∈ before ++ g :: after, (({} : RateDraft).put r .key).has e = false :=
    fun e he => RateDraft.has_put_empty r (ne_of_mem_of_not_mem he hkey).symm
  have htext : r.wire = r.objectText RateField.all := rfl
  -- the key stands first and is always read
  obtain ⟨cs, hcs⟩ : ∃ cs,
      RateField.key.memberText r ++ (RateField.tailText r (before ++ g :: after) ++ ['\x7d']) = cs := ⟨_, rfl⟩
  obtain ⟨fuel, hfuel⟩ := takeMembers_objectText (r := r) (f := .key) trivial (before ++ g :: after) hcs
  rw [htext, hall, objectText_cons, hcs, ofWire_object]
  unfold takeObject
  rw [hfuel, takeMembers_null (fuel + 1) hnodup hnew hbefore hg hy]
  rfl

theorem null_infix_wire (h : f.price? r = some x) (hx : ¬ x.isFinite) :
    '"' :: f.name.toList ++ '"' :: ':' :: "null".toList <:+: r.wire := by
  have hmember : '"' :: f.name.toList ++ '"' :: ':' :: "null".toList = f.memberText r := by
    unfold RateField.memberText
    rw [RateField.valueText_eq_null h hx]
    rfl
  have hlater : f ∈ RateField.all.tail := by
    cases f with
    | bid | ask | mid => decide
    | key | source | asOf | lastUpdated | lastUpdatedBy | isActive => cases h
  obtain ⟨before, after, hall⟩ := List.append_of_mem hlater
  have htext : r.wire = r.objectText (.key :: RateField.all.tail) := rfl
  rw [hmember, htext, objectText_cons, hall]
  refine ⟨'\x7b' :: RateField.key.memberText r ++ RateField.tailText r before ++ [','],
    RateField.tailText r after ++ ['\x7d'], ?_⟩
  simp [RateField.tailText]

/-! ## The round trip -/

/-- What is written is read, what is read is written the same from then on, and a
price that is no number is a null that is not read. -/
theorem wire_roundtrip :
    (∀ r : Rate Float, r.Writable → ofWire r.wire = .ok r) ∧
    (∀ r : Rate Float, r.IsValid → r.asOf.Representable → r.lastUpdated.Representable → ofWire r.wire = .ok r) ∧
    (∀ text r, ofWire text = .ok r → ofWire r.wire = .ok r ∧ (ofWire r.wire).map wire = .ok r.wire) ∧
    (∀ (r : Rate Float) (f : RateField) (x : Float), f.price? r = some x → ¬ x.isFinite →
      '"' :: f.name.toList ++ '"' :: ':' :: "null".toList <:+: r.wire ∧
      ofWire r.wire = .error (.shape (.wrongKind .null "f64"))) := by
  refine ⟨fun r => ofWire_wire, ?_, ?_, fun r f x h hx => ⟨null_infix_wire h hx, ofWire_null h hx⟩⟩
  · intro r hvalid hasOf hlastUpdated
    have hprices := hvalid.wellFormed
    exact ofWire_wire ⟨hprices.bid, hprices.ask, hprices.mid, hasOf, hlastUpdated⟩
  · intro text r h
    have hread := ofWire_wire (writable_of_ofWire h)
    rw [hread]
    exact ⟨rfl, rfl⟩

/-- Escapes, a negative zero, a leap second and a year before the first. -/
def oddRate : Rate Float where
  key := "\"\\\x01😀"
  bid := -0.0
  ask := 1.5
  mid := 0.25
  source := "\n"
  asOf := ⟨1435708799, 1250000000⟩
  lastUpdated := ⟨-62200000000, 7⟩
  lastUpdatedBy := ""
  isActive := true

/-- Members out of order, one too many, blanks, an exponent, an escape and an offset. -/
def looseText : List Char :=
  "\x7b\"bid\": -0, \"note\": [1, \x7b\"x\": null\x7d], \"ask\":150e-2,".toList ++
  "\"mid\":0.250, \"is_active\": false, \"source\":\"\\u0041\",".toList ++
  "\"instrument_key\":\"a\", \"last_updated_by\": \"\", \"as_of\":".toList ++
  "\"2015-07-01 01:59:60.25+02:00\", \"last_updated\":".toList ++
  "\"+12345-01-01T00:00:00z\" \x7d".toList

def canonicalText : List Char :=
  "\x7b\"instrument_key\":\"a\",\"bid\":-0.0,\"ask\":1.5,".toList ++
  "\"mid\":0.25,\"source\":\"A\",\"as_of\":".toList ++
  "\"2015-06-30T23:59:60.250Z\",\"last_updated\":".toList ++
  "\"+12345-01-01T00:00:00Z\",\"last_updated_by\":\"\",\"is_active\":false\x7d".toList

theorem wire_roundtrip_oddRate :
    (oddRate.Writable ∧ ofWire oddRate.wire = .ok oddRate) ∧
    (oddRate.IsValid ∧ oddRate.asOf.Representable ∧ oddRate.lastUpdated.Representable ∧
      ofWire oddRate.wire = .ok oddRate) ∧
    (∃ r, ofWire looseText = .ok r ∧ r.wire = canonicalText ∧ ofWire canonicalText = .ok r ∧
      (ofWire canonicalText).map wire = .ok canonicalText) ∧
    (∃ r x, RateField.price? r .ask = some x ∧ ¬ x.isFinite ∧ "\"ask\":null".toList <:+: r.wire ∧
      ofWire r.wire = .error (.shape (.wrongKind .null "f64"))) := by
  obtain ⟨hwritten, hvalid, hread, hnull⟩ := wire_roundtrip
  have hasOf : oddRate.asOf.Representable := ⟨by decide, by decide, by decide, by decide⟩
  have hlastUpdated : oddRate.lastUpdated.Representable := ⟨by decide, by decide, by decide, by decide⟩
  refine ⟨?_, ?_, ?_, ?_⟩
  · have h : oddRate.Writable := ⟨by decide +kernel, by decide +kernel, by decide +kernel, hasOf, hlastUpdated⟩
    exact ⟨h, hwritten oddRate h⟩
  · have h : oddRate.IsValid := by decide +kernel
    exact ⟨h, hasOf, hlastUpdated, hvalid oddRate h hasOf hlastUpdated⟩
  · have hmap : (ofWire looseText).toOption.map wire = some canonicalText := by decide +kernel
    cases hloose : ofWire looseText with
    | error e =>
      rw [hloose] at hmap
      cases hmap
    | ok r =>
      rw [hloose] at hmap
      have hwire : r.wire = canonicalText := Option.some.inj hmap
      have hagain := hread looseText r hloose
      rw [hwire] at hagain
      exact ⟨r, rfl, hwire, hagain⟩
  · have hask : RateField.price? { oddRate with ask := 1 / 0 } .ask = some (1 / 0) := rfl
    have hinfinite : ¬ (1 / 0 : Float).isFinite := by decide +kernel
    exact ⟨_, _, hask, hinfinite, hnull _ _ _ hask hinfinite⟩

end Rate

end PriceBoard
