import PriceBoard.Subscription.Registry

/-!
# Handles

The ids of a registry rise from entry to entry and lie below the next one, so
that an id names one registration at most.
-/

namespace PriceBoard

namespace Registry

variable {σ : Type}

structure Sound (r : Registry σ) : Prop where
  rising : r.entries.Pairwise fun d e => d.id < e.id
  below : ∀ e ∈ r.entries, e.id < r.nextId

theorem sound_empty : Sound (∅ : Registry σ) := ⟨.nil, nofun⟩

theorem Sound.register {r : Registry σ} (h : r.Sound) (a : σ) (f : Filter) : (r.register a f).2.Sound where
  rising := by
    refine List.pairwise_append.mpr ⟨h.rising, List.pairwise_singleton .., fun d hd e he => ?_⟩
    rw [List.mem_singleton.mp he]
    exact h.below d hd
  below e he := by
    rcases List.mem_append.mp he with he | he
    · exact Nat.lt_succ_of_lt (h.below e he)
    · rw [List.mem_singleton.mp he]
      exact Nat.lt_succ_self _

theorem Sound.sublist {r : Registry σ} (h : r.Sound) {entries : List (Registration σ)}
    (hs : entries.Sublist r.entries) : Sound ⟨entries, r.nextId⟩ :=
  ⟨h.rising.sublist hs, fun e he => h.below e (hs.subset he)⟩

theorem Sound.unregister {r : Registry σ} (h : r.Sound) (id : SubscriptionId) : (r.unregister id).2.Sound :=
  h.sublist List.eraseP_sublist

theorem Sound.clear {r : Registry σ} (h : r.Sound) : r.clear.2.Sound := h.sublist (List.nil_sublist _)

/-! ## What an id names -/

theorem eraseP_id : ∀ {l : List (Registration σ)}, (l.Pairwise fun d e => d.id < e.id) →
    ∀ id, l.eraseP (·.id == id) = l.filter (·.id != id)
  | [], _, _ => rfl
  | e :: l, h, id => by
    obtain ⟨he, hl⟩ := List.pairwise_cons.mp h
    by_cases hi : e.id = id
    · have hne : ∀ d ∈ l, (d.id != id) = true := fun d hd =>
        bne_iff_ne.mpr (Nat.ne_of_gt (hi ▸ he d hd))
      rw [List.eraseP_cons_of_pos (by simpa using hi), List.filter_cons_of_neg (by simpa using hi),
        List.filter_eq_self.mpr hne]
    · rw [List.eraseP_cons_of_neg (by simpa using hi), List.filter_cons_of_pos (by simpa using hi),
        eraseP_id hl id]

theorem Sound.entries_unregister {r : Registry σ} (h : r.Sound) (id : SubscriptionId) :
    (r.unregister id).2.entries = r.entries.filter (·.id != id) := eraseP_id h.rising id

end Registry

end PriceBoard
