import Mathlib.Data.List.Nodup
import Mathlib.Logic.Function.Basic
import PriceBoard.Proofs.Board.Rows
import PriceBoard.Screen.Timer

/-!
# Pulses and their timers

A pulse that has not ended has a timer that is going to post its last step, or
the last step waits in the mailbox; and a timer that was not cancelled is for a
pulse that has not ended. Every way in which rows, timers and messages change
keeps this (`Pulses`).
-/

namespace PriceBoard

open Function (update update_apply)

/-- The generation of a pulse that has not ended. -/
def Row.pulse? {π : Type} (row : Row π) : Option Nat := row.decay.map fun _ => row.generation

def Timer.pulse (t : Timer) : String × Nat := (t.key, t.generation)

variable {c : Curve} {row? : String → Option (Row Float)} {timers : List Timer} {queue rest : List Message}
  {key : String} {row row' : Row Float}

/-- What timers and messages there can be, given the rows. -/
structure Traces (c : Curve) (row? : String → Option (Row Float)) (timers : List Timer) (queue : List Message) :
    Prop where
  curve : ∀ k row, row? k = some row → row.curve = c
  current : ∀ k row e, row? k = some row → row.decay = some e → e.generation = row.generation ∧ e.step < c.steps
  ticking : ∀ t ∈ timers, t.curve = c ∧ t.next ≤ c.steps
  /-- Timers and steps are of pulses that a row has had. -/
  started : ∀ t ∈ timers, ∃ row, row? t.key = some row ∧ t.generation ≤ row.generation
  posted : ∀ k g n, .decayStep k g n ∈ queue → ∃ row, row? k = some row ∧ g ≤ row.generation
  /-- A timer has posted only the steps before its next one. -/
  ahead : ∀ t ∈ timers, ∀ n, .decayStep t.key t.generation n ∈ queue → n < t.next
  apart : (timers.map Timer.pulse).Nodup

structure Pulses (c : Curve) (row? : String → Option (Row Float)) (timers : List Timer) (queue : List Message) :
    Prop extends Traces c row? timers queue where
  ends : ∀ k g, (row? k).bind Row.pulse? = some g →
    (∃ t ∈ timers, t.key = k ∧ t.generation = g ∧ t.isCancelled = false) ∨ .decayStep k g c.steps ∈ queue
  needed : ∀ t ∈ timers, t.isCancelled = false → (row? t.key).bind Row.pulse? = some t.generation

namespace Pulses

theorem post (h : Pulses c row? timers queue) {m : Message} (hm : ∀ k g n, m ≠ .decayStep k g n) :
    Pulses c row? timers (queue ++ [m]) := by
  have hq : ∀ k g n, .decayStep k g n ∈ queue ++ [m] → .decayStep k g n ∈ queue := fun k g n hn =>
    (List.mem_append.mp hn).elim id fun hn => absurd (List.mem_singleton.mp hn).symm (hm k g n)
  exact { h with
    posted := fun k g n hn => h.posted k g n (hq k g n hn)
    ahead := fun t ht n hn => h.ahead t ht n (hq _ _ n hn)
    ends := fun k g hg => (h.ends k g hg).imp id (List.mem_append_left _) }

/-- The same when a message is taken. A decay step may go unless it is the end of a
pulse. -/
theorem drop {m : Message} (h : Pulses c row? timers (m :: rest))
    (hm : ∀ k g, m = .decayStep k g c.steps → (row? k).bind Row.pulse? ≠ some g) : Pulses c row? timers rest :=
  { h with
    posted := fun k g n hn => h.posted k g n (List.mem_cons_of_mem _ hn)
    ahead := fun t ht n hn => h.ahead t ht n (List.mem_cons_of_mem _ hn)
    ends := fun k g hg => (h.ends k g hg).imp id fun hn =>
      (List.mem_cons.mp hn).resolve_left fun e => hm k g e.symm hg }

/-! ## Timers -/

section
variable {before after : List Timer} {t : Timer}

theorem retire (h : Pulses c row? (before ++ t :: after) queue) (hc : t.isCancelled) :
    Pulses c row? (before ++ after) queue := by
  have hs : (before ++ after).Sublist (before ++ t :: after) :=
    List.Sublist.append_left (List.sublist_cons_self t after) before
  have hends : ∀ u ∈ before ++ t :: after, u.isCancelled = false → u ∈ before ++ after := fun u hu hn => by
    rcases List.mem_append.mp hu with hu | hu
    · exact List.mem_append_left _ hu
    · rcases List.mem_cons.mp hu with rfl | hu
      · rw [hc] at hn
        cases hn
      · exact List.mem_append_right _ hu
  exact { h with
    ticking := fun u hu => h.ticking u (hs.subset hu)
    started := fun u hu => h.started u (hs.subset hu)
    ahead := fun u hu => h.ahead u (hs.subset hu)
    apart := (hs.map _).nodup h.apart
    needed := fun u hu => h.needed u (hs.subset hu)
    ends := fun k g hg => (h.ends k g hg).imp (fun ⟨u, hu, hk, hgen, hn⟩ => ⟨u, hends u hu hn, hk, hgen, hn⟩) id }

theorem pulse_ne (h : Pulses c row? (before ++ t :: after) queue) {u : Timer}
    (hu : u ∈ before ++ after) : u.key = t.key → u.generation ≠ t.generation := by
  have hn := h.apart
  rw [List.map_append, List.map_cons, List.nodup_middle, ← List.map_append, List.nodup_cons] at hn
  intro hk hg
  exact hn.1 (List.mem_map.mpr ⟨u, hu, Prod.ext hk hg⟩)

theorem tick (h : Pulses c row? (before ++ t :: after) queue) :
    Pulses c row?
      (before ++ ((if t.next < c.steps then some { t with next := t.next + 1 } else none).toList ++ after))
      (queue ++ [t.message]) := by
  have htm : t ∈ before ++ t :: after := List.mem_append_right _ List.mem_cons_self
  obtain ⟨htc, htn⟩ := h.ticking t htm
  have hold : ∀ u ∈ before ++ after, u ∈ before ++ t :: after := fun u hu =>
    (List.Sublist.append_left (List.sublist_cons_self t after) before).subset hu
  generalize htimers :
    before ++ ((if t.next < c.steps then some { t with next := t.next + 1 } else none).toList ++ after) = left
  -- what is left: the others as they were, and the timer itself one step on
  have hmem : ∀ u, u ∈ left ↔ u ∈ before ++ after ∨ (u = { t with next := t.next + 1 } ∧ t.next < c.steps) := by
    intro u
    rw [← htimers]
    by_cases hlt : t.next < c.steps <;> grind
  have hq : ∀ k g n, .decayStep k g n ∈ queue ++ [t.message] →
      .decayStep k g n ∈ queue ∨ (k = t.key ∧ g = t.generation ∧ n = t.next) := fun k g n hn =>
    (List.mem_append.mp hn).imp id fun hn => by simpa [Timer.message] using hn
  refine { h with ticking := ?_, started := ?_, posted := ?_, ahead := ?_, apart := ?_, ends := ?_, needed := ?_ }
  · intro u hu
    rcases (hmem u).mp hu with hu | ⟨rfl, hlt⟩
    · exact h.ticking u (hold u hu)
    · exact ⟨htc, hlt⟩
  · intro u hu
    rcases (hmem u).mp hu with hu | ⟨rfl, _⟩
    · exact h.started u (hold u hu)
    · exact h.started t htm
  · intro k g n hn
    rcases hq k g n hn with hn | ⟨rfl, rfl, _⟩
    · exact h.posted k g n hn
    · exact h.started t htm
  · intro u hu n hn
    rcases (hmem u).mp hu with hu | ⟨rfl, _⟩
    · rcases hq _ _ n hn with hn | ⟨hk, hg, _⟩
      · exact h.ahead u (hold u hu) n hn
      · exact absurd hg (h.pulse_ne hu hk)
    · rcases hq _ _ n hn with hn | ⟨_, _, rfl⟩
      · exact Nat.lt_succ_of_lt (h.ahead t htm n hn)
      · exact Nat.lt_succ_self _
  · have hs : (left.map Timer.pulse).Sublist ((before ++ t :: after).map Timer.pulse) := by
      rw [← htimers]
      by_cases hlt : t.next < c.steps <;> simp [hlt, Timer.pulse]
    exact hs.nodup h.apart
  · intro k g hg
    rcases h.ends k g hg with ⟨u, hu, hk, hgen, hn⟩ | hn
    · by_cases hut : u = t
      · subst hut
        by_cases hlt : u.next < c.steps
        · exact .inl ⟨{ u with next := u.next + 1 }, (hmem _).mpr (.inr ⟨rfl, hlt⟩), hk, hgen, hn⟩
        · have hlast : u.next = c.steps := Nat.le_antisymm htn (Nat.le_of_not_lt hlt)
          exact .inr (List.mem_append_right _ (by simp [Timer.message, hk, hgen, hlast]))
      · exact .inl ⟨u, (hmem u).mpr (.inl (by simpa [hut] using hu)), hk, hgen, hn⟩
    · exact .inr (List.mem_append_left _ hn)
  · intro u hu hn
    rcases (hmem u).mp hu with hu | ⟨rfl, _⟩
    · exact h.needed u (hold u hu) hn
    · exact h.needed t htm hn

end

end Pulses

/-! ## Rows -/

theorem Traces.put (h : Traces c row? timers queue) (hc : row'.curve = c)
    (later : ∀ row, row? key = some row → row.generation ≤ row'.generation)
    (he : ∀ e, row'.decay = some e → e.generation = row'.generation ∧ e.step < c.steps) :
    Traces c (update row? key (some row')) timers queue := by
  have hkeep : ∀ {k : String} {g : Nat}, (∃ row, row? k = some row ∧ g ≤ row.generation) →
      ∃ r, update row? key (some row') k = some r ∧ g ≤ r.generation := by
    rintro k g ⟨r, hk, hle⟩
    by_cases hne : k = key
    · exact ⟨row', by rw [update_apply, if_pos hne], Nat.le_trans hle (later r (hne ▸ hk))⟩
    · exact ⟨r, by rwa [update_apply, if_neg hne], hle⟩
  refine { h with curve := ?_, current := ?_, started := ?_, posted := ?_ }
  · intro k r hk
    rw [update_apply] at hk
    split at hk
    · exact Option.some.inj hk ▸ hc
    · exact h.curve k r hk
  · intro k r e hk hre
    rw [update_apply] at hk
    split at hk
    · cases hk
      exact he e hre
    · exact h.current k r e hk hre
  · exact fun t ht => hkeep (h.started t ht)
  · exact fun k g n hn => hkeep (h.posted k g n hn)

theorem update_bind_pulse? (row? : String → Option (Row Float)) (key : String) (row' : Row Float) (k : String) :
    (update row? key (some row') k).bind Row.pulse? =
      if k = key then row'.pulse? else (row? k).bind Row.pulse? := by
  rw [update_apply]
  split <;> rfl

namespace Pulses

theorem replace (h : Pulses c row? timers queue) (hc : row'.curve = c)
    (later : ∀ row, row? key = some row → row.generation ≤ row'.generation)
    (he : ∀ e, row'.decay = some e → e.generation = row'.generation ∧ e.step < c.steps)
    (same : row'.pulse? = (row? key).bind Row.pulse?) : Pulses c (update row? key (some row')) timers queue := by
  have hp : ∀ k, (update row? key (some row') k).bind Row.pulse? = (row? k).bind Row.pulse? := fun k => by
    rw [update_bind_pulse?]
    split
    · rename_i hk
      rw [same, hk]
    · rfl
  exact { h.toTraces.put hc later he with
    ends := fun k g hg => h.ends k g (hp k ▸ hg)
    needed := fun t ht hn => (hp t.key).trans (h.needed t ht hn) }

/-- The pulse of a row ends, and what timers it still has are cancelled. -/
theorem quench (h : Pulses c row? timers queue) (key : String) (row' : Row Float) (hc : row'.curve = c)
    (later : ∀ row, row? key = some row → row.generation ≤ row'.generation) (hd : row'.decay = none)
    {f : Timer → Timer} (hf : ∀ t, f t = t ∨ f t = t.cancel) (others : ∀ t, t.key ≠ key → f t = t)
    (dark : ∀ t ∈ timers, t.key = key → (f t).isCancelled = true) :
    Pulses c (update row? key (some row')) (timers.map f) queue := by
  have hsame : ∀ t, (f t).key = t.key ∧ (f t).generation = t.generation ∧ (f t).curve = t.curve ∧
      (f t).next = t.next := fun t => by
    rcases hf t with e | e <;> rw [e] <;> exact ⟨rfl, rfl, rfl, rfl⟩
  have hput := h.toTraces.put hc later fun e he => by rw [hd] at he; cases he
  refine { hput with ticking := ?_, started := ?_, ahead := ?_, apart := ?_, ends := ?_, needed := ?_ }
  · rintro _ hft
    obtain ⟨t, ht, rfl⟩ := List.mem_map.mp hft
    obtain ⟨-, -, hcurve, hnext⟩ := hsame t
    exact hcurve ▸ hnext ▸ h.ticking t ht
  · rintro _ hft
    obtain ⟨t, ht, rfl⟩ := List.mem_map.mp hft
    obtain ⟨hk, hg, -⟩ := hsame t
    exact hk ▸ hg ▸ hput.started t ht
  · rintro _ hft n hn
    obtain ⟨t, ht, rfl⟩ := List.mem_map.mp hft
    obtain ⟨hk, hg, -, hnext⟩ := hsame t
    rw [hk, hg] at hn
    exact hnext ▸ h.ahead t ht n hn
  · have hp : (timers.map f).map Timer.pulse = timers.map Timer.pulse := by
      rw [List.map_map]
      exact List.map_congr_left fun t _ => Prod.ext (hsame t).1 (hsame t).2.1
    exact hp ▸ h.apart
  · intro k g hg
    rw [update_bind_pulse?] at hg
    split at hg
    · simp [Row.pulse?, hd] at hg
    · rename_i hk
      refine (h.ends k g hg).imp ?_ id
      rintro ⟨t, ht, hkt, hgt, hn⟩
      have hft : f t = t := others t fun e => hk (hkt.symm.trans e)
      exact ⟨t, List.mem_map.mpr ⟨t, ht, hft⟩, hkt, hgt, hn⟩
  · rintro _ hft hn
    obtain ⟨t, ht, rfl⟩ := List.mem_map.mp hft
    rw [update_bind_pulse?, (hsame t).1]
    by_cases hk : t.key = key
    · rw [dark t ht hk] at hn
      cases hn
    · rw [if_neg hk, (hsame t).2.1]
      rw [others t hk] at hn
      exact h.needed t ht hn

/-- A row that does not pulse begins a pulse of which nothing is on the way. -/
theorem ignite (h : Pulses c row? timers queue) (row' : Row Float) (hr : row? key = some row)
    (hd : row.decay = none) (hc : row'.curve = c) (later : row.generation ≤ row'.generation)
    {e : Decay Float} (hd' : row'.decay = some e) (he : e.generation = row'.generation ∧ e.step < c.steps)
    {t : Timer} (ht : t.pulse = (key, row'.generation)) (htc : t.curve = c ∧ t.next ≤ c.steps)
    (hn : t.isCancelled = false) (fresh : ∀ u ∈ timers, u.key = key → u.generation ≠ row'.generation)
    (unposted : ∀ n, .decayStep key row'.generation n ∉ queue) :
    Pulses c (update row? key (some row')) (timers ++ [t]) queue := by
  have hk : t.key = key := congrArg Prod.fst ht
  have hg : t.generation = row'.generation := congrArg Prod.snd ht
  have hput : Traces c (update row? key (some row')) timers queue :=
    h.toTraces.put hc (fun r hk => by rw [hr] at hk; exact Option.some.inj hk ▸ later)
      fun e' he' => by rw [hd'] at he'; exact Option.some.inj he' ▸ he
  have hself : (update row? key (some row') key).bind Row.pulse? = some row'.generation := by
    rw [update_bind_pulse?, if_pos rfl, Row.pulse?, hd']
    rfl
  have hmem : ∀ u ∈ timers ++ [t], u ∈ timers ∨ u = t := fun u hu =>
    (List.mem_append.mp hu).imp id List.mem_singleton.mp
  refine { hput with ticking := ?_, started := ?_, ahead := ?_, apart := ?_, ends := ?_, needed := ?_ }
  · intro u hu
    rcases hmem u hu with hu | rfl
    · exact h.ticking u hu
    · exact htc
  · intro u hu
    rcases hmem u hu with hu | rfl
    · exact hput.started u hu
    · exact ⟨row', by rw [hk, update_apply, if_pos rfl], Nat.le_of_eq hg⟩
  · intro u hu n hq
    rcases hmem u hu with hu | rfl
    · exact h.ahead u hu n hq
    · rw [hk, hg] at hq
      exact absurd hq (unposted n)
  · rw [List.map_append, List.nodup_append]
    refine ⟨h.apart, List.nodup_singleton _, fun p hp q hq e => ?_⟩
    obtain ⟨u, hu, rfl⟩ := List.mem_map.mp hp
    rw [List.mem_singleton.mp hq, ht] at e
    obtain ⟨huk, hug⟩ := Prod.ext_iff.mp e
    exact fresh u hu huk hug
  · intro k g hgk
    by_cases hkk : k = key
    · rw [hkk, hself] at hgk
      exact .inl ⟨t, List.mem_append_right _ List.mem_cons_self, hk.trans hkk.symm,
        hg.trans (Option.some.inj hgk), hn⟩
    · rw [update_bind_pulse?, if_neg hkk] at hgk
      exact (h.ends k g hgk).imp (fun ⟨u, hu, hp⟩ => ⟨u, List.mem_append_left _ hu, hp⟩) id
  · intro u hu hun
    rcases hmem u hu with hu | rfl
    · have hp := h.needed u hu hun
      have hne : u.key ≠ key := fun e => by
        rw [e, hr] at hp
        simp [Row.pulse?, hd] at hp
      rw [update_bind_pulse?, if_neg hne]
      exact hp
    · rw [hk, hself]
      exact congrArg some hg.symm

end Pulses

end PriceBoard
