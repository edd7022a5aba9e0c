import PriceBoard.Feed.Rehearsal
import Mathlib.Data.List.Nodup

/-!
# What a tick publishes

Whatever an outlet answers and whenever it cancels the feed, a tick publishes the quotes
of the instruments that it drew, each once and in order, up to the place where it finds
itself cancelled, and counts each by its verdict (`publishes_of_tick`).
-/

namespace PriceBoard

open Time (Timestamp)

/-! ## Draws -/

theorem selectionSize_zero (fraction : Float) : selectionSize 0 fraction = 0 := rfl

theorem selectionSize_bounds {size : Nat} (h : size ≠ 0) (fraction : Float) :
    1 ≤ selectionSize size fraction ∧ selectionSize size fraction ≤ size := by
  rw [selectionSize, if_neg h]
  exact ⟨Nat.le_min_of_le_of_le (Nat.one_le_iff_ne_zero.mpr h) (Nat.le_max_left ..), Nat.min_le_left ..⟩

theorem selectionSize_le (size : Nat) (fraction : Float) : selectionSize size fraction ≤ size := by
  by_cases h : size = 0
  · subst h
    exact Nat.le_refl 0
  · exact (selectionSize_bounds h fraction).2

theorem swapIfInBounds_perm (pool : Array Nat) (i j : Nat) :
    (pool.swapIfInBounds i j).toList.Perm pool.toList := by
  unfold Array.swapIfInBounds
  split
  · split
    · exact (Array.swap_perm ..).toList
    · exact .refl _
  · exact .refl _

namespace Rng

theorem shuffle_perm (g : Rng) (pool : Array Nat) (position count : Nat) :
    (g.shuffle pool position count).1.toList.Perm pool.toList := by
  fun_induction shuffle g pool position count with
  | case1 => exact .refl _
  | case2 g pool position count offset g' hbelow ih => exact ih.trans (swapIfInBounds_perm ..)

/-- Indices are drawn without repetition. -/
theorem sample_spec (g : Rng) {size count : Nat} (h : count ≤ size) :
    (g.sample size count).1.length = count ∧ (g.sample size count).1.Nodup ∧
      ∀ i ∈ (g.sample size count).1, i < size := by
  have hperm := g.shuffle_perm (Array.range size) 0 (min count size)
  rw [Array.toList_range] at hperm
  refine ⟨?_, ?_, fun i hi => ?_⟩
  · have hlength := hperm.length_eq
    rw [List.length_range] at hlength
    rw [sample, List.length_take, hlength, Nat.min_eq_left h]
  · exact (hperm.nodup_iff.mpr List.nodup_range).sublist (List.take_sublist ..)
  · exact List.mem_range.mp (hperm.mem_iff.mp (List.mem_of_mem_take hi))

theorem index_draw (g : Rng) (indices : List Nat) : (g.draw indices).1.map (·.index) = indices := by
  induction indices generalizing g with
  | nil => rfl
  | cons i indices ih => exact congrArg (i :: ·) (ih _)

theorem index_draws (g : Rng) (size : Nat) (fraction : Float) :
    (g.draws size fraction).1.map (·.index) = (g.sample size (selectionSize size fraction)).1 :=
  index_draw ..

end Rng

/-- A range that numbers can be drawn from: not empty, and of finite width. -/
structure Drawable (low high : Float) : Prop where
  nonempty : low < high
  finite : (high - low).isFinite

theorem drawable_variation : Drawable (-widestVariation) widestVariation :=
  ⟨by decide +kernel, by decide +kernel⟩

theorem drawable_spread : Drawable narrowestSpread widestSpread :=
  ⟨by decide +kernel, by decide +kernel⟩

namespace Feed

/-- What a feed can draw for a tick: as many instruments as it is to draw, each in its
universe and none twice. -/
structure CanDraw (f : Feed) (draws : List Draw) : Prop where
  length : draws.length = selectionSize f.instruments.length f.config.fraction
  distinct : (draws.map (·.index)).Nodup
  inRange : ∀ d ∈ draws, d.index < f.instruments.length

theorem canDraw_draws (f : Feed) : f.CanDraw (f.rng.draws f.instruments.length f.config.fraction).1 := by
  obtain ⟨hlength, hdistinct, hrange⟩ :=
    f.rng.sample_spec (selectionSize_le f.instruments.length f.config.fraction)
  rw [← Rng.index_draws] at hlength hdistinct hrange
  exact ⟨List.length_map _ ▸ hlength, hdistinct, fun d hd => hrange _ (List.mem_map_of_mem hd)⟩

/-- Every draw is of an instrument, so that there is a quote for each. -/
theorem CanDraw.map_rateOf {f : Feed} {draws : List Draw} (h : f.CanDraw draws) (now : Timestamp) :
    (draws.filterMap (f.rateOf now)).map some = draws.map (f.rateOf now) := by
  rw [List.map_filterMap_some_eq_filter_map_isSome, List.filter_eq_self, List.forall_mem_map]
  intro d hd
  simp [rateOf, h.inRange d hd]

theorem quote_of_rateOf {f : Feed} {now : Timestamp} {d : Draw} {r : Rate Float} (h : f.rateOf now d = some r) :
    ∃ i, f.instruments[d.index]? = some i ∧ r.key = i.key ∧ r.source = f.config.source ∧
      r.lastUpdatedBy = f.config.updatedBy ∧ r.asOf = now ∧ r.lastUpdated = now := by
  obtain ⟨i, hi, rfl⟩ := Option.map_eq_some_iff.mp h
  exact ⟨i, hi, rfl, rfl, rfl, rfl, rfl⟩

theorem CanDraw.quote_of_getElem? {f : Feed} {draws : List Draw} (h : f.CanDraw draws) {now : Timestamp}
    {k : Nat} {r : Rate Float} (hr : (draws.filterMap (f.rateOf now))[k]? = some r) :
    ∃ d i, draws[k]? = some d ∧ f.instruments[d.index]? = some i ∧ r.key = i.key ∧ r.source = f.config.source ∧
      r.lastUpdatedBy = f.config.updatedBy ∧ r.asOf = now ∧ r.lastUpdated = now := by
  have hk : (draws.map (f.rateOf now))[k]? = some (some r) := by
    rw [← h.map_rateOf, List.getElem?_map, hr]
    rfl
  rw [List.getElem?_map] at hk
  obtain ⟨d, hd, hrate⟩ := Option.map_eq_some_iff.mp hk
  obtain ⟨i, htags⟩ := quote_of_rateOf hrate
  exact ⟨d, i, hd, htags⟩

end Feed

/-! ## Verdicts -/

namespace Verdict

def isAccepted : Verdict → Bool
  | accepted => true
  | _ => false

def isRejected : Verdict → Bool
  | rejected _ => true
  | _ => false

def isFailed : Verdict → Bool
  | failed _ => true
  | _ => false

end Verdict

namespace TickSummary

def countAll (t : TickSummary) (vs : List Verdict) : TickSummary := vs.foldl count t

/-- A number that goes up by one with each verdict of a kind counts the verdicts of that
kind. -/
theorem counter_countAll {counter : TickSummary → Nat} {p : Verdict → Bool}
    (h : ∀ t v, counter (t.count v) = counter t + (p v).toNat) (t : TickSummary) (vs : List Verdict) :
    counter (t.countAll vs) = counter t + vs.countP p := by
  induction vs generalizing t with
  | nil => rfl
  | cons v vs ih =>
    have hcons : counter (t.countAll (v :: vs)) = counter (t.count v) + vs.countP p := ih _
    rw [hcons, h, List.countP_cons]
    cases p v
    · simp
    · simp; omega

theorem published_countAll (t : TickSummary) (vs : List Verdict) :
    (t.countAll vs).published = t.published + vs.countP (·.isAccepted) :=
  counter_countAll (fun _ v => by cases v <;> rfl) t vs

theorem rejected_countAll (t : TickSummary) (vs : List Verdict) :
    (t.countAll vs).rejected = t.rejected + vs.countP (·.isRejected) :=
  counter_countAll (fun _ v => by cases v <;> rfl) t vs

theorem failed_countAll (t : TickSummary) (vs : List Verdict) :
    (t.countAll vs).failed = t.failed + vs.countP (·.isFailed) :=
  counter_countAll (fun _ v => by cases v <;> rfl) t vs

theorem calls_count (t : TickSummary) (v : Verdict) : (t.count v).calls = t.calls + 1 := by
  cases v <;> simp only [count, calls] <;> omega

theorem calls_countAll (t : TickSummary) (vs : List Verdict) : (t.countAll vs).calls = t.calls + vs.length :=
  (counter_countAll (p := fun _ => true) calls_count t vs).trans (by rw [List.countP_true])

theorem cancelled_count (t : TickSummary) (v : Verdict) : (t.count v).cancelled = t.cancelled := by
  cases v <;> rfl

end TickSummary

/-! ## Taking notes -/

variable {σ : Type}

/-- A publish: the state that it found, its rate and its verdict. -/
structure Attempt (σ : Type) where
  before : σ
  rate : Rate Float
  verdict : Verdict

namespace Outlet

def attempt (out : Outlet σ) (r : Rate Float) (s : σ) : Attempt σ := ⟨s, r, (out.publish r s).1⟩

/-- An outlet that notes what is published to it. -/
def noting (out : Outlet σ) : Outlet (σ × List (Attempt σ)) where
  isCancelled p := out.isCancelled p.1
  publish r p := ((out.publish r p.1).1, (out.publish r p.1).2, p.2 ++ [out.attempt r p.1])
  write e p := (out.write e p.1, p.2)

end Outlet

namespace Feed

theorem publishOne_noting (out : Outlet σ) (r : Rate Float) (t : TickSummary) (s : σ) (noted : List (Attempt σ)) :
    publishOne out.noting r t (s, noted) =
      ((publishOne out r t s).1, (publishOne out r t s).2, noted ++ [out.attempt r s]) := by
  have hpublish : out.noting.publish r (s, noted) =
      ((out.publish r s).1, (out.publish r s).2, noted ++ [out.attempt r s]) := rfl
  simp only [publishOne, hpublish]
  cases Verdict.entry? r.key (out.publish r s).1 <;> rfl

/-- What is noted of rates that are published in turn: each found the outlet as it was
left by those before it, not cancelled, until one found it cancelled. -/
theorem publishAll_noting (out : Outlet σ) (rates : List (Rate Float)) (t : TickSummary) (s : σ)
    (noted : List (Attempt σ)) :
    ∃ attempts rest, rates = attempts.map (·.rate) ++ rest ∧
      publishAll out.noting rates t (s, noted) =
        ((publishAll out rates t s).1, (publishAll out rates t s).2, noted ++ attempts) ∧
      (∀ a ∈ attempts, out.isCancelled a.before = false ∧ a.verdict = (out.publish a.rate a.before).1) ∧
      (publishAll out rates t s).1 =
        { t.countAll (attempts.map (·.verdict)) with cancelled := t.cancelled || !rest.isEmpty } ∧
      (rest ≠ [] → out.isCancelled (publishAll out rates t s).2 = true) := by
  induction rates generalizing t s noted with
  | nil =>
    exact ⟨[], [], rfl, by simp [publishAll], nofun, by simp [publishAll, TickSummary.countAll], (absurd rfl ·)⟩
  | cons r rates ih =>
    cases hcancelled : out.isCancelled s with
    | true =>
      refine ⟨[], r :: rates, rfl, ?_, nofun, ?_, fun _ => ?_⟩
      all_goals simp [publishAll, hcancelled, Outlet.noting, TickSummary.countAll]
    | false =>
      obtain ⟨attempts, rest, hrates, hnoted, hattempts, hsummary, hrest⟩ :=
        ih (publishOne out r t s).1 (publishOne out r t s).2 (noted ++ [out.attempt r s])
      have hplain : publishAll out (r :: rates) t s =
          publishAll out rates (publishOne out r t s).1 (publishOne out r t s).2 := by
        rw [publishAll, hcancelled]
        rfl
      have hstep : publishAll out.noting (r :: rates) t (s, noted) =
          publishAll out.noting rates (publishOne out r t s).1
            ((publishOne out r t s).2, noted ++ [out.attempt r s]) := by
        rw [publishAll, show out.noting.isCancelled (s, noted) = false from hcancelled, publishOne_noting]
        rfl
      refine ⟨out.attempt r s :: attempts, rest, congrArg (r :: ·) hrates, ?_, ?_, ?_, ?_⟩
      · rw [hstep, hnoted, hplain, List.append_assoc]
        rfl
      · exact List.forall_mem_cons.mpr ⟨⟨hcancelled, rfl⟩, hattempts⟩
      · rw [hplain, hsummary, show (publishOne out r t s).1.cancelled = t.cancelled from t.cancelled_count _]
        rfl
      · rwa [hplain]

/-- Whatever can be drawn, an outlet is published the quotes of the first instruments that
were drawn, each once, in order and at the time of the tick, up to the place where it is
found cancelled, and each counts by its verdict. A tick can always draw: as many different
instruments of its universe as it is to, and numbers from ranges that are not empty. -/
theorem publishes_of_tick (f : Feed) (out : Outlet σ) (now : Timestamp) (s : σ) :
    let size := selectionSize f.instruments.length f.config.fraction
    (if f.instruments = [] then size = 0 else 1 ≤ size ∧ size ≤ f.instruments.length) ∧
    Drawable (-widestVariation) widestVariation ∧ Drawable narrowestSpread widestSpread ∧
    (∃ draws rng, f.CanDraw draws ∧
      f.tick out now s = ((f.tickWith out now draws s).1, { f with rng := rng }, (f.tickWith out now draws s).2)) ∧
    ∀ draws, f.CanDraw draws → ∃ attempts : List (Attempt σ),
      let t := (f.tickWith out now draws s).1
      let after := (f.tickWith out now draws s).2
      f.tickWith out.noting now draws (s, []) = (t, after, attempts) ∧
      (∀ (k : Nat) (a : Attempt σ), attempts[k]? = some a → ∃ (d : Draw) (i : Instrument Float),
        draws[k]? = some d ∧ f.instruments[d.index]? = some i ∧
        a.rate.key = i.key ∧ a.rate.source = f.config.source ∧ a.rate.lastUpdatedBy = f.config.updatedBy ∧
        a.rate.asOf = now ∧ a.rate.lastUpdated = now) ∧
      (∀ a ∈ attempts, out.isCancelled a.before = false ∧ a.verdict = (out.publish a.rate a.before).1) ∧
      t.published = attempts.countP (·.verdict.isAccepted) ∧
      t.rejected = attempts.countP (·.verdict.isRejected) ∧
      t.failed = attempts.countP (·.verdict.isFailed) ∧
      t.published + t.rejected + t.failed = attempts.length ∧
      (if t.cancelled then attempts.length < draws.length ∧ out.isCancelled after = true
        else attempts.length = draws.length) := by
  refine ⟨?_, drawable_variation, drawable_spread, ⟨_, _, f.canDraw_draws, rfl⟩, fun draws hdraws => ?_⟩
  · split
    · rw [List.eq_nil_iff_length_eq_zero.mp ‹_›, selectionSize_zero]
    · exact selectionSize_bounds (mt List.eq_nil_iff_length_eq_zero.mpr ‹_›) _
  · obtain ⟨attempts, rest, hrates, hnoted, hattempts, hsummary, hrest⟩ :=
      publishAll_noting out (draws.filterMap (f.rateOf now)) {} s []
    have hlength : draws.length = attempts.length + rest.length := by
      have hall := congrArg List.length (hdraws.map_rateOf now)
      simpa [hrates] using hall.symm
    have htally : (f.tickWith out now draws s).1 =
        { TickSummary.countAll {} (attempts.map (·.verdict)) with cancelled := !rest.isEmpty } := hsummary
    refine ⟨attempts, hnoted, fun k a ha => ?_, hattempts, ?_⟩
    · have hk : (draws.filterMap (f.rateOf now))[k]? = some a.rate := by
        have hlt : k < (attempts.map (·.rate)).length := by
          rw [List.length_map]
          exact (List.getElem?_eq_some_iff.mp ha).1
        rw [hrates, List.getElem?_append_left hlt, List.getElem?_map, ha]
        rfl
      exact hdraws.quote_of_getElem? hk
    rw [htally]
    refine ⟨(TickSummary.published_countAll ..).trans ((Nat.zero_add _).trans List.countP_map),
      (TickSummary.rejected_countAll ..).trans ((Nat.zero_add _).trans List.countP_map),
      (TickSummary.failed_countAll ..).trans ((Nat.zero_add _).trans List.countP_map),
      (TickSummary.calls_countAll ..).trans ((Nat.zero_add _).trans (List.length_map _)), ?_⟩
    cases rest with
    | nil => exact hlength.symm
    | cons r rest => exact ⟨hlength ▸ Nat.lt_add_of_pos_right (Nat.succ_pos _), hrest nofun⟩

/-- A feed of three instruments that draws all of them. -/
def threefold : Feed :=
  .ofConfig { fraction := 1 } [⟨"EURUSD", 1.0850⟩, ⟨"GBPUSD", 1.2650⟩, ⟨"USDJPY", 149.50⟩]

/-- An outlet that rejects a first quote and is cancelled as it accepts a second is never
published a third. -/
theorem publishes_of_cancelled_tick :
    let draws := [⟨2, 0, 0.002⟩, ⟨0, 0, 0.002⟩, ⟨1, 0, 0.002⟩]
    let s : Rehearsal := { script := [.reject, .cancel] }
    threefold.CanDraw draws ∧ (threefold.tickWith Rehearsal.outlet default draws s).1 = ⟨1, 1, 0, true⟩ ∧
      (threefold.tickWith Rehearsal.outlet.noting default draws (s, [])).2.2.length = 2 := by
  intro draws s
  have hdraws : threefold.CanDraw draws := ⟨by decide +kernel, by decide +kernel, by decide +kernel⟩
  have htick : (threefold.tickWith Rehearsal.outlet default draws s).1 = ⟨1, 1, 0, true⟩ := by decide +kernel
  obtain ⟨attempts, hnoted, -, -, -, -, -, hcalls, -⟩ :=
    (publishes_of_tick threefold Rehearsal.outlet default s).2.2.2.2 draws hdraws
  rw [htick] at hcalls
  exact ⟨hdraws, htick, by rw [hnoted]; exact hcalls.symm⟩

end Feed

end PriceBoard
