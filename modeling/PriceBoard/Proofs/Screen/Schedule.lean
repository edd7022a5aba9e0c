import PriceBoard.Proofs.Row.Runs
import PriceBoard.Screen.Timer

/-!
# What a timer posts

A timer posts the steps of its curve in their order, none before it is due. It stops
early only if it finds itself cancelled or is refused, and then it has posted the first
so many of them (`posted_of_run`).
-/

namespace PriceBoard

open Time (Nanos)

/-! ## Schedules -/

namespace Curve

/-- The steps that a timer is to post. -/
def schedule (c : Curve) : List Nat := if c.interval = 0 then [c.steps] else List.range' 1 c.steps

theorem steps_mul_interval_le (c : Curve) : c.steps * c.interval ≤ c.duration := Nat.mul_div_le ..

theorem duration_lt (c : Curve) : c.duration < c.steps * c.interval + c.steps := by
  rw [← Nat.mul_add_one]
  exact Nat.lt_mul_div_succ _ c.steps_pos

theorem getLast?_schedule (c : Curve) : c.schedule.getLast? = some c.steps := by
  have hpos := c.steps_pos
  unfold schedule
  split
  · rfl
  · rw [List.getLast?_range', if_neg (Nat.ne_of_gt hpos)]
    congr 1
    omega

end Curve

namespace Timer

variable {now : Nanos} {t u : Timer} {b b' : Mailbox}

/-- The messages that a timer has still to post. -/
def schedule (t : Timer) : List Message :=
  (List.range' t.next (t.curve.steps + 1 - t.next)).map (.decayStep t.key t.generation)

theorem schedule_ofPulse (key : String) (generation : Nat) (c : Curve) (start : Nanos) :
    (ofPulse key generation c start).schedule = c.schedule.map (.decayStep key generation) := by
  unfold Curve.schedule schedule ofPulse
  dsimp only
  split
  · rw [Nat.add_sub_cancel_left]
    rfl
  · rw [Nat.add_sub_cancel]

theorem next_ofPulse_le (key : String) (generation : Nat) (c : Curve) (start : Nanos) :
    (ofPulse key generation c start).next ≤ c.steps := by
  unfold ofPulse
  dsimp only
  split
  · exact Nat.le_refl _
  · exact c.steps_pos

/-! ## What is posted at one time -/

/-- A single look at the clock. The next step is posted if it is due, and a timer that
finds itself cancelled is done. -/
def look (now : Nanos) (t : Timer) (b : Mailbox) : Option Timer × Mailbox :=
  if t.isCancelled ∧ t.heedsCancel then (none, b)
  else if t.due ≤ now then t.post b
  else (some t, b)

/-- Of a timer that posts its next `k` steps and then goes on as `left`, if it does. -/
structure Posts (now : Nanos) (t : Timer) (b : Mailbox) (k : Nat) (left : Option Timer) (b' : Mailbox) : Prop where
  accepted : b'.accepted.toList = b.accepted.toList ++ (List.range' t.next k).map (.decayStep t.key t.generation)
  isOpen : b'.isOpen = b.isOpen
  due : ∀ i ∈ List.range' t.next k, t.start + i * t.curve.interval ≤ now
  within : t.next + k ≤ t.curve.steps + 1
  goesOn : ∀ u, left = some u → u = { t with next := t.next + k } ∧ u.next ≤ u.curve.steps
  ends : left = none → b.isOpen = true → (t.isCancelled = true → t.heedsCancel = false) →
    t.next + k = t.curve.steps + 1

theorem posts_nothing (now : Nanos) (b : Mailbox) (h : t.next ≤ t.curve.steps) :
    t.Posts now b 0 (some t) b where
  accepted := (List.append_nil _).symm
  isOpen := rfl
  due := nofun
  within := Nat.le_succ_of_le h
  goesOn := by
    rintro u ⟨⟩
    exact ⟨rfl, h⟩
  ends := nofun

theorem posts_none (now : Nanos) (h : t.next ≤ t.curve.steps)
    (hstop : ¬ (b.isOpen = true ∧ (t.isCancelled = true → t.heedsCancel = false))) : t.Posts now b 0 none b where
  accepted := (List.append_nil _).symm
  isOpen := rfl
  due := nofun
  within := Nat.le_succ_of_le h
  goesOn := nofun
  ends _ ho hn := absurd ⟨ho, hn⟩ hstop

theorem posts_cancelled (now : Nanos) (b : Mailbox) (h : t.next ≤ t.curve.steps)
    (hc : t.isCancelled ∧ t.heedsCancel) : t.Posts now b 0 none b := by
  refine posts_none now h fun hgo => ?_
  have hheeds := hc.2
  rw [hgo.2 hc.1] at hheeds
  cases hheeds

theorem posts_next (h : t.next ≤ t.curve.steps) (hd : t.due ≤ now) :
    t.Posts now b 1 (if t.next < t.curve.steps then some { t with next := t.next + 1 } else none)
      { b with accepted := b.accepted.push t.message } where
  accepted := Array.toList_push
  isOpen := rfl
  due i hi := by
    rw [List.mem_singleton.mp hi]
    exact hd
  within := Nat.succ_le_succ h
  goesOn u hu := by
    obtain ⟨hlt, hu⟩ := Option.ite_none_right_eq_some.mp hu
    cases hu
    exact ⟨rfl, hlt⟩
  ends hn _ _ := by
    have hge : ¬ t.next < t.curve.steps := by simpa using hn
    omega

theorem posts_post (h : t.next ≤ t.curve.steps) (hd : t.due ≤ now) :
    ∃ k, t.Posts now b k (t.post b).1 (t.post b).2 := by
  cases hb : b.isOpen with
  | false =>
    rw [show t.post b = (none, b) by simp [post, Mailbox.post, hb]]
    refine ⟨0, posts_none now h fun hgo => ?_⟩
    have ho := hgo.1
    rw [hb] at ho
    cases ho
  | true =>
    rw [show t.post b = (if t.next < t.curve.steps then some { t with next := t.next + 1 } else none,
        { b with accepted := b.accepted.push t.message }) by simp [post, Mailbox.post, hb]]
    exact ⟨1, posts_next h hd⟩

theorem Posts.trans {k j : Nat} {left : Option Timer} {b'' : Mailbox} (h : t.Posts now b k (some u) b')
    (hu : u.Posts now b' j left b'') : t.Posts now b (k + j) left b'' := by
  obtain ⟨rfl, -⟩ := h.goesOn u rfl
  have hnext : List.range' t.next (k + j) = List.range' t.next k ++ List.range' (t.next + k) j := by
    rw [List.range'_append_1]
  refine ⟨?_, hu.isOpen.trans h.isOpen, ?_, ?_, ?_, ?_⟩
  · rw [hu.accepted, h.accepted, hnext, List.map_append, List.append_assoc]
  · rw [hnext]
    exact List.forall_mem_append.mpr ⟨h.due, hu.due⟩
  · have := hu.within
    dsimp only at this
    omega
  · intro v hv
    obtain ⟨rfl, hle⟩ := hu.goesOn v hv
    exact ⟨by rw [Nat.add_assoc], hle⟩
  · intro hn ho hc
    have := hu.ends hn (h.isOpen.trans ho) hc
    dsimp only at this
    omega

theorem posts_look (now : Nanos) (b : Mailbox) (h : t.next ≤ t.curve.steps) :
    ∃ k, t.Posts now b k (t.look now b).1 (t.look now b).2 := by
  unfold look
  by_cases hc : t.isCancelled ∧ t.heedsCancel
  · rw [if_pos hc]
    exact ⟨0, posts_cancelled now b h hc⟩
  · rw [if_neg hc]
    by_cases hd : t.due ≤ now
    · rw [if_pos hd]
      exact posts_post h hd
    · rw [if_neg hd]
      exact ⟨0, posts_nothing now b h⟩

theorem posts_wake (now : Nanos) (b : Mailbox) (h : t.next ≤ t.curve.steps) :
    (∃ k, t.Posts now b k (t.wake now b).1 (t.wake now b).2) ∧ ∀ u, (t.wake now b).1 = some u → now < u.due := by
  fun_induction wake now t b with
  | case1 t b hc => exact ⟨⟨0, posts_cancelled now b h hc⟩, nofun⟩
  | case2 t b hc hd b' hp =>
    have hpost := posts_post (b := b) h hd
    rw [hp] at hpost
    exact ⟨hpost, nofun⟩
  | case3 t b hc hd u b' hp ih =>
    obtain ⟨k, hpost⟩ := posts_post (b := b) h hd
    rw [hp] at hpost
    obtain ⟨⟨j, hrest⟩, hwait⟩ := ih (hpost.goesOn u rfl).2
    exact ⟨⟨k + j, hpost.trans hrest⟩, hwait⟩
  | case4 t b hc hd =>
    refine ⟨⟨0, posts_nothing now b h⟩, ?_⟩
    rintro u ⟨⟩
    exact Nat.lt_of_not_le hd

/-! ## The life of a timer -/

/-- A timer, unless it is done, the mailbox, and what it has posted and when. -/
structure Life where
  timer? : Option Timer
  mailbox : Mailbox
  posted : List (Nanos × Message) := []

/-- What can happen to a timer: it looks at the clock, once or until nothing is due, it is
cancelled, or others use the mailbox, and perhaps close it. -/
inductive Event
  | look (now : Nanos)
  | wake (now : Nanos)
  | cancel
  | share (b : Mailbox)

namespace Life

def messages (l : Life) : List Message := l.posted.map (·.2)

def note (l : Life) (now : Nanos) (result : Option Timer × Mailbox) : Life where
  timer? := result.1
  mailbox := result.2
  posted := l.posted ++ (result.2.accepted.toList.drop l.mailbox.accepted.size).map (now, ·)

def on (l : Life) : Event → Life
  | .look now => l.timer?.elim l fun t => l.note now (t.look now l.mailbox)
  | .wake now => l.timer?.elim l fun t => l.note now (t.wake now l.mailbox)
  | .cancel => { l with timer? := l.timer?.map Timer.cancel }
  | .share b => { l with mailbox := b }

def run (l : Life) (events : List Event) : Life := events.foldl on l

/-- Whether nothing comes between: as long as the timer goes on, the mailbox is open and
the timer is not cancelled, or does not heed it. -/
def IsSpared (l : Life) : List Event → Prop
  | [] => True
  | e :: events =>
    (∀ t, l.timer? = some t → l.mailbox.isOpen = true ∧ (e = .cancel → t.heedsCancel = false)) ∧
      (l.on e).IsSpared events

end Life

/-- What a timer has come to that began as `t`: it has posted its first `k` steps, each when
it was due, and its next step is the one after them. If nothing came between and it is
done, they are all its steps. -/
structure Keeps (t : Timer) (isSpared : Prop) (k : Nat) (l : Life) : Prop where
  messages : l.messages = (List.range' t.next k).map (.decayStep t.key t.generation)
  due : ∀ p ∈ l.posted, ∃ i, p.2 = .decayStep t.key t.generation i ∧ t.start + i * t.curve.interval ≤ p.1
  within : t.next + k ≤ t.curve.steps + 1
  goesOn : ∀ u, l.timer? = some u → ∃ isCancelled,
    u = { t with next := t.next + k, isCancelled := isCancelled } ∧ u.next ≤ u.curve.steps
  heedless : isSpared → ∀ u, l.timer? = some u → u.isCancelled = true → u.heedsCancel = false
  ends : isSpared → l.timer? = none → t.next + k = t.curve.steps + 1

theorem keeps_start (h : t.next ≤ t.curve.steps) (hc : t.isCancelled = false) (b : Mailbox) :
    t.Keeps True 0 { timer? := some t, mailbox := b } where
  messages := rfl
  due := nofun
  within := Nat.le_succ_of_le h
  goesOn := by
    rintro u ⟨⟩
    exact ⟨_, rfl, h⟩
  heedless := by
    rintro - u ⟨⟩ hc'
    rw [hc] at hc'
    cases hc'
  ends := nofun

section
variable {l : Life} {k : Nat} {isSpared still : Prop}

theorem Keeps.mono (h : t.Keeps isSpared k l) (hs : still → isSpared) : t.Keeps still k l :=
  { h with heedless := fun s => h.heedless (hs s), ends := fun s => h.ends (hs s) }

theorem Posts.posted_note {left : Option Timer} (hp : u.Posts now l.mailbox k left b') :
    (l.note now (left, b')).posted =
      l.posted ++ (List.range' u.next k).map fun i => (now, .decayStep u.key u.generation i) := by
  have hnew : b'.accepted.toList.drop l.mailbox.accepted.size =
      (List.range' u.next k).map (.decayStep u.key u.generation) := by
    rw [hp.accepted, List.drop_left' Array.length_toList]
  unfold Life.note
  dsimp only
  rw [hnew, List.map_map]
  rfl

theorem Keeps.note {j : Nat} {left : Option Timer} (h : t.Keeps isSpared j l) (hu : l.timer? = some u)
    (hp : u.Posts now l.mailbox k left b') (hs : still → isSpared ∧ l.mailbox.isOpen = true) :
    t.Keeps still (j + k) (l.note now (left, b')) := by
  have hheeds : still → u.isCancelled = true → u.heedsCancel = false := fun s => h.heedless (hs s).1 u hu
  have hposted := hp.posted_note
  obtain ⟨isCancelled, rfl, -⟩ := h.goesOn u hu
  refine ⟨?_, ?_, ?_, fun v hv => ?_, fun s v hv => ?_, fun s hn => ?_⟩
  · have hm := h.messages
    unfold Life.messages at hm ⊢
    rw [hposted, List.map_append, List.map_map, hm, ← List.range'_append_1, List.map_append]
    rfl
  · rw [hposted]
    refine List.forall_mem_append.mpr ⟨h.due, fun p hmem => ?_⟩
    obtain ⟨i, hi, rfl⟩ := List.mem_map.mp hmem
    exact ⟨i, rfl, hp.due i hi⟩
  · rw [← Nat.add_assoc]
    exact hp.within
  · obtain ⟨rfl, hle⟩ := hp.goesOn v hv
    exact ⟨isCancelled, by rw [Nat.add_assoc], hle⟩
  · obtain ⟨rfl, -⟩ := hp.goesOn v hv
    exact hheeds s
  · rw [← Nat.add_assoc]
    exact hp.ends hn (hs s).2 (hheeds s)

theorem Keeps.cancel (h : t.Keeps isSpared k l)
    (hs : still → isSpared ∧ ∀ u, l.timer? = some u → u.heedsCancel = false) :
    t.Keeps still k (l.on .cancel) where
  messages := h.messages
  due := h.due
  within := h.within
  goesOn v hv := by
    obtain ⟨u, hu, rfl⟩ := Option.map_eq_some_iff.mp hv
    obtain ⟨_, rfl, hle⟩ := h.goesOn u hu
    exact ⟨true, rfl, hle⟩
  heedless s v hv _ := by
    obtain ⟨u, hu, rfl⟩ := Option.map_eq_some_iff.mp hv
    exact (hs s).2 u hu
  ends s hn := h.ends (hs s).1 (Option.map_eq_none_iff.mp hn)

theorem Keeps.glance (h : t.Keeps isSpared k l) {f : Timer → Option Timer × Mailbox}
    (hf : ∀ u : Timer, u.next ≤ u.curve.steps → ∃ j, u.Posts now l.mailbox j (f u).1 (f u).2)
    (hs : still → isSpared ∧ ∀ u, l.timer? = some u → l.mailbox.isOpen = true) :
    ∃ j, t.Keeps still j (l.timer?.elim l fun u => l.note now (f u)) := by
  cases hu : l.timer? with
  | none => exact ⟨k, h.mono fun s => (hs s).1⟩
  | some u =>
    obtain ⟨_, _, hle⟩ := h.goesOn u hu
    obtain ⟨j, hp⟩ := hf u hle
    exact ⟨k + j, h.note hu hp fun s => ⟨(hs s).1, (hs s).2 u hu⟩⟩

theorem Keeps.on (h : t.Keeps isSpared k l) (e : Event) (hs : still → isSpared ∧
      ∀ u, l.timer? = some u → l.mailbox.isOpen = true ∧ (e = .cancel → u.heedsCancel = false)) :
    ∃ j, t.Keeps still j (l.on e) := by
  have hopen : still → isSpared ∧ ∀ u, l.timer? = some u → l.mailbox.isOpen = true := fun s =>
    ⟨(hs s).1, fun u hu => ((hs s).2 u hu).1⟩
  cases e with
  | look now => exact h.glance (fun _ hle => posts_look now l.mailbox hle) hopen
  | wake now => exact h.glance (fun _ hle => (posts_wake now l.mailbox hle).1) hopen
  | cancel => exact ⟨k, h.cancel fun s => ⟨(hs s).1, fun u hu => ((hs s).2 u hu).2 rfl⟩⟩
  | share b =>
    have hstill := h.mono fun s => (hs s).1
    exact ⟨k, hstill.messages, hstill.due, hstill.within, hstill.goesOn, hstill.heedless, hstill.ends⟩

theorem Keeps.run (h : t.Keeps isSpared k l) (events : List Event) :
    ∃ j, t.Keeps (isSpared ∧ l.IsSpared events) j (l.run events) := by
  induction events generalizing l k isSpared with
  | nil => exact ⟨k, h.mono And.left⟩
  | cons e events ih =>
    have hstill : isSpared ∧ l.IsSpared (e :: events) → isSpared ∧ _ := fun s => ⟨s.1, s.2.1⟩
    obtain ⟨j, hnext⟩ := h.on e hstill
    obtain ⟨i, hrun⟩ := ih hnext
    exact ⟨i, hrun.mono fun s => ⟨s, s.2.2⟩⟩

theorem Keeps.messages_prefix (h : t.Keeps isSpared k l) : l.messages <+: t.schedule := by
  have hk := h.within
  refine ⟨(List.range' (t.next + k) (t.curve.steps + 1 - (t.next + k))).map (.decayStep t.key t.generation), ?_⟩
  rw [h.messages, ← List.map_append, List.range'_append_1]
  unfold schedule
  congr 2
  omega

theorem Keeps.messages_eq_schedule_iff (h : t.Keeps isSpared k l) :
    l.messages = t.schedule ↔ t.next + k = t.curve.steps + 1 := by
  have hk := h.within
  rw [h.messages]
  constructor
  · intro he
    have hlength := congrArg List.length he
    simp only [schedule, List.length_map, List.length_range'] at hlength
    omega
  · intro he
    unfold schedule
    congr 2
    omega

theorem Keeps.timer?_eq_none_iff (h : t.Keeps isSpared k l) (hs : isSpared) :
    l.timer? = none ↔ l.messages = t.schedule := by
  rw [h.messages_eq_schedule_iff]
  refine ⟨h.ends hs, fun he => ?_⟩
  cases hu : l.timer? with
  | none => rfl
  | some u =>
    obtain ⟨_, rfl, hle⟩ := h.goesOn u hu
    dsimp only at hle
    omega

theorem Keeps.getLast?_posted (h : t.Keeps isSpared k l) {i : Nat}
    (hm : l.messages.getLast? = some (.decayStep t.key t.generation i)) :
    ∃ now, l.posted.getLast? = some (now, .decayStep t.key t.generation i) ∧
      t.start + i * t.curve.interval ≤ now := by
  unfold Life.messages at hm
  rw [List.getLast?_map] at hm
  obtain ⟨⟨now, m⟩, hp, rfl⟩ := Option.map_eq_some_iff.mp hm
  obtain ⟨j, hj, hdue⟩ := h.due _ (List.mem_of_getLast? hp)
  cases hj
  exact ⟨now, hp, hdue⟩

theorem Keeps.waits (h : t.Keeps isSpared k l) (now : Nanos) :
    ∀ u, (l.on (.wake now)).timer? = some u → now < u.due := by
  simp only [Life.on]
  cases hu : l.timer? with
  | none =>
    intro u hn
    rw [Option.elim_none, hu] at hn
    cases hn
  | some u =>
    obtain ⟨_, _, hle⟩ := h.goesOn u hu
    exact (posts_wake now l.mailbox hle).2

theorem Keeps.mem_messages_of_waits (h : t.Keeps isSpared k l) (hs : isSpared)
    (hwait : ∀ u, l.timer? = some u → now < u.due) {i : Nat}
    (hi : .decayStep t.key t.generation i ∈ t.schedule) (hdue : t.start + i * t.curve.interval ≤ now) :
    .decayStep t.key t.generation i ∈ l.messages := by
  cases hu : l.timer? with
  | none =>
    rw [(h.timer?_eq_none_iff hs).mp hu]
    exact hi
  | some u =>
    obtain ⟨_, rfl, _⟩ := h.goesOn u hu
    have hnow : now < t.start + (t.next + k) * t.curve.interval := hwait _ hu
    have hlt : i < t.next + k := by
      have hlt := Nat.lt_of_add_lt_add_left (Nat.lt_of_le_of_lt hdue hnow)
      exact Nat.lt_of_mul_lt_mul_right hlt
    obtain ⟨j, hj, hij⟩ := List.mem_map.mp hi
    cases hij
    rw [h.messages]
    exact List.mem_map_of_mem (List.mem_range'_1.mpr ⟨(List.mem_range'_1.mp hj).1, hlt⟩)

theorem Keeps.messages_eq_schedule_of_waits (h : t.Keeps isSpared k l) (hs : isSpared)
    (hwait : ∀ u, l.timer? = some u → now < u.due) (hnow : t.start + t.curve.duration ≤ now) :
    l.messages = t.schedule := by
  refine (h.timer?_eq_none_iff hs).mp ?_
  cases hu : l.timer? with
  | none => rfl
  | some u =>
    obtain ⟨_, rfl, hle⟩ := h.goesOn u hu
    have hdue : t.curve.duration < (t.next + k) * t.curve.interval :=
      Nat.lt_of_add_lt_add_left (Nat.lt_of_le_of_lt hnow (hwait _ hu))
    have hlast : (t.next + k) * t.curve.interval ≤ t.curve.duration :=
      Nat.le_trans (Nat.mul_le_mul_right _ hle) t.curve.steps_mul_interval_le
    exact absurd hdue (Nat.not_lt_of_le hlast)

end

theorem Life.run_concat (l : Life) (events : List Event) (e : Event) :
    l.run (events ++ [e]) = (l.run events).on e := by
  simp [run]

/-- A timer posts a prefix of its schedule, each step when it is due or later. If nothing comes
between, the timer is done exactly if it has posted them all, and by the end of the duration
it has. -/
theorem posted_of_run {π : Type} [Scalar π] (steps : Nat) (duration : Nanos) (key : String) (generation : Nat)
    (start : Nanos) (b : Mailbox) (events : List Event) :
    let c := Curve.ofSteps steps duration
    let schedule := c.schedule.map (Message.decayStep key generation)
    let began : Life := { timer? := some (ofPulse key generation c start), mailbox := b }
    let l := began.run events
    (c.steps = max steps 1 ∧ c.interval = duration / c.steps ∧
      c.steps * c.interval ≤ duration ∧ duration < c.steps * c.interval + c.steps) ∧
    l.messages <+: schedule ∧
    (∀ p ∈ l.posted, ∃ i, p.2 = .decayStep key generation i ∧ start + i * c.interval ≤ p.1) ∧
    (l.messages = schedule → ∃ now, l.posted.getLast? = some (now, .decayStep key generation c.steps) ∧
      start + duration < now + c.steps) ∧
    (began.IsSpared events → (l.timer? = none ↔ l.messages = schedule) ∧
      ∀ now, events.getLast? = some (.wake now) →
        (∀ i ∈ c.schedule, start + i * c.interval ≤ now → .decayStep key generation i ∈ l.messages) ∧
        (start + duration ≤ now → l.messages = schedule)) ∧
    ∀ (first : Rate π) (os : List (Row.Op π)),
      let row := ((Row.ofRate first c).run os).1
      (row.advance row.generation c.steps).row.isDecaying = false ∧
        (row.advance row.generation c.steps).row.intensity = 0 := by
  intro c schedule began l
  have hbegan := keeps_start (next_ofPulse_le key generation c start) rfl b
  obtain ⟨k, hl⟩ := hbegan.run events
  have hschedule : (ofPulse key generation c start).schedule = schedule := schedule_ofPulse ..
  refine ⟨⟨rfl, rfl, c.steps_mul_interval_le, c.duration_lt⟩, hschedule ▸ hl.messages_prefix, hl.due,
    fun hm => ?_, fun hs => ⟨?_, ?_⟩, fun first os => ?_⟩
  · have hlast : schedule.getLast? = some (.decayStep key generation c.steps) := by
      rw [List.getLast?_map, c.getLast?_schedule]
      rfl
    obtain ⟨now, hnow, hdue⟩ := hl.getLast?_posted (hm ▸ hlast)
    refine ⟨now, hnow, Nat.lt_of_lt_of_le (Nat.add_lt_add_left c.duration_lt start) ?_⟩
    rw [← Nat.add_assoc]
    exact Nat.add_le_add_right hdue _
  · exact hschedule ▸ hl.timer?_eq_none_iff ⟨trivial, hs⟩
  · intro now hnow
    obtain ⟨earlier, rfl⟩ := List.getLast?_eq_some_iff.mp hnow
    obtain ⟨_, hearlier⟩ := hbegan.run earlier
    have hwait := hearlier.waits now
    rw [← Life.run_concat] at hwait
    refine ⟨fun i hi hdue => ?_, fun hend => ?_⟩
    · exact hl.mem_messages_of_waits ⟨trivial, hs⟩ hwait (hschedule ▸ List.mem_map_of_mem hi) hdue
    · exact hschedule ▸ hl.messages_eq_schedule_of_waits ⟨trivial, hs⟩ hwait hend
  · obtain ⟨hdecay, hdark⟩ := ((Row.lit_ofRate first c).run os).dark_advance (Nat.le_refl _)
    exact ⟨by rw [Row.isDecaying, hdecay]; rfl, hdark⟩

example :
    let began : Life := { timer? := some (ofPulse "EURUSD" 1 (.ofSteps 3 10) 0), mailbox := {} }
    (began.run [.look 2, .look 3, .look 7, .cancel, .look 10]).messages =
      [.decayStep "EURUSD" 1 1, .decayStep "EURUSD" 1 2] := rfl

end Timer

end PriceBoard
