import PriceBoard.Proofs.Board.Generations
import PriceBoard.Proofs.Screen.Handling
import PriceBoard.Proofs.Screen.InFlight

/-!
# Counting pulses

A row numbers its pulses, the board tells of them, the screen starts a timer for each or
settles it at once, and the ledger counts them. Whatever else happens around a screen,
all of them count the same pulses (`counts_of_run`).
-/

namespace PriceBoard

open Time (Nanos)
open Relation (ReflTransGen)

namespace Screen

theorem decay_fields (s : Screen) (key : String) (generation step : Nat) :
    (s.decay key generation step).timers = s.timers ∧
      (s.decay key generation step).changes = s.changes ++ (s.board.advance key generation step).changes := by
  unfold decay
  dsimp only
  split
  · split <;> exact ⟨rfl, rfl⟩
  · exact ⟨rfl, rfl⟩
  · exact ⟨rfl, rfl⟩

end Screen

/-! ## Handling a message -/

/-- A message that a screen took, with what was before and after. -/
structure Handling where
  before : Display
  message : Message
  after : Display

namespace Handling

/-- The key of the row that pulses anew. -/
def renewed? (h : Handling) : Option String :=
  match h.message with
  | .rateUpdated r => if h.before.screen.board.renews r then some r.key else none
  | _ => none

/-- The timers that were started. -/
def started (h : Handling) : List Timer := h.after.screen.timers.drop h.before.screen.timers.length

/-- Whether a row came to a pulse that is over already, with nobody left who could post. -/
def settled (h : Handling) : Bool :=
  match h.message with
  | .rateUpdated r =>
    !h.before.hasSender && h.after.screen.board.generationOf r.key != h.before.screen.board.generationOf r.key &&
      (h.after.screen.board.get? r.key).all (!·.isDecaying)
  | _ => false

/-- The number of rates that were handled for a row with a mid that is not zero. -/
def pulses (past : List Handling) : Nat := past.countP (·.renewed?.isSome)

def pulsesOf (key : String) (past : List Handling) : Nat := past.countP (·.renewed? == some key)

end Handling

namespace Display

open Handling (pulses pulsesOf)

variable {d d' : Display} {now : Nanos}

def told (d : Display) : Nat := d.screen.changes.toList.countP Change.isPulse

def restarts (d : Display) : Nat := d.shared.ledger.pulseRestarts

theorem told_change (s : Shared) (screen : Screen) (b : Board Float) (changes : List Change) :
    told ⟨s, screen.change b changes⟩ = told ⟨s, screen⟩ + changes.countP Change.isPulse := by
  simp [told, Screen.change, List.countP_append]

theorem restartTimer_eq (d : Display) (now : Nanos) (key : String) (generation : Nat) :
    d.restartTimer now key generation = ⟨d.shared.record (·.recordPulse),
      if d.hasSender then (d.screen.cancelTimer key).startTimer key generation now
      else (d.screen.cancelTimer key).change
        (d.screen.board.advance key generation d.screen.board.curve.steps).board
        (d.screen.board.advance key generation d.screen.board.curve.steps).changes⟩ := by
  unfold restartTimer
  have hs := d.hasSender_cancelTimer key (d.shared.record (·.recordPulse)) rfl
  dsimp only
  rw [hs, d.screen.board_cancelTimer]
  split <;> rfl

theorem applyRate_cases (d : Display) (now : Nanos) (r : Rate Float) :
    (d.screen.board.renews r = false ∧ d.applyRate now r = d.showRate r) ∨
    (d.screen.board.renews r = true ∧
      d.applyRate now r = (d.showRate r).restartTimer now r.key (d.screen.board.generationOf r.key + 1)) := by
  rw [applyRate_eq, Board.pulse?_apply_eq]
  cases d.screen.board.renews r with
  | false => exact .inl ⟨rfl, rfl⟩
  | true => exact .inr ⟨rfl, rfl⟩

/-- From one state to another all counts go up by the pulses of these messages. -/
structure Counts (d : Display) (past : List Handling) (d' : Display) : Prop where
  generations : d'.screen.board.generations = d.screen.board.generations + pulses past
  told : d'.told = d.told + pulses past
  restarts : d'.restarts = d.restarts + pulses past
  rows : ∀ key, d'.screen.board.generationOf key = d.screen.board.generationOf key + pulsesOf key past
  curved : d.screen.board.Curved → d'.screen.board.Curved

theorem Counts.refl (d : Display) : d.Counts [] d := ⟨rfl, rfl, rfl, fun _ => rfl, id⟩

theorem Counts.trans {d'' : Display} {past later : List Handling} (h : d.Counts past d')
    (h' : d'.Counts later d'') : d.Counts (past ++ later) d'' where
  generations := by rw [h'.generations, h.generations, pulses, pulses, pulses, List.countP_append, Nat.add_assoc]
  told := by rw [h'.told, h.told, pulses, pulses, pulses, List.countP_append, Nat.add_assoc]
  restarts := by rw [h'.restarts, h.restarts, pulses, pulses, pulses, List.countP_append, Nat.add_assoc]
  rows key := by rw [h'.rows, h.rows, pulsesOf, pulsesOf, pulsesOf, List.countP_append, Nat.add_assoc]
  curved := h'.curved ∘ h.curved

/-- What leaves the rows alone, and tells of no pulse. -/
theorem counts_of_rows (rows : d'.screen.board.rows = d.screen.board.rows)
    (curve : d'.screen.board.curve = d.screen.board.curve) (told : d'.told = d.told)
    (restarts : d'.restarts = d.restarts) : d.Counts [] d' where
  generations := by rw [Board.generations, rows]; rfl
  told := told
  restarts := restarts
  rows key := by rw [Board.generationOf, Board.get?_eq_find?, rows, ← Board.get?_eq_find?]; rfl
  curved hc key row hrow := by
    rw [Board.get?_eq_find?, rows, ← Board.get?_eq_find?] at hrow
    rw [curve]
    exact hc key row hrow

theorem counts_advance (d : Display) (key : String) (generation step : Nat) {s : Shared} {screen : Screen}
    (board : screen.board = (d.screen.board.advance key generation step).board)
    (changes : screen.changes = d.screen.changes ++ (d.screen.board.advance key generation step).changes)
    (restarts : s.ledger.pulseRestarts = d.restarts) : d.Counts [] ⟨s, screen⟩ where
  generations := by
    rw [board]
    exact Board.generations_advance ..
  told := by
    have htold : told ⟨s, screen⟩ =
        d.told + (d.screen.board.advance key generation step).changes.countP Change.isPulse := by
      simp [Display.told, changes, List.countP_append]
    rw [htold, Board.countP_advance]
    rfl
  restarts := restarts
  rows k := by
    rw [board]
    exact Board.generationOf_advance ..
  curved hc := by
    rw [board]
    exact Board.Curved.advance hc key generation step

/-- A message by which no row pulses anew. -/
theorem Counts.single {m : Message} (h : d.Counts [] d') (hn : (Handling.mk d m d').renewed? = none) :
    d.Counts [⟨d, m, d'⟩] d' where
  generations := by rw [h.generations]; simp [pulses, hn]
  told := by rw [h.told]; simp [pulses, hn]
  restarts := by rw [h.restarts]; simp [pulses, hn]
  rows key := by rw [h.rows]; simp [pulsesOf, hn]
  curved := h.curved

theorem counts_showRate (d : Display) (r : Rate Float) :
    (d.showRate r).screen.board.generations = d.screen.board.generations + (d.screen.board.renews r).toNat ∧
    (d.showRate r).told = d.told + (d.screen.board.renews r).toNat ∧
    (∀ key, (d.showRate r).screen.board.generationOf key =
      d.screen.board.generationOf key + (d.screen.board.renews r && r.key == key).toNat) ∧
    (d.screen.board.Curved → (d.showRate r).screen.board.Curved) :=
  ⟨Board.generations_apply .., (told_change ..).trans (congrArg _ (Board.countP_apply ..)),
    Board.generationOf_apply _ r, fun h => h.apply r⟩

theorem counts_restartTimer (d : Display) (now : Nanos) (key : String) (generation : Nat) :
    Counts ⟨d.shared.record (·.recordPulse), d.screen⟩ [] (d.restartTimer now key generation) := by
  obtain ⟨inFlight, timers, he⟩ := d.screen.cancelTimer_eq key
  rw [restartTimer_eq, he]
  cases d.hasSender with
  | true => exact counts_of_rows rfl rfl rfl rfl
  | false => exact counts_advance _ key generation d.screen.board.curve.steps rfl rfl rfl

theorem counts_applyRate (d : Display) (now : Nanos) (r : Rate Float) :
    d.Counts [⟨d, .rateUpdated r, d.applyRate now r⟩] (d.applyRate now r) := by
  obtain ⟨hgenerations, htold, hrows, hcurved⟩ := d.counts_showRate r
  rcases d.applyRate_cases now r with ⟨hn, he⟩ | ⟨hn, he⟩
  · rw [he]
    simp only [hn] at hgenerations htold hrows
    exact Counts.single ⟨hgenerations, htold, rfl, hrows, hcurved⟩ (by simp [Handling.renewed?, hn])
  · have hrestart := (d.showRate r).counts_restartTimer now r.key (d.screen.board.generationOf r.key + 1)
    have hrenewed : (Handling.mk d (.rateUpdated r) (d.applyRate now r)).renewed? = some r.key := if_pos hn
    have hone : pulses [⟨d, .rateUpdated r, d.applyRate now r⟩] = 1 := by simp [pulses, hrenewed]
    have hself (key : String) : pulsesOf key [⟨d, .rateUpdated r, d.applyRate now r⟩] = (r.key == key).toNat := by
      cases hk : r.key == key <;> simp_all [pulsesOf]
    rw [← he] at hrestart
    simp only [hn, Bool.toNat_true, Bool.true_and] at hgenerations htold hrows
    constructor
    · rw [hrestart.generations, hone]
      exact hgenerations
    · rw [hrestart.told, hone]
      exact htold
    · rw [hrestart.restarts, hone]
      rfl
    · intro key
      rw [hrestart.rows, hself]
      exact hrows key
    · exact fun hc => hrestart.curved (hcurved hc)

def operate (d : Display) (o : Board.Op Float) : Display :=
  { d with screen := d.screen.change (d.screen.board.perform o).1 (d.screen.board.tell o) }

theorem counts_operate {o : Board.Op Float} (h : o.isAside) (d : Display) : d.Counts [] (d.operate o) := by
  obtain ⟨hrows, hcurve⟩ := Board.rows_perform h d.screen.board
  refine counts_of_rows hrows hcurve ?_ rfl
  exact (told_change ..).trans (by rw [Board.countP_tell h]; rfl)

/-- Each message that a screen takes is counted. -/
theorem counts_handle (d : Display) (now : Nanos) (m : Message) :
    d.Counts [⟨d, m, d.handle now m⟩] (d.handle now m) := by
  cases m with
  | rateUpdated r => exact d.counts_applyRate now r
  | decayStep key generation step =>
    obtain ⟨-, hchanges⟩ := d.screen.decay_fields key generation step
    exact Counts.single (d.counts_advance key generation step (d.screen.decay_eq ..).2 hchanges rfl) rfl
  | refreshStatus =>
    exact Counts.single (counts_operate (o := .refresh ((Time.Timestamp.ofNanos now).clockAt 0)) rfl d) rfl
  | invoke errand =>
    refine Counts.single ?_ rfl
    cases errand with
    | setStatus text => exact counts_operate (o := .setStatus text) rfl d
    | report | fail => exact counts_of_rows rfl rfl rfl rfl
  | shutdown => exact Counts.single (counts_of_rows rfl rfl rfl rfl) rfl

end Display

/-! ## Timers -/

namespace Handling

theorem started_eq {h : Handling} {f : Timer → Timer} {new : List Timer}
    (timers : h.after.screen.timers = h.before.screen.timers.map f ++ new) : h.started = new := by
  rw [started, timers, List.drop_left' (List.length_map f)]

/-- What becomes of the timers with a message: those there were go on with their pulses,
and a row that pulses anew either has one started or is settled. -/
structure Answered (h : Handling) : Prop where
  timers : ∃ f : Timer → Timer, (∀ t, (f t).pulse = t.pulse) ∧
    h.after.screen.timers = h.before.screen.timers.map f ++ h.started
  once : h.started.length + h.settled.toNat = h.renewed?.isSome.toNat
  generation : ∀ t ∈ h.started, h.renewed? = some t.key ∧ t.generation = h.after.screen.board.generationOf t.key

theorem answered_of_none {h : Handling} {f : Timer → Timer} (kept : ∀ t, (f t).pulse = t.pulse)
    (timers : h.after.screen.timers = h.before.screen.timers.map f) (settled : h.settled = false)
    (renewed : h.renewed? = none) : h.Answered := by
  have hstarted : h.started = [] := started_eq (f := f) (timers.trans (List.append_nil _).symm)
  refine ⟨⟨f, kept, by rw [hstarted, List.append_nil, timers]⟩, ?_, ?_⟩
  · rw [hstarted, settled, renewed]
    rfl
  · rw [hstarted]
    exact nofun

end Handling

namespace Display

open Handling (pulses pulsesOf)

theorem pulse_cancelIf (s : Screen) (key : String) (t : Timer) : (s.cancelIf key t).pulse = t.pulse :=
  Prod.ext (s.key_cancelIf key t) (s.generation_cancelIf key t)

theorem timers_restartTimer (d : Display) (now : Nanos) (key : String) (generation : Nat) :
    (d.restartTimer now key generation).screen.timers = d.screen.timers.map (d.screen.cancelIf key) ++
      if d.hasSender then [.ofPulse key generation d.screen.board.curve now] else [] := by
  rw [restartTimer_eq]
  cases d.hasSender with
  | true => simp [Screen.startTimer, Screen.timers_cancelTimer, Screen.board_cancelTimer]
  | false => simp [Screen.change, Screen.timers_cancelTimer]

theorem board_restartTimer (d : Display) (now : Nanos) (key : String) (generation : Nat) :
    (d.restartTimer now key generation).screen.board =
      if d.hasSender then d.screen.board
      else (d.screen.board.advance key generation d.screen.board.curve.steps).board := by
  rw [restartTimer_eq]
  cases d.hasSender with
  | true => exact d.screen.board_cancelTimer key
  | false => rfl

/-- A row that comes to a pulse with nobody left who could post is dark at once. -/
theorem dark_of_no_sender {d : Display} {r : Rate Float} (hc : d.screen.board.Curved)
    (renews : d.screen.board.renews r) (alone : d.hasSender = false) (now : Nanos) :
    ((d.applyRate now r).screen.board.get? r.key).all (!·.isDecaying) := by
  obtain ⟨row, hrow, hmid⟩ := (Option.any_eq_true _ _).mp renews
  have hupdate : (row.update r).row = row.pulsing r := by
    rcases row.update_cases r with ⟨hm, -⟩ | ⟨-, he⟩
    · simp [bne, hm] at hmid
    · rw [he]
  have hshown : (d.showRate r).screen.board.get? r.key = some (row.pulsing r) := by
    have happly := d.screen.board.get?_apply r r.key
    rwa [if_pos rfl, Board.rowAfter, hrow, Option.elim_some, hupdate] at happly
  have hcurve : (row.pulsing r).curve = (d.showRate r).screen.board.curve := hc.apply r _ _ hshown
  have hgeneration : d.screen.board.generationOf r.key = row.generation := by
    rw [Board.generationOf, hrow]
    rfl
  have hlast :
      ((row.pulsing r).advance (row.generation + 1) (row.pulsing r).curve.steps).row.isDecaying = false := by
    rw [Row.advance_last (e := ⟨row.generation + 1, 0, 1⟩) rfl (row.pulsing r).curve.steps_pos]
    rfl
  rcases d.applyRate_cases now r with ⟨hn, -⟩ | ⟨-, he⟩
  · rw [renews] at hn
    cases hn
  · rw [he, board_restartTimer, show (d.showRate r).hasSender = false from alone, if_neg Bool.false_ne_true,
      (Board.advance_of_get? hshown _ _).2.2, if_pos rfl, hgeneration, ← hcurve, Option.all_some, hlast]
    rfl

theorem answered_applyRate {d : Display} (hc : d.screen.board.Curved) (now : Nanos) (r : Rate Float) :
    (Handling.mk d (.rateUpdated r) (d.applyRate now r)).Answered := by
  have hrows := (d.counts_applyRate now r).rows r.key
  rcases d.applyRate_cases now r with ⟨hn, he⟩ | ⟨hn, he⟩
  · have hrenewed : (Handling.mk d (.rateUpdated r) (d.applyRate now r)).renewed? = none := by
      simp [Handling.renewed?, hn]
    refine Handling.answered_of_none (f := id) (fun _ => rfl) ?_ ?_ hrenewed
    · rw [he, List.map_id]
      rfl
    · -- the generation is what it was
      have hsame : pulsesOf r.key [⟨d, .rateUpdated r, d.applyRate now r⟩] = 0 := by simp [pulsesOf, hrenewed]
      rw [hsame] at hrows
      simp [Handling.settled, hrows]
  · have hrenewed : (Handling.mk d (.rateUpdated r) (d.applyRate now r)).renewed? = some r.key := if_pos hn
    have hone : pulsesOf r.key [⟨d, .rateUpdated r, d.applyRate now r⟩] = 1 := by simp [pulsesOf, hrenewed]
    rw [hone] at hrows
    have htimers := (d.showRate r).timers_restartTimer now r.key (d.screen.board.generationOf r.key + 1)
    rw [← he, show (d.showRate r).hasSender = d.hasSender from rfl] at htimers
    have hstarted := Handling.started_eq (h := ⟨d, .rateUpdated r, d.applyRate now r⟩) htimers
    refine ⟨⟨_, pulse_cancelIf _ r.key, by rw [hstarted]; exact htimers⟩, ?_, ?_⟩
    · rw [hstarted, hrenewed]
      cases hs : d.hasSender with
      | true => simp [Handling.settled, hs]
      | false =>
        have hdark := dark_of_no_sender hc hn hs now
        simp [Handling.settled, hs, hrows, hdark]
    · rw [hstarted]
      intro t ht
      split at ht
      · cases List.mem_singleton.mp ht
        exact ⟨hrenewed, hrows.symm⟩
      · cases ht

theorem answered_handle {d : Display} (hc : d.screen.board.Curved) (now : Nanos) (m : Message) :
    (Handling.mk d m (d.handle now m)).Answered := by
  cases m with
  | rateUpdated r => exact answered_applyRate hc now r
  | decayStep key generation step =>
    refine Handling.answered_of_none (f := id) (fun _ => rfl) ?_ rfl rfl
    rw [List.map_id]
    exact (d.screen.decay_fields key generation step).1
  | refreshStatus => exact Handling.answered_of_none (f := id) (fun _ => rfl) (List.map_id _).symm rfl rfl
  | invoke errand =>
    refine Handling.answered_of_none (f := id) (fun _ => rfl) ?_ rfl rfl
    rw [List.map_id]
    cases errand <;> rfl
  | shutdown => exact Handling.answered_of_none (f := Timer.cancel) (fun _ => rfl) rfl rfl rfl

end Display

/-! ## Runs -/

namespace Display

open Handling (pulses pulsesOf)

variable {d₀ d d' : Display} {past : List Handling} {posted : List Message} {now : Nanos}

/-- What others do around a screen. They post whatever they like, also decay steps of
their own making. -/
inductive Around (d : Display) : Display → Prop
  | post (m : Message) : Around d (d.post m).2
  | request : Around d d.request.2
  /-- A thread that uses the hub makes a move. -/
  | move (mv : Move) (t : Thread) : Around d { d with shared := (mv.make d.shared t).1 }
  | share {s : Shared} (h : s.ledger.pulseRestarts = d.shared.ledger.pulseRestarts) :
    Around d { d with shared := s }
  | start : Around d d.start
  | cancel : Around d d.cancel
  | release : Around d d.release
  | drop : Around d d.drop
  | abort : Around d d.abort

def handlings (d : Display) (now : Nanos) : List Handling :=
  match d.act now with
  | .take m => [⟨d.taken, m, d.taken.handle now m⟩]
  | _ => []

/-- What can come of a screen, the messages it handled so far, and the steps that its
timers posted. A task that was invoked does to the board what it likes, but it shows no
rate and takes no decay step. -/
inductive Recorded (d₀ : Display) : List Handling → List Message → Display → Prop
  | start : Recorded d₀ [] [] d₀
  | act {past : List Handling} {posted : List Message} {d : Display} (h : Recorded d₀ past posted d) (now : Nanos) :
      Recorded d₀ (past ++ d.handlings now) posted (d.step now (d.act now))
  | task {past : List Handling} {posted : List Message} {d : Display} {errand : Errand}
      (h : Recorded d₀ past posted d) (now : Nanos) (ha : d.act now = .take (.invoke errand))
      {os : List (Board.Op Float)} (aside : ∀ o ∈ os, o.isAside) :
      Recorded d₀ (past ++ d.handlings now) posted (os.foldl operate (d.step now (d.act now)))
  | tick {past : List Handling} {posted : List Message} {d : Display} {before after : List Timer} {t : Timer}
      (h : Recorded d₀ past posted d) (ht : d.screen.timers = before ++ t :: after) :
      Recorded d₀ past (posted ++ [t.message]) (d.tick before t after)
  | retire {past : List Handling} {posted : List Message} {d : Display} {before after : List Timer} {t : Timer}
      (h : Recorded d₀ past posted d) (ht : d.screen.timers = before ++ t :: after) :
      Recorded d₀ past posted { d with screen := { d.screen with timers := before ++ after } }
  | around {past : List Handling} {posted : List Message} {d d' : Display} (h : Recorded d₀ past posted d)
      (ha : d.Around d') : Recorded d₀ past posted d'

/-- What leaves the count as it is: no row comes to a pulse, and no timer to another. -/
structure Idles (d d' : Display) : Prop where
  counts : d.Counts [] d'
  timers : ∀ t ∈ d'.screen.timers, ∃ u ∈ d.screen.timers, u.pulse = t.pulse

theorem idles_of_timers (counts : d.Counts [] d') (timers : d'.screen.timers = d.screen.timers) : d.Idles d' :=
  ⟨counts, fun t ht => ⟨t, timers ▸ ht, rfl⟩⟩

theorem idles_of_screen (screen : d'.screen = d.screen) (restarts : d'.restarts = d.restarts) : d.Idles d' :=
  idles_of_timers (counts_of_rows (by rw [screen]) (by rw [screen]) (by rw [told, screen]; rfl) restarts)
    (by rw [screen])

theorem idles_step (h : ∀ m, d.act now ≠ .take m) : d.Idles (d.step now (d.act now)) := by
  have stops (e : Display) (he : e.screen = d.screen) (hr : e.restarts = d.restarts) : d.Idles e.stop := by
    have htold : e.stop.told = d.told := (show e.stop.told = e.told from rfl).trans (by rw [told, he]; rfl)
    refine ⟨counts_of_rows (by rw [← he]; rfl) (by rw [← he]; rfl) htold hr, fun t ht => ?_⟩
    obtain ⟨u, hu, rfl⟩ := List.mem_map.mp ht
    exact ⟨u, he ▸ hu, rfl⟩
  cases ha : d.act now with
  | wait => exact idles_of_screen rfl rfl
  | begin => exact idles_of_timers (counts_of_rows rfl rfl rfl rfl) rfl
  | heedCancel => exact stops _ rfl rfl
  | leave => exact stops _ rfl rfl
  | refresh due =>
    have hrefresh := counts_operate (o := .refresh ((Time.Timestamp.ofNanos now).clockAt 0)) rfl d
    exact idles_of_timers (hrefresh.trans (counts_of_rows rfl rfl rfl rfl)) rfl
  | take m => exact absurd ha (h m)

/-- What a record of a screen that was new at first has in it. -/
structure Tallied (d₀ : Display) (past : List Handling) (posted : List Message) (d : Display) : Prop where
  counts : d₀.Counts past d
  after : ∀ i h, past[i]? = some h → d₀.Counts (past.take (i + 1)) h.after
  answered : ∀ h ∈ past, h.Answered
  timers : ∀ t ∈ d.screen.timers, ∃ h ∈ past, ∃ u ∈ h.started, u.pulse = t.pulse
  posted : ∀ m ∈ posted, ∃ h ∈ past, ∃ u ∈ h.started, ∃ step, m = .decayStep u.key u.generation step

theorem Tallied.idle (h : Tallied d₀ past posted d) (hi : d.Idles d') : Tallied d₀ past posted d' where
  counts := List.append_nil past ▸ h.counts.trans hi.counts
  after := h.after
  answered := h.answered
  timers t ht := by
    obtain ⟨u, hu, hp⟩ := hi.timers t ht
    obtain ⟨e, he, v, hv, hpv⟩ := h.timers u hu
    exact ⟨e, he, v, hv, hpv.trans hp⟩
  posted := h.posted

theorem Tallied.handle (h : Tallied d₀ past posted d) (hc : d.screen.board.Curved) (now : Nanos) (m : Message) :
    Tallied d₀ (past ++ [⟨d.taken, m, d.taken.handle now m⟩]) posted (d.taken.handle now m) := by
  have htaken : d.Counts [] d.taken := counts_of_rows rfl rfl rfl rfl
  have hcounts := h.counts.trans (htaken.trans (d.taken.counts_handle now m))
  have hanswered : (Handling.mk d.taken m (d.taken.handle now m)).Answered :=
    answered_handle (d := d.taken) hc now m
  refine ⟨hcounts, fun i e he => ?_, fun e he => ?_, fun t ht => ?_, fun n hn => ?_⟩
  · by_cases hi : i < past.length
    · rw [List.getElem?_append_left hi] at he
      rw [List.take_append_of_le_length hi]
      exact h.after i e he
    · obtain ⟨hlt, -⟩ := List.getElem?_eq_some_iff.mp he
      obtain rfl : i = past.length := by simp at hlt; omega
      rw [List.getElem?_concat_length] at he
      cases he
      rw [List.take_of_length_le (by simp)]
      exact hcounts
  · rcases List.mem_append.mp he with he | he
    · exact h.answered e he
    · exact List.mem_singleton.mp he ▸ hanswered
  · obtain ⟨f, hf, htimers⟩ := hanswered.timers
    rw [show (d.taken.handle now m).screen.timers = _ from htimers] at ht
    rcases List.mem_append.mp ht with ht | ht
    · obtain ⟨u, hu, rfl⟩ := List.mem_map.mp ht
      obtain ⟨e, he, v, hv, hp⟩ := h.timers u hu
      exact ⟨e, List.mem_append_left _ he, v, hv, hp.trans (hf u).symm⟩
    · exact ⟨_, List.mem_append_right _ List.mem_cons_self, t, ht, rfl⟩
  · obtain ⟨e, he, hrest⟩ := h.posted n hn
    exact ⟨e, List.mem_append_left _ he, hrest⟩

theorem Tallied.act (h : Tallied d₀ past posted d) (hc : d.screen.board.Curved) (now : Nanos) :
    Tallied d₀ (past ++ d.handlings now) posted (d.step now (d.act now)) := by
  by_cases ht : ∃ m, d.act now = .take m
  · obtain ⟨m, ha⟩ := ht
    simp only [handlings, ha]
    exact h.handle hc now m
  · have hnone : ∀ m, d.act now ≠ .take m := not_exists.mp ht
    have hempty : d.handlings now = [] := by
      unfold handlings
      split
      · exact absurd ‹_› (hnone _)
      · rfl
    rw [hempty, List.append_nil]
    exact h.idle (idles_step hnone)

theorem timers_tick {before after : List Timer} {t : Timer} (ht : d.screen.timers = before ++ t :: after) :
    ∀ u ∈ (d.tick before t after).screen.timers, ∃ v ∈ d.screen.timers, v.pulse = u.pulse := by
  intro u hu
  rw [ht]
  rcases List.mem_append.mp hu with hu | hu
  · exact ⟨u, List.mem_append_left _ hu, rfl⟩
  · rcases List.mem_append.mp hu with hu | hu
    · refine ⟨t, List.mem_append_right _ List.mem_cons_self, ?_⟩
      simp only [Timer.post, Option.mem_toList] at hu
      split at hu
      · cases hu
        rfl
      · cases hu
    · exact ⟨u, List.mem_append_right _ (List.mem_cons_of_mem _ hu), rfl⟩

theorem Tallied.tick (h : Tallied d₀ past posted d) {before after : List Timer} {t : Timer}
    (ht : d.screen.timers = before ++ t :: after) :
    Tallied d₀ past (posted ++ [t.message]) (d.tick before t after) := by
  have hidle : d.Idles (d.tick before t after) := ⟨counts_of_rows rfl rfl rfl rfl, timers_tick ht⟩
  refine { h.idle hidle with posted := fun m hm => ?_ }
  rcases List.mem_append.mp hm with hm | hm
  · exact h.posted m hm
  · obtain ⟨e, he, u, hu, hp⟩ := h.timers t (ht ▸ List.mem_append_right _ List.mem_cons_self)
    have hkey : u.key = t.key := congrArg Prod.fst hp
    have hgeneration : u.generation = t.generation := congrArg Prod.snd hp
    refine ⟨e, he, u, hu, t.next, ?_⟩
    rw [List.mem_singleton.mp hm, Timer.message, hkey, hgeneration]

theorem Recorded.turns (h : Recorded d₀ past posted d) (ht : ReflTransGen Turn d d') :
    ∃ past posted, Recorded d₀ past posted d' := by
  induction ht with
  | refl => exact ⟨past, posted, h⟩
  | tail _ ht ih =>
    obtain ⟨past, posted, h⟩ := ih
    cases ht with
    | act now => exact ⟨_, _, h.act now⟩
    | tick ht => exact ⟨_, _, h.tick ht⟩
    | retire ht => exact ⟨_, _, h.retire ht⟩

end Display

end PriceBoard
