import Mathlib.Algebra.GroupWithZero.Nat
import Mathlib.Data.List.Basic
import PriceBoard.Hub.Calls

/-!
# Accounts

What the hub counts over calls that are made one after the other. Handlers may fail,
and may use the hub; what they do with it leaves the books alone (`books_run`). So each
call makes one entry in the books: an accepted rate, a refused one, the failures of a
replay, or nothing (`entry_call`). The totals follow by induction over the calls
(`accounts_of_serve`).
-/

namespace PriceBoard

namespace Move

/-! ## Runs of a move -/

theorem runTo_eq_runTo : ∀ (d e : Nat) (mv : Move) (state : Shared × Thread), mv.depth < d → mv.depth < e →
    mv.runTo d state = mv.runTo e state
  | 0, _, _, _, hd, _ => absurd hd (Nat.not_lt_zero _)
  | _, 0, _, _, _, he => absurd he (Nat.not_lt_zero _)
  | d + 1, e + 1, mv, (s, t), hd, he => by
    refine List.foldl_ext _ _ _ fun state n hn => ?_
    -- what the move brings on is of lower depth
    have hlt := depth_lt_of_mem_make s t mv n hn
    exact runTo_eq_runTo d e n state (by omega) (by omega)

theorem run_eq (mv : Move) (s : Shared) (t : Thread) :
    mv.run (s, t) = (mv.make s t).2.2.foldl run ((mv.make s t).1, (mv.make s t).2.1) := by
  refine List.foldl_ext _ _ _ fun state n hn => ?_
  exact runTo_eq_runTo _ _ n state (depth_lt_of_mem_make s t mv n hn) (Nat.lt_succ_self _)

end Move

/-! ## Books -/

/-- What the hub counts, and what its counts depend on. -/
structure Books where
  table : RateTable Float
  publishes : Nat
  turns : Nat
  report : Report
  published : List (String × Nat)
  rejected : List (RejectReason × Nat)
  timings : Nat
  failures : Nat
  instruments : Option Nat

def books (state : Shared × Thread) : Books where
  table := state.1.hub.table
  publishes := state.1.hub.publishes
  turns := state.1.hub.deliveries.size
  report := state.2.report
  published := state.1.ledger.published
  rejected := state.1.ledger.rejected
  timings := state.1.ledger.publishTimings
  failures := state.1.ledger.subscriberFailures
  instruments := state.1.ledger.instruments

/-- Whether a move is none of a publish's or a load's own: it leaves the books alone. -/
def Move.isAside : Move → Bool
  | reject .. | copyEntries _ | writeTable .. | countPublish | deliver .. | conclude .. | account .. | copyTable ..
  | registerLoading .. => false
  | _ => true

namespace Move

variable {mv n : Move} {s : Shared} {t : Thread}

theorem isAside_of_mem_make (h : mv.isAside) (hn : n ∈ (mv.make s t).2.2) : n.isAside := by
  cases mv with
  | act name r a => cases a <;> simp [make, Action.moves] at hn <;> subst hn <;> rfl
  | unregister id asker =>
    simp only [make, List.mem_cons, List.not_mem_nil, or_false] at hn
    rcases hn with rfl | rfl
    · split <;> rfl
    · rfl
  | reply asker r => cases asker <;> simp [make] at hn
  | _ => simp [make] at hn <;> simp [isAside] at h <;> grind [isAside]

theorem books_make (h : mv.isAside) (s : Shared) (t : Thread) :
    books ((mv.make s t).1, (mv.make s t).2.1) = books (s, t) := by
  cases mv with
  | act name r a =>
    cases a with
    | forward =>
      simp only [make, Action.effect, Shared.forward]
      split <;> rfl
    | _ => rfl
  | reply asker r =>
    cases asker with
    | program => rfl
    | handler name => simp only [make]; cases r.note? name <;> rfl
  | _ => first | rfl | cases h

theorem books_run {mv : Move} (h : mv.isAside) (state : Shared × Thread) : books (mv.run state) = books state := by
  obtain ⟨s, t⟩ := state
  rw [run_eq]
  refine List.foldlRecOn (motive := fun u => books u = books (s, t)) _ run (books_make h s t) fun u hu n hn => ?_
  rw [books_run (isAside_of_mem_make h hn) u, hu]
termination_by mv.depth
decreasing_by exact depth_lt_of_mem_make s t mv n hn

theorem books_foldl {moves : List Move} (h : ∀ mv ∈ moves, mv.isAside) (state : Shared × Thread) :
    books (moves.foldl run state) = books state := by
  refine List.foldlRecOn (motive := fun u => books u = books state) moves run rfl fun u hu mv hm => ?_
  rw [books_run (h mv hm), hu]

end Move

/-! ## Handlers that end -/

def Ending.isFailure : Ending → Bool
  | .returns => false
  | .fails _ | .failsOnKey _ => true

/-- How handlers end that are called one after the other, the first one after so many
deliveries of the hub. -/
def endings : Nat → List (Handler × Rate Float) → List Ending
  | _, [] => []
  | turn, (h, r) :: jobs => h.endingOn turn r :: endings (turn + 1) jobs

theorem length_endings : ∀ (turn : Nat) (jobs : List (Handler × Rate Float)),
    (endings turn jobs).length = jobs.length
  | _, [] => rfl
  | turn, _ :: jobs => congrArg (· + 1) (length_endings (turn + 1) jobs)

def Report.ofEndings (ends : List Ending) : Report := ⟨ends.countP (!·.isFailure), ends.countP (·.isFailure)⟩

theorem Report.ofEndings_total (ends : List Ending) :
    (ofEndings ends).delivered + (ofEndings ends).failed = ends.length := by
  have h := List.length_eq_countP_add_countP (·.isFailure) (l := ends)
  simp only [ofEndings, h, Nat.add_comm]
  simp

namespace Books

/-- The books after handlers were called and ended. -/
def heard (b : Books) (ends : List Ending) : Books :=
  { b with
    turns := b.turns + ends.length
    report := ⟨b.report.delivered + ends.countP (!·.isFailure), b.report.failed + ends.countP (·.isFailure)⟩
    failures := b.failures + ends.countP (·.isFailure) }

theorem heard_cons (b : Books) (e : Ending) (ends : List Ending) :
    b.heard (e :: ends) = (b.heard [e]).heard ends := by
  simp [heard, List.countP_cons]
  omega

end Books

namespace Move

theorem books_conclude (name key : String) (ending : Ending) (s : Shared) (t : Thread) :
    books ((conclude name key ending).run (s, t)) =
      { (books (s, t)).heard [ending] with turns := (books (s, t)).turns } := by
  rw [run_eq]
  cases ending <;> rfl

theorem books_deliver (e : Registration Handler) (r : Rate Float) (s : Shared) (t : Thread) :
    books ((deliver e r).run (s, t)) = (books (s, t)).heard [e.subscriber.endingOn (books (s, t)).turns r] := by
  rw [run_eq, make, List.foldl_append, List.foldl_cons, List.foldl_nil]
  -- what the handler does before it ends leaves the books alone
  have hacts : ∀ mv ∈ (e.subscriber.actionsOn s.hub.deliveries.size r).map (act e.subscriber.name r ·),
      mv.isAside := by simp [isAside]
  refine (books_conclude ..).trans ?_
  rw [books_foldl hacts]
  simp [books, Books.heard]

theorem books_deliveries : ∀ (jobs : List (Registration Handler × Rate Float)) (state : Shared × Thread),
    books ((jobs.map fun j => deliver j.1 j.2).foldl run state) =
      (books state).heard (endings (books state).turns (jobs.map fun j => (j.1.subscriber, j.2)))
  | [], _ => rfl
  | (e, r) :: jobs, (s, t) => by
    simp only [List.map_cons, List.foldl_cons, endings]
    rw [books_deliveries jobs, books_deliver, ← Books.heard_cons]
    rfl

theorem books_account (r : Rate Float) (n : Nat) (s : Shared) (t : Thread) :
    books ((account r n).run (s, t)) = { books (s, t) with
      published := raise r.key (books (s, t)).published
      timings := (books (s, t)).timings + 1
      instruments := some n } := by
  rw [run_eq]
  rfl

theorem back?_replies {moves : List Move} {r : Reply} (h : moves.getLast? = some (reply .program r))
    (state : Shared × Thread) : (moves.foldl run state).2.replies.back? = some r := by
  obtain ⟨before, rfl⟩ := List.getLast?_eq_some_iff.mp h
  rw [List.foldl_append, List.foldl_cons, List.foldl_nil, run_eq]
  simp [make]

theorem reply_account (r : Rate Float) (n : Nat) (s : Shared) (t : Thread) :
    ((account r n).run (s, t)).2.replies.back? = some (.published (books (s, t)).report) := by
  rw [run_eq]
  exact back?_replies rfl _

end Move

/-! ## Publishing and loading -/

namespace Hub

def receivers (hub : Hub) (r : Rate Float) : List (Handler × Rate Float) :=
  (hub.registry.matching r.key).map fun e => (e.subscriber, r)

def replays (hub : Hub) (h : Handler) (f : Filter) : List (Handler × Rate Float) :=
  (hub.table.rates.filter fun r => f.admits r.key).map fun r => (h, r)

end Hub

namespace Move

/-- A publish, up to the move that accounts for it. -/
theorem run_copyEntries (r : Rate Float) (s : Shared) (t : Thread) :
    ∃ state, (copyEntries r).run (s, t) = (account r (s.hub.table.insert r).size).run state ∧
      books state = { books (s, { t with report := {} }) with
        table := s.hub.table.insert r
        publishes := s.hub.publishes + 1 }.heard (endings s.hub.deliveries.size (s.hub.receivers r)) := by
  rw [run_eq, make, List.foldl_cons, List.foldl_nil, run_eq, make, List.cons_append, List.foldl_cons,
    List.foldl_append]
  refine ⟨_, rfl, ?_⟩
  have hjobs := books_deliveries ((s.hub.registry.matching r.key).map fun e => (e, r))
  simp only [List.map_map] at hjobs
  refine (hjobs _).trans ?_
  rw [run_eq]
  rfl

theorem books_registerLoading (h : Handler) (f : Filter) (replay : List (Rate Float)) (s : Shared) (t : Thread) :
    books ((registerLoading h f replay).run (s, t)) =
      (books (s, t)).heard (endings s.hub.deliveries.size (replay.map fun r => (h, r))) := by
  have hjobs := books_deliveries (replay.map fun r => (⟨s.hub.registry.nextId, f, h⟩, r))
  simp only [List.map_map] at hjobs
  rw [run_eq]
  simp only [make, Registry.register, List.cons_append, List.foldl_cons, List.foldl_append, List.foldl_nil]
  rw [books_run rfl, books_run rfl]
  refine (hjobs _).trans ?_
  have htell : ∀ id name n state, books ((tellRegistered id name n).run state) = books state :=
    fun _ _ _ _ => books_run rfl _
  simp only [htell]
  rfl

theorem books_copyTable (h : Handler) (f : Filter) (s : Shared) (t : Thread) :
    books ((copyTable h f).run (s, t)) =
      (books (s, t)).heard (endings s.hub.deliveries.size (s.hub.replays h f)) := by
  rw [run_eq]
  exact books_registerLoading h f _ s t

theorem reply_copyTable (h : Handler) (f : Filter) (s : Shared) (t : Thread) :
    ((copyTable h f).run (s, t)).2.replies.back? = some (.registered s.hub.registry.nextId) := by
  rw [run_eq, make, List.foldl_cons, List.foldl_nil, run_eq]
  exact back?_replies (by simp only [make, Registry.register, List.getLast?_append]; rfl) _

end Move

/-! ## Calls -/

theorem sum_raise {κ : Type} [DecidableEq κ] (key : κ) (counts : List (κ × Nat)) :
    ((raise key counts).map (·.2)).sum = (counts.map (·.2)).sum + 1 := by
  induction counts with
  | nil => rfl
  | cons p rest ih =>
    obtain ⟨k, n⟩ := p
    simp only [raise]
    split
    · simp only [List.map_cons, List.sum_cons]
      omega
    · simp only [List.map_cons, List.sum_cons, ih]
      omega

def Call.key? : Call → Option String
  | .publish r => some r.key
  | _ => none

def Reply.report? : Reply → Option Report
  | .published report => some report
  | _ => none

def Reply.reason? : Reply → Option RejectReason
  | .rejected fault => some fault.reason
  | _ => none

/-- How a handler ends each time that a call has a rate replayed to it. -/
def Hub.replayed (hub : Hub) : Call → List Ending
  | .subscribeAndLoad h f => endings hub.deliveries.size (hub.replays h f)
  | _ => []

structure Served where
  call : Call
  before : Hub
  reply : Option Reply

namespace Served

def report? (v : Served) : Option Report := v.reply.bind (·.report?)

def reason? (v : Served) : Option RejectReason := v.reply.bind (·.reason?)

def replayed (v : Served) : List Ending := v.before.replayed v.call

end Served

def Shared.serve (s : Shared) : List Call → List Served × Shared
  | [] => ([], s)
  | c :: calls =>
    let (reply, next) := s.call c
    let (served, last) := next.serve calls
    (⟨c, s.hub, reply⟩ :: served, last)

/-- What one call adds to the books, and what it answers. -/
inductive Entry (s : Shared) : Call → Option Reply → Shared → Prop
  | accepted {r : Rate Float} {s' : Shared} {ends : List Ending} (valid : r.IsValid)
      (ended : ends = endings s.hub.deliveries.size (s.hub.receivers r))
      (booked : books (s', {}) = { (books (s, {})).heard ends with
        table := s.hub.table.insert r
        publishes := s.hub.publishes + 1
        report := {}
        published := raise r.key s.ledger.published
        timings := s.ledger.publishTimings + 1
        instruments := some (s.hub.table.insert r).size }) :
      Entry s (.publish r) (some (.published (.ofEndings ends))) s'
  | refused {r : Rate Float} {s' : Shared} {fault : RateFault Float} (faulty : r.fault? = some fault)
      (booked : books (s', {}) = { books (s, {}) with rejected := raise fault.reason s.ledger.rejected }) :
      Entry s (.publish r) (some (.rejected fault)) s'
  | loaded {h : Handler} {f : Filter} {s' : Shared} {id : SubscriptionId}
      (booked : books (s', {}) =
        { (books (s, {})).heard (endings s.hub.deliveries.size (s.hub.replays h f)) with report := {} }) :
      Entry s (.subscribeAndLoad h f) (some (.registered id)) s'
  | aside {c : Call} {reply : Reply} {s' : Shared} (other : c.key? = none)
      (silent : ∀ hub : Hub, hub.replayed c = []) (quiet : reply.report? = none ∧ reply.reason? = none)
      (booked : books (s', {}) = books (s, {})) : Entry s c (some reply) s'

theorem books_shared (state : Shared × Thread) : books (state.1, {}) = { books state with report := {} } := rfl

namespace Shared

variable {s : Shared} {c : Call} {mv : Move}

theorem call_eq_of_moves (h : c.moves = [mv] ∨ c.moves = [.lockPublishing, mv, .unlockPublishing]) :
    s.call c = ((mv.run (s, {})).2.replies.back?, (mv.run (s, {})).1) := by
  rcases h with h | h <;> rw [call, runMoves, h] <;> rfl

theorem entry_publish (s : Shared) {r : Rate Float} (valid : r.fault? = none) :
    Entry s (.publish r) (s.call (.publish r)).1 (s.call (.publish r)).2 := by
  have hmoves : (Call.publish r).moves = [.lockPublishing, .copyEntries r, .unlockPublishing] := by
    simp [Call.moves, valid]
  obtain ⟨⟨s₁, t₁⟩, hrun, hbooks⟩ := Move.run_copyEntries r s {}
  rw [call_eq_of_moves (.inr hmoves), hrun, Move.reply_account, hbooks]
  have hreport : ∀ (b : Books) ends, b.report = {} → (b.heard ends).report = .ofEndings ends :=
    fun b ends hb => by simp [Books.heard, Report.ofEndings, hb]
  rw [hreport _ _ rfl]
  refine .accepted (by simp [Rate.IsValid, valid]) rfl ?_
  rw [books_shared, Move.books_account, hbooks]
  rfl

theorem entry_subscribeAndLoad (s : Shared) (h : Handler) (f : Filter) :
    Entry s (.subscribeAndLoad h f) (s.call (.subscribeAndLoad h f)).1 (s.call (.subscribeAndLoad h f)).2 := by
  rw [call_eq_of_moves (.inr rfl), Move.reply_copyTable]
  refine .loaded ?_
  rw [books_shared, Move.books_copyTable]

theorem entry_aside (h : c.moves = [mv]) (aside : mv.isAside) {moves : List Move} {state : Shared × Thread}
    {reply : Reply} (run : mv.run (s, {}) = moves.foldl Move.run state)
    (last : moves.getLast? = some (.reply .program reply))
    (quiet : reply.report? = none ∧ reply.reason? = none) (other : c.key? = none)
    (silent : ∀ hub : Hub, hub.replayed c = []) : Entry s c (s.call c).1 (s.call c).2 := by
  rw [call_eq_of_moves (.inl h), run, Move.back?_replies last, ← run]
  refine .aside other silent quiet ?_
  rw [books_shared, Move.books_run aside]
  rfl

theorem entry_call (s : Shared) (c : Call) : Entry s c (s.call c).1 (s.call c).2 := by
  cases c with
  | publish r =>
    cases hf : r.fault? with
    | some fault =>
      have hcall : s.call (.publish r) = (some (.rejected fault),
          (s.write (Hub.rejectedEntry r.key fault)).record (·.recordRejected fault.reason)) := by
        simp [call, runMoves, Call.moves, hf, Move.run_eq, Move.make]
      rw [hcall]
      exact .refused hf rfl
    | none => exact s.entry_publish hf
  | subscribeAndLoad h f => exact s.entry_subscribeAndLoad h f
  | subscribe h f => exact entry_aside rfl rfl (Move.run_eq ..) rfl ⟨rfl, rfl⟩ rfl fun _ => rfl
  | unsubscribe id => exact entry_aside rfl rfl (Move.run_eq ..) rfl ⟨rfl, rfl⟩ rfl fun _ => rfl
  | shutdown => exact entry_aside rfl rfl (Move.run_eq ..) rfl ⟨rfl, rfl⟩ rfl fun _ => rfl
  | ask q => exact entry_aside rfl rfl (Move.run_eq ..) rfl ⟨rfl, rfl⟩ rfl fun _ => rfl
  | check =>
    have run := (Move.run_eq (.checkTable .program) s {}).trans ((Move.run_eq ..).trans (Move.run_eq ..))
    exact entry_aside rfl rfl run rfl ⟨rfl, rfl⟩ rfl fun _ => rfl

end Shared

/-! ## Totals -/

structure Adds (b : Books) (v : Served) (b' : Books) : Prop where
  publishes : b'.publishes = b.publishes + [v].countP (·.report?.isSome)
  total : (b'.published.map (·.2)).sum = (b.published.map (·.2)).sum + [v].countP (·.report?.isSome)
  timings : b'.timings = b.timings + [v].countP (·.report?.isSome)
  published : ∀ key, countOf key b'.published =
    countOf key b.published + [v].countP fun v => v.report?.isSome && v.call.key? == some key
  rejected : ∀ reason, countOf reason b'.rejected =
    countOf reason b.rejected + [v].countP fun v => v.reason? == some reason
  failures : b'.failures = b.failures +
    ((([v].filterMap (·.report?)).map (·.failed)).sum + ([v].flatMap (·.replayed)).countP (·.isFailure))
  instruments : b'.instruments = if v.report?.isSome then some b'.table.size else b.instruments
  table : v.report? = none → b'.table = b.table

theorem Entry.adds {s s' : Shared} {c : Call} {reply : Option Reply} (h : Entry s c reply s') :
    Adds (books (s, {})) ⟨c, s.hub, reply⟩ (books (s', {})) := by
  cases h with
  | @accepted r _ ends valid ended booked =>
    rw [booked]
    refine ⟨rfl, sum_raise .., rfl, fun key => ?_, fun _ => rfl, rfl, rfl, nofun⟩
    rw [countOf_raise]
    simp [Served.report?, Reply.report?, Call.key?, books, eq_comm (a := r.key)]
  | @refused r _ fault faulty booked =>
    rw [booked]
    refine ⟨rfl, rfl, rfl, fun _ => rfl, fun reason => ?_, rfl, rfl, fun _ => rfl⟩
    rw [countOf_raise]
    simp [Served.reason?, Reply.reason?, books, eq_comm (a := fault.reason)]
  | @loaded h f _ id booked =>
    rw [booked]
    refine ⟨rfl, rfl, rfl, fun _ => rfl, fun _ => rfl, ?_, rfl, fun _ => rfl⟩
    simp [Books.heard, Served.report?, Reply.report?, Served.replayed, Hub.replayed]
  | @aside _ reply _ _ silent quiet booked =>
    have report : (Served.mk c s.hub (some reply)).report? = none := quiet.1
    have reason : (Served.mk c s.hub (some reply)).reason? = none := quiet.2
    rw [booked]
    constructor <;> simp [report, reason, Served.replayed, silent]

structure Balanced (served : List Served) (b : Books) : Prop where
  publishes : b.publishes = served.countP (·.report?.isSome)
  total : (b.published.map (·.2)).sum = b.publishes
  timings : b.timings = b.publishes
  published : ∀ key, countOf key b.published = served.countP fun v => v.report?.isSome && v.call.key? == some key
  rejected : ∀ reason, countOf reason b.rejected = served.countP fun v => v.reason? == some reason
  failures : b.failures =
    ((served.filterMap (·.report?)).map (·.failed)).sum + (served.flatMap (·.replayed)).countP (·.isFailure)
  instruments : b.instruments = if b.publishes = 0 then none else some b.table.size

theorem balanced_start : Balanced [] (books ({}, {})) := ⟨rfl, rfl, rfl, fun _ => rfl, fun _ => rfl, rfl, rfl⟩

theorem Balanced.snoc {served : List Served} {v : Served} {b b' : Books} (h : Balanced served b)
    (adds : Adds b v b') : Balanced (served ++ [v]) b' where
  publishes := by rw [List.countP_append, ← h.publishes, adds.publishes]
  total := by rw [adds.total, adds.publishes, h.total]
  timings := by rw [adds.timings, adds.publishes, h.timings]
  published key := by rw [List.countP_append, ← h.published, adds.published]
  rejected reason := by rw [List.countP_append, ← h.rejected, adds.rejected]
  failures := by
    rw [adds.failures, h.failures, List.filterMap_append, List.map_append, List.sum_append, List.flatMap_append,
      List.countP_append]
    omega
  instruments := by
    rw [adds.instruments, adds.publishes]
    cases hr : v.report? with
    | none => simp [hr, h.instruments, adds.table hr]
    | some report => simp [hr]

theorem Balanced.serve {calls : List Call} : ∀ {served : List Served} {s : Shared},
    Balanced served (books (s, {})) → Balanced (served ++ (s.serve calls).1) (books ((s.serve calls).2, {})) := by
  induction calls with
  | nil =>
    intro served s h
    rw [Shared.serve, List.append_nil]
    exact h
  | cons c calls ih =>
    intro served s h
    have hc := ih (h.snoc (s.entry_call c).adds)
    rw [List.append_assoc] at hc
    exact hc

theorem Shared.mem_serve {calls : List Call} {v : Served} : ∀ {s : Shared}, v ∈ (s.serve calls).1 →
    ∃ s₀ s₁, v.before = s₀.hub ∧ Entry s₀ v.call v.reply s₁ := by
  induction calls with
  | nil => nofun
  | cons c calls ih =>
    intro s hv
    rcases List.mem_cons.mp hv with rfl | hv
    · exact ⟨s, (s.call c).2, rfl, s.entry_call c⟩
    · exact ih hv

theorem Shared.calls_serve (calls : List Call) : ∀ s : Shared, (s.serve calls).1.map (·.call) = calls := by
  induction calls with
  | nil => exact fun _ => rfl
  | cons c calls ih => exact fun s => congrArg (c :: ·) (ih (s.call c).2)

theorem Entry.reply_publish {s s' : Shared} {r : Rate Float} {reply : Option Reply}
    (h : Entry s (.publish r) reply s') :
    (∀ fault, r.fault? = some fault → reply = some (.rejected fault)) ∧
    (r.IsValid → reply = some (.published (.ofEndings (endings s.hub.deliveries.size (s.hub.receivers r))))) := by
  cases h with
  | accepted valid ended =>
    subst ended
    exact ⟨fun fault hf => by simp [Rate.IsValid, hf] at valid, fun _ => rfl⟩
  | refused faulty =>
    exact ⟨fun fault hf => by rw [Option.some.inj (faulty.symm.trans hf)],
      fun valid => by simp [Rate.IsValid, faulty] at valid⟩
  | aside other => cases other

/-- Whatever calls are made to a new hub, one after the other. Each of them is served.
An accepted publish reports the registrations that there were for its rate, apart by
whether their handlers returned; and the counts of the hub are those of the replies. -/
theorem Shared.accounts_of_serve (calls : List Call) :
    let served := (({} : Shared).serve calls).1
    let s := (({} : Shared).serve calls).2
    served.map (·.call) = calls ∧
    (∀ v ∈ served, ∀ r, v.call = .publish r →
      (∀ fault, r.fault? = some fault → v.reply = some (.rejected fault)) ∧
      (r.IsValid → ∃ report, v.reply = some (.published report) ∧
        report.delivered + report.failed = (v.before.registry.matching r.key).length ∧
        report.delivered = (endings v.before.deliveries.size (v.before.receivers r)).countP (!·.isFailure) ∧
        report.failed = (endings v.before.deliveries.size (v.before.receivers r)).countP (·.isFailure))) ∧
    s.hub.publishes = served.countP (·.report?.isSome) ∧
    (s.ledger.published.map (·.2)).sum = s.hub.publishes ∧
    s.ledger.publishTimings = s.hub.publishes ∧
    (∀ key, s.ledger.publishedOf key = served.countP fun v => v.report?.isSome && v.call.key? == some key) ∧
    (∀ reason, s.ledger.rejectedFor reason = served.countP fun v => v.reason? == some reason) ∧
    s.ledger.subscriberFailures =
      ((served.filterMap (·.report?)).map (·.failed)).sum + (served.flatMap (·.replayed)).countP (·.isFailure) ∧
    s.ledger.instruments = if s.hub.publishes = 0 then none else some s.hub.table.size := by
  intro served s
  have h : Balanced served (books (s, {})) := balanced_start.serve
  refine ⟨Shared.calls_serve calls {}, fun v hv r hr => ?_, h.publishes, h.total, h.timings, h.published,
    h.rejected, h.failures, h.instruments⟩
  obtain ⟨s₀, s₁, hb, he⟩ := Shared.mem_serve hv
  rw [hr] at he
  refine ⟨he.reply_publish.1, fun hv => ⟨_, hb ▸ he.reply_publish.2 hv, ?_, rfl, rfl⟩⟩
  rw [Report.ofEndings_total, length_endings]
  simp [Hub.receivers]

end PriceBoard
