import PriceBoard.Proofs.Hub.Trace

/-!
# Publishing sections

A publish and a load hold the publishing lock from their first move to their
last. Outside of such a section a thread neither writes the table nor delivers
anything (`Outside`); inside, what is left to do has one of few forms
(`Inside`). `Sectioned` says this of every thread, and every move keeps it.
-/

namespace PriceBoard

namespace Move

/-- The moves that need no publishing lock. -/
def isPlain : Move → Bool
  | lockPublishing | unlockPublishing | copyEntries _ | writeTable .. | countPublish | deliver ..
  | account .. | copyTable .. | registerLoading .. | tellReplayed .. => false
  | _ => true

/-- The moves of a thread that is in no section: the plain ones but those of handlers. -/
def isCalm : Move → Bool
  | act .. | conclude .. => false
  | mv => mv.isPlain

theorem isPlain_of_isCalm {mv : Move} (h : mv.isCalm) : mv.isPlain := by
  cases mv <;> simp [isCalm] at h <;> exact h

theorem isPlain_of_mem_moves {name : String} {a : Action Handler} {mv : Move}
    (h : mv ∈ a.moves name) : mv.isPlain := by
  cases a <;> simp [Action.moves] at h <;> subst h <;> rfl

theorem isPlain_of_mem_make {s : Shared} {t : Thread} {mv n : Move} (h : mv.isPlain)
    (hn : n ∈ (mv.make s t).2.2) : n.isPlain := by
  cases mv with
  | act name r a => exact isPlain_of_mem_moves hn
  | unregister id asker =>
    simp only [make, List.mem_cons, List.not_mem_nil, or_false] at hn
    rcases hn with rfl | rfl
    · split <;> rfl
    · rfl
  | reply asker r => cases asker <;> simp [make] at hn
  | conclude name key ending => cases hp : ending.payload? key <;> simp [make, hp] at hn
  | _ => simp [make] at hn <;> simp [isPlain] at h <;> grind [isPlain]

theorem isCalm_of_mem_make {s : Shared} {t : Thread} {mv n : Move} (h : mv.isCalm)
    (hn : n ∈ (mv.make s t).2.2) : n.isCalm := by
  cases mv with
  | act | conclude => cases h
  | unregister id asker =>
    simp only [make, List.mem_cons, List.not_mem_nil, or_false] at hn
    rcases hn with rfl | rfl
    · split <;> rfl
    · rfl
  | reply asker r => cases asker <;> simp [make] at hn
  | _ => simp [make] at hn <;> simp [isCalm, isPlain] at h <;> grind [isCalm, isPlain]

theorem isPlain_of_mem_deliver {s : Shared} {t : Thread} {e : Registration Handler} {r : Rate Float}
    {n : Move} (hn : n ∈ ((deliver e r).make s t).2.2) : n.isPlain := by
  simp only [make, List.mem_append, List.mem_map, List.mem_singleton] at hn
  rcases hn with ⟨a, _, rfl⟩ | rfl <;> rfl

theorem table_onHub_of_isPlain {mv : Move} (h : mv.isPlain) (hub : Hub) :
    (mv.onHub hub).table = hub.table := by
  cases mv <;> first | rfl | simp [isPlain] at h

def isUnlock : Move → Bool
  | unlockPublishing => true
  | _ => false

theorem isUnlock_of_isPlain {mv : Move} (h : mv.isPlain) : mv.isUnlock = false := by
  cases mv <;> first | rfl | simp [isPlain] at h

/-- The moves that are made only within a section, after its first one. -/
def isInner : Move → Bool
  | writeTable .. | countPublish | deliver .. | act .. | conclude .. | account .. | registerLoading ..
  | tellReplayed .. => true
  | _ => false

/-- The moves of a section that have it go on with something new. -/
def isGrant : Move → Bool
  | copyEntries _ | registerLoading .. => true
  | _ => false

theorem isGrant_of_isPlain {mv : Move} (h : mv.isPlain) : mv.isGrant = false := by
  cases mv <;> first | rfl | simp [isPlain] at h

theorem isInner_of_isCalm {mv : Move} (h : mv.isCalm) : mv.isInner = false := by
  cases mv <;> first | rfl | simp [isCalm, isPlain] at h

theorem holderAfter_of_isPlain {mv : Move} (h : mv.isPlain) (i : Nat) (holder : Option Nat) :
    mv.holderAfter i holder = holder := by
  cases mv <;> first | rfl | simp [isPlain] at h

end Move

/-! ## Agendas -/

inductive Opening : Move → Prop
  | publish {r : Rate Float} : r.IsValid → Opening (.copyEntries r)
  | load (h : Handler) (f : Filter) : Opening (.copyTable h f)

/-- What a thread has to do that is in no section. -/
inductive Outside : List Move → Prop
  | nil : Outside []
  | calm {mv : Move} {rest : List Move} : mv.isCalm → Outside rest → Outside (mv :: rest)
  | open {mv : Move} {rest : List Move} : Opening mv → Outside rest →
      Outside (.lockPublishing :: mv :: .unlockPublishing :: rest)

/-- Deliveries of one kind, and plain moves among them, up to some last moves. -/
inductive Delivering (kind : Registration Handler → Rate Float → Prop) (last : List Move) : List Move → Prop
  | last : Delivering kind last last
  | plain {mv : Move} {rest : List Move} : mv.isPlain → Delivering kind last rest →
      Delivering kind last (mv :: rest)
  | deliver {e : Registration Handler} {r : Rate Float} {rest : List Move} : kind e r →
      Delivering kind last rest → Delivering kind last (.deliver e r :: rest)

/-- What is left of a section, without giving back the lock. -/
inductive Inside (table : RateTable Float) : List Move → Prop
  | open {mv : Move} : Opening mv → Inside table [mv]
  | writeTable {r : Rate Float} (es : List (Registration Handler)) : r.IsValid →
      Inside table [.writeTable r es]
  | countPublish {r : Rate Float} {n : Nat} {now : List Move} :
      Delivering (fun _ s => s = r) [.account r n] now → Inside table (.countPublish :: now)
  | publishing {r : Rate Float} {n : Nat} {now : List Move} :
      Delivering (fun _ s => s = r) [.account r n] now → Inside table now
  | registerLoading (h : Handler) (f : Filter) :
      Inside table [.registerLoading h f (table.rates.filter fun r => f.admits r.key)]
  | loading {id : SubscriptionId} {n : Nat} {now : List Move} :
      Delivering (fun e _ => e.id = id) [.tellReplayed id n, .reply .program (.registered id)] now →
      Inside table now
  | done {now : List Move} : (∀ mv ∈ now, mv.isPlain) → Inside table now

theorem outside_of_isCalm {now : List Move} (h : ∀ mv ∈ now, mv.isCalm) : Outside now := by
  induction now with
  | nil => exact .nil
  | cons mv now ih => exact .calm (h mv (by simp)) (ih fun n hn => h n (List.mem_cons_of_mem _ hn))

theorem Outside.append {now rest : List Move} (hn : Outside now) (hr : Outside rest) :
    Outside (now ++ rest) := by
  induction hn with
  | nil => exact hr
  | calm hc _ ih => exact .calm hc ih
  | «open» ho _ ih => exact .open ho ih

theorem Outside.isInner {now : List Move} (h : Outside now) : ∀ mv ∈ now, mv.isInner = false := by
  induction h with
  | nil => nofun
  | calm hc _ ih => exact List.forall_mem_cons.mpr ⟨Move.isInner_of_isCalm hc, ih⟩
  | «open» ho _ ih =>
    simp only [List.forall_mem_cons]
    exact ⟨rfl, by cases ho <;> rfl, rfl, ih⟩

theorem outside_moves (c : Call) : Outside c.moves := by
  cases c with
  | publish r =>
    simp only [Call.moves]
    split
    · exact .calm rfl .nil
    · rename_i h
      exact .open (.publish (by simp [Rate.IsValid, h])) .nil
  | subscribeAndLoad h f => exact .open (.load h f) .nil
  | _ => exact .calm rfl .nil

theorem outside_flatMap_moves (calls : List Call) : Outside (calls.flatMap Call.moves) := by
  induction calls with
  | nil => exact .nil
  | cons c calls ih => exact (outside_moves c).append ih

section
variable {kind : Registration Handler → Rate Float → Prop} {last : List Move}

theorem Delivering.append {now rest : List Move} (h : ∀ mv ∈ now, mv.isPlain)
    (hd : Delivering kind last rest) : Delivering kind last (now ++ rest) := by
  induction now with
  | nil => exact hd
  | cons mv now ih => exact .plain (h mv (by simp)) (ih fun n hn => h n (List.mem_cons_of_mem _ hn))

theorem Delivering.forall_mem {P : Move → Prop} {now : List Move} (h : Delivering kind last now)
    (plain : ∀ mv, mv.isPlain → P mv) (deliver : ∀ e r, kind e r → P (.deliver e r))
    (ending : ∀ mv ∈ last, P mv) : ∀ mv ∈ now, P mv := by
  induction h with
  | last => exact ending
  | plain hp _ ih => exact List.forall_mem_cons.mpr ⟨plain _ hp, ih⟩
  | deliver hk _ ih => exact List.forall_mem_cons.mpr ⟨deliver _ _ hk, ih⟩

theorem delivering_to {r : Rate Float} : ∀ (es : List (Registration Handler)), (∀ e ∈ es, kind e r) →
    Delivering kind last (es.map (Move.deliver · r) ++ last)
  | [], _ => .last
  | e :: es, h => .deliver (h e (by simp)) (delivering_to es fun d hd => h d (List.mem_cons_of_mem _ hd))

theorem delivering_of {e : Registration Handler} : ∀ (rs : List (Rate Float)), (∀ r ∈ rs, kind e r) →
    Delivering kind last (rs.map (Move.deliver e ·) ++ last)
  | [], _ => .last
  | r :: rs, h => .deliver (h r (by simp)) (delivering_of rs fun q hq => h q (List.mem_cons_of_mem _ hq))

theorem Delivering.make {rest : List Move} {mv : Move} (s : Shared) (t : Thread)
    (h : Delivering kind last (mv :: rest)) :
    last = mv :: rest ∨ Delivering kind last ((mv.make s t).2.2 ++ rest) := by
  cases h with
  | last => exact .inl rfl
  | plain hp hd => exact .inr (hd.append fun n hn => Move.isPlain_of_mem_make hp hn)
  | deliver _ hd => exact .inr (hd.append fun n hn => Move.isPlain_of_mem_deliver hn)

end

theorem Inside.make {s : Shared} {t : Thread} {mv : Move} {rest : List Move}
    (h : Inside s.hub.table (mv :: rest)) :
    Inside (mv.onHub s.hub).table ((mv.make s t).2.2 ++ rest) := by
  cases h with
  | «open» ho =>
    cases ho with
    | publish hv => exact .writeTable _ hv
    | load h f => exact .registerLoading h f
  | writeTable es hv =>
    rw [List.append_nil]
    exact .countPublish (delivering_to _ fun _ _ => rfl)
  | countPublish hd => exact .publishing hd
  | publishing hd =>
    rcases hd.make s t with hl | hd
    · cases hl
      exact .done fun mv hm => by simp [Move.make] at hm; subst hm; rfl
    · exact .publishing hd
  | registerLoading h f =>
    rw [List.append_nil]
    exact .loading (.plain rfl (delivering_of _ fun _ _ => rfl))
  | loading hd =>
    rcases hd.make s t with hl | hd
    · cases hl
      exact .done fun mv hm => by simp [Move.make] at hm; subst hm; rfl
    · exact .loading hd
  | done hp =>
    refine .done fun n hn => ?_
    rcases List.mem_append.mp hn with hn | hn
    · exact Move.isPlain_of_mem_make (hp mv (by simp)) hn
    · exact hp n (List.mem_cons_of_mem _ hn)

theorem Inside.holderAfter {table : RateTable Float} {mv : Move} {rest : List Move}
    (h : Inside table (mv :: rest)) (i : Nat) (holder : Option Nat) : mv.holderAfter i holder = holder := by
  cases h with
  | «open» ho => cases ho <;> rfl
  | publishing hd | loading hd =>
    cases hd with
    | plain hp _ => exact Move.holderAfter_of_isPlain hp i holder
    | _ => rfl
  | done hp => exact Move.holderAfter_of_isPlain (hp mv (by simp)) i holder
  | _ => rfl

theorem Inside.isUnlock {table : RateTable Float} {now : List Move} (h : Inside table now) :
    ∀ mv ∈ now, mv.isUnlock = false := by
  cases h with
  | «open» ho => cases ho <;> simp [Move.isUnlock]
  | countPublish hd =>
    exact List.forall_mem_cons.mpr ⟨rfl,
      hd.forall_mem (fun _ => Move.isUnlock_of_isPlain) (fun _ _ _ => rfl) (by simp [Move.isUnlock])⟩
  | publishing hd | loading hd =>
    exact hd.forall_mem (fun _ => Move.isUnlock_of_isPlain) (fun _ _ _ => rfl) (by simp [Move.isUnlock])
  | done hp => exact fun mv hm => Move.isUnlock_of_isPlain (hp mv hm)
  | _ => simp [Move.isUnlock]

theorem Inside.eq_nil_of_isGrant {table : RateTable Float} {mv : Move} {rest : List Move}
    (h : Inside table (mv :: rest)) (hs : mv.isGrant) : rest = [] := by
  have plain : mv.isPlain → rest = [] := fun hp => by simp [Move.isGrant_of_isPlain hp] at hs
  cases h with
  | «open» | writeTable | registerLoading => rfl
  | countPublish => cases hs
  | publishing hd | loading hd =>
    cases hd with
    | plain hp _ => exact plain hp
    | _ => cases hs
  | done hp => exact plain (hp mv (by simp))

theorem Inside.ne_lockPublishing {table : RateTable Float} {mv : Move} {rest : List Move}
    (h : Inside table (mv :: rest)) : mv ≠ .lockPublishing := by
  rintro rfl
  cases h.holderAfter 0 none

/-! ## All threads -/

/-- Who holds the publishing lock is in a section, and nobody else is. -/
structure Machine.Sectioned (m : Machine) : Prop where
  outside : ∀ i, m.holder ≠ some i → Outside (m.agenda i)
  inside : ∀ i, m.holder = some i → ∃ now rest, m.agenda i = now ++ .unlockPublishing :: rest ∧
    Inside m.shared.hub.table now ∧ Outside rest

namespace Machine

theorem agenda_ofPrograms (s : Shared) (programs : List (List Call)) (i : Nat) :
    (ofPrograms s programs).agenda i = ((programs[i]?).getD []).flatMap Call.moves := by
  simp only [agenda, ofPrograms, List.getElem?_map]
  cases programs[i]? <;> rfl

theorem sectioned_ofPrograms (s : Shared) (programs : List (List Call)) :
    (ofPrograms s programs).Sectioned where
  outside i _ := by
    rw [agenda_ofPrograms]
    exact outside_flatMap_moves _
  inside i h := by cases h

/-- What a thread can do: make a calm move, enter a section, go on in its
section, or leave it. -/
inductive Stage (m : Machine) (i : Nat) (mv : Move) (rest : List Move) : Prop
  | calm (h : mv.isCalm) (out : m.holder ≠ some i) (ho : Outside rest)
  | enter (h : mv = .lockPublishing) (free : m.holder = none) {n : Move} {after : List Move}
    (hr : rest = n :: .unlockPublishing :: after) (hn : Opening n) (ho : Outside after)
  | go (hold : m.holder = some i) {now after : List Move} (hr : rest = now ++ .unlockPublishing :: after)
    (hi : Inside m.shared.hub.table (mv :: now)) (ho : Outside after)
  | leave (h : mv = .unlockPublishing) (hold : m.holder = some i) (ho : Outside rest)

theorem Sectioned.stage {m m' : Machine} {i : Nat} {mv : Move} (h : m.Sectioned) (hm : m.Made i mv m')
    {rest : List Move} (ha : m.agenda i = mv :: rest) : m.Stage i mv rest := by
  by_cases hh : m.holder = some i
  · obtain ⟨now, after, hn, hi, ho⟩ := h.inside i hh
    rw [ha] at hn
    cases now with
    | nil =>
      simp only [List.nil_append, List.cons.injEq] at hn
      exact .leave hn.1 hh (hn.2 ▸ ho)
    | cons n now =>
      simp only [List.cons_append, List.cons.injEq] at hn
      exact .go hh hn.2 (hn.1 ▸ hi) ho
  · have ho := h.outside i hh
    rw [ha] at ho
    cases ho with
    | calm hc ho => exact .calm hc hh ho
    | «open» hn ho => exact .enter rfl (hm.admitted rfl) rfl hn ho

theorem Sectioned.made {m m' : Machine} {i : Nat} {mv : Move} (h : m.Sectioned) (hm : m.Made i mv m') :
    m'.Sectioned := by
  obtain ⟨t, rest, ha, hs, hb⟩ := hm.own
  have others : ∀ j, j ≠ i → m.holder ≠ some j → Outside (m'.agenda j) := fun j hj hh => by
    rw [hm.others j hj]
    exact h.outside j hh
  cases h.stage hm ha with
  | calm hc out ho =>
    have hp := Move.isPlain_of_isCalm hc
    have hk : m'.holder = m.holder := by rw [hm.holder, Move.holderAfter_of_isPlain hp]
    have ht : m'.shared.hub.table = m.shared.hub.table := by
      rw [hm.hub, Move.table_onHub_of_isPlain hp]
    refine ⟨fun j hj => ?_, fun j hj => ?_⟩
    · rw [hk] at hj
      by_cases hij : j = i
      · rw [hij, hb]
        exact (outside_of_isCalm fun n hn => Move.isCalm_of_mem_make hc hn).append ho
      · exact others j hij hj
    · rw [hk] at hj
      have hij : j ≠ i := fun e => out (e ▸ hj)
      rw [hm.others j hij, ht]
      exact h.inside j hj
  | enter hl free hr hn ho =>
    subst hl
    have hk : m'.holder = some i := hm.holder
    refine ⟨fun j hj => ?_, fun j hj => ?_⟩
    · have hij : j ≠ i := fun e => hj (e ▸ hk)
      exact others j hij (by simp [free])
    · have hij : j = i := Option.some.inj (hj.symm.trans hk)
      rw [hij, hb, hr]
      exact ⟨[_], _, rfl, .open hn, ho⟩
  | go hold hr hi ho =>
    have hk : m'.holder = m.holder := by rw [hm.holder, hi.holderAfter]
    refine ⟨fun j hj => ?_, fun j hj => ?_⟩
    · rw [hk] at hj
      exact others j (fun e => hj (e ▸ hold)) hj
    · have hij : j = i := Option.some.inj (hj.symm.trans (hk.trans hold))
      rw [hij, hb, hr, hm.hub, ← List.append_assoc]
      exact ⟨_, _, rfl, hi.make, ho⟩
  | leave hl hold ho =>
    subst hl
    have hk : m'.holder = none := hm.holder
    refine ⟨fun j hj => ?_, fun j hj => ?_⟩
    · by_cases hij : j = i
      · rw [hij, hb]
        exact ho
      · exact others j hij (by rw [hold]; simp [Ne.symm hij])
    · rw [hk] at hj
      cases hj

def underway (m : Machine) : List Move := m.holder.elim [] fun i => (m.agenda i).takeWhile (!·.isUnlock)

theorem underway_eq {m : Machine} {i : Nat} (hold : m.holder = some i) {now rest : List Move}
    (ha : m.agenda i = now ++ .unlockPublishing :: rest) (hn : ∀ mv ∈ now, mv.isUnlock = false) :
    m.underway = now := by
  rw [underway, hold, Option.elim_some, ha, List.takeWhile_append_of_pos (by simpa using hn)]
  simp [Move.isUnlock]

/-- What a move does to the section under way. -/
inductive Turn (m : Machine) (mv : Move) (m' : Machine) : Prop
  | calm (h : mv.isCalm) (same : m'.underway = m.underway)
  | enter (h : mv = .lockPublishing) {n : Move} (hn : Opening n) (was : m.underway = []) (is : m'.underway = [n])
  | go {t : Thread} {now : List Move} (hi : Inside m.shared.hub.table (mv :: now)) (was : m.underway = mv :: now)
    (is : m'.underway = (mv.make m.shared t).2.2 ++ now)
  | leave (h : mv = .unlockPublishing) (was : m.underway = []) (is : m'.underway = [])

theorem Sectioned.turn {m m' : Machine} {i : Nat} {mv : Move} (h : m.Sectioned) (hm : m.Made i mv m') :
    m.Turn mv m' := by
  obtain ⟨t, rest, ha, _, hb⟩ := hm.own
  cases h.stage hm ha with
  | calm hc out ho =>
    refine .calm hc ?_
    unfold underway
    rw [hm.holder, Move.holderAfter_of_isPlain (Move.isPlain_of_isCalm hc)]
    cases hh : m.holder with
    | none => rfl
    | some j =>
      have hij : j ≠ i := fun e => out (e ▸ hh)
      simp only [Option.elim_some, hm.others j hij]
  | @enter hl free n after hr hn ho =>
    subst hl
    have hi : Inside m.shared.hub.table [n] := .open hn
    have hb' : m'.agenda i = [n] ++ .unlockPublishing :: after := by rw [hb, hr]; rfl
    exact .enter rfl hn (by simp [underway, free]) (underway_eq hm.holder hb' hi.isUnlock)
  | @go hold now after hr hi ho =>
    have hk : m'.holder = some i := by rw [hm.holder, hi.holderAfter, hold]
    have ha' : m.agenda i = (mv :: now) ++ .unlockPublishing :: after := by rw [ha, hr]; rfl
    have hb' : m'.agenda i = ((mv.make m.shared t).2.2 ++ now) ++ .unlockPublishing :: after := by
      rw [hb, hr, List.append_assoc]
    exact .go hi (underway_eq hold ha' hi.isUnlock) (underway_eq hk hb' hi.make.isUnlock)
  | leave hl hold ho =>
    subst hl
    have hn : ∀ mv ∈ ([] : List Move), mv.isUnlock = false := by simp
    refine .leave rfl (underway_eq hold ha hn) ?_
    rw [underway, hm.holder]
    rfl

theorem Sectioned.underway {m : Machine} (h : m.Sectioned) :
    m.underway = [] ∨ ∃ i rest, m.agenda i = m.underway ++ .unlockPublishing :: rest ∧
      Inside m.shared.hub.table m.underway := by
  cases hold : m.holder with
  | none => exact .inl (by simp [Machine.underway, hold])
  | some i =>
    obtain ⟨now, rest, ha, hi, _⟩ := h.inside i hold
    rw [underway_eq hold ha hi.isUnlock]
    exact .inr ⟨i, rest, ha, hi⟩

/-- What was received and what the section under way still owes go together, if
they do so for a single move; `g` is what the move adds. -/
theorem Sectioned.balance {α : Type} {x x' g : List α} {owed : Move → List α} {m m' : Machine} {i : Nat} {mv : Move}
    (h : m.Sectioned) (hm : m.Made i mv m') (inner : ∀ n, n.isInner = false → owed n = [])
    (law : ∀ t, x' ++ (mv.make m.shared t).2.2.flatMap owed = x ++ owed mv ++ g)
    (grant : mv.isGrant = false → g = []) :
    x' ++ m'.underway.flatMap owed = x ++ m.underway.flatMap owed ++ g := by
  have hlaw := law {}
  cases h.turn hm with
  | calm hc same =>
    have hmake : (mv.make m.shared {}).2.2.flatMap owed = [] :=
      List.flatMap_eq_nil_iff.mpr fun n hn => inner n (Move.isInner_of_isCalm (Move.isCalm_of_mem_make hc hn))
    have hg : g = [] := grant (Move.isGrant_of_isPlain (Move.isPlain_of_isCalm hc))
    rw [hmake, inner mv (Move.isInner_of_isCalm hc), hg] at hlaw
    simp only [List.append_nil] at hlaw
    rw [same, hg, hlaw, List.append_nil]
  | @enter hl n hn was is =>
    subst hl
    rw [inner _ rfl, grant rfl] at hlaw
    simp only [Move.make, List.flatMap_nil, List.append_nil] at hlaw
    have hopen : owed n = [] := inner n (by cases hn <;> rfl)
    rw [was, is, List.flatMap_cons, hopen, grant rfl, hlaw]
    simp
  | @go t now hi was is =>
    rw [was, is, List.flatMap_append, List.flatMap_cons, ← List.append_assoc, law t]
    cases hs : mv.isGrant with
    | false => simp [grant hs]
    | true => simp [hi.eq_nil_of_isGrant hs]
  | leave hl was is =>
    subst hl
    rw [inner _ rfl, grant rfl] at hlaw
    simp only [Move.make, List.flatMap_nil, List.append_nil] at hlaw
    rw [was, is, grant rfl, hlaw, List.append_nil]

end Machine

end PriceBoard
