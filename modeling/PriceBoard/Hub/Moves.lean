import PriceBoard.Hub.Basic

/-!
# Moves

A call to the hub is a sequence of moves. A move is one section under a lock, or
one effect outside of any, and other threads may move in between. A move can
bring on further moves; these are of a lower depth, so that a call ends.

Publishing and loading hold the publishing lock from their first move to their
last. The table and the registry are locked only within a move.
-/

namespace PriceBoard

/-- Who waits for the reply of a call: the thread's own program, or a handler
that runs on it. -/
inductive Asker
  | program
  | handler (name : String)

inductive Reply
  | published (report : Report)
  | rejected (fault : RateFault Float)
  | registered (id : SubscriptionId)
  | unregistered (removed : Bool)
  | cleared (removed : Nat)
  | checked (instruments : Nat)
  | found (f : Hub.Finding)

inductive Move
  | lockPublishing
  | unlockPublishing
  -- publishing
  | reject (r : Rate Float) (fault : RateFault Float)
  | copyEntries (r : Rate Float)
  | writeTable (r : Rate Float) (entries : List (Registration Handler))
  | countPublish
  | deliver (e : Registration Handler) (r : Rate Float)
  | act (name : String) (r : Rate Float) (a : Action Handler)
  | conclude (name key : String) (ending : Ending)
  | account (r : Rate Float) (instruments : Nat)
  -- loading
  | copyTable (h : Handler) (f : Filter)
  | registerLoading (h : Handler) (f : Filter) (replay : List (Rate Float))
  | tellReplayed (id : SubscriptionId) (replayed : Nat)
  -- the registry
  | register (h : Handler) (f : Filter) (asker : Asker)
  | tellRegistered (id : SubscriptionId) (name : String) (subscribers : Nat)
  | unregister (id : SubscriptionId) (asker : Asker)
  | tellRemoved (id : SubscriptionId) (subscribers : Nat)
  | tellUnknown (id : SubscriptionId)
  | clearRegistry (asker : Asker)
  | tellCleared (removed : Nat)
  -- looking
  | look (q : Hub.Question) (asker : Asker)
  | checkTable (asker : Asker)
  | checkRegistry (instruments : Nat) (asker : Asker)
  | tellSnapshot (instruments subscribers : Nat) (asker : Asker)
  | reply (asker : Asker) (r : Reply)

/-- A thread's own part of the state: the report of the publish it is in, the
replies its program has had, and the moves it still has to make. -/
structure Thread where
  report : Report := {}
  replies : Array Reply := #[]
  agenda : List Move := []

def Reply.note? (name : String) : Reply → Option Note
  | .registered id => some (.subscribed name id)
  | .unregistered removed => some (.unsubscribed name removed)
  | .cleared removed => some (.cleared name removed)
  | .published _ | .rejected _ | .checked _ | .found _ => none

namespace Shared

/-- Posts a handler's rate to the screen; a refused one is counted. -/
def forward (s : Shared) (name : String) (r : Rate Float) : Shared :=
  let (accepted, b) := s.mailbox.post (.rateUpdated r)
  let s := { s with mailbox := b }
  if accepted then s else (s.write (Hub.droppedEntry name r.key)).record (·.recordDrop)

def noteRead (s : Shared) (name key : String) : Shared :=
  s.note (.read name ((s.hub.table.get? key).map (·.mid)) s.hub.publishes)

def setRegistry (s : Shared) (r : Registry Handler) : Shared :=
  { s with hub := { s.hub with registry := r } }

end Shared

def Action.moves (name : String) : Action Handler → List Move
  | .note | .forward | .read _ => []
  | .unsubscribe id => [.unregister id (.handler name)]
  | .subscribe h f => [.register h f (.handler name)]
  | .ask q => [.look q (.handler name)]
  | .check => [.checkTable (.handler name)]
  | .shutdown => [.clearRegistry (.handler name)]

/-- The part of an action that is a single effect. -/
def Action.effect (name : String) (r : Rate Float) (s : Shared) : Action Handler → Shared
  | .note => s.note (.received name r.key r.mid)
  | .forward => s.forward name r
  | .read key => s.noteRead name key
  | .unsubscribe _ | .subscribe .. | .ask _ | .check | .shutdown => s

namespace Move

def make (s : Shared) (t : Thread) : Move → Shared × Thread × List Move
  | lockPublishing | unlockPublishing => (s, t, [])
  | reject r fault =>
    ((s.write (Hub.rejectedEntry r.key fault)).record (·.recordRejected fault.reason), t,
      [reply .program (.rejected fault)])
  | copyEntries r => (s, t, [writeTable r s.hub.registry.entries])
  | writeTable r entries =>
    let table := s.hub.table.insert r
    let receivers := entries.filter (·.filter.admits r.key)
    ({ s with hub := { s.hub with table := table } }, { t with report := {} },
      countPublish :: receivers.map (deliver · r) ++ [account r table.size])
  | countPublish => ({ s with hub := { s.hub with publishes := s.hub.publishes + 1 } }, t, [])
  | deliver e r =>
    let turn := s.hub.deliveries.size
    let hub := { s.hub with deliveries := s.hub.deliveries.push ⟨e.id, r⟩ }
    let h := e.subscriber
    ({ s with hub := hub }, t,
      (h.actionsOn turn r).map (act h.name r ·) ++ [conclude h.name r.key (h.endingOn turn r)])
  | act name r a => (a.effect name r s, t, a.moves name)
  | conclude name key ending =>
    match ending.payload? key with
    | none => (s, { t with report := { t.report with delivered := t.report.delivered + 1 } }, [])
    | some payload =>
      ((s.write (Hub.failedEntry key (.ofPayload name payload))).record (·.recordFailure),
        { t with report := { t.report with failed := t.report.failed + 1 } }, [])
  | account r instruments =>
    ((s.record (·.recordPublished r.key instruments)).write (Hub.publishedEntry r t.report), t,
      [reply .program (.published t.report)])
  | copyTable h f =>
    (s, t, [registerLoading h f (s.hub.table.rates.filter fun r => f.admits r.key)])
  | registerLoading h f replay =>
    let (id, registry) := s.hub.registry.register h f
    (s.setRegistry registry, t,
      tellRegistered id h.name registry.size :: replay.map (deliver ⟨id, f, h⟩ ·) ++
        [tellReplayed id replay.length, reply .program (.registered id)])
  | tellReplayed id replayed => (s.write (Hub.replayedEntry id replayed), t, [])
  | register h f asker =>
    let (id, registry) := s.hub.registry.register h f
    (s.setRegistry registry, t,
      [tellRegistered id h.name registry.size, reply asker (.registered id)])
  | tellRegistered id name subscribers =>
    ((s.record (·.setSubscribers subscribers)).write (Hub.registeredEntry id name), t, [])
  | unregister id asker =>
    let (removed, registry) := s.hub.registry.unregister id
    (s.setRegistry registry, t,
      [if removed then tellRemoved id registry.size else tellUnknown id,
        reply asker (.unregistered removed)])
  | tellRemoved id subscribers =>
    ((s.record (·.setSubscribers subscribers)).write (Hub.removedEntry id), t, [])
  | tellUnknown id => (s.write (Hub.unknownEntry id), t, [])
  | clearRegistry asker =>
    let (removed, registry) := s.hub.registry.clear
    (s.setRegistry registry, t, [tellCleared removed, reply asker (.cleared removed)])
  | tellCleared removed => ((s.record (·.setSubscribers 0)).write (Hub.clearedEntry removed), t, [])
  | look q asker => (s, t, [reply asker (.found (s.hub.look q))])
  | checkTable asker => (s, t, [checkRegistry s.hub.table.size asker])
  | checkRegistry instruments asker => (s, t, [tellSnapshot instruments s.hub.registry.size asker])
  | tellSnapshot instruments subscribers asker =>
    (s.write (Hub.snapshotEntry instruments subscribers s.hub.publishes), t,
      [reply asker (.checked instruments)])
  | reply .program r => (s, { t with replies := t.replies.push r }, [])
  | reply (.handler name) r =>
    ((r.note? name).elim s s.note, t, [])

def depth : Move → Nat
  | copyEntries _ => 8
  | writeTable .. | copyTable .. => 7
  | registerLoading .. => 6
  | deliver .. => 5
  | act .. => 4
  | checkTable _ => 3
  | checkRegistry .. => 2
  | register .. | unregister .. | clearRegistry _ | reject .. | account .. | look ..
  | tellSnapshot .. => 1
  | _ => 0

end Move

end PriceBoard
