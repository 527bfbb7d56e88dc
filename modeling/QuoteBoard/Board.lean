import QuoteBoard.Cache
import QuoteBoard.Engine

/-!
# The board

A board holds caches and engines and routes messages to the consumers registered for their feed: a
cache, or one side of an engine. A consumer that fails does not keep a message from the others. The
board also watches that batch ids do not go back on a feed.
-/

namespace QuoteBoard

/-- Who takes messages: a cache, or a side of an engine, by position. -/
inductive Consumer where
  | cache (i : Nat)
  | handler (i : Nat) (side : Side)
  deriving DecidableEq, Repr, Inhabited

inductive BoardEvent where
  | told (cache listener : Nat) (n : Notice)
  | published (engine : Nat) (u : Update)
  | logged (e : LogEntry)
  | tallied (t : Tally)

structure Report where
  delivered : Nat := 0
  errors : List Failure := []
  deriving DecidableEq, Repr, Inhabited

def Report.isOk (r : Report) : Bool := r.errors.isEmpty

structure Board where
  checkOrder : Bool := true
  caches : List Cache := []
  engines : List Engine := []
  /-- The consumers with their feeds, in the order of registration. -/
  routes : List (Feed × Consumer) := []
  /-- The largest batch id of each feed. -/
  last : Std.TreeMap Feed BatchId := ∅
  /-- Counts of the dispatches. -/
  traffic : Counters := {}
  /-- Counts of what caches and engines did, when they count. -/
  activity : Option Counters := some {}

namespace Board

def metrics (b : Board) : Counters := b.traffic.add (b.activity.getD {})

def count (b : Board) (t : Tally) : Board :=
  { b with activity := b.activity.map fun c => c.record t }

/-! ## Consumers -/

def feedOf? (b : Board) : Consumer → Option Feed
  | .cache i => b.caches[i]?.map fun c => c.sheet.feed
  | .handler i s => b.engines[i]?.map fun e => e.feed s

def register (b : Board) (c : Consumer) : Board :=
  match b.feedOf? c with
  | some f => { b with routes := b.routes ++ [(f, c)] }
  | none => b

def consumers (b : Board) (f : Feed) : List Consumer :=
  (b.routes.filter fun r => r.1 = f).map (·.2)

def consumerCount (b : Board) (f : Feed) : Nat := (b.consumers f).length

def ofCacheEvent (i : Nat) : CacheEvent → BoardEvent
  | .told l n => .told i l n
  | .logged e => .logged e
  | .tallied t => .tallied t

def ofEngineEvent (i : Nat) : EngineEvent → BoardEvent
  | .published u => .published i u
  | .logged e => .logged e
  | .tallied t => .tallied t

def countAll (b : Board) : List BoardEvent → Board
  | [] => b
  | .tallied t :: es => (b.count t).countAll es
  | _ :: es => b.countAll es

def handle (b : Board) (i : Nat) (s : Side) (m : Message) :
    Board × List BoardEvent × Option HandlerError :=
  match b.engines[i]? with
  | none => (b, [], none)
  | some e =>
    let r := e.handle s m
    let es := r.2.1.map (ofEngineEvent i)
    ({ b with engines := b.engines.set i r.1 }.countAll es, es, r.2.2)

def consumeBy (b : Board) (i : Nat) (m : Message) :
    Board × List BoardEvent × Option CommitError :=
  match b.caches[i]? with
  | none => (b, [], none)
  | some c =>
    let r := c.consume m
    let es := r.2.1.map (ofCacheEvent i)
    ({ b with caches := b.caches.set i r.1 }.countAll es, es, r.2.2)

def consume (b : Board) (m : Message) : Consumer → Board × List BoardEvent × Option Failure
  | .cache i =>
    let r := b.consumeBy i m
    (r.1, r.2.1, r.2.2.map .commit)
  | .handler i s =>
    let r := b.handle i s m
    (r.1, r.2.1, r.2.2.map .handler)

/-! ## Dispatch -/

/-- Notes the batch id of a message; the inconsistency, if it went back. -/
def checkBatch (b : Board) (m : Message) : Board × Option Inconsistency :=
  match b.last[m.feed]? with
  | some last =>
    if m.batch < last then (b, some (.batchWentBack m.feed last m.batch))
    else ({ b with last := b.last.insert m.feed m.batch }, none)
  | none => ({ b with last := b.last.insert m.feed m.batch }, none)

def deliver (m : Message) : List Consumer → Board → Board × List BoardEvent × Report
  | [], b => (b, [], {})
  | c :: cs, b =>
    let r := b.consume m c
    let rest := deliver m cs r.1
    match r.2.2 with
    | none => (rest.1, r.2.1 ++ rest.2.1, { rest.2.2 with delivered := rest.2.2.delivered + 1 })
    | some e =>
      (rest.1, r.2.1 ++ .logged (.consumerFailed m.feed m.batch m.kind e) :: rest.2.1,
        { rest.2.2 with errors := e :: rest.2.2.errors })

def dispatch (b : Board) (m : Message) : Board × List BoardEvent × Report :=
  let checked := if b.checkOrder then b.checkBatch m else (b, none)
  let tally := Tally.dispatch checked.2.isSome
  let b := { checked.1 with traffic := checked.1.traffic.record tally }
  let r := deliver m (b.consumers m.feed) b
  (r.1, .tallied tally :: checked.2.toList.map (fun why => .logged (.outOfOrder why)) ++ r.2.1,
    r.2.2)

end Board

end QuoteBoard
