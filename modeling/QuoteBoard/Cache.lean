import QuoteBoard.Cache.Sheet
import QuoteBoard.Metrics

/-!
# Caches

A cache is a sheet with its listeners. A commit tells every listener the snapshot, if there is one,
and then every listener that the batch ended; the first listener that fails ends the telling. A
listener's answer may hang on all it has heard, but it cannot change the sheet, which is settled
before the first notice.
-/

namespace QuoteBoard

/-- What a listener is told. The end of a batch shows the sheet as it is at that moment. -/
inductive Notice where
  | snapshot (s : Snapshot)
  | ended (sheet : Sheet) (batch : BatchId) (modified : Bool)
  | untouched (batch : BatchId)

/-- A listener answers each notice, given the earlier ones, latest first. -/
structure Listener where
  answer : List Notice → Notice → Option ListenerError
  heard : List Notice := []

namespace Listener

def hear (l : Listener) (n : Notice) : Listener := { l with heard := n :: l.heard }

def reply (l : Listener) (n : Notice) : Option ListenerError := l.answer l.heard n

end Listener

inductive CacheEvent where
  | told (listener : Nat) (n : Notice)
  | logged (e : LogEntry)
  | tallied (t : Tally)

structure Cache where
  sheet : Sheet
  listeners : List Listener

namespace Cache

def empty (p : Policy) (f : Feed) (s : Side) : Cache := ⟨.empty p f s, []⟩

def addListener (c : Cache) (l : Listener) : Cache := { c with listeners := c.listeners ++ [l] }

/-! ## Changes -/

def onSheet (c : Cache) (r : Sheet × List LogEntry) : Cache × List CacheEvent :=
  ({ c with sheet := r.1 }, r.2.map .logged)

def quote (c : Cache) (q : Quote) : Cache × List CacheEvent := c.onSheet (c.sheet.quote q)

def tradeDone (c : Cache) (t : Trade) : Cache × List CacheEvent := c.onSheet (c.sheet.tradeDone t)

def withdraw (c : Cache) (w : Withdrawal) : Cache × List CacheEvent :=
  c.onSheet (c.sheet.withdraw w)

def clear (c : Cache) : Cache := { c with sheet := c.sheet.clear }

def markRebuilt (c : Cache) : Cache := { c with sheet := c.sheet.markRebuilt }

/-! ## Notices -/

/-- Tells listeners numbered from `i` up, until one fails. -/
def tell (n : Notice) : Nat → List Listener → List Listener × List CacheEvent × Option ListenerError
  | _, [] => ([], [], none)
  | i, l :: ls =>
    match l.reply n with
    | some e => (l.hear n :: ls, [.told i n], some e)
    | none =>
      let r := tell n (i + 1) ls
      (l.hear n :: r.1, .told i n :: r.2.1, r.2.2)

/-- Tells every listener numbered from `i` up, whatever it answers. -/
def tellAll (n : Notice) : Nat → List Listener → List Listener × List CacheEvent
  | _, [] => ([], [])
  | i, l :: ls =>
    let r := tellAll n (i + 1) ls
    (l.hear n :: r.1, .told i n :: r.2)

def announce : List Notice → List Listener →
    List Listener × List CacheEvent × Option ListenerError
  | [], ls => (ls, [], none)
  | n :: ns, ls =>
    match tell n 0 ls with
    | (ls, es, some e) => (ls, es, some e)
    | (ls, es, none) =>
      let r := announce ns ls
      (r.1, es ++ r.2.1, r.2.2)

def commit (c : Cache) (b : BatchId) (t : Timestamp) :
    Cache × List CacheEvent × Option CommitError :=
  let settled := c.sheet.settle b t
  let modified := settled.2.isSome
  let told := announce (settled.2.toList.map .snapshot ++ [.ended settled.1 b modified]) c.listeners
  let failed := match told.2.2 with
    | some e =>
      [.tallied .listenerFailure, .logged (.listenerFailed c.sheet.feed c.sheet.side b e)]
    | none => []
  (⟨settled.1, told.1⟩, told.2.1 ++ failed ++ [.tallied (.commit modified)],
    told.2.2.map fun e => ⟨b, e⟩)

def noUpdates (c : Cache) (e : BatchEnd) : Cache × List CacheEvent :=
  if e.closes c.sheet.feed then
    let told := tellAll (.untouched e.batch) 0 c.listeners
    ({ c with listeners := told.1 }, told.2 ++ [.tallied .untouched])
  else (c, [])

/-! ## Messages -/

/-- Applies a message of a feed. Changes of the other side pass by, a trade counts whatever its
side, a rebuild mark empties the book. An end with no items over an unchanged sheet is passed on,
any other end commits. -/
def consume (c : Cache) : Message → Cache × List CacheEvent × Option CommitError
  | .quote q =>
    if q.side = c.sheet.side then
      let r := c.quote q
      (r.1, r.2, none)
    else (c, [], none)
  | .withdrawal w =>
    if w.side = c.sheet.side then
      let r := c.withdraw w
      (r.1, r.2, none)
    else (c, [], none)
  | .trade t =>
    let r := c.tradeDone t
    (r.1, r.2, none)
  | .rebuild _ => (c.clear.markRebuilt, [], none)
  | .batchEnd e =>
    if e.closes c.sheet.feed then
      if e.count = 0 ∧ c.sheet.modified = false then
        let r := c.noUpdates e
        (r.1, r.2, none)
      else c.commit e.batch e.time
    else (c, [], none)

end Cache

end QuoteBoard
