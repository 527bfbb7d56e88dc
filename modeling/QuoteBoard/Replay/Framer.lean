import QuoteBoard.Replay.Session

/-!
# Framing a session

A session holds items only: quotes, withdrawals and trades. A framer puts the boundaries of the
batches back. A change of batch id ends the open batch, with one end for each feed that had items in
it; the first item of a feed in a batch captured as a snapshot follows a rebuild mark. Messages that
are no items pass unchanged.
-/

namespace QuoteBoard

structure OpenBatch where
  batch : BatchId
  rebuilt : Bool
  /-- The feeds with their numbers of items, in the order of their first items. -/
  feeds : List (Feed × UInt32)
  time : Timestamp
  deriving DecidableEq, Repr, Inhabited

namespace OpenBatch

def ends (o : OpenBatch) : List Message :=
  o.feeds.map fun f => .batchEnd ⟨f.1, o.batch, f.2, o.time⟩

def hasFeed (o : OpenBatch) (f : Feed) : Bool := o.feeds.any fun g => g.1 = f

def countItem (f : Feed) : List (Feed × UInt32) → List (Feed × UInt32)
  | [] => [(f, 1)]
  | g :: gs => if g.1 = f then (f, g.2 + 1) :: gs else g :: countItem f gs

def add (o : OpenBatch) (m : Message) : OpenBatch :=
  { o with feeds := countItem m.feed o.feeds, time := m.time?.getD o.time }

/-- The mark that an item of a feed needs in front of it. -/
def marks (o : OpenBatch) (f : Feed) : List Message :=
  if o.rebuilt && !o.hasFeed f then [.rebuild ⟨f, o.batch⟩] else []

end OpenBatch

structure Framer where
  opened : Option OpenBatch := none
  deriving DecidableEq, Repr, Inhabited

namespace Framer

def close (f : Framer) : List Message := (f.opened.map OpenBatch.ends).getD []

/-- Writes the ends of the open batch; after that none is open. -/
def shut (f : Framer) : Framer × List Message := ({}, f.close)

/-- The open batch that an item joins; a new one when the batch id changes. -/
def batchOf (f : Framer) (c : Captured) : OpenBatch :=
  let new : OpenBatch := ⟨c.message.batch, c.capture = .snapshot, [], 0⟩
  match f.opened with
  | none => new
  | some o => if o.batch = c.message.batch then o else new

def endsBefore (f : Framer) (c : Captured) : List Message :=
  match f.opened with
  | none => []
  | some o => if o.batch = c.message.batch then [] else o.ends

def push (f : Framer) (c : Captured) : Framer × List Message :=
  if c.message.isItem then
    let o := f.batchOf c
    (⟨some (o.add c.message)⟩, f.endsBefore c ++ o.marks c.message.feed ++ [c.message])
  else (f, [c.message])

def pushAll (f : Framer) : List Captured → Framer × List Message
  | [] => (f, [])
  | c :: cs =>
    let r := f.push c
    let rest := pushAll r.1 cs
    (rest.1, r.2 ++ rest.2)

theorem pushAll_append (f : Framer) (cs ds : List Captured) :
    f.pushAll (cs ++ ds) =
      (((f.pushAll cs).1.pushAll ds).1, (f.pushAll cs).2 ++ ((f.pushAll cs).1.pushAll ds).2) := by
  induction cs generalizing f with
  | nil => rfl
  | cons c cs ih => simp [pushAll, ih]

def frame (cs : List Captured) : List Message :=
  let r := pushAll {} cs
  r.2 ++ r.1.close

end Framer

end QuoteBoard
