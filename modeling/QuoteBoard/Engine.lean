import QuoteBoard.Barrier
import QuoteBoard.Log
import QuoteBoard.Metrics

/-!
# Update engines

An engine listens to the bid feed and to the offer feed of one product, keeps one barrier between
them and hands finished updates to a publisher. A failed publication changes nothing in the engine.
-/

namespace QuoteBoard

/-- A publisher answers each update, given the earlier ones, latest first. -/
structure Publisher where
  answer : List Update → Update → Option PublishError
  offered : List Update := []

namespace Publisher

def openChannel : Publisher where
  answer _ _ := none

def close (p : Publisher) : Publisher :=
  { p with answer := fun us u => (p.answer us u).or (some .channelClosed) }

def offer (p : Publisher) (u : Update) : Publisher := { p with offered := u :: p.offered }

def reply (p : Publisher) (u : Update) : Option PublishError := p.answer p.offered u

end Publisher

inductive EngineEvent where
  | published (u : Update)
  | logged (e : LogEntry)
  | tallied (t : Tally)

structure Engine where
  product : String
  bidFeed : Feed
  offerFeed : Feed
  barrier : Barrier
  publisher : Publisher

namespace Engine

def feed (e : Engine) : Side → Feed
  | .bid => e.bidFeed
  | .offer => e.offerFeed

def publish (e : Engine) (u : Update) : Engine × List EngineEvent × Option HandlerError :=
  let offered := { e with publisher := e.publisher.offer u }
  match e.publisher.reply u with
  | none => (offered, [.published u, .tallied .published], none)
  | some why =>
    (offered, [.logged (.updateLost e.product u.batch why), .tallied .publishFailure],
      some ⟨u.batch, why⟩)

/-- What a message of a side's feed does to the barrier; changes of the other side and trades pass
by. -/
def absorb (e : Engine) (s : Side) : Message → Barrier × Option Update
  | .quote q =>
    (if q.side = s then e.barrier.add s ⟨q.item, q.price, q.size⟩ else e.barrier, none)
  | .withdrawal w => (if w.side = s then e.barrier.remove w.item else e.barrier, none)
  | .trade _ => (e.barrier, none)
  | .rebuild _ => (e.barrier.setRebuilt true, none)
  | .batchEnd b => e.barrier.commit e.product b.batch s

def handle (e : Engine) (s : Side) (m : Message) :
    Engine × List EngineEvent × Option HandlerError :=
  if m.feed = e.feed s then
    match e.absorb s m with
    | (b, none) => ({ e with barrier := b }, [], none)
    | (b, some u) => { e with barrier := b }.publish u
  else (e, [], none)

end Engine

end QuoteBoard
