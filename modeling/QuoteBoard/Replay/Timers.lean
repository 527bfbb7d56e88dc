/-!
# Timers

A timer is armed with the moment at which it is due, and fires at most once. Fired timers are kept
until the next one is armed; they count neither as pending nor as cancelled.
-/

namespace QuoteBoard

structure Timer (α : Type) where
  id : UInt64
  due : Nat
  payload : α
  fired : Bool := false
  deriving DecidableEq, Repr

/-- Armed timers, in the order of their arming, and the id of the next one. -/
structure Timers (α : Type) where
  next : UInt64 := 0
  handles : List (Timer α) := []
  deriving DecidableEq, Repr

namespace Timers

variable {α : Type}

def live (ts : Timers α) : List (Timer α) := ts.handles.filter fun t => !t.fired

def arm (ts : Timers α) (due : Nat) (payload : α) : Timers α :=
  ⟨ts.next + 1, ts.live ++ [⟨ts.next, due, payload, false⟩]⟩

theorem live_arm (ts : Timers α) (due : Nat) (payload : α) :
    (ts.arm due payload).live = ts.live ++ [⟨ts.next, due, payload, false⟩] := by
  simp [arm, live]

def pending (ts : Timers α) : Nat := ts.live.length

def cancelAll (ts : Timers α) : Timers α × Nat := (⟨ts.next, []⟩, ts.pending)

def find? (ts : Timers α) (id : UInt64) : Option (Timer α) := ts.live.find? fun t => t.id = id

def mark (id : UInt64) : List (Timer α) → List (Timer α)
  | [] => []
  | t :: ts => if !t.fired ∧ t.id = id then { t with fired := true } :: ts else t :: mark id ts

def fire (ts : Timers α) (id : UInt64) : Timers α × Option α :=
  match ts.find? id with
  | none => (ts, none)
  | some t => ({ ts with handles := mark id ts.handles }, some t.payload)

def dueBefore (ts : Timers α) (limit : Nat) : List (Timer α) :=
  (ts.live.filter fun t => t.due < limit).mergeSort fun a b => a.due ≤ b.due

/-- Lets the clock run from `now` to just before `limit`; the payloads of the timers that fire, each
with the moment. -/
def elapse (ts : Timers α) (now limit : Nat) : Timers α × List (Nat × α) :=
  if now < limit then
    let due := ts.dueBefore limit
    (due.foldl (fun ts t => (ts.fire t.id).1) ts, due.map fun t => (max now t.due, t.payload))
  else (ts, [])

def nextDue? (ts : Timers α) : Option Nat := (ts.live.map (·.due)).min?

end Timers

end QuoteBoard
