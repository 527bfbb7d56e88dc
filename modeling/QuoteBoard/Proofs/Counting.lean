import Mathlib.Data.UInt
import QuoteBoard.Metrics

/-!
# Counting

Most counters go up by one with the tallies of one kind and stay with all others, so they count how
many of these there were, modulo `2 ^ 64` (`Counters.Counts.recordAll`).
-/

namespace QuoteBoard

def Tally.isCommit : Tally → Bool
  | commit _ => true
  | _ => false

def Tally.isDispatch : Tally → Bool
  | dispatch _ => true
  | _ => false

def Tally.isTrackRun : Tally → Bool
  | trackRun _ => true
  | _ => false

def Tally.replayed : Tally → UInt64
  | trackRun n => n
  | _ => 0

/-- A counter that goes up by one with some tallies, and stays with the others. -/
structure Counters.Counts (φ : Counters → UInt64) (p : Tally → Bool) : Prop where
  zero : φ {} = 0
  record : ∀ c t, φ (c.record t) = φ c + if p t then 1 else 0

namespace Counters

theorem Counts.recordAll {φ : Counters → UInt64} {p : Tally → Bool} (h : Counts φ p) (c : Counters)
    (ts : List Tally) : φ (c.recordAll ts) = φ c + .ofNat (ts.countP p) := by
  induction ts generalizing c with
  | nil => exact (UInt64.add_zero _).symm
  | cons t ts ih =>
    show φ ((c.record t).recordAll ts) = _
    rw [ih, h.record, List.countP_cons]
    cases p t <;> simp [UInt64.ofNat_add, UInt64.add_assoc, UInt64.add_comm]

theorem counts_endUpdates : Counts endUpdates Tally.isCommit :=
  ⟨rfl, fun c t => by cases t <;> simp [record, Tally.isCommit]⟩

theorem counts_snapshotsPublished : Counts snapshotsPublished (· == .commit true) :=
  ⟨rfl, fun c t => by
    rcases t with b | _ | _ | _ | _ | _ | _
    · cases b <;> simp [record, unit]
    all_goals simp [record]⟩

theorem counts_noUpdates : Counts noUpdates (· == .untouched) :=
  ⟨rfl, fun c t => by cases t <;> simp [record]⟩

theorem counts_listenerFailures : Counts listenerFailures (· == .listenerFailure) :=
  ⟨rfl, fun c t => by cases t <;> simp [record]⟩

theorem counts_incrementalPublished : Counts incrementalPublished (· == .published) :=
  ⟨rfl, fun c t => by cases t <;> simp [record]⟩

theorem counts_publishFailures : Counts publishFailures (· == .publishFailure) :=
  ⟨rfl, fun c t => by cases t <;> simp [record]⟩

theorem counts_messagesDispatched : Counts messagesDispatched Tally.isDispatch :=
  ⟨rfl, fun c t => by cases t <;> simp [record, Tally.isDispatch]⟩

theorem counts_outOfOrderMessages : Counts outOfOrderMessages (· == .dispatch true) :=
  ⟨rfl, fun c t => by
    rcases t with _ | _ | _ | _ | _ | b | _
    case dispatch => cases b <;> simp [record, unit]
    all_goals simp [record]⟩

theorem counts_trackRunsCompleted : Counts trackRunsCompleted Tally.isTrackRun :=
  ⟨rfl, fun c t => by cases t <;> simp [record, Tally.isTrackRun]⟩

theorem replayedMessages_recordAll (c : Counters) (ts : List Tally) :
    (c.recordAll ts).replayedMessages = c.replayedMessages + (ts.map Tally.replayed).sum := by
  induction ts generalizing c with
  | nil => exact (UInt64.add_zero _).symm
  | cons t ts ih =>
    have hrecord : (c.record t).replayedMessages = c.replayedMessages + t.replayed := by
      cases t <;> simp [record, Tally.replayed]
    show ((c.record t).recordAll ts).replayedMessages = _
    rw [ih, hrecord, List.map_cons, List.sum_cons, UInt64.add_assoc]

end Counters

end QuoteBoard
