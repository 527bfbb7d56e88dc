import Mathlib.Data.List.DropRight
import QuoteBoard.Barrier

/-!
# The cycles of a barrier

The calls on a barrier fall into cycles: a commit closes the open cycle when the other side has
committed in it. `cycles` cuts a list of calls by this rule alone. Every answer of a barrier is then
a function of the calls before it (`answer`), what is pending is what the open cycle holds, and the
updates together with what is pending are all changes in the order in which they were made. The main
statement is `run_eq_cycles`; `Accumulates` is what every call keeps.
-/

namespace QuoteBoard

inductive BarrierCall where
  | add (s : Side) (a : Addition)
  | remove (i : ItemId)
  | setRebuilt (on : Bool)
  | commit (product : String) (batch : BatchId) (s : Side)
  deriving DecidableEq

namespace Barrier

def act (b : Barrier) : BarrierCall → Barrier × Option Update
  | .add s a => (b.add s a, none)
  | .remove i => (b.remove i, none)
  | .setRebuilt on => (b.setRebuilt on, none)
  | .commit p n s => b.commit p n s

def run (b : Barrier) (cs : List BarrierCall) : Barrier × List Update :=
  cs.foldl (fun r c => ((r.1.act c).1, r.2 ++ (r.1.act c).2.toList)) (b, [])

theorem run_snoc (b : Barrier) (cs : List BarrierCall) (c : BarrierCall) :
    b.run (cs ++ [c]) =
      (((b.run cs).1.act c).1, (b.run cs).2 ++ ((b.run cs).1.act c).2.toList) := by
  simp [run]

def pending (b : Barrier) : Side → List Addition
  | .bid => b.bids
  | .offer => b.asks

end Barrier

def Update.added (u : Update) : Side → List Addition
  | .bid => List.zipWith3 Addition.mk u.bidItems u.bidPrices u.bidSizes
  | .offer => List.zipWith3 Addition.mk u.askItems u.askPrices u.askSizes

theorem zipWith3_columns (as : List Addition) :
    List.zipWith3 Addition.mk (as.map (·.item)) (as.map (·.price)) (as.map (·.size)) = as := by
  induction as with
  | nil => rfl
  | cons a as ih => simp [List.zipWith3, ih]

theorem Barrier.added_update (b : Barrier) (p : String) (n : BatchId) (s : Side) :
    (b.update p n).added s = b.pending s := by
  cases s <;> exact zipWith3_columns _

namespace BarrierCall

/-! ## What calls say -/

def addition? (s : Side) : BarrierCall → Option Addition
  | add t a => if t = s then some a else none
  | _ => none

def removal? : BarrierCall → Option ItemId
  | remove i => some i
  | _ => none

def flag? : BarrierCall → Option Bool
  | setRebuilt on => some on
  | _ => none

def isChange : BarrierCall → Bool
  | add _ _ => true
  | remove _ => true
  | _ => false

def commits (s : Side) : BarrierCall → Bool
  | commit _ _ t => t = s
  | _ => false

def additions (s : Side) (cs : List BarrierCall) : List Addition := cs.filterMap (addition? s)

def removals (cs : List BarrierCall) : List ItemId := cs.filterMap removal?

def changed (cs : List BarrierCall) : Bool := cs.any isChange

/-- The call is a commit that finds the other side committed in the cycle. -/
def closes (cycle : List BarrierCall) : BarrierCall → Bool
  | commit _ _ s => cycle.any (commits s.opposite)
  | _ => false

/-- The closed cycles among calls, oldest first, and the open one. -/
def cycles (cs : List BarrierCall) : List (List BarrierCall) × List BarrierCall :=
  cs.foldl (fun k c => if closes k.2 c then (k.1 ++ [k.2 ++ [c]], []) else (k.1, k.2 ++ [c])) ([], [])

/-- The last flag that was set since a cycle with changes was closed. -/
def latch (cs : List BarrierCall) : Bool :=
  ((((cycles cs).1.rtakeWhile fun k => !changed k).flatten ++ (cycles cs).2).filterMap flag?).getLastD
    false

/-- What a call answers after the calls `past`: a commit that closes a cycle with changes gives
them. -/
def answer (past : List BarrierCall) : BarrierCall → Option Update
  | commit p n s =>
    let cycle := (cycles past).2
    if closes cycle (commit p n s) ∧ changed cycle then
      some {
        batch := n
        product := p
        bidItems := (additions .bid cycle).map (·.item)
        bidPrices := (additions .bid cycle).map (·.price)
        bidSizes := (additions .bid cycle).map (·.size)
        askItems := (additions .offer cycle).map (·.item)
        askPrices := (additions .offer cycle).map (·.price)
        askSizes := (additions .offer cycle).map (·.size)
        removed := removals cycle
        rebuilt := latch past }
    else none
  | _ => none

/-! ## One more call -/

theorem cycles_snoc (cs : List BarrierCall) (c : BarrierCall) :
    cycles (cs ++ [c]) =
      if closes (cycles cs).2 c then ((cycles cs).1 ++ [(cycles cs).2 ++ [c]], [])
      else ((cycles cs).1, (cycles cs).2 ++ [c]) := by
  unfold cycles
  rw [List.foldl_append]
  rfl

theorem flatten_cycles (cs : List BarrierCall) : (cycles cs).1.flatten ++ (cycles cs).2 = cs := by
  induction cs using List.reverseRecOn with
  | nil => rfl
  | append_singleton cs c ih =>
    rw [cycles_snoc]
    split
    · simp only [List.flatten_append, List.flatten_cons, List.flatten_nil, List.append_nil]
      rw [← List.append_assoc, ih]
    · rw [← List.append_assoc, ih]

theorem additions_snoc (s : Side) (cs : List BarrierCall) (c : BarrierCall) :
    additions s (cs ++ [c]) = additions s cs ++ (c.addition? s).toList := by
  unfold additions
  rw [List.filterMap_append]
  cases h : c.addition? s <;> simp [h]

theorem removals_snoc (cs : List BarrierCall) (c : BarrierCall) :
    removals (cs ++ [c]) = removals cs ++ c.removal?.toList := by
  unfold removals
  rw [List.filterMap_append]
  cases h : c.removal? <;> simp [h]

theorem changed_eq (cs : List BarrierCall) :
    changed cs = (additions .bid cs ≠ [] || additions .offer cs ≠ [] || removals cs ≠ []) := by
  induction cs with
  | nil => rfl
  | cons c cs ih =>
    cases c with
    | add s a => cases s <;> simp [changed, additions, removals, isChange, addition?]
    | remove i => simp [changed, additions, removals, isChange, addition?, removal?]
    | _ => exact ih

theorem not_isChange_of_closes {cycle : List BarrierCall} {c : BarrierCall} (h : closes cycle c) :
    c.isChange = false ∧ c.flag? = none := by
  cases c with
  | commit p n s => exact ⟨rfl, rfl⟩
  | _ => cases h

theorem latch_snoc (cs : List BarrierCall) (c : BarrierCall) :
    latch (cs ++ [c]) =
      if closes (cycles cs).2 c ∧ changed (cycles cs).2 then false else c.flag?.getD (latch cs) := by
  unfold latch
  rw [cycles_snoc]
  by_cases hc : closes (cycles cs).2 c
  · obtain ⟨hchange, hflag⟩ := not_isChange_of_closes hc
    have hk : changed ((cycles cs).2 ++ [c]) = changed (cycles cs).2 := by
      simp [changed, hchange]
    by_cases h : changed (cycles cs).2
    · rw [if_pos hc, if_pos ⟨hc, h⟩, List.rtakeWhile_concat_neg _ _ _ (by simp [hk, h])]
      rfl
    · rw [if_pos hc, if_neg fun hh => h hh.2, List.rtakeWhile_concat_pos _ _ _ (by simp [hk, h])]
      simp [hflag]
  · rw [if_neg hc, if_neg fun hh => hc hh.1]
    cases hf : c.flag? <;> simp [hf]

end BarrierCall

open BarrierCall

/-! ## What every call keeps -/

/-- The barrier holds what the open cycle says. -/
structure Accumulates (cs : List BarrierCall) (b : Barrier) : Prop where
  pending : ∀ s, b.pending s = additions s (cycles cs).2
  removed : b.removed = removals (cycles cs).2
  rebuilt : b.rebuilt = latch cs
  committed : ∀ s, b.isCommitted s = (cycles cs).2.any (commits s)

theorem accumulates_nil : Accumulates [] {} where
  pending s := by cases s <;> rfl
  removed := rfl
  rebuilt := rfl
  committed s := by cases s <;> rfl

section
variable {cs : List BarrierCall} {b : Barrier}

theorem Accumulates.hasChanges (h : Accumulates cs b) : b.hasChanges = changed (cycles cs).2 := by
  have hb : b.bids = additions .bid (cycles cs).2 := h.pending .bid
  have ha : b.asks = additions .offer (cycles cs).2 := h.pending .offer
  rw [changed_eq, Barrier.hasChanges, hb, ha, h.removed]

theorem Accumulates.join (h : Accumulates cs b) {c : BarrierCall} {d : Barrier}
    (hc : closes (cycles cs).2 c = false)
    (hp : ∀ s, d.pending s = b.pending s ++ (c.addition? s).toList)
    (hr : d.removed = b.removed ++ c.removal?.toList) (hf : d.rebuilt = c.flag?.getD b.rebuilt)
    (hs : ∀ s, d.isCommitted s = (b.isCommitted s || c.commits s)) :
    Accumulates (cs ++ [c]) d where
  pending s := by
    rw [hp, h.pending, cycles_snoc, hc]
    exact (additions_snoc s _ c).symm
  removed := by
    rw [hr, h.removed, cycles_snoc, hc]
    exact (removals_snoc _ c).symm
  rebuilt := by
    rw [hf, h.rebuilt, latch_snoc, hc]
    simp
  committed s := by
    rw [hs, h.committed, cycles_snoc, hc]
    simp

theorem Barrier.isCommitted_markDone (b : Barrier) (s t : Side) :
    (b.markDone s).isCommitted t = (b.isCommitted t || decide (s = t)) := by
  cases s <;> cases t <;> simp [markDone, isCommitted]

theorem Barrier.commit_eq (b : Barrier) (p : String) (n : BatchId) (s : Side) :
    b.commit p n s =
      if b.isCommitted s.opposite then
        if b.hasChanges then ({}, some (b.update p n)) else ({ rebuilt := b.rebuilt }, none)
      else (b.markDone s, none) := by
  cases s with
  | bid => cases h : b.offerDone <;> simp [commit, markDone, isCommitted, Side.opposite, h, hasChanges, update]
  | offer => cases h : b.bidDone <;> simp [commit, markDone, isCommitted, Side.opposite, h, hasChanges, update]

theorem Accumulates.commit (h : Accumulates cs b) (p : String) (n : BatchId) (s : Side) :
    Accumulates (cs ++ [.commit p n s]) (b.commit p n s).1 := by
  have hcommitted : b.isCommitted s.opposite = closes (cycles cs).2 (.commit p n s) := h.committed _
  have hchanges := h.hasChanges
  have hcycles := cycles_snoc cs (.commit p n s)
  have hlatch := latch_snoc cs (.commit p n s)
  rw [Barrier.commit_eq]
  cases hc : closes (cycles cs).2 (.commit p n s) with
  | false =>
    rw [hc] at hcommitted
    rw [if_neg (by simp [hcommitted])]
    refine h.join hc ?_ ?_ ?_ ?_
    · intro t
      cases s <;> cases t <;> simp [Barrier.markDone, Barrier.pending, addition?]
    · cases s <;> simp [Barrier.markDone, removal?]
    · cases s <;> rfl
    · intro t
      exact b.isCommitted_markDone s t
  | true =>
    rw [hc] at hcommitted hcycles hlatch
    rw [if_pos hcommitted, hchanges]
    cases hk : changed (cycles cs).2 with
    | true =>
      refine ⟨fun t => ?_, ?_, ?_, fun t => ?_⟩
      · rw [hcycles]; cases t <;> rfl
      · rw [hcycles]; rfl
      · rw [hlatch, hk]; rfl
      · rw [hcycles]; cases t <;> rfl
    | false =>
      refine ⟨fun t => ?_, ?_, ?_, fun t => ?_⟩
      · rw [hcycles]; cases t <;> rfl
      · rw [hcycles]; rfl
      · rw [hlatch, hk]; exact h.rebuilt
      · rw [hcycles]; cases t <;> rfl

theorem Accumulates.act (h : Accumulates cs b) (c : BarrierCall) :
    Accumulates (cs ++ [c]) (b.act c).1 := by
  cases c with
  | add s a =>
    refine h.join rfl ?_ ?_ ?_ ?_
    · intro t
      cases s <;> cases t <;> simp [Barrier.act, Barrier.add, Barrier.pending, addition?]
    · cases s <;> simp [Barrier.act, Barrier.add, removal?]
    · cases s <;> rfl
    · intro t
      cases s <;> cases t <;> simp [Barrier.act, Barrier.add, Barrier.isCommitted, commits]
  | remove i =>
    refine h.join rfl (fun t => ?_) rfl rfl fun t => ?_
    · cases t <;> simp [Barrier.act, Barrier.remove, Barrier.pending, addition?]
    · cases t <;> simp [Barrier.act, Barrier.remove, Barrier.isCommitted, commits]
  | setRebuilt on =>
    refine h.join rfl (fun t => ?_) ?_ rfl fun t => ?_
    · cases t <;> simp [Barrier.act, Barrier.setRebuilt, Barrier.pending, addition?]
    · simp [Barrier.act, Barrier.setRebuilt, removal?]
    · cases t <;> simp [Barrier.act, Barrier.setRebuilt, Barrier.isCommitted, commits]
  | commit p n s => exact h.commit p n s

theorem Accumulates.answer_eq (h : Accumulates cs b) (c : BarrierCall) :
    (b.act c).2 = answer cs c := by
  cases c with
  | commit p n s =>
    have hb : b.bids = additions .bid (cycles cs).2 := h.pending .bid
    have ha : b.asks = additions .offer (cycles cs).2 := h.pending .offer
    have hcommitted : b.isCommitted s.opposite = closes (cycles cs).2 (.commit p n s) := h.committed _
    simp only [Barrier.act, Barrier.commit_eq, hcommitted, h.hasChanges, answer]
    cases closes (cycles cs).2 (.commit p n s) <;> cases changed (cycles cs).2 <;>
      simp [Barrier.update, hb, ha, h.removed, h.rebuilt]
  | _ => rfl

end

theorem accumulates_run (cs : List BarrierCall) : Accumulates cs (Barrier.run {} cs).1 := by
  induction cs using List.reverseRecOn with
  | nil => exact accumulates_nil
  | append_singleton cs c ih =>
    rw [Barrier.run_snoc]
    exact ih.act c

/-! ## Nothing is lost -/

namespace Barrier

theorem pending_of_unchanged {b : Barrier} (h : b.hasChanges = false) :
    (∀ s, b.pending s = []) ∧ b.removed = [] := by
  simp only [hasChanges, Bool.or_eq_false_iff, decide_eq_false_iff_not, ne_eq, not_not] at h
  refine ⟨fun s => ?_, h.2⟩
  cases s with
  | bid => exact h.1.1
  | offer => exact h.1.2

theorem added_act (b : Barrier) (c : BarrierCall) (s : Side) :
    (b.act c).2.toList.flatMap (·.added s) ++ (b.act c).1.pending s =
      b.pending s ++ (c.addition? s).toList := by
  cases c with
  | add t a => cases s <;> cases t <;> simp [act, add, pending, addition?]
  | remove i => cases s <;> simp [act, remove, pending, addition?]
  | setRebuilt on => cases s <;> simp [act, setRebuilt, pending, addition?]
  | commit p n t =>
    simp only [act, commit_eq]
    split
    · cases hk : b.hasChanges with
      | true => cases s <;> simp [added_update, pending, addition?]
      | false =>
        rw [(pending_of_unchanged hk).1 s]
        cases s <;> rfl
    · cases s <;> cases t <;> simp [markDone, pending, addition?]

theorem removed_act (b : Barrier) (c : BarrierCall) :
    (b.act c).2.toList.flatMap (·.removed) ++ (b.act c).1.removed =
      b.removed ++ c.removal?.toList := by
  cases c with
  | add t a => cases t <;> simp [act, add, removal?]
  | remove i => simp [act, remove, removal?]
  | setRebuilt on => simp [act, setRebuilt, removal?]
  | commit p n t =>
    simp only [act, commit_eq]
    split
    · cases hk : b.hasChanges with
      | true => simp [update, removal?]
      | false => simp [pending_of_unchanged hk, removal?]
    · cases t <;> simp [markDone, removal?]

theorem added_run (cs : List BarrierCall) (s : Side) :
    (run {} cs).2.flatMap (·.added s) ++ (run {} cs).1.pending s = additions s cs := by
  induction cs using List.reverseRecOn with
  | nil => cases s <;> rfl
  | append_singleton cs c ih =>
    rw [run_snoc, List.flatMap_append, List.append_assoc, added_act, ← List.append_assoc, ih,
      additions_snoc]

theorem removed_run (cs : List BarrierCall) :
    (run {} cs).2.flatMap (·.removed) ++ (run {} cs).1.removed = removals cs := by
  induction cs using List.reverseRecOn with
  | nil => rfl
  | append_singleton cs c ih =>
    rw [run_snoc, List.flatMap_append, List.append_assoc, removed_act, ← List.append_assoc, ih,
      removals_snoc]

end Barrier

theorem answer_parts {cs : List BarrierCall} {c : BarrierCall} {u : Update}
    (h : answer cs c = some u) : u.wellFormed ∧ 1 ≤ u.changeCount := by
  cases c with
  | commit p n s =>
    simp only [answer, Option.ite_none_right_eq_some, Option.some.injEq] at h
    obtain ⟨⟨_, hchanged⟩, rfl⟩ := h
    refine ⟨by simp [Update.wellFormed], ?_⟩
    rw [changed_eq] at hchanged
    simp only [Update.changeCount, Update.bidCount, Update.askCount, List.length_map]
    simp only [Bool.or_eq_true, decide_eq_true_eq, ← List.length_pos_iff] at hchanged
    omega
  | _ => cases h

/-- After any calls, the next call answers what `answer` reads off them, an update has full columns
and at least one change, what the open cycle brought is pending, and the updates so far with what is
pending are all the changes made, each once and in order. -/
theorem run_eq_cycles (cs : List BarrierCall) :
    let r := Barrier.run {} cs
    (∀ c, (r.1.act c).2 = answer cs c) ∧
      (∀ c u, (r.1.act c).2 = some u → u.wellFormed ∧ 1 ≤ u.changeCount) ∧
      (∀ s, r.1.pending s = additions s (cycles cs).2) ∧
      r.1.removed = removals (cycles cs).2 ∧
      (∀ s, r.1.isCommitted s = (cycles cs).2.any (commits s)) ∧
      (cycles cs).1.flatten ++ (cycles cs).2 = cs ∧
      (∀ s, r.2.flatMap (·.added s) ++ r.1.pending s = additions s cs) ∧
      r.2.flatMap (·.removed) ++ r.1.removed = removals cs := by
  intro r
  have h := accumulates_run cs
  refine ⟨h.answer_eq, ?_, h.pending, h.removed, h.committed, flatten_cycles cs,
    Barrier.added_run cs, Barrier.removed_run cs⟩
  intro c u hu
  exact answer_parts ((h.answer_eq c).symm.trans hu)

end QuoteBoard
