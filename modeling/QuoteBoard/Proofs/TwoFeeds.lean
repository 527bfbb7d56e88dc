import QuoteBoard.Proofs.Cycles
import QuoteBoard.Proofs.Delivery
import QuoteBoard.Proofs.Replica

/-!
# Two feeds of one engine

The bid feed and the offer feed of an engine go through the same cycles, each at its own pace
within a cycle. Whatever the order in which the messages of a cycle come, the engine publishes what
the cycles say (`Published`); only the order of the removed items depends on it. An engine makes
calls of its barrier (`Engine.run_calls`), so the work is to find the cycles of the feeds in the
cycles of the barrier: `Interleaves.split_last` cuts the messages at the end of a cycle, and
`Engine.Kept` is what one more cycle keeps.
-/

namespace QuoteBoard

/-- The elements of two lists in one, those of each list in their order. -/
inductive Shuffle {α : Type} : List α → List α → List α → Prop where
  | nil : Shuffle [] [] []
  | left {a : α} {l r m : List α} (h : Shuffle l r m) : Shuffle (a :: l) r (a :: m)
  | right {a : α} {l r m : List α} (h : Shuffle l r m) : Shuffle l (a :: r) (a :: m)

theorem Shuffle.perm {α : Type} {l r m : List α} (h : Shuffle l r m) : m.Perm (l ++ r) := by
  induction h with
  | nil => exact .refl _
  | left h ih => exact ih.cons _
  | right h ih => exact (ih.cons _).trans List.perm_middle.symm

namespace Message

def addedOn? (s : Side) : Message → Option Addition
  | quote q => if q.side = s then some q.addition else none
  | _ => none

def removedOn? (s : Side) : Message → Option ItemId
  | withdrawal w => if w.side = s then some w.item else none
  | _ => none

def changesOn (s : Side) : Message → Bool
  | quote q => q.side = s
  | withdrawal w => w.side = s
  | _ => false

end Message

open Message

/-! ## Cycles of two feeds -/

/-- What the two feeds bring in one cycle: any messages but ends on each, then one end on each. The
ends have the same id. -/
structure Cycle (f : Side → Feed) where
  batch : BatchId
  body : Side → List Message
  count : Side → UInt32
  time : Side → Timestamp
  feed : ∀ s, ∀ m ∈ body s, m.feed = f s
  inner : ∀ s, ∀ m ∈ body s, m.isEnd = false

namespace Cycle

section
variable {f : Side → Feed} (c : Cycle f)

def last (s : Side) : Message := .batchEnd ⟨f s, c.batch, c.count s, c.time s⟩

def stream (s : Side) : List Message := c.body s ++ [c.last s]

def added (s : Side) : List Addition := (c.body s).filterMap (addedOn? s)

def removed (s : Side) : List ItemId := (c.body s).filterMap (removedOn? s)

def changed : Bool := [.bid, .offer].any fun s => (c.body s).any (changesOn s)

def marked : Bool := [.bid, .offer].any fun s => (c.body s).any isRebuild

/-- The changes of a cycle, with the removed items in a given order. -/
def update (product : String) (rebuilt : Bool) (removed : List ItemId) : Update where
  batch := c.batch
  product := product
  bidItems := (c.added .bid).map (·.item)
  bidPrices := (c.added .bid).map (·.price)
  bidSizes := (c.added .bid).map (·.size)
  askItems := (c.added .offer).map (·.item)
  askPrices := (c.added .offer).map (·.price)
  askSizes := (c.added .offer).map (·.size)
  removed := removed
  rebuilt := rebuilt

end

/-- A cycle since the last one with changes has a rebuild mark. -/
def pendingMark {f : Side → Feed} (cs : List (Cycle f)) : Bool :=
  (cs.rtakeWhile fun c => !c.changed).any (·.marked)

theorem pendingMark_snoc {f : Side → Feed} (cs : List (Cycle f)) (c : Cycle f) :
    pendingMark (cs ++ [c]) = if c.changed then false else pendingMark cs || c.marked := by
  unfold pendingMark
  cases h : c.changed with
  | true =>
    rw [List.rtakeWhile_concat_neg _ _ _ (by simp [h])]
    rfl
  | false =>
    rw [List.rtakeWhile_concat_pos _ _ _ (by simp [h])]
    simp

end Cycle

/-- The updates of cycles: one for each cycle with changes, none for the others. An update is marked
when a rebuild mark came since the one before it. -/
inductive Published {f : Side → Feed} (product : String) : List (Cycle f) → List Update → Prop where
  | nil : Published product [] []
  | unchanged {cs : List (Cycle f)} {us : List Update} {c : Cycle f} (h : Published product cs us)
      (hc : c.changed = false) : Published product (cs ++ [c]) us
  | changed {cs : List (Cycle f)} {us : List Update} {c : Cycle f} {removed : List ItemId}
      (h : Published product cs us) (hc : c.changed = true)
      (hr : Shuffle (c.removed .bid) (c.removed .offer) removed) :
      Published product (cs ++ [c])
        (us ++ [c.update product (Cycle.pendingMark cs || c.marked) removed])

/-- Two updates say the same, except for the order of the removed items. -/
def Update.Alike (u v : Update) : Prop :=
  { u with removed := [] } = { v with removed := [] } ∧ u.removed.Perm v.removed

theorem Published.alike {f : Side → Feed} {product : String} {cs : List (Cycle f)}
    {us vs : List Update} (hu : Published product cs us) (hv : Published product cs vs) :
    List.Forall₂ Update.Alike us vs := by
  induction hu generalizing vs with
  | nil =>
    generalize hcs : ([] : List (Cycle f)) = cs at hv
    cases hv with
    | nil => exact .nil
    | unchanged h hc => simp at hcs
    | changed h hc hr => simp at hcs
  | @unchanged cs us c h hc ih =>
    generalize hcs : cs ++ [c] = ds at hv
    cases hv with
    | nil => simp at hcs
    | unchanged h' hc' =>
      obtain ⟨rfl, hlast⟩ := List.append_inj' hcs rfl
      exact ih h'
    | changed h' hc' hr' =>
      obtain ⟨rfl, hlast⟩ := List.append_inj' hcs rfl
      rw [← List.singleton_inj.mp hlast, hc] at hc'
      cases hc'
  | @changed cs us c removed h hc hr ih =>
    generalize hcs : cs ++ [c] = ds at hv
    cases hv with
    | nil => simp at hcs
    | unchanged h' hc' =>
      obtain ⟨rfl, hlast⟩ := List.append_inj' hcs rfl
      rw [← List.singleton_inj.mp hlast, hc] at hc'
      cases hc'
    | changed h' hc' hr' =>
      obtain ⟨rfl, hlast⟩ := List.append_inj' hcs rfl
      obtain rfl := List.singleton_inj.mp hlast
      exact List.rel_append (ih h') (.cons ⟨rfl, hr.perm.trans hr'.perm.symm⟩ .nil)

/-! ## Messages of both feeds in one order -/

def share (s : Side) (hs : List (Side × Message)) : List Message :=
  hs.filterMap fun x => if x.1 = s then some x.2 else none

/-- How many cycles a side has ended. -/
def ended (s : Side) (hs : List (Side × Message)) : Nat := (share s hs).countP isEnd

/-- The messages of both feeds through the same cycles in one order. That of each feed is kept, and a
message comes only when the other side has ended as many cycles as its own. -/
structure Interleaves {f : Side → Feed} (cs : List (Cycle f)) (hs : List (Side × Message)) : Prop where
  order : ∀ s, share s hs = cs.flatMap (·.stream s)
  apart : ∀ pre x, pre ++ [x] <+: hs → ended x.1 pre ≤ ended x.1.opposite pre

theorem share_append (s : Side) (hs ks : List (Side × Message)) :
    share s (hs ++ ks) = share s hs ++ share s ks := List.filterMap_append

theorem share_snoc (s : Side) (hs : List (Side × Message)) (x : Side × Message) :
    share s (hs ++ [x]) = share s hs ++ if x.1 = s then [x.2] else [] := by
  rw [share_append]
  by_cases h : x.1 = s <;> simp [share, h]

theorem length_share (hs : List (Side × Message)) :
    (share .bid hs).length + (share .offer hs).length = hs.length := by
  induction hs using List.reverseRecOn with
  | nil => rfl
  | append_singleton hs x ih =>
    rw [share_snoc, share_snoc]
    rcases x with ⟨s, m⟩
    cases s <;> simp <;> omega

theorem exists_prefix_share {s : Side} {hs : List (Side × Message)} {n : Nat}
    (h : n < (share s hs).length) :
    ∃ pre x, pre ++ [x] <+: hs ∧ x.1 = s ∧ (share s pre).length = n := by
  induction hs using List.reverseRecOn with
  | nil => simp [share] at h
  | append_singleton hs x ih =>
    by_cases hn : n < (share s hs).length
    · obtain ⟨pre, y, hpre, hy, hlen⟩ := ih hn
      exact ⟨pre, y, hpre.trans (List.prefix_append hs [x]), hy, hlen⟩
    · rw [share_snoc] at h
      by_cases hx : x.1 = s
      · refine ⟨hs, x, List.prefix_rfl, hx, ?_⟩
        simp [hx] at h
        omega
      · simp [hx] at h
        omega

theorem any_eq_any_share (p : Side → Message → Bool) (hs : List (Side × Message)) :
    hs.any (fun x => p x.1 x.2) = [.bid, .offer].any fun s => (share s hs).any (p s) := by
  induction hs using List.reverseRecOn with
  | nil => rfl
  | append_singleton hs x ih =>
    rw [List.any_append, ih]
    simp only [share_snoc, List.any_cons, List.any_nil, List.any_append, Bool.or_false]
    rcases x with ⟨s, m⟩
    cases s <;> simp <;> ac_rfl

theorem shuffle_share {α : Type} (g : Side → Message → Option α) (hs : List (Side × Message)) :
    Shuffle ((share .bid hs).filterMap (g .bid)) ((share .offer hs).filterMap (g .offer))
      (hs.filterMap fun x => g x.1 x.2) := by
  induction hs with
  | nil => exact .nil
  | cons x hs ih =>
    rcases x with ⟨s, m⟩
    cases s with
    | bid =>
      cases hm : g .bid m with
      | none => simpa [share, hm] using ih
      | some a => simpa [share, hm] using ih.left
    | offer =>
      cases hm : g .offer m with
      | none => simpa [share, hm] using ih
      | some a => simpa [share, hm] using ih.right

/-! ## The end of a cycle -/

section
variable {f : Side → Feed}

theorem Cycle.countP_body (c : Cycle f) (s : Side) : (c.body s).countP isEnd = 0 :=
  List.countP_eq_zero.mpr fun m hm => by simp [c.inner s m hm]

theorem countP_streams (cs : List (Cycle f)) (s : Side) :
    (cs.flatMap (·.stream s)).countP isEnd = cs.length := by
  induction cs with
  | nil => rfl
  | cons c cs ih =>
    have hlast : [c.last s].countP isEnd = 1 := rfl
    rw [List.flatMap_cons, Cycle.stream, List.countP_append, List.countP_append, c.countP_body, hlast,
      ih, List.length_cons]
    omega

theorem eq_streams_of_ended {cs : List (Cycle f)} {s : Side} {ms : List Message}
    (hms : ms <+: cs.flatMap (·.stream s)) (hends : cs.length ≤ ms.countP isEnd) :
    ms = cs.flatMap (·.stream s) := by
  rcases List.eq_nil_or_concat cs with rfl | ⟨cs, c, rfl⟩
  · exact List.prefix_nil.mp hms
  · rw [List.concat_eq_append, List.flatMap_append, List.flatMap_singleton] at hms ⊢
    rw [Cycle.stream, ← List.append_assoc] at hms ⊢
    rcases List.prefix_concat_iff.mp hms with heq | hshort
    · exact heq
    · have hle := hshort.sublist.countP_le (p := isEnd)
      rw [List.countP_append, countP_streams, c.countP_body] at hle
      simp at hends
      omega

theorem Interleaves.length_share_le {cs : List (Cycle f)} {c : Cycle f} {hs : List (Side × Message)}
    (h : Interleaves (cs ++ [c]) hs) {pre : List (Side × Message)} (hpre : pre <+: hs)
    (hlen : pre.length = (cs.flatMap (·.stream .bid)).length + (cs.flatMap (·.stream .offer)).length)
    (s : Side) : (share s pre).length ≤ (cs.flatMap (·.stream s)).length := by
  by_contra hlong
  obtain ⟨ms, x, hms, rfl, hshare⟩ := exists_prefix_share (Nat.lt_of_not_le hlong)
  -- at the message after the cycles `cs` on its side, the other side has them all behind
  have hfirst : ∀ t, share t ms <+: cs.flatMap (·.stream t) ++ c.stream t := by
    intro t
    have hall : share t ms <+: share t hs :=
      (((List.prefix_append ms [x]).trans hms).trans hpre).filterMap _
    rw [h.order t, List.flatMap_append, List.flatMap_singleton] at hall
    exact hall
  have hown : share x.1 ms = cs.flatMap (·.stream x.1) :=
    (List.prefix_of_prefix_length_le (hfirst x.1) (List.prefix_append _ _) hshare.le).eq_of_length
      hshare
  have hends : cs.length ≤ (share x.1.opposite ms).countP isEnd := by
    have := h.apart ms x (hms.trans hpre)
    rw [ended, hown, countP_streams] at this
    exact this
  have hother : (cs.flatMap (·.stream x.1.opposite)).length ≤ (share x.1.opposite ms).length := by
    rcases List.prefix_or_prefix_of_prefix (hfirst x.1.opposite) (List.prefix_append _ _) with hle | hge
    · rw [eq_streams_of_ended hle hends]
    · exact hge.length_le
  have hshort : ms.length + 1 ≤ pre.length := by
    have := hms.length_le
    simpa using this
  have htotal := length_share ms
  rcases x with ⟨s, m⟩
  cases s <;> simp only [Side.opposite] at hother hshare <;> omega

theorem Interleaves.split_last {cs : List (Cycle f)} {c : Cycle f} {hs : List (Side × Message)}
    (h : Interleaves (cs ++ [c]) hs) :
    ∃ pre post, hs = pre ++ post ∧ Interleaves cs pre ∧ ∀ s, share s post = c.stream s := by
  have hstream : ∀ s, share s hs = cs.flatMap (·.stream s) ++ c.stream s := by
    intro s
    rw [h.order s, List.flatMap_append, List.flatMap_singleton]
  let n := (cs.flatMap (·.stream .bid)).length + (cs.flatMap (·.stream .offer)).length
  have hn : n ≤ hs.length := by
    rw [← length_share hs, hstream, hstream, List.length_append, List.length_append]
    omega
  have hlen : (hs.take n).length = n := List.length_take_of_le hn
  have hle := h.length_share_le (List.take_prefix n hs) hlen
  have hsum := length_share (hs.take n)
  have heq : ∀ s, (share s (hs.take n)).length = (cs.flatMap (·.stream s)).length := by
    intro s
    have hbid := hle .bid
    have hoffer := hle .offer
    cases s <;> omega
  have hcut : ∀ s, share s (hs.take n) ++ share s (hs.drop n) =
      cs.flatMap (·.stream s) ++ c.stream s := by
    intro s
    rw [← share_append, List.take_append_drop, hstream]
  refine ⟨hs.take n, hs.drop n, (List.take_append_drop n hs).symm, ⟨fun s => ?_, ?_⟩, fun s => ?_⟩
  · exact (List.append_inj (hcut s) (heq s)).1
  · exact fun pre x hpre => h.apart pre x (hpre.trans (List.take_prefix n hs))
  · exact (List.append_inj (hcut s) (heq s)).2

theorem Cycle.split_end {c : Cycle f} {hs : List (Side × Message)} (h : ∀ s, share s hs = c.stream s) :
    ∃ pre s, hs = pre ++ [(s, c.last s)] ∧ share s pre = c.body s ∧
      share s.opposite pre = c.stream s.opposite := by
  rcases List.eq_nil_or_concat hs with rfl | ⟨pre, ⟨s, m⟩, rfl⟩
  · have := h .bid
    simp [share, stream] at this
  · rw [List.concat_eq_append] at h ⊢
    have hown := h s
    have hother := h s.opposite
    rw [share_snoc] at hown hother
    rw [if_pos rfl] at hown
    have hne : s ≠ s.opposite := by cases s <;> simp [Side.opposite]
    obtain ⟨hbody, hlast⟩ := List.append_inj' hown rfl
    obtain rfl : m = c.last s := List.singleton_inj.mp hlast
    exact ⟨pre, s, rfl, hbody, by simpa [hne] using hother⟩

end

/-! ## The calls of one cycle -/

namespace BarrierCall

def isMark (k : BarrierCall) : Bool := k.flag? = some true

theorem not_closes {s : Side} {cycle : List BarrierCall} {k : BarrierCall}
    (hcycle : cycle.any (commits s) = false) (hk : k.commits s = false) : closes cycle k = false := by
  cases k with
  | commit p n t =>
    have ht : t.opposite = s := by
      have hne : t ≠ s := of_decide_eq_false hk
      cases s <;> cases t <;> first | rfl | exact absurd rfl hne
    rw [closes, ht, hcycle]
  | _ => rfl

theorem open_cycle {s : Side} {past ks : List BarrierCall} (hpast : (cycles past).2 = [])
    (hks : ks.any (commits s) = false) (hflags : ∀ k ∈ ks, k.flag? ≠ some false) :
    cycles (past ++ ks) = ((cycles past).1, ks) ∧
      latch (past ++ ks) = (latch past || ks.any isMark) ∧
      (Barrier.run {} (past ++ ks)).2 = (Barrier.run {} past).2 := by
  induction ks using List.reverseRecOn with
  | nil =>
    rw [List.append_nil]
    exact ⟨by rw [← hpast], by simp, rfl⟩
  | append_singleton ks k ih =>
    rw [List.any_append, Bool.or_eq_false_iff] at hks
    obtain ⟨hcycles, hlatch, hout⟩ := ih hks.1 fun k hk => hflags k (List.mem_append_left _ hk)
    have hclose : closes (cycles (past ++ ks)).2 k = false := by
      rw [hcycles]
      exact not_closes hks.1 (by simpa using hks.2)
    have hflag : k.flag? ≠ some false :=
      hflags k (List.mem_append_right _ (List.mem_singleton_self k))
    rw [← List.append_assoc]
    refine ⟨?_, ?_, ?_⟩
    · rw [cycles_snoc, hclose, hcycles]
      rfl
    · rw [latch_snoc, hclose, hlatch, List.any_append]
      cases hk : k.flag? with
      | none => simp [isMark, hk]
      | some on => cases on <;> simp_all [isMark]
    · rw [Barrier.run_snoc, hout, (accumulates_run (past ++ ks)).answer_eq]
      cases k with
      | commit p n t => simp [answer, hclose]
      | _ => simp [answer]

end BarrierCall

open BarrierCall

namespace Engine

/-- What a handler of a side asks the barrier to do. -/
def call (product : String) : Side × Message → Option BarrierCall
  | (s, .quote q) => if q.side = s then some (.add s q.addition) else none
  | (s, .withdrawal w) => if w.side = s then some (.remove w.item) else none
  | (_, .trade _) => none
  | (_, .rebuild _) => some (.setRebuilt true)
  | (s, .batchEnd b) => some (.commit product b.batch s)

def calls (product : String) (hs : List (Side × Message)) : List BarrierCall :=
  hs.filterMap (call product)

theorem calls_append (product : String) (hs ks : List (Side × Message)) :
    calls product (hs ++ ks) = calls product hs ++ calls product ks := List.filterMap_append

theorem additions_calls (product : String) (s : Side) (hs : List (Side × Message)) :
    additions s (calls product hs) = (share s hs).filterMap (addedOn? s) := by
  unfold additions calls share
  rw [List.filterMap_filterMap, List.filterMap_filterMap]
  congr 1
  funext ⟨t, m⟩
  cases m with
  | quote q => cases s <;> cases t <;> cases hq : q.side <;> simp [call, addition?, addedOn?, hq]
  | withdrawal w => cases s <;> cases t <;> cases hw : w.side <;> simp [call, addition?, addedOn?, hw]
  | _ => cases s <;> cases t <;> rfl

theorem removals_calls (product : String) (hs : List (Side × Message)) :
    removals (calls product hs) = hs.filterMap fun x => x.2.removedOn? x.1 := by
  unfold removals calls
  rw [List.filterMap_filterMap]
  congr 1
  funext ⟨t, m⟩
  cases m with
  | quote q => cases t <;> cases hq : q.side <;> simp [call, removal?, removedOn?, hq]
  | withdrawal w => cases t <;> cases hw : w.side <;> simp [call, removal?, removedOn?, hw]
  | _ => rfl

theorem any_calls {product : String} {p : BarrierCall → Bool} {q : Side → Message → Bool}
    (h : ∀ s m, (call product (s, m)).any p = q s m) (hs : List (Side × Message)) :
    (calls product hs).any p = [.bid, .offer].any fun s => (share s hs).any (q s) := by
  rw [← any_eq_any_share, calls, List.any_filterMap]
  congr 1
  funext ⟨s, m⟩
  rw [← h s m]
  cases call product (s, m) <;> rfl

theorem changed_calls (product : String) (hs : List (Side × Message)) :
    BarrierCall.changed (calls product hs) =
      [.bid, .offer].any fun s => (share s hs).any (changesOn s) := by
  refine any_calls (fun s m => ?_) hs
  cases m with
  | quote q => by_cases hq : q.side = s <;> simp [call, BarrierCall.isChange, changesOn, hq]
  | withdrawal w => by_cases hw : w.side = s <;> simp [call, BarrierCall.isChange, changesOn, hw]
  | _ => rfl

theorem marks_calls (product : String) (hs : List (Side × Message)) :
    (calls product hs).any isMark = [.bid, .offer].any fun s => (share s hs).any isRebuild := by
  refine any_calls (q := fun _ => isRebuild) (fun s m => ?_) hs
  cases m with
  | quote q => by_cases hq : q.side = s <;> simp [call, isMark, flag?, isRebuild, hq]
  | withdrawal w => by_cases hw : w.side = s <;> simp [call, isMark, flag?, isRebuild, hw]
  | _ => rfl

theorem commits_calls (product : String) (s : Side) (hs : List (Side × Message)) :
    (calls product hs).any (commits s) = (share s hs).any isEnd := by
  rw [any_calls (q := fun t m => decide (t = s) && m.isEnd)]
  · cases s <;> simp
  · intro t m
    cases m with
    | quote q => by_cases hq : q.side = t <;> simp [call, commits, isEnd, hq]
    | withdrawal w => by_cases hw : w.side = t <;> simp [call, commits, isEnd, hw]
    | batchEnd b => simp [call, commits, isEnd]
    | _ => simp [call, commits, isEnd]

theorem flag_calls {product : String} {hs : List (Side × Message)} {k : BarrierCall}
    (hk : k ∈ calls product hs) : k.flag? ≠ some false := by
  obtain ⟨⟨s, m⟩, _, hcall⟩ := List.mem_filterMap.mp hk
  cases m with
  | quote q =>
    simp only [call, Option.ite_none_right_eq_some, Option.some.injEq] at hcall
    rw [← hcall.2]
    simp [flag?]
  | withdrawal w =>
    simp only [call, Option.ite_none_right_eq_some, Option.some.injEq] at hcall
    rw [← hcall.2]
    simp [flag?]
  | trade t => cases hcall
  | rebuild r => cases hcall; simp [flag?]
  | batchEnd b => cases hcall; simp [flag?]

/-! ## What a cycle keeps -/

section
variable {f : Side → Feed} {product : String} {cs : List (Cycle f)} {c : Cycle f}

/-- After the calls of whole cycles the barrier is between two cycles, and its updates are theirs. -/
structure Kept (product : String) (cs : List (Cycle f)) (ks : List BarrierCall) : Prop where
  closed : (cycles ks).2 = []
  latch : latch ks = Cycle.pendingMark cs
  published : Published product cs (Barrier.run {} ks).2

theorem calls_of_cycle (product : String) {hs : List (Side × Message)}
    (hhs : ∀ t, ∃ ends, share t hs = c.body t ++ ends ∧ ∀ m ∈ ends, m = c.last t) :
    (∀ t, additions t (calls product hs) = c.added t) ∧
      Shuffle (c.removed .bid) (c.removed .offer) (removals (calls product hs)) ∧
      BarrierCall.changed (calls product hs) = c.changed ∧
      (calls product hs).any isMark = c.marked := by
  have hpart : ∀ {α : Type} (g : Side → Message → Option α), (∀ t, g t (c.last t) = none) →
      ∀ t, (share t hs).filterMap (g t) = (c.body t).filterMap (g t) := by
    intro α g hg t
    obtain ⟨ends, hshare, hends⟩ := hhs t
    have hnone : ends.filterMap (g t) = [] :=
      List.filterMap_eq_nil_iff.mpr fun m hm => by rw [hends m hm, hg]
    rw [hshare, List.filterMap_append, hnone, List.append_nil]
  have hany : ∀ p : Side → Message → Bool, (∀ t, p t (c.last t) = false) →
      ([.bid, .offer].any fun t => (share t hs).any (p t)) =
        [.bid, .offer].any fun t => (c.body t).any (p t) := by
    intro p hp
    congr 1
    funext t
    obtain ⟨ends, hshare, hends⟩ := hhs t
    have hnone : ends.any (p t) = false :=
      List.any_eq_false.mpr fun m hm => by simp [hends m hm, hp]
    rw [hshare, List.any_append, hnone, Bool.or_false]
  have hremoved := hpart removedOn? fun _ => rfl
  refine ⟨fun t => ?_, ?_, ?_, ?_⟩
  · rw [additions_calls]
    exact hpart addedOn? (fun _ => rfl) t
  · rw [removals_calls, Cycle.removed, Cycle.removed, ← hremoved, ← hremoved]
    exact shuffle_share removedOn? hs
  · exact (changed_calls product hs).trans (hany changesOn fun _ => rfl)
  · exact (marks_calls product hs).trans (hany (fun _ => isRebuild) fun _ => rfl)

theorem Kept.next {past : List BarrierCall} (h : Kept product cs past) {hs : List (Side × Message)}
    (hhs : ∀ s, share s hs = c.stream s) : Kept product (cs ++ [c]) (past ++ calls product hs) := by
  -- all but the last end, which is the one that closes the cycle of the barrier
  obtain ⟨pre, s, rfl, hown, hother⟩ := c.split_end hhs
  have hends : ∀ t, ∃ ends, share t pre = c.body t ++ ends ∧ ∀ m ∈ ends, m = c.last t := by
    intro t
    by_cases ht : t = s
    · exact ⟨[], by rw [ht, hown, List.append_nil], by simp⟩
    · have ht : t = s.opposite := by cases s <;> cases t <;> first | rfl | exact absurd rfl ht
      exact ⟨[c.last t], by rw [ht, hother, Cycle.stream], by simp⟩
  obtain ⟨hadded, hremoved, hchanged, hmarked⟩ := calls_of_cycle product hends
  have hopen : (calls product pre).any (commits s) = false := by
    rw [commits_calls, hown]
    exact List.any_eq_false.mpr fun m hm => by simp [c.inner s m hm]
  have hclose : closes (calls product pre) (.commit product c.batch s) = true := by
    rw [closes, commits_calls, hother]
    simp [Cycle.stream, Cycle.last, isEnd]
  obtain ⟨hcycles, hlatch, hout⟩ := open_cycle h.closed hopen fun k => flag_calls
  rw [h.latch, hmarked] at hlatch
  have hanswer : answer (past ++ calls product pre) (.commit product c.batch s) =
      if c.changed then
        some (c.update product (Cycle.pendingMark cs || c.marked) (removals (calls product pre)))
      else none := by
    simp only [answer, hcycles, hclose, hchanged, hadded, hlatch, true_and]
    rfl
  have hlast : calls product (pre ++ [(s, c.last s)]) =
      calls product pre ++ [.commit product c.batch s] := calls_append product pre _
  rw [hlast, ← List.append_assoc]
  refine ⟨?_, ?_, ?_⟩
  · rw [cycles_snoc, hcycles, if_pos hclose]
  · rw [latch_snoc, hcycles, hclose, hchanged, hlatch, Cycle.pendingMark_snoc]
    simp [flag?]
  · rw [Barrier.run_snoc, (accumulates_run _).answer_eq, hanswer, hout]
    cases hc : c.changed with
    | false => simpa using h.published.unchanged hc
    | true => exact h.published.changed hc hremoved

theorem kept_of_interleaves {hs : List (Side × Message)} (h : Interleaves cs hs) :
    Kept product cs (calls product hs) := by
  induction cs using List.reverseRecOn generalizing hs with
  | nil =>
    have hempty : hs = [] := by
      apply List.eq_nil_of_length_eq_zero
      rw [← length_share, h.order, h.order]
      rfl
    rw [hempty]
    exact ⟨rfl, rfl, .nil⟩
  | append_singleton cs c ih =>
    obtain ⟨pre, post, rfl, hpre, hpost⟩ := h.split_last
    rw [calls_append]
    exact (ih hpre).next hpost

end

/-! ## What an engine publishes -/

theorem absorb_eq (e : Engine) (s : Side) (m : Message) :
    e.absorb s m = ((call e.product (s, m)).map e.barrier.act).getD (e.barrier, none) := by
  cases m with
  | quote q => by_cases hq : q.side = s <;> simp [absorb, call, hq, Barrier.act, Quote.addition]
  | withdrawal w => by_cases hw : w.side = s <;> simp [absorb, call, hw, Barrier.act]
  | _ => rfl

theorem run_snoc (e : Engine) (hs : List (Side × Message)) (x : Side × Message) :
    e.run (hs ++ [x]) =
      (((e.run hs).1.handle x.1 x.2).1,
        (e.run hs).2 ++ ((e.run hs).1.handle x.1 x.2).2.1.filterMap EngineEvent.published?) := by
  induction hs generalizing e with
  | nil => simp [run]
  | cons y hs ih => simp [run, ih]

def offering (e : Engine) (r : Barrier × List Update) : Engine :=
  { e with barrier := r.1, publisher := { e.publisher with offered := r.2.reverse ++ e.publisher.offered } }

theorem handle_eq {e : Engine} {s : Side} {m : Message} (hm : m.feed = e.feed s) :
    (e.handle s m).1 = e.offering ((e.absorb s m).1, (e.absorb s m).2.toList) ∧
      ((∀ us u, e.publisher.answer us u = none) →
        (e.handle s m).2.1.filterMap EngineEvent.published? = (e.absorb s m).2.toList) := by
  unfold handle
  rw [if_pos hm]
  cases e.absorb s m with
  | mk b u =>
    cases u with
    | none => exact ⟨rfl, fun _ => rfl⟩
    | some u =>
      simp only [publish, Publisher.reply]
      cases hanswer : e.publisher.answer e.publisher.offered u with
      | none => exact ⟨rfl, fun _ => rfl⟩
      | some why => exact ⟨rfl, fun hok => by rw [hok] at hanswer; cases hanswer⟩

theorem run_calls {e : Engine} {hs : List (Side × Message)} (hhs : ∀ x ∈ hs, x.2.feed = e.feed x.1) :
    (e.run hs).1 = e.offering (e.barrier.run (calls e.product hs)) ∧
      ((∀ us u, e.publisher.answer us u = none) →
        (e.run hs).2 = (e.barrier.run (calls e.product hs)).2) := by
  induction hs using List.reverseRecOn with
  | nil => exact ⟨rfl, fun _ => rfl⟩
  | append_singleton hs x ih =>
    obtain ⟨hrun, hout⟩ := ih fun y hy => hhs y (List.mem_append_left _ hy)
    have hfeed : x.2.feed = (e.run hs).1.feed x.1 := by
      rw [hrun]
      exact hhs x (List.mem_append_right _ (List.mem_singleton_self x))
    have hcalls : e.barrier.run (calls e.product (hs ++ [x])) =
        (((e.run hs).1.absorb x.1 x.2).1,
          (e.barrier.run (calls e.product hs)).2 ++ ((e.run hs).1.absorb x.1 x.2).2.toList) := by
      rw [calls_append, absorb_eq, hrun]
      simp only [calls, offering]
      cases hx : call e.product x with
      | none => simp [hx]
      | some k => simp [hx, Barrier.run_snoc]
    obtain ⟨hnext, hsent⟩ := handle_eq hfeed
    rw [run_snoc, hcalls]
    refine ⟨?_, fun hok => ?_⟩
    · rw [hnext, hrun]
      simp [offering]
    · rw [hout hok, hsent (by rw [hrun]; exact hok)]

/-- A new engine whose feeds go through cycles. Whatever the order of their messages, the engine
hands to its publisher one update for each cycle with changes and none for the others, with what the
cycle says; a publisher that never fails publishes them all. In any other order the updates are the
same up to the order of the removed items. -/
theorem offered_of_interleaves {e : Engine} (hb : e.barrier = {}) (hp : e.publisher.offered = [])
    {cs : List (Cycle e.feed)} {hs : List (Side × Message)} (h : Interleaves cs hs) :
    let us := (e.run hs).1.publisher.offered.reverse
    Published e.product cs us ∧
      ((∀ vs u, e.publisher.answer vs u = none) → (e.run hs).2 = us) ∧
      ∀ ks, Interleaves cs ks →
        List.Forall₂ Update.Alike us (e.run ks).1.publisher.offered.reverse := by
  have hrun : ∀ {ks}, Interleaves cs ks →
      (e.run ks).1.publisher.offered.reverse = (Barrier.run {} (calls e.product ks)).2 ∧
        ((∀ us u, e.publisher.answer us u = none) →
          (e.run ks).2 = (Barrier.run {} (calls e.product ks)).2) := by
    intro ks hks
    have hfeed : ∀ x ∈ ks, x.2.feed = e.feed x.1 := by
      intro x hx
      have hmem : x.2 ∈ share x.1 ks := List.mem_filterMap.mpr ⟨x, hx, by simp⟩
      rw [hks.order] at hmem
      obtain ⟨c, _, hc⟩ := List.mem_flatMap.mp hmem
      rcases List.mem_append.mp hc with hbody | hlast
      · exact c.feed x.1 x.2 hbody
      · rw [List.mem_singleton.mp hlast]
        rfl
    obtain ⟨hstate, hout⟩ := run_calls hfeed
    rw [hb] at hstate hout
    exact ⟨by rw [hstate]; simp [offering, hp], hout⟩
  intro us
  have hpublished : ∀ {ks}, Interleaves cs ks →
      Published e.product cs (e.run ks).1.publisher.offered.reverse := by
    intro ks hks
    rw [(hrun hks).1]
    exact (kept_of_interleaves hks).published
  refine ⟨hpublished h, fun hok => ?_, fun ks hks => (hpublished h).alike (hpublished hks)⟩
  rw [(hrun h).2 hok, ← (hrun h).1]

/-- Two cycles: the bid feed marks a rebuild and removes an item, then the offer feed quotes. -/
def sampleCycles (f : Side → Feed) : List (Cycle f) :=
  [{ batch := ⟨1⟩
     body := fun
       | .bid => [.rebuild ⟨f .bid, ⟨1⟩⟩, .withdrawal ⟨f .bid, ⟨"a"⟩, .bid, ⟨1⟩, 1⟩]
       | .offer => [.withdrawal ⟨f .offer, ⟨"b"⟩, .offer, ⟨1⟩, 1⟩]
     count := fun _ => 1
     time := fun _ => 1
     feed := by intro s; cases s <;> simp [Message.feed]
     inner := by intro s; cases s <;> simp [isEnd] },
   { batch := ⟨2⟩
     body := fun
       | .bid => []
       | .offer => [.quote ⟨f .offer, ⟨"c"⟩, ⟨100⟩, ⟨1⟩, .offer, ⟨2⟩, 2⟩]
     count := fun _ => 1
     time := fun _ => 2
     feed := by intro s; cases s <;> simp [Message.feed]
     inner := by intro s; cases s <;> simp [isEnd] }]

def inTurn {f : Side → Feed} (first : Side) (cs : List (Cycle f)) : List (Side × Message) :=
  cs.flatMap fun c => [first, first.opposite].flatMap fun s => (c.stream s).map (s, ·)

def sampleEngine : Engine := ⟨"P", ⟨"XYZ", 1⟩, ⟨"XYZ", 2⟩, {}, .openChannel⟩

theorem interleaves_of_steps {f : Side → Feed} {cs : List (Cycle f)} {hs : List (Side × Message)}
    (horder : ∀ s, share s hs = cs.flatMap (·.stream s))
    (hsteps : ∀ n : Fin hs.length,
      ended hs[n].1 (hs.take n) ≤ ended hs[n].1.opposite (hs.take n)) : Interleaves cs hs := by
  refine ⟨horder, ?_⟩
  rintro pre x ⟨post, rfl⟩
  have hstep := hsteps ⟨pre.length, by simp⟩
  simpa using hstep

theorem offered_of_interleaves_sample :
    let e := sampleEngine
    let cs := sampleCycles e.feed
    let us := (e.run (inTurn .bid cs)).1.publisher.offered.reverse
    Interleaves cs (inTurn .bid cs) ∧ Interleaves cs (inTurn .offer cs) ∧ Published e.product cs us ∧
      us.map (·.removed) = [[⟨"a"⟩, ⟨"b"⟩], []] ∧ (e.run (inTurn .bid cs)).2 = us ∧
      List.Forall₂ Update.Alike us (e.run (inTurn .offer cs)).1.publisher.offered.reverse := by
  intro e cs us
  have hbid : Interleaves cs (inTurn .bid cs) :=
    interleaves_of_steps (by intro s; cases s <;> rfl) (by decide)
  have hoffer : Interleaves cs (inTurn .offer cs) :=
    interleaves_of_steps (by intro s; cases s <;> rfl) (by decide)
  obtain ⟨hpublished, hsent, hany⟩ := offered_of_interleaves (e := e) rfl rfl hbid
  exact ⟨hbid, hoffer, hpublished, by decide, hsent fun _ _ => rfl, hany _ hoffer⟩

end Engine

end QuoteBoard
