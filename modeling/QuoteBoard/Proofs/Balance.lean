import Mathlib.Algebra.BigOperators.Group.List.Basic
import QuoteBoard.Proofs.Calls
import QuoteBoard.Proofs.Counting

/-!
# The counters balance

Every delivery that a board makes is counted by what it came to: a cache that ends a batch commits
or passes the end on, an engine whose cycle ends offers an update, and each failure is counted once
(`tallies_consume`, `tallies_handle`). So what a board has counted from its beginning is what its
deliveries and its reports show, modulo `2 ^ 64` (`counters_of_calls`).
-/

namespace QuoteBoard

/-! ## Counting -/

namespace Counters

theorem record_add (c d : Counters) (t : Tally) : (c.record t).add d = (c.add d).record t := by
  cases t <;> simp only [record, add, add_right_comm]

theorem add_record (c d : Counters) (t : Tally) : c.add (d.record t) = (c.add d).record t := by
  cases t <;> simp only [record, add, add_assoc]

theorem add_recordAll (c d : Counters) (ts : List Tally) :
    c.add (d.recordAll ts) = (c.add d).recordAll ts := by
  induction ts generalizing d with
  | nil => rfl
  | cons t ts ih =>
    show c.add ((d.record t).recordAll ts) = ((c.add d).record t).recordAll ts
    rw [ih, add_record]

end Counters

namespace Board

section
variable {b : Board}

theorem metrics_countAll (h : b.activity.isSome) (es : List BoardEvent) :
    (b.countAll es).metrics = b.metrics.recordAll (tallies es) ∧ (b.countAll es).activity.isSome := by
  obtain ⟨a, ha⟩ := Option.isSome_iff_exists.mp h
  rw [countAll_eq_recordAll, metrics, metrics, ha]
  exact ⟨Counters.add_recordAll b.traffic a (tallies es), rfl⟩

theorem metrics_consume (h : b.activity.isSome) (m : Message) (c : Consumer) :
    (b.consume m c).1.metrics = b.metrics.recordAll (tallies (b.consume m c).2.1) ∧
      (b.consume m c).1.activity.isSome := by
  cases c with
  | cache i =>
    simp only [consume, consumeBy]
    cases b.caches[i]? with
    | none => exact ⟨rfl, h⟩
    | some c => exact metrics_countAll (b := { b with caches := b.caches.set i _ }) h _
  | handler i s =>
    simp only [consume, handle]
    cases b.engines[i]? with
    | none => exact ⟨rfl, h⟩
    | some e => exact metrics_countAll (b := { b with engines := b.engines.set i _ }) h _

theorem tallies_deliver_cons (m : Message) (c : Consumer) (cs : List Consumer) :
    tallies (deliver m (c :: cs) b).2.1 =
      tallies (b.consume m c).2.1 ++ tallies (deliver m cs (b.consume m c).1).2.1 := by
  simp only [deliver]
  cases (b.consume m c).2.2 with
  | none => exact tallies_append _ _
  | some e => exact tallies_append _ _

theorem tallies_deliver (m : Message) (cs : List Consumer) (b : Board) :
    tallies (deliver m cs b).2.1 = (deliveriesTo m cs b).flatMap fun d => tallies d.events := by
  induction cs generalizing b with
  | nil => rfl
  | cons c cs ih =>
    rw [tallies_deliver_cons, ih]
    rfl

theorem metrics_deliver (h : b.activity.isSome) (m : Message) (cs : List Consumer) :
    (deliver m cs b).1.metrics = b.metrics.recordAll (tallies (deliver m cs b).2.1) ∧
      (deliver m cs b).1.activity.isSome := by
  induction cs generalizing b with
  | nil => exact ⟨rfl, h⟩
  | cons c cs ih =>
    obtain ⟨hfirst, hsome⟩ := metrics_consume h m c
    rw [(deliver_cons m c cs b 0).1, tallies_deliver_cons, Counters.recordAll_append, ← hfirst]
    exact ih hsome

theorem tallies_dispatch (m : Message) :
    tallies (b.dispatch m).2.1 = .dispatch (b.verdict m).isSome ::
      tallies (deliver m (b.consumers m.feed) (b.note m)).2.1 := by
  have hlog : tallies ((b.verdict m).toList.map fun why => .logged (.outOfOrder why)) = [] := by
    cases b.verdict m <;> rfl
  rw [seen_dispatch, List.cons_append, tallies, List.filterMap_cons]
  show _ :: tallies (_ ++ _) = _
  rw [tallies_append, hlog]
  rfl

theorem metrics_call (h : b.activity.isSome) (c : Call) :
    (b.call c).metrics = b.metrics.recordAll (tallies (b.seenOf c)) ∧ (b.call c).activity.isSome := by
  cases c with
  | register c =>
    simp only [call, register]
    cases b.feedOf? c with
    | none => exact ⟨rfl, h⟩
    | some f => exact ⟨rfl, h⟩
  | dispatch m =>
    obtain ⟨htraffic, hactivity⟩ := b.counts_note m
    have hsome : (b.note m).activity.isSome := hactivity ▸ h
    have hnote : (b.note m).metrics = b.metrics.record (.dispatch (b.verdict m).isSome) := by
      rw [metrics, htraffic, hactivity, Counters.record_add]
      rfl
    obtain ⟨hdeliver, hdone⟩ := metrics_deliver hsome m (b.consumers m.feed)
    rw [call, dispatch_fst, hdeliver, hnote, seenOf, tallies_dispatch]
    exact ⟨rfl, hdone⟩

theorem metrics_callAll (h : b.activity.isSome) (cs : List Call) :
    (b.callAll cs).metrics = b.metrics.recordAll (tallies (b.seen cs)) := by
  induction cs generalizing b with
  | nil => rfl
  | cons c cs ih =>
    obtain ⟨hfirst, hsome⟩ := metrics_call h c
    have hrest := ih hsome
    rw [hfirst, ← Counters.recordAll_append, ← tallies_append] at hrest
    exact hrest

end

end Board

/-! ## What a cache counts -/

def CacheEvent.tally? : CacheEvent → Option Tally
  | tallied t => some t
  | _ => none

namespace Cache

def tallies (es : List CacheEvent) : List Tally := es.filterMap CacheEvent.tally?

theorem tallies_append (es fs : List CacheEvent) : tallies (es ++ fs) = tallies es ++ tallies fs :=
  List.filterMap_append

/-- The end of a batch that has no items, over a sheet without changes, is passed on. -/
def passesOn (c : Cache) : Message → Bool
  | .batchEnd e => e.closes c.sheet.feed && (e.count == 0 && !c.sheet.modified)
  | _ => false

def commits (c : Cache) : Message → Bool
  | .batchEnd e => e.closes c.sheet.feed && !(e.count == 0 && !c.sheet.modified)
  | _ => false

theorem tallies_tell (n : Notice) (i : Nat) (ls : List Listener) : tallies (tell n i ls).2.1 = [] := by
  induction ls generalizing i with
  | nil => rfl
  | cons l ls ih =>
    simp only [tell]
    cases l.reply n with
    | some e => rfl
    | none => exact ih (i + 1)

theorem tallies_tellAll (n : Notice) (i : Nat) (ls : List Listener) :
    tallies (tellAll n i ls).2 = [] := by
  induction ls generalizing i with
  | nil => rfl
  | cons l ls ih => exact ih (i + 1)

theorem tallies_announce (ns : List Notice) (ls : List Listener) :
    tallies (announce ns ls).2.1 = [] := by
  induction ns generalizing ls with
  | nil => rfl
  | cons n ns ih =>
    have htell := tallies_tell n 0 ls
    simp only [announce]
    split
    · rename_i h
      rw [h] at htell
      exact htell
    · rename_i h
      rw [h] at htell
      rw [tallies_append, htell, ih]
      rfl

theorem tallies_map_logged (ls : List LogEntry) : tallies (ls.map .logged) = [] := by
  rw [tallies, List.filterMap_map]
  exact List.filterMap_eq_nil_iff.mpr fun _ _ => rfl

variable (c : Cache)

theorem consume_of_passesOn {m : Message} (h : c.passesOn m) :
    ∃ e, m = .batchEnd e ∧ c.consume m = ((c.noUpdates e).1, (c.noUpdates e).2, none) := by
  cases m with
  | batchEnd e =>
    simp only [passesOn, Bool.and_eq_true, beq_iff_eq, Bool.not_eq_true'] at h
    obtain ⟨hcloses, hidle⟩ := h
    refine ⟨e, rfl, ?_⟩
    simp only [consume]
    rw [if_pos hcloses, if_pos hidle]
  | _ => cases h

theorem consume_of_commits {m : Message} (h : c.commits m) :
    ∃ e, m = .batchEnd e ∧ c.consume m = c.commit e.batch e.time := by
  cases m with
  | batchEnd e =>
    simp only [commits, Bool.and_eq_true] at h
    obtain ⟨hcloses, hbusy⟩ := h
    refine ⟨e, rfl, ?_⟩
    have hbusy : ¬ (e.count = 0 ∧ c.sheet.modified = false) := by
      rintro ⟨hcount, hmodified⟩
      simp [hcount, hmodified] at hbusy
    simp only [consume]
    rw [if_pos hcloses, if_neg hbusy]
  | _ => cases h

theorem tallies_commit (b : BatchId) (t : Timestamp) :
    tallies (c.commit b t).2.1 =
      (if (c.commit b t).2.2.isSome then [.listenerFailure] else []) ++ [.commit c.sheet.modified] := by
  have hmodified : (c.sheet.settle b t).2.isSome = c.sheet.modified := by
    unfold Sheet.settle
    cases c.sheet.modified <;> rfl
  simp only [commit, Option.isSome_map, hmodified]
  rw [tallies_append, tallies_append, tallies_announce]
  cases (announce _ c.listeners).2.2 <;> rfl

theorem tallies_consume (m : Message) :
    tallies (c.consume m).2.1 =
      (if (c.consume m).2.2.isSome then [.listenerFailure] else []) ++
        (if c.commits m then [.commit c.sheet.modified] else []) ++
          if c.passesOn m then [.untouched] else [] := by
  cases hpass : c.passesOn m with
  | true =>
    obtain ⟨e, rfl, heq⟩ := c.consume_of_passesOn hpass
    have hcloses : e.closes c.sheet.feed = true := by
      simp only [passesOn, Bool.and_eq_true] at hpass
      exact hpass.1
    have hcommits : c.commits (.batchEnd e) = false := by
      simp only [passesOn, Bool.and_eq_true] at hpass
      simp only [commits, hpass, Bool.true_and, Bool.not_true]
    rw [heq, hcommits]
    simp only [noUpdates, hcloses, if_true]
    rw [tallies_append, tallies_tellAll]
    rfl
  | false =>
    cases hcommits : c.commits m with
    | true =>
      obtain ⟨e, rfl, heq⟩ := c.consume_of_commits hcommits
      rw [heq, tallies_commit]
      simp
    | false =>
      cases m with
      | quote q =>
        simp only [consume]
        split
        · exact tallies_map_logged _
        · rfl
      | withdrawal w =>
        simp only [consume]
        split
        · exact tallies_map_logged _
        · rfl
      | trade t => exact tallies_map_logged _
      | rebuild r => rfl
      | batchEnd e =>
        have hcloses : e.closes c.sheet.feed = false := by
          simp only [passesOn, commits, Bool.and_eq_false_iff] at hpass hcommits
          by_contra hyes
          simp_all
        simp [consume, hcloses, tallies]

end Cache

/-! ## What an engine counts -/

namespace Engine

def tallies (es : List EngineEvent) : List Tally :=
  es.filterMap fun
    | .tallied t => some t
    | _ => none

theorem tallies_publish (e : Engine) (u : Update) :
    tallies (e.publish u).2.1 =
      [if (e.publish u).2.2.isSome then .publishFailure else .published] := by
  cases h : e.publisher.reply u <;> simp [publish, h, tallies]

theorem tallies_handle (e : Engine) (s : Side) (m : Message) :
    tallies (e.handle s m).2.1 =
        (if (e.update? s m).isSome then
          [if (e.handle s m).2.2.isSome then .publishFailure else .published] else []) ∧
      ((e.handle s m).2.2.isSome → (e.update? s m).isSome) := by
  unfold handle update?
  by_cases hm : m.feed = e.feed s
  · rw [if_pos hm, if_pos hm]
    cases e.absorb s m with
    | mk b u =>
      cases u with
      | none => exact ⟨rfl, id⟩
      | some u => exact ⟨tallies_publish _ u, fun _ => rfl⟩
  · rw [if_neg hm, if_neg hm]
    exact ⟨rfl, id⟩

end Engine

/-! ## Deliveries -/

namespace Board

theorem tallies_ofCacheEvent (i : Nat) (es : List CacheEvent) :
    tallies (es.map (ofCacheEvent i)) = Cache.tallies es := by
  rw [tallies, List.filterMap_map]
  refine congrFun (congrArg List.filterMap (funext fun e => ?_)) es
  cases e <;> rfl

theorem tallies_ofEngineEvent (i : Nat) (es : List EngineEvent) :
    tallies (es.map (ofEngineEvent i)) = Engine.tallies es := by
  rw [tallies, List.filterMap_map]
  refine congrFun (congrArg List.filterMap (funext fun e => ?_)) es
  cases e <;> rfl

end Board

namespace Delivery

def cache? (d : Delivery) : Option Cache :=
  match d.consumer with
  | .cache i => d.board.caches[i]?
  | .handler _ _ => none

def update? (d : Delivery) : Option Update :=
  match d.consumer with
  | .cache _ => none
  | .handler i s => d.board.engines[i]?.bind fun e => e.update? s d.message

def commits (d : Delivery) : Bool := d.cache?.any fun c => c.commits d.message

def commitsChanges (d : Delivery) : Bool :=
  d.cache?.any fun c => c.commits d.message && c.sheet.modified

def passesOn (d : Delivery) : Bool := d.cache?.any fun c => c.passesOn d.message

def ends (d : Delivery) : Bool := d.cache?.any fun _ => d.message.isEnd

def tallies (d : Delivery) : List Tally := Board.tallies d.events

theorem tallies_cases (d : Delivery) :
    (∃ c, d.cache? = some c ∧ d.update? = none ∧
      d.tallies = (if d.answer.isSome then [.listenerFailure] else []) ++
        (if c.commits d.message then [.commit c.sheet.modified] else []) ++
          if c.passesOn d.message then [.untouched] else []) ∨
      d.cache? = none ∧ (d.answer.isSome → d.update?.isSome) ∧
        d.tallies = if d.update?.isSome then
          [if d.answer.isSome then .publishFailure else .published] else [] := by
  obtain ⟨b, m, c⟩ := d
  cases c with
  | cache i =>
    cases hc : b.caches[i]? with
    | none => exact Or.inr (by simp [cache?, update?, tallies, events, answer, Board.consume,
        Board.consumeBy, hc, Board.tallies])
    | some c =>
      refine Or.inl ⟨c, hc, rfl, ?_⟩
      have hconsume := c.tallies_consume m
      simp only [tallies, events, answer, Board.consume, Board.consumeBy, hc,
        Board.tallies_ofCacheEvent, Option.isSome_map]
      exact hconsume
  | handler i s =>
    refine Or.inr ⟨rfl, ?_⟩
    cases he : b.engines[i]? with
    | none => simp [update?, tallies, events, answer, Board.consume, Board.handle, he, Board.tallies]
    | some e =>
      obtain ⟨hhandle, hfailed⟩ := e.tallies_handle s m
      simp only [update?, tallies, events, answer, Board.consume, Board.handle, he,
        Board.tallies_ofEngineEvent, Option.isSome_map, Option.bind_some]
      exact ⟨hfailed, hhandle⟩

theorem counts (d : Delivery) :
    d.tallies.countP Tally.isCommit = (if d.commits then 1 else 0) ∧
      d.tallies.countP (· == .commit true) = (if d.commitsChanges then 1 else 0) ∧
      d.tallies.countP (· == .untouched) = (if d.passesOn then 1 else 0) ∧
      d.tallies.countP (· == .published) + d.tallies.countP (· == .publishFailure) =
        (if d.update?.isSome then 1 else 0) ∧
      d.tallies.countP (· == .listenerFailure) + d.tallies.countP (· == .publishFailure) =
        (if d.answer.isSome then 1 else 0) ∧
      d.tallies.countP Tally.isDispatch = 0 := by
  rcases d.tallies_cases with ⟨c, hc, hnone, htallies⟩ | ⟨hnone, hfailed, htallies⟩
  · rw [htallies]
    simp only [commits, commitsChanges, passesOn, hc, hnone, Option.any_some]
    cases d.answer.isSome <;> cases c.commits d.message <;> cases c.passesOn d.message <;>
      cases c.sheet.modified <;> decide
  · rw [htallies]
    simp only [commits, commitsChanges, passesOn, hnone, Option.any_none]
    cases hupdate : d.update?.isSome with
    | true => cases d.answer.isSome <;> decide
    | false =>
      have hok : d.answer.isSome = false := by
        rw [hupdate] at hfailed
        simpa using hfailed
      rw [hok]
      decide

theorem ends_of_feed {d : Delivery} (h : d.board.feedOf? d.consumer = some d.message.feed) :
    (if d.commits then 1 else 0) + (if d.passesOn then 1 else 0) = if d.ends then 1 else 0 := by
  obtain ⟨b, m, c⟩ := d
  cases c with
  | handler i s => rfl
  | cache i =>
    obtain ⟨c, hc, hfeed⟩ := Option.map_eq_some_iff.mp h
    have hc : b.caches[i]? = some c := hc
    simp only [commits, passesOn, ends, cache?, hc, Option.any_some]
    cases m with
    | batchEnd e =>
      have hcloses : e.closes c.sheet.feed = true := by
        exact decide_eq_true hfeed.symm
      simp only [Cache.commits, Cache.passesOn, hcloses, Bool.true_and, Message.isEnd]
      cases e.count == 0 && !c.sheet.modified <;> rfl
    | _ => rfl

end Delivery

/-! ## All calls -/

theorem sum_eq_countP {α : Type} {f : α → Nat} {p : α → Bool} (h : ∀ a, f a = if p a then 1 else 0)
    (as : List α) : (as.map f).sum = as.countP p := by
  induction as with
  | nil => rfl
  | cons a as ih => rw [List.map_cons, List.sum_cons, ih, h, List.countP_cons, Nat.add_comm]

namespace Board

def countSeen (b : Board) (cs : List Call) (p : Tally → Bool) : Nat := (tallies (b.seen cs)).countP p

theorem countSeen_cons (b : Board) (c : Call) (cs : List Call) (p : Tally → Bool) :
    b.countSeen (c :: cs) p =
      (tallies (b.seenOf c)).countP p + (b.call c).countSeen cs p := by
  rw [countSeen, seen, overCalls_cons, tallies_append, List.countP_append]
  rfl

theorem countP_seenOf (b : Board) (c : Call) (p : Tally → Bool) :
    (tallies (b.seenOf c)).countP p =
      ((c.message?.map fun m => Tally.dispatch (b.verdict m).isSome).toList).countP p +
        ((b.deliveriesOf c).map fun d => d.tallies.countP p).sum := by
  cases c with
  | register c => rfl
  | dispatch m =>
    rw [seenOf, tallies_dispatch, tallies_deliver, List.countP_cons, List.countP_flatMap, Nat.add_comm]
    simp only [Call.message?, Option.map_some, Option.toList_some, List.countP_singleton]
    rfl

/-- What is counted of calls, dispatches apart, is what is counted of their deliveries. -/
theorem countSeen_eq (b : Board) (cs : List Call) {p : Tally → Bool}
    (hp : ∀ o, p (.dispatch o) = false) :
    b.countSeen cs p = ((b.deliveries cs).map fun d => d.tallies.countP p).sum := by
  induction cs generalizing b with
  | nil => rfl
  | cons c cs ih =>
    have hnone : ((c.message?.map fun m => Tally.dispatch (b.verdict m).isSome).toList).countP p = 0 := by
      cases c.message? <;> simp [hp]
    rw [countSeen_cons, countP_seenOf, hnone, ih, Nat.zero_add, deliveries, deliveries, overCalls_cons,
      List.map_append, List.sum_append]

theorem countSeen_eq_countP (b : Board) (cs : List Call) {p : Tally → Bool} {f : Delivery → Bool}
    (hp : ∀ o, p (.dispatch o) = false)
    (h : ∀ d : Delivery, d.tallies.countP p = if f d then 1 else 0) :
    b.countSeen cs p = (b.deliveries cs).countP f := by
  rw [countSeen_eq b cs hp]
  exact sum_eq_countP h _

theorem countSeen_add_eq_countP (b : Board) (cs : List Call) {p q : Tally → Bool}
    {f : Delivery → Bool} (hp : ∀ o, p (.dispatch o) = false) (hq : ∀ o, q (.dispatch o) = false)
    (h : ∀ d : Delivery, d.tallies.countP p + d.tallies.countP q = if f d then 1 else 0) :
    b.countSeen cs p + b.countSeen cs q = (b.deliveries cs).countP f := by
  rw [countSeen_eq b cs hp, countSeen_eq b cs hq, ← List.sum_map_add]
  exact sum_eq_countP h _

/-- From fresh counters, a counter has counted its tallies among those seen. -/
theorem counter_callAll {φ : Counters → UInt64} {p : Tally → Bool} (h : Counters.Counts φ p)
    {b : Board} (hactive : b.activity.isSome) (hnew : b.metrics = {}) (cs : List Call) :
    φ (b.callAll cs).metrics = .ofNat (b.countSeen cs p) := by
  rw [metrics_callAll hactive, hnew, h.recordAll, h.zero, UInt64.zero_add]
  rfl

theorem countSeen_dispatch (b : Board) (cs : List Call) :
    b.countSeen cs Tally.isDispatch = cs.countP fun c => c.message?.isSome := by
  induction cs generalizing b with
  | nil => rfl
  | cons c cs ih =>
    have hnone : ((b.deliveriesOf c).map fun d => d.tallies.countP Tally.isDispatch).sum = 0 := by
      rw [sum_eq_countP (p := fun _ => false) fun d => by simp [d.counts]]
      simp
    rw [countSeen_cons, countP_seenOf, hnone, ih, List.countP_cons]
    cases c <;> simp [Call.message?, Tally.isDispatch, Nat.add_comm]

theorem errors_reports (b : Board) (cs : List Call) :
    ((b.reports cs).map (·.errors.length)).sum =
      (b.deliveries cs).countP fun d => d.answer.isSome := by
  induction cs generalizing b with
  | nil => rfl
  | cons c cs ih =>
    rw [reports, overCalls_cons, List.map_append, List.sum_append, deliveries, overCalls_cons,
      List.countP_append]
    congr 1
    · cases c with
      | register c => rfl
      | dispatch m =>
        simp only [reportOf, List.map_cons, List.map_nil, List.sum_cons, List.sum_nil, Nat.add_zero]
        rw [errors_dispatch, List.length_filterMap_eq_countP]
    · exact ih _

theorem ends_deliveriesTo (m : Message) (cs : List Consumer) {b : Board}
    (h : ∀ c ∈ cs, b.feedOf? c = some m.feed) :
    ((deliveriesTo m cs b).countP Delivery.commits) + (deliveriesTo m cs b).countP Delivery.passesOn =
      (deliveriesTo m cs b).countP Delivery.ends := by
  induction cs generalizing b with
  | nil => rfl
  | cons c cs ih =>
    have hrest := ih (b := (b.consume m c).1) fun d hd => by
      rw [feedOf?_consume]
      exact h d (List.mem_cons_of_mem c hd)
    have hfirst := Delivery.ends_of_feed (d := ⟨b, m, c⟩) (h c List.mem_cons_self)
    simp only [deliveriesTo, List.countP_cons]
    omega

theorem ends_deliveries {b : Board} (h : b.Routed) (cs : List Call) :
    (b.deliveries cs).countP Delivery.commits + (b.deliveries cs).countP Delivery.passesOn =
      (b.deliveries cs).countP Delivery.ends := by
  induction cs generalizing b with
  | nil => rfl
  | cons c cs ih =>
    have hrest := ih (h.call c)
    have hfirst : (b.deliveriesOf c).countP Delivery.commits + (b.deliveriesOf c).countP Delivery.passesOn =
        (b.deliveriesOf c).countP Delivery.ends := by
      cases c with
      | register c => rfl
      | dispatch m =>
        refine ends_deliveriesTo m _ fun d hd => ?_
        rw [feedOf?_note]
        exact h.feedOf? hd
    simp only [deliveries, overCalls_cons, List.countP_append] at hrest ⊢
    omega

/-- What a new board has counted: its dispatches, the batches that its caches committed or passed on,
the updates that its engines had to offer, and the errors that it reported. -/
theorem counters_of_calls (order : Bool) (caches : List Cache) (engines : List Engine)
    (cs : List Call) :
    let b : Board := { checkOrder := order, caches, engines }
    let m := (b.callAll cs).metrics
    let ds := b.deliveries cs
    m.messagesDispatched = .ofNat (cs.countP fun c => c.message?.isSome) ∧
      m.endUpdates = .ofNat (ds.countP Delivery.commits) ∧
      m.snapshotsPublished = .ofNat (ds.countP Delivery.commitsChanges) ∧
      m.noUpdates = .ofNat (ds.countP Delivery.passesOn) ∧
      m.endUpdates + m.noUpdates = .ofNat (ds.countP Delivery.ends) ∧
      m.incrementalPublished + m.publishFailures = .ofNat (ds.countP fun d => d.update?.isSome) ∧
      m.listenerFailures + m.publishFailures =
        .ofNat (((b.reports cs).map (·.errors.length)).sum) := by
  intro b m ds
  have hcount {φ : Counters → UInt64} {p : Tally → Bool} (h : Counters.Counts φ p) :
      φ m = .ofNat (b.countSeen cs p) :=
    counter_callAll h rfl rfl cs
  have hcommits : b.countSeen cs Tally.isCommit = ds.countP Delivery.commits :=
    countSeen_eq_countP b cs (fun _ => rfl) fun d => d.counts.1
  have hchanges : b.countSeen cs (· == .commit true) = ds.countP Delivery.commitsChanges :=
    countSeen_eq_countP b cs (fun _ => rfl) fun d => d.counts.2.1
  have hpassed : b.countSeen cs (· == .untouched) = ds.countP Delivery.passesOn :=
    countSeen_eq_countP b cs (fun _ => rfl) fun d => d.counts.2.2.1
  have hoffered : b.countSeen cs (· == .published) + b.countSeen cs (· == .publishFailure) =
      ds.countP fun d => d.update?.isSome :=
    countSeen_add_eq_countP b cs (fun _ => rfl) (fun _ => rfl) fun d => d.counts.2.2.2.1
  have hfailed : b.countSeen cs (· == .listenerFailure) + b.countSeen cs (· == .publishFailure) =
      ((b.reports cs).map (·.errors.length)).sum := by
    rw [errors_reports]
    exact countSeen_add_eq_countP b cs (fun _ => rfl) (fun _ => rfl) fun d => d.counts.2.2.2.2.1
  have hnew : b.Routed := fun _ h => absurd h List.not_mem_nil
  refine ⟨?_, ?_, ?_, ?_, ?_, ?_, ?_⟩
  · rw [hcount Counters.counts_messagesDispatched, countSeen_dispatch]
  · rw [hcount Counters.counts_endUpdates, hcommits]
  · rw [hcount Counters.counts_snapshotsPublished, hchanges]
  · rw [hcount Counters.counts_noUpdates, hpassed]
  · rw [hcount Counters.counts_endUpdates, hcount Counters.counts_noUpdates, hcommits, hpassed,
      ← UInt64.ofNat_add, ends_deliveries hnew]
  · rw [hcount Counters.counts_incrementalPublished, hcount Counters.counts_publishFailures,
      ← UInt64.ofNat_add, hoffered]
  · rw [hcount Counters.counts_listenerFailures, hcount Counters.counts_publishFailures,
      ← UInt64.ofNat_add, hfailed]

end Board

end QuoteBoard
