import QuoteBoard.Proofs.Balance
import QuoteBoard.Proofs.Interference

/-!
# The order of batch ids

A board that checks the order keeps the largest batch id that was dispatched on each feed
(`Board.last_callAll`), so a message is reported out of order when it stands below that id. Nothing
else of a board hangs on the check: without what it watches (`Board.unwatched`) a board delivers the
same. The main statement is `Board.outOfOrder_of_calls`.
-/

namespace QuoteBoard

/-! ## The largest id -/

def batchesOn (f : Feed) (cs : List Call) : List BatchId :=
  ((cs.filterMap Call.message?).filter fun m => m.feed = f).map Message.batch

def IsLargest (h : BatchId) (ids : List BatchId) : Prop := h ∈ ids ∧ ∀ i ∈ ids, ¬ h < i

section
variable {h l i : BatchId} {ids : List BatchId}

theorem IsLargest.eq (hh : IsLargest h ids) (hl : IsLargest l ids) : h = l := by
  have hle : l.value ≤ h.value := UInt64.not_lt.mp (hh.2 l hl.1)
  have hge : h.value ≤ l.value := UInt64.not_lt.mp (hl.2 h hh.1)
  cases h
  cases l
  exact congrArg BatchId.mk (UInt64.le_antisymm hge hle)

theorem isLargest_singleton (i : BatchId) : IsLargest i [i] := by
  refine ⟨List.mem_singleton_self i, fun j hj => ?_⟩
  rw [List.mem_singleton.mp hj]
  exact UInt64.lt_irrefl i.value

theorem IsLargest.concat (hl : IsLargest l ids) (i : BatchId) :
    IsLargest (if i < l then l else i) (ids ++ [i]) := by
  obtain ⟨hmem, hbound⟩ := hl
  by_cases hlt : i < l
  · rw [if_pos hlt]
    refine ⟨List.mem_append_left _ hmem, fun j hj => ?_⟩
    rcases List.mem_append.mp hj with hj | hj
    · exact hbound j hj
    · rw [List.mem_singleton.mp hj]
      exact UInt64.lt_asymm hlt
  · rw [if_neg hlt]
    refine ⟨List.mem_append_right _ (List.mem_singleton_self i), fun j hj => ?_⟩
    rcases List.mem_append.mp hj with hj | hj
    · have hle : j.value ≤ l.value := UInt64.not_lt.mp (hbound j hj)
      exact UInt64.not_lt.mpr (UInt64.le_trans hle (UInt64.not_lt.mp hlt))
    · rw [List.mem_singleton.mp hj]
      exact UInt64.lt_irrefl i.value

end

theorem batchesOn_concat_dispatch (f : Feed) (cs : List Call) (m : Message) :
    batchesOn f (cs ++ [.dispatch m]) = batchesOn f cs ++ if m.feed = f then [m.batch] else [] := by
  simp only [batchesOn, List.filterMap_append, List.filter_append, List.map_append]
  by_cases hf : m.feed = f <;> simp [Call.message?, hf]

theorem batchesOn_concat_register (f : Feed) (cs : List Call) (c : Consumer) :
    batchesOn f (cs ++ [.register c]) = batchesOn f cs := by
  simp only [batchesOn, List.filterMap_append, List.filter_append, List.map_append]
  exact List.append_nil _

namespace Board

section
variable {b d : Board}

/-! ## The ids that a board keeps -/

theorem Keeps.trans {a : Board} (h : a.Keeps b) (k : b.Keeps d) : a.Keeps d :=
  ⟨h.order.trans k.order, fun c => (h.feeds c).trans (k.feeds c), h.routes.trans k.routes,
    h.last.trans k.last⟩

theorem keeps_deliver (m : Message) (cs : List Consumer) (b : Board) : (deliver m cs b).1.Keeps b := by
  induction cs generalizing b with
  | nil => exact ⟨rfl, fun _ => rfl, rfl, rfl⟩
  | cons c cs ih =>
    rw [(deliver_cons m c cs b 0).1]
    exact (ih _).trans (keeps_consume b m c)

theorem checkOrder_call (b : Board) (c : Call) : (b.call c).checkOrder = b.checkOrder := by
  cases c with
  | register c =>
    simp only [call, register]
    cases b.feedOf? c <;> rfl
  | dispatch m => rw [call, dispatch_fst, (keeps_deliver m _ _).order, checkOrder_note]

theorem checkOrder_callAll (b : Board) (cs : List Call) :
    (b.callAll cs).checkOrder = b.checkOrder := by
  induction cs generalizing b with
  | nil => rfl
  | cons c cs ih => exact (ih (b.call c)).trans (checkOrder_call b c)

theorem callAll_concat (b : Board) (cs : List Call) (c : Call) :
    b.callAll (cs ++ [c]) = (b.callAll cs).call c := List.foldl_concat _ _ _ _

theorem last_register (b : Board) (c : Consumer) : (b.call (.register c)).last = b.last := by
  simp only [call, register]
  cases b.feedOf? c <;> rfl

theorem last_dispatch (b : Board) (m : Message) : (b.call (.dispatch m)).last = (b.note m).last := by
  rw [call, dispatch_fst, (keeps_deliver m _ _).last]

theorem last_note (hcheck : b.checkOrder = true) (m : Message) :
    (b.note m).last[m.feed]? =
      some (match b.last[m.feed]? with
        | some l => if m.batch < l then l else m.batch
        | none => m.batch) := by
  unfold note checkBatch
  simp only [hcheck, if_true]
  cases hl : b.last[m.feed]? with
  | none => simp
  | some l =>
    by_cases hback : m.batch < l
    · simp [hback, hl]
    · simp [hback]

/-- What the board keeps for a feed, after ids of it were dispatched. -/
def Remembers (o : Option BatchId) (ids : List BatchId) : Prop :=
  (o = none → ids = []) ∧ ∀ h, o = some h → IsLargest h ids

theorem remembers_callAll (hcheck : b.checkOrder = true) (hnew : b.last = ∅) (f : Feed)
    (cs : List Call) : Remembers (b.callAll cs).last[f]? (batchesOn f cs) := by
  induction cs using List.reverseRecOn with
  | nil =>
    have hnone : (b.callAll []).last[f]? = none := by
      show b.last[f]? = none
      rw [hnew, Std.TreeMap.getElem?_emptyc]
    rw [hnone]
    exact ⟨fun _ => rfl, fun h hh => nomatch hh⟩
  | append_singleton cs c ih =>
    rw [callAll_concat]
    cases c with
    | register c => rwa [last_register, batchesOn_concat_register]
    | dispatch m =>
      rw [last_dispatch, batchesOn_concat_dispatch]
      by_cases hf : m.feed = f
      · subst hf
        rw [last_note ((checkOrder_callAll b cs).trans hcheck), if_pos rfl]
        refine ⟨fun h => (nomatch h), fun h hh => Option.some.inj hh ▸ ?_⟩
        cases hl : (b.callAll cs).last[m.feed]? with
        | none =>
          rw [ih.1 hl]
          exact isLargest_singleton m.batch
        | some l => exact (ih.2 l hl).concat m.batch
      · rwa [last_note_of_ne hf, if_neg hf, List.append_nil]

theorem last_callAll (hcheck : b.checkOrder = true) (hnew : b.last = ∅) (f : Feed) (cs : List Call)
    (h : BatchId) : (b.callAll cs).last[f]? = some h ↔ IsLargest h (batchesOn f cs) := by
  obtain ⟨hnone, hsome⟩ := remembers_callAll hcheck hnew f cs
  refine ⟨hsome h, fun hlargest => ?_⟩
  cases hl : (b.callAll cs).last[f]? with
  | none => exact absurd (hnone hl) (List.ne_nil_of_mem hlargest.1)
  | some l => rw [(hsome l hl).eq hlargest]

theorem verdict_eq_some_iff (hcheck : b.checkOrder = true) (m : Message) (why : Inconsistency) :
    b.verdict m = some why ↔
      ∃ h, b.last[m.feed]? = some h ∧ m.batch < h ∧ why = .batchWentBack m.feed h m.batch := by
  unfold verdict checkBatch
  simp only [hcheck, if_true]
  cases b.last[m.feed]? with
  | none => simp
  | some l =>
    by_cases hback : m.batch < l
    · simp [hback, eq_comm]
    · simp [hback]

end

end Board

/-! ## What is reported out of order -/

/-- What an event says of the order of batch ids. -/
def BoardEvent.flag? : BoardEvent → Option Inconsistency
  | logged (.outOfOrder why) => some why
  | _ => none

/-- The event as it is when the order is not checked, if it is then at all. -/
def BoardEvent.unflagged? : BoardEvent → Option BoardEvent
  | logged (.outOfOrder _) => none
  | tallied (.dispatch _) => some (tallied (.dispatch false))
  | e => some e

def BoardEvent.Plain (e : BoardEvent) : Prop := e.unflagged? = some e

theorem BoardEvent.Plain.flag? {e : BoardEvent} (h : e.Plain) : e.flag? = none := by
  cases e with
  | logged l =>
    cases l with
    | outOfOrder why => cases h
    | _ => rfl
  | _ => rfl

namespace Board

section
variable (k : Nat)

theorem plain_tell (n : Notice) (i : Nat) (ls : List Listener) :
    ∀ e ∈ (Cache.tell n i ls).2.1, (ofCacheEvent k e).Plain := by
  induction ls generalizing i with
  | nil => exact fun e he => absurd he List.not_mem_nil
  | cons l ls ih =>
    simp only [Cache.tell]
    cases l.reply n with
    | some why => exact List.forall_mem_singleton.mpr rfl
    | none => exact List.forall_mem_cons.mpr ⟨rfl, ih (i + 1)⟩

theorem plain_tellAll (n : Notice) (i : Nat) (ls : List Listener) :
    ∀ e ∈ (Cache.tellAll n i ls).2, (ofCacheEvent k e).Plain := by
  induction ls generalizing i with
  | nil => exact fun e he => absurd he List.not_mem_nil
  | cons l ls ih => exact List.forall_mem_cons.mpr ⟨rfl, ih (i + 1)⟩

theorem plain_announce (ns : List Notice) (ls : List Listener) :
    ∀ e ∈ (Cache.announce ns ls).2.1, (ofCacheEvent k e).Plain := by
  induction ns generalizing ls with
  | nil => exact fun e he => absurd he List.not_mem_nil
  | cons n ns ih =>
    have htell := plain_tell k n 0 ls
    simp only [Cache.announce]
    split
    · rename_i h
      rw [h] at htell
      exact htell
    · rename_i h
      rw [h] at htell
      exact List.forall_mem_append.mpr ⟨htell, ih _⟩

theorem plain_commit (c : Cache) (b : BatchId) (t : Timestamp) :
    ∀ e ∈ (c.commit b t).2.1, (ofCacheEvent k e).Plain := by
  simp only [Cache.commit]
  refine List.forall_mem_append.mpr
    ⟨List.forall_mem_append.mpr ⟨plain_announce k _ _, ?_⟩, List.forall_mem_singleton.mpr rfl⟩
  split
  · exact List.forall_mem_cons.mpr ⟨rfl, List.forall_mem_singleton.mpr rfl⟩
  · exact fun e he => absurd he List.not_mem_nil

theorem plain_noUpdates (c : Cache) (b : BatchEnd) :
    ∀ e ∈ (c.noUpdates b).2, (ofCacheEvent k e).Plain := by
  unfold Cache.noUpdates
  split
  · exact List.forall_mem_append.mpr ⟨plain_tellAll k _ _ _, List.forall_mem_singleton.mpr rfl⟩
  · exact fun e he => absurd he List.not_mem_nil

theorem plain_onSheet (c : Cache) {r : Sheet × List LogEntry}
    (h : ∀ l ∈ r.2, (BoardEvent.logged l).Plain) : ∀ e ∈ (c.onSheet r).2, (ofCacheEvent k e).Plain :=
  List.forall_mem_map.mpr h

theorem plain_consumed (c : Cache) (m : Message) :
    ∀ e ∈ (c.consume m).2.1, (ofCacheEvent k e).Plain := by
  have hnone : ∀ e ∈ ([] : List CacheEvent), (ofCacheEvent k e).Plain :=
    fun e he => absurd he List.not_mem_nil
  cases m with
  | quote q =>
    simp only [Cache.consume]
    split
    · refine plain_onSheet k c ?_
      unfold Sheet.quote
      split
      · exact List.forall_mem_singleton.mpr rfl
      · split <;> simp
    · exact hnone
  | withdrawal w =>
    simp only [Cache.consume]
    split
    · refine plain_onSheet k c ?_
      unfold Sheet.withdraw
      split
      · exact List.forall_mem_singleton.mpr rfl
      · split
        · simp
        · simp
        · exact List.forall_mem_singleton.mpr rfl
    · exact hnone
  | trade t =>
    refine plain_onSheet k c ?_
    unfold Sheet.tradeDone
    split
    · exact List.forall_mem_singleton.mpr rfl
    · simp
  | rebuild r => exact hnone
  | batchEnd e =>
    simp only [Cache.consume]
    split
    · split
      · exact plain_noUpdates k c e
      · exact plain_commit k c e.batch e.time
    · exact hnone

theorem plain_handled (e : Engine) (s : Side) (m : Message) :
    ∀ x ∈ (e.handle s m).2.1, (ofEngineEvent k x).Plain := by
  have hnone : ∀ x ∈ ([] : List EngineEvent), (ofEngineEvent k x).Plain :=
    fun x hx => absurd hx List.not_mem_nil
  unfold Engine.handle
  split
  · split
    · exact hnone
    · unfold Engine.publish
      split
      · exact List.forall_mem_cons.mpr ⟨rfl, List.forall_mem_singleton.mpr rfl⟩
      · exact List.forall_mem_cons.mpr ⟨rfl, List.forall_mem_singleton.mpr rfl⟩
  · exact hnone

end

theorem plain_consume (b : Board) (m : Message) (c : Consumer) :
    ∀ e ∈ (b.consume m c).2.1, e.Plain := by
  cases c with
  | cache i =>
    simp only [consume, consumeBy]
    cases b.caches[i]? with
    | none => exact fun e he => absurd he List.not_mem_nil
    | some c => exact List.forall_mem_map.mpr (plain_consumed i c m)
  | handler i s =>
    simp only [consume, handle]
    cases b.engines[i]? with
    | none => exact fun e he => absurd he List.not_mem_nil
    | some e => exact List.forall_mem_map.mpr (plain_handled i e s m)

theorem plain_deliver (m : Message) (cs : List Consumer) (b : Board) :
    ∀ e ∈ (deliver m cs b).2.1, e.Plain := by
  induction cs generalizing b with
  | nil => exact fun e he => absurd he List.not_mem_nil
  | cons c cs ih =>
    have hfirst := plain_consume b m c
    simp only [deliver]
    cases (b.consume m c).2.2 with
    | none => exact List.forall_mem_append.mpr ⟨hfirst, ih _⟩
    | some e =>
      exact List.forall_mem_append.mpr ⟨hfirst, List.forall_mem_cons.mpr ⟨rfl, ih _⟩⟩

/-! ## Flags -/

def flags (es : List BoardEvent) : List Inconsistency := es.filterMap BoardEvent.flag?

def unflagged (es : List BoardEvent) : List BoardEvent := es.filterMap BoardEvent.unflagged?

theorem flags_of_plain {es : List BoardEvent} (h : ∀ e ∈ es, e.Plain) : flags es = [] :=
  List.filterMap_eq_nil_iff.mpr fun e he => (h e he).flag?

theorem unflagged_of_plain {es : List BoardEvent} (h : ∀ e ∈ es, e.Plain) : unflagged es = es := by
  induction es with
  | nil => rfl
  | cons e es ih =>
    obtain ⟨hfirst, hrest⟩ := List.forall_mem_cons.mp h
    rw [unflagged, List.filterMap_cons_some hfirst]
    exact congrArg (e :: ·) (ih hrest)

theorem flags_dispatch (b : Board) (m : Message) :
    flags (b.seenOf (.dispatch m)) = (b.verdict m).toList := by
  have hrest := flags_of_plain (plain_deliver m (b.consumers m.feed) (b.note m))
  unfold flags at hrest ⊢
  rw [seenOf, seen_dispatch, List.cons_append, List.filterMap_cons_none rfl, List.filterMap_append,
    hrest]
  cases b.verdict m <;> rfl

theorem unflagged_dispatch (b : Board) (m : Message) :
    unflagged (b.seenOf (.dispatch m)) =
      .tallied (.dispatch false) :: (deliver m (b.consumers m.feed) (b.note m)).2.1 := by
  have hrest := unflagged_of_plain (plain_deliver m (b.consumers m.feed) (b.note m))
  have htally : (BoardEvent.tallied (.dispatch (b.verdict m).isSome)).unflagged? =
      some (.tallied (.dispatch false)) := rfl
  unfold unflagged at hrest ⊢
  rw [seenOf, seen_dispatch, List.cons_append, List.filterMap_cons_some htally,
    List.filterMap_append, hrest]
  cases b.verdict m <;> rfl

theorem countSeen_outOfOrder (b : Board) (cs : List Call) :
    b.countSeen cs (· == .dispatch true) = (flags (b.seen cs)).length := by
  induction cs generalizing b with
  | nil => rfl
  | cons c cs ih =>
    have hnone : ((b.deliveriesOf c).map fun d => d.tallies.countP (· == .dispatch true)).sum = 0 := by
      rw [sum_eq_countP (p := fun _ => false) fun d => ?_]
      · simp
      · have hno := List.countP_eq_zero.mp d.counts.2.2.2.2.2
        refine List.countP_eq_zero.mpr fun t ht heq => hno t ht ?_
        rw [eq_of_beq heq]
        rfl
    have hsplit : flags (b.seen (c :: cs)) = flags (b.seenOf c) ++ flags ((b.call c).seen cs) :=
      List.filterMap_append
    rw [countSeen_cons, countP_seenOf, hnone, ih, hsplit, List.length_append, Nat.add_zero]
    congr 1
    cases c with
    | register c => rfl
    | dispatch m =>
      rw [flags_dispatch]
      cases h : b.verdict m <;> simp [Call.message?, h]

/-! ## Without the check -/

/-- The board without the order that it watches and the count of its dispatches. -/
def unwatched (b : Board) : Board := { b with checkOrder := false, last := ∅, traffic := {} }

end Board

def Delivery.unwatched (d : Delivery) : Delivery := { d with board := d.board.unwatched }

namespace Board

theorem consume_unwatched (b : Board) (m : Message) (c : Consumer) :
    b.unwatched.consume m c = ((b.consume m c).1.unwatched, (b.consume m c).2) := by
  cases c with
  | cache i =>
    have hcache : b.unwatched.caches[i]? = b.caches[i]? := rfl
    simp only [consume, consumeBy, countAll_eq_recordAll, hcache]
    cases b.caches[i]? <;> rfl
  | handler i s =>
    have hengine : b.unwatched.engines[i]? = b.engines[i]? := rfl
    simp only [consume, handle, countAll_eq_recordAll, hengine]
    cases b.engines[i]? <;> rfl

theorem deliver_unwatched (m : Message) (cs : List Consumer) (b : Board) :
    deliver m cs b.unwatched = ((deliver m cs b).1.unwatched, (deliver m cs b).2) := by
  induction cs generalizing b with
  | nil => rfl
  | cons c cs ih =>
    simp only [deliver, consume_unwatched, ih]
    cases (b.consume m c).2.2 <;> rfl

theorem deliveriesTo_unwatched (m : Message) (cs : List Consumer) (b : Board) :
    deliveriesTo m cs b.unwatched = (deliveriesTo m cs b).map Delivery.unwatched := by
  induction cs generalizing b with
  | nil => rfl
  | cons c cs ih =>
    rw [deliveriesTo, consume_unwatched, ih]
    rfl

theorem unwatched_note (b : Board) (m : Message) : (b.note m).unwatched = b.unwatched := by
  obtain ⟨l, t, h⟩ := b.note_eq m
  rw [h]
  rfl

section
variable {b d : Board} (h : b.unwatched = d.unwatched)
include h

theorem consumers_of_unwatched (f : Feed) : b.consumers f = d.consumers f := by
  show b.unwatched.consumers f = d.unwatched.consumers f
  rw [h]

theorem deliver_of_unwatched (m : Message) :
    (deliver m (b.consumers m.feed) (b.note m)).2 = (deliver m (d.consumers m.feed) (d.note m)).2 ∧
      (deliver m (b.consumers m.feed) (b.note m)).1.unwatched =
        (deliver m (d.consumers m.feed) (d.note m)).1.unwatched := by
  have hb := deliver_unwatched m (b.consumers m.feed) (b.note m)
  have hd := deliver_unwatched m (d.consumers m.feed) (d.note m)
  rw [unwatched_note] at hb hd
  rw [h, consumers_of_unwatched h] at hb
  rw [hb] at hd
  rw [consumers_of_unwatched h]
  obtain ⟨hboard, hrest⟩ := Prod.mk.inj hd
  exact ⟨hrest, hboard⟩

theorem call_of_unwatched (c : Call) : (b.call c).unwatched = (d.call c).unwatched := by
  cases c with
  | register c =>
    have hregister : ∀ b : Board, (b.register c).unwatched = b.unwatched.register c := by
      intro b
      have hfeed : b.unwatched.feedOf? c = b.feedOf? c := by cases c <;> rfl
      simp only [register, hfeed]
      cases b.feedOf? c <;> rfl
    rw [call, call, hregister, hregister, h]
  | dispatch m =>
    rw [call, call, dispatch_fst, dispatch_fst]
    exact (deliver_of_unwatched h m).2

theorem reportOf_of_unwatched (c : Call) : b.reportOf c = d.reportOf c := by
  cases c with
  | register c => rfl
  | dispatch m =>
    have hreport : ∀ b : Board,
        (b.dispatch m).2.2 = (deliver m (b.consumers m.feed) (b.note m)).2.2 := by
      intro b
      rw [← consumers_note b m]
      rfl
    rw [reportOf, reportOf, hreport, hreport, (deliver_of_unwatched h m).1]

theorem unflagged_of_unwatched (c : Call) : unflagged (b.seenOf c) = unflagged (d.seenOf c) := by
  cases c with
  | register c => rfl
  | dispatch m => rw [unflagged_dispatch, unflagged_dispatch, (deliver_of_unwatched h m).1]

theorem deliveriesOf_of_unwatched (c : Call) :
    (b.deliveriesOf c).map Delivery.unwatched = (d.deliveriesOf c).map Delivery.unwatched := by
  cases c with
  | register c => rfl
  | dispatch m =>
    rw [deliveriesOf, deliveriesOf, ← deliveriesTo_unwatched, ← deliveriesTo_unwatched, unwatched_note,
      unwatched_note, h, consumers_of_unwatched h]

end

theorem callAll_of_unwatched {b d : Board} (h : b.unwatched = d.unwatched) (cs : List Call) :
    (b.callAll cs).unwatched = (d.callAll cs).unwatched := by
  induction cs generalizing b d with
  | nil => exact h
  | cons c cs ih => exact ih (call_of_unwatched h c)

theorem overCalls_of_unwatched {α : Type} {f : Board → Call → List α}
    (hf : ∀ {b d : Board}, b.unwatched = d.unwatched → ∀ c, f b c = f d c) {b d : Board}
    (h : b.unwatched = d.unwatched) (cs : List Call) : overCalls f b cs = overCalls f d cs := by
  induction cs generalizing b d with
  | nil => rfl
  | cons c cs ih => rw [overCalls_cons, overCalls_cons, hf h, ih (call_of_unwatched h c)]

theorem plain_unchecked {b : Board} (h : b.checkOrder = false) (cs : List Call) :
    ∀ e ∈ b.seen cs, e.Plain := by
  induction cs generalizing b with
  | nil => exact fun e he => absurd he List.not_mem_nil
  | cons c cs ih =>
    rw [seen, overCalls_cons]
    refine List.forall_mem_append.mpr ⟨?_, ih ((checkOrder_call b c).trans h)⟩
    cases c with
    | register c => exact fun e he => absurd he List.not_mem_nil
    | dispatch m =>
      have hnone : b.verdict m = none := by
        rw [verdict, h]
        rfl
      rw [seenOf, seen_dispatch, hnone]
      exact List.forall_mem_cons.mpr ⟨rfl, plain_deliver m _ _⟩

theorem consumer_deliveriesTo (m : Message) (cs : List Consumer) (b : Board) :
    (deliveriesTo m cs b).map Delivery.consumer = cs := by
  induction cs generalizing b with
  | nil => rfl
  | cons c cs ih =>
    rw [deliveriesTo, List.map_cons, ih]

/-- After any calls, a message is flagged when its batch id is smaller than the largest one that was
dispatched on its feed, which the flag names; every consumer of the feed takes it all the same, and
the flags are counted. Without the check there are none, and all else is alike: what is delivered, on
which boards, what is seen and what is reported. -/
theorem outOfOrder_of_calls (caches : List Cache) (engines : List Engine) (cs : List Call) :
    let b : Board := { caches, engines }
    let d : Board := { checkOrder := false, caches, engines }
    (∀ m why, let now := b.callAll cs
      flags (now.seenOf (.dispatch m)) = (now.verdict m).toList ∧
        (now.verdict m = some why ↔ ∃ h, IsLargest h (batchesOn m.feed cs) ∧ m.batch < h ∧
          why = .batchWentBack m.feed h m.batch) ∧
        (now.deliveriesOf (.dispatch m)).map Delivery.consumer = now.consumers m.feed ∧
        now.ServesAll m) ∧
      (b.callAll cs).metrics.outOfOrderMessages = .ofNat (flags (b.seen cs)).length ∧
      flags (d.seen cs) = [] ∧ (d.callAll cs).metrics.outOfOrderMessages = 0 ∧
      (b.callAll cs).unwatched = (d.callAll cs).unwatched ∧
      (b.deliveries cs).map Delivery.unwatched = (d.deliveries cs).map Delivery.unwatched ∧
      unflagged (b.seen cs) = d.seen cs ∧ b.reports cs = d.reports cs := by
  intro b d
  have hcount : ∀ b : Board, b.activity = some {} → b.metrics = {} →
      (b.callAll cs).metrics.outOfOrderMessages = .ofNat (flags (b.seen cs)).length := by
    intro b hactive hnew
    rw [counter_callAll Counters.counts_outOfOrderMessages (hactive ▸ rfl) hnew, countSeen_outOfOrder]
  have hplain : ∀ e ∈ d.seen cs, e.Plain := plain_unchecked rfl cs
  have hnone : flags (d.seen cs) = [] := flags_of_plain hplain
  have hsame : b.unwatched = d.unwatched := rfl
  refine ⟨fun m why => ⟨flags_dispatch _ m, ?_, consumer_deliveriesTo m _ _, servesAll _ m⟩,
    hcount b rfl rfl, hnone, ?_, callAll_of_unwatched hsame cs, ?_, ?_, ?_⟩
  · rw [verdict_eq_some_iff (checkOrder_callAll b cs)]
    simp only [last_callAll (b := b) rfl rfl]
  · rw [hcount d rfl rfl, hnone]
    rfl
  · have hmap := apply_overCalls (g := List.map Delivery.unwatched) rfl (fun _ _ => List.map_append)
    rw [deliveries, deliveries, hmap, hmap]
    exact overCalls_of_unwatched deliveriesOf_of_unwatched hsame cs
  · have hfilter := apply_overCalls (g := unflagged) rfl fun _ _ => List.filterMap_append
    rw [← unflagged_of_plain hplain, seen, seen, hfilter, hfilter]
    exact overCalls_of_unwatched unflagged_of_unwatched hsame cs
  · exact overCalls_of_unwatched reportOf_of_unwatched hsame cs

example : flags (({} : Board).seen [sampleEnd 1 5, sampleEnd 1 3, sampleEnd 2 1, sampleEnd 1 5]) =
    [.batchWentBack ⟨"XYZ", 1⟩ ⟨5⟩ ⟨3⟩] := by decide +kernel

end Board

end QuoteBoard
