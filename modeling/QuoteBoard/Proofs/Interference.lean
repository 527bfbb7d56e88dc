import QuoteBoard.Proofs.Asks

/-!
# Feeds that do not interfere

A set of feeds is seen through what the board keeps for it: the routes and the batch ids of its
feeds, the caches on them and the engines with a side on them (`Alike`). A call for another feed
changes nothing of that (`Alike.of_call`), and two boards that look alike go through a call in tandem
(`Alike.tandem_call`). So two runs with the same calls for the set go in tandem, whatever other calls
come between; the main statement is `feeds_apart`. What it says of the asks it says of all that is
seen to be told and published on the set (`seen_asked`).
-/

namespace QuoteBoard

instance : Std.TransOrd Feed :=
  inferInstanceAs (Std.TransCmp (compareLex (compareOn Feed.name) (compareOn Feed.number)))

instance : Std.LawfulEqOrd Feed where
  eq_of_compare {a b} h := by
    obtain ⟨hname, hnumber⟩ := Ordering.then_eq_eq.mp h
    have hname := Std.LawfulEqOrd.eq_of_compare hname
    have hnumber := Std.LawfulEqOrd.eq_of_compare hnumber
    cases a
    cases b
    cases hname
    cases hnumber
    rfl

/-- What a consumer asks of listeners or of a publisher, when it takes a message. -/
def Delivery.asks (d : Delivery) : List (Ask × Answer) :=
  match d.consumer with
  | .cache i => (d.board.caches[i]?.map fun c => c.asks i d.message).getD []
  | .handler i s => (d.board.engines[i]?.map fun e => e.asks i s d.message).getD []

namespace Board

/-! ## What is seen of a set of feeds -/

def cacheOn (S : Feed → Bool) (b : Board) (i : Nat) : Option (Sheet × List (List Notice)) :=
  (b.caches[i]?.filter fun c => S c.sheet.feed).map Cache.heard

def engineOn (S : Feed → Bool) (b : Board) (i : Nat) : Option Engine :=
  (b.engines[i]?.filter fun e => S e.bidFeed || S e.offerFeed).map Engine.muted

/-- Two boards show the same on feeds of a set. -/
structure Alike (S : Feed → Bool) (b d : Board) : Prop where
  order : b.checkOrder = d.checkOrder
  feeds : ∀ c, b.feedOf? c = d.feedOf? c
  routes : b.routes.filter (fun r => S r.1) = d.routes.filter (fun r => S r.1)
  last : ∀ f, S f → b.last[f]? = d.last[f]?
  caches : ∀ i, b.cacheOn S i = d.cacheOn S i
  engines : ∀ i, b.engineOn S i = d.engineOn S i

/-- An engine with both sides on feeds of a set or both elsewhere. -/
def Whole (S : Feed → Bool) (b : Board) (i : Nat) : Prop :=
  ∀ e, b.engines[i]? = some e → S e.bidFeed = S e.offerFeed

section
variable {S : Feed → Bool} {b d : Board}

theorem Whole.of_feeds {i : Nat} (h : b.Whole S i) (hfeeds : ∀ c, d.feedOf? c = b.feedOf? c) :
    d.Whole S i := by
  intro e he
  have hside : ∀ s, (b.engines[i]?.map fun e => e.feed s) = some (e.feed s) := by
    intro s
    rw [← show d.feedOf? (.handler i s) = some (e.feed s) by simp [feedOf?, he]]
    exact (hfeeds (.handler i s)).symm
  obtain ⟨x, hx, hbid⟩ := Option.map_eq_some_iff.mp (hside .bid)
  obtain ⟨y, hy, hoffer⟩ := Option.map_eq_some_iff.mp (hside .offer)
  obtain rfl : x = y := Option.some.inj (hx.symm.trans hy)
  have hsides := h x hx
  have hbid : x.bidFeed = e.bidFeed := hbid
  have hoffer : x.offerFeed = e.offerFeed := hoffer
  rw [← hbid, ← hoffer, hsides]

theorem Alike.refl (b : Board) : b.Alike S b :=
  ⟨rfl, fun _ => rfl, rfl, fun _ _ => rfl, fun _ => rfl, fun _ => rfl⟩

theorem Alike.symm (h : b.Alike S d) : d.Alike S b :=
  ⟨h.order.symm, fun c => (h.feeds c).symm, h.routes.symm, fun f hf => (h.last f hf).symm,
    fun i => (h.caches i).symm, fun i => (h.engines i).symm⟩

theorem Alike.trans {a : Board} (h : b.Alike S d) (k : d.Alike S a) : b.Alike S a :=
  ⟨h.order.trans k.order, fun c => (h.feeds c).trans (k.feeds c), h.routes.trans k.routes,
    fun f hf => (h.last f hf).trans (k.last f hf), fun i => (h.caches i).trans (k.caches i),
    fun i => (h.engines i).trans (k.engines i)⟩

/-! ## One consumer -/

/-- A board that differs from another in what caches and engines hold, and in counts. -/
structure Keeps (b' b : Board) : Prop where
  order : b'.checkOrder = b.checkOrder
  feeds : ∀ c, b'.feedOf? c = b.feedOf? c
  routes : b'.routes = b.routes
  last : b'.last = b.last

theorem keeps_consume (b : Board) (m : Message) (c : Consumer) : (b.consume m c).1.Keeps b := by
  refine ⟨?_, fun d => feedOf?_consume b m c d, routes_consume b m c, ?_⟩
  · cases c with
    | cache i =>
      simp only [consume, consumeBy, countAll_eq_recordAll]
      cases b.caches[i]? <;> rfl
    | handler i s =>
      simp only [consume, handle, countAll_eq_recordAll]
      cases b.engines[i]? <;> rfl
  · cases c with
    | cache i =>
      simp only [consume, consumeBy, countAll_eq_recordAll]
      cases b.caches[i]? <;> rfl
    | handler i s =>
      simp only [consume, handle, countAll_eq_recordAll]
      cases b.engines[i]? <;> rfl

theorem Alike.of_places {b' d' : Board} (h : b.Alike S d) (hb : b'.Keeps b) (hd : d'.Keeps d)
    (hcaches : ∀ i, b'.cacheOn S i = d'.cacheOn S i)
    (hengines : ∀ i, b'.engineOn S i = d'.engineOn S i) : b'.Alike S d' where
  order := by rw [hb.order, hd.order, h.order]
  feeds c := by rw [hb.feeds, hd.feeds, h.feeds]
  routes := by rw [hb.routes, hd.routes, h.routes]
  last f hf := by rw [hb.last, hd.last, h.last f hf]
  caches := hcaches
  engines := hengines

theorem cacheOn_consume (b : Board) (m : Message) (c : Consumer) (j : Nat) :
    (b.consume m c).1.cacheOn S j =
      (b.caches[j]?.filter fun x => S x.sheet.feed).map fun x =>
        if c = .cache j then (x.consume m).1.heard else x.heard := by
  unfold cacheOn
  cases c with
  | handler i s => simp [caches_consume_handler]
  | cache i =>
    rw [caches_consume_cache]
    by_cases hij : i = j
    · rw [if_pos hij]
      cases b.caches[j]? with
      | none => rfl
      | some x => simp [Option.filter, Cache.feed_consume, hij]
    · simp [hij]

theorem engineOn_consume (b : Board) (m : Message) (c : Consumer) (j : Nat) :
    (b.consume m c).1.engineOn S j =
      (b.engines[j]?.filter fun e => S e.bidFeed || S e.offerFeed).map fun e =>
        match c with
        | .cache _ => e.muted
        | .handler i s => if i = j then (e.handle s m).1.muted else e.muted := by
  unfold engineOn
  cases c with
  | cache i => simp [engines_consume_cache]
  | handler i s =>
    rw [engines_consume_handler]
    by_cases hij : i = j
    · rw [if_pos hij]
      cases b.engines[j]? with
      | none => rfl
      | some e =>
        have hbid : (e.handle s m).1.bidFeed = e.bidFeed := e.feed_handle s .bid m
        have hoffer : (e.handle s m).1.offerFeed = e.offerFeed := e.feed_handle s .offer m
        simp [Option.filter, hbid, hoffer, hij]
    · simp [hij]

theorem Alike.of_consume {c : Consumer} {f : Feed} (hc : b.feedOf? c = some f) (hf : S f = false)
    (hwhole : ∀ i s, c = .handler i s → b.Whole S i) (m : Message) :
    b.Alike S (b.consume m c).1 := by
  refine (Alike.refl b).of_places ⟨rfl, fun _ => rfl, rfl, rfl⟩ (keeps_consume b m c) ?_ ?_
  · intro j
    rw [cacheOn_consume, cacheOn]
    by_cases hj : c = .cache j
    · subst hj
      obtain ⟨x, hx, rfl⟩ := Option.map_eq_some_iff.mp hc
      simp [hx, Option.filter, hf]
    · simp [hj]
  · intro j
    rw [engineOn_consume, engineOn]
    cases c with
    | cache i => rfl
    | handler i s =>
      by_cases hij : i = j
      · subst hij
        obtain ⟨e, he, rfl⟩ := Option.map_eq_some_iff.mp hc
        have hsides := hwhole i s rfl e he
        have hout : (S e.bidFeed || S e.offerFeed) = false := by
          cases s
          · rw [← hsides, Bool.or_self]
            exact hf
          · rw [hsides, Bool.or_self]
            exact hf
        simp [he, Option.filter, hout]
      · simp [hij]

/-- A consumer of a feed of the set does the same on both boards, answers permitting. -/
theorem Alike.tandem_consume (h : b.Alike S d) {c : Consumer} {f : Feed}
    (hc : b.feedOf? c = some f) (hf : S f) (m : Message) :
    Tandem (Delivery.asks ⟨b, m, c⟩) (Delivery.asks ⟨d, m, c⟩)
      ((b.consume m c).1.Alike S (d.consume m c).1 ∧
        (b.consume m c).2.2 = (d.consume m c).2.2) := by
  have hd : d.feedOf? c = some f := by rw [← h.feeds, hc]
  cases c with
  | cache i =>
    obtain ⟨x, hx, rfl⟩ := Option.map_eq_some_iff.mp hc
    obtain ⟨y, hy, hfeed⟩ := Option.map_eq_some_iff.mp hd
    have hsame := h.caches i
    simp only [cacheOn, hx, hy, Option.filter, hfeed, hf, if_true, Option.map_some,
      Option.some.injEq] at hsame
    have htandem := Cache.tandem_consume i m hsame
    simp only [Delivery.asks, hx, hy, Option.map_some, Option.getD_some]
    refine htandem.imp ?_
    rintro ⟨hheard, hanswer⟩
    refine ⟨?_, ?_⟩
    · refine h.of_places (keeps_consume b m _) (keeps_consume d m _) ?_ ?_
      · intro j
        rw [cacheOn_consume, cacheOn_consume]
        by_cases hij : i = j
        · subst hij
          simp [hx, hy, Option.filter, hfeed, hf, hheard]
        · have hj := h.caches j
          simpa [cacheOn, hij] using hj
      · intro j
        rw [engineOn_consume, engineOn_consume]
        exact h.engines j
    · simp only [consume, consumeBy, hx, hy, hanswer]
  | handler i s =>
    obtain ⟨e, he, rfl⟩ := Option.map_eq_some_iff.mp hc
    obtain ⟨e', he', hfeed⟩ := Option.map_eq_some_iff.mp hd
    have hin : ∀ a : Engine, a.feed s = e.feed s → (S a.bidFeed || S a.offerFeed) = true := by
      intro a ha
      rw [← ha] at hf
      cases s
      · exact Bool.or_eq_true_iff.mpr (Or.inl hf)
      · exact Bool.or_eq_true_iff.mpr (Or.inr hf)
    have hsame := h.engines i
    simp only [engineOn, he, he', Option.filter, hin e rfl, hin e' hfeed, if_true, Option.map_some,
      Option.some.injEq] at hsame
    have htandem := Engine.tandem_handle i s m hsame
    simp only [Delivery.asks, he, he', Option.map_some, Option.getD_some]
    refine htandem.imp ?_
    rintro ⟨hmuted, hanswer⟩
    refine ⟨?_, ?_⟩
    · refine h.of_places (keeps_consume b m _) (keeps_consume d m _) ?_ ?_
      · intro j
        rw [cacheOn_consume, cacheOn_consume]
        have hj := h.caches j
        simpa [cacheOn] using hj
      · intro j
        rw [engineOn_consume, engineOn_consume]
        by_cases hij : i = j
        · subst hij
          simp [he, he', Option.filter, hin e rfl, hin e' hfeed, hmuted]
        · have hj := h.engines j
          simpa [engineOn, hij] using hj
    · simp only [consume, handle, he, he', hanswer]

/-! ## All consumers of a feed -/

theorem Alike.of_deliver {f : Feed} (hf : S f = false) (m : Message) (cs : List Consumer)
    (hcs : ∀ c ∈ cs, b.feedOf? c = some f ∧ ∀ i s, c = .handler i s → b.Whole S i) :
    b.Alike S (deliver m cs b).1 := by
  induction cs generalizing b with
  | nil => exact Alike.refl b
  | cons c cs ih =>
    obtain ⟨hc, hwhole⟩ := hcs c List.mem_cons_self
    rw [(deliver_cons m c cs b 0).1]
    refine (Alike.of_consume hc hf hwhole m).trans (ih fun x hx => ?_)
    obtain ⟨hx, hwhole⟩ := hcs x (List.mem_cons_of_mem c hx)
    exact ⟨by rw [feedOf?_consume, hx], fun i s hxi => (hwhole i s hxi).of_feeds (feedOf?_consume b m c)⟩

theorem Alike.tandem_deliver (h : b.Alike S d) {f : Feed} (hf : S f) (m : Message)
    (cs : List Consumer) (hcs : ∀ c ∈ cs, b.feedOf? c = some f) :
    Tandem ((deliveriesTo m cs b).flatMap Delivery.asks) ((deliveriesTo m cs d).flatMap Delivery.asks)
      ((deliver m cs b).1.Alike S (deliver m cs d).1 ∧ answersOf m cs b = answersOf m cs d) := by
  induction cs generalizing b d with
  | nil => exact Tandem.of ⟨h, rfl⟩
  | cons c cs ih =>
    rw [(deliver_cons m c cs b 0).1, (deliver_cons m c cs d 0).1]
    simp only [deliveriesTo, List.flatMap_cons, answersOf]
    refine (h.tandem_consume (hcs c List.mem_cons_self) hf m).append ?_
    rintro ⟨halike, hanswer⟩
    have hlater : ∀ x ∈ cs, (b.consume m c).1.feedOf? x = some f := by
      intro x hx
      rw [feedOf?_consume]
      exact hcs x (List.mem_cons_of_mem c hx)
    refine (ih halike hlater).imp ?_
    rintro ⟨hrest, hanswers⟩
    exact ⟨hrest, by rw [hanswer, hanswers]⟩

/-! ## Batch ids -/

theorem last_note_of_ne {f : Feed} {m : Message} (hf : m.feed ≠ f) :
    (b.note m).last[f]? = b.last[f]? := by
  have hother : ∀ id, (b.last.insert m.feed id)[f]? = b.last[f]? := by
    intro id
    rw [Std.TreeMap.getElem?_insert, if_neg]
    rwa [Std.LawfulEqOrd.compare_eq_iff_eq]
  unfold note checkBatch
  by_cases hc : b.checkOrder = true
  · simp only [hc, if_true]
    cases b.last[m.feed]? with
    | none => exact hother m.batch
    | some last =>
      by_cases hback : m.batch < last
      · simp [hback]
      · simpa [hback] using hother m.batch
  · simp [hc]

theorem note_eq_of_last {m : Message} (horder : b.checkOrder = d.checkOrder)
    (hlast : b.last[m.feed]? = d.last[m.feed]?) :
    (b.note m).last[m.feed]? = (d.note m).last[m.feed]? ∧ b.verdict m = d.verdict m := by
  unfold note verdict checkBatch
  rw [hlast, horder]
  by_cases hc : d.checkOrder = true
  · simp only [hc, if_true]
    cases hd : d.last[m.feed]? with
    | none => simp
    | some last =>
      by_cases hback : m.batch < last
      · simp [hback, hlast, hd]
      · simp [hback]
  · simp [hc, hlast]

theorem checkOrder_note (b : Board) (m : Message) : (b.note m).checkOrder = b.checkOrder := by
  obtain ⟨l, t, h⟩ := b.note_eq m
  rw [h]

theorem Alike.of_note {m : Message} (hm : S m.feed = false) : b.Alike S (b.note m) where
  order := (checkOrder_note b m).symm
  feeds c := (feedOf?_note b m c).symm
  routes := by rw [routes_note]
  last f hf := by
    refine (last_note_of_ne fun hmf => ?_).symm
    rw [hmf, hf] at hm
    cases hm
  caches i := by simp [cacheOn]
  engines i := by simp [engineOn]

theorem Alike.note (h : b.Alike S d) {m : Message} (hm : S m.feed) :
    (b.note m).Alike S (d.note m) where
  order := by rw [checkOrder_note, checkOrder_note, h.order]
  feeds c := by rw [feedOf?_note, feedOf?_note, h.feeds]
  routes := by rw [routes_note, routes_note, h.routes]
  last f hf := by
    by_cases hmf : m.feed = f
    · rw [← hmf]
      exact (note_eq_of_last h.order (h.last m.feed hm)).1
    · rw [last_note_of_ne hmf, last_note_of_ne hmf, h.last f hf]
  caches i := by simpa [cacheOn] using h.caches i
  engines i := by simpa [engineOn] using h.engines i

/-! ## Calls -/

end

end Board

def Call.feed? (b : Board) : Call → Option Feed
  | register c => b.feedOf? c
  | dispatch m => some m.feed

def Call.concerns (b : Board) (S : Feed → Bool) (c : Call) : Bool := (c.feed? b).any S

namespace Board

section
variable {S : Feed → Bool} {b d : Board}

/-- Every engine with a registered side, now or by calls to come, has both sides on feeds of the set
or both elsewhere. -/
structure Encloses (b : Board) (S : Feed → Bool) (cs : List Call) : Prop where
  routed : b.Routed
  routes : ∀ f i s, (f, .handler i s) ∈ b.routes → b.Whole S i
  calls : ∀ i s, .register (.handler i s) ∈ cs → b.Whole S i

theorem Encloses.call {c : Call} {cs : List Call} (h : b.Encloses S (c :: cs)) :
    (b.call c).Encloses S cs where
  routed := h.routed.call c
  routes f i s hr := by
    refine Whole.of_feeds ?_ (feedOf?_call b c)
    cases c with
    | register x =>
      simp only [Board.call, register] at hr
      cases hx : b.feedOf? x with
      | none =>
        rw [hx] at hr
        exact h.routes f i s hr
      | some g =>
        rw [hx] at hr
        rcases List.mem_append.mp hr with hr | hr
        · exact h.routes f i s hr
        · obtain ⟨rfl, rfl⟩ := Prod.mk.inj (List.mem_singleton.mp hr)
          exact h.calls i s List.mem_cons_self
    | dispatch m =>
      rw [Board.call, dispatch_fst, routes_deliver, routes_note] at hr
      exact h.routes f i s hr
  calls i s hc := (h.calls i s (List.mem_cons_of_mem c hc)).of_feeds (feedOf?_call b c)

theorem Alike.of_call {c : Call} {cs : List Call} (h : b.Encloses S (c :: cs))
    (hc : c.concerns b S = false) : b.Alike S (b.call c) := by
  cases c with
  | register x =>
    simp only [Call.concerns, Call.feed?] at hc
    rw [Board.call, register]
    cases hx : b.feedOf? x with
    | none => exact Alike.refl b
    | some f =>
      have hf : S f = false := by simpa [hx] using hc
      have hfeeds : ∀ y, b.feedOf? y =
          ({ b with routes := b.routes ++ [(f, x)] } : Board).feedOf? y := by
        intro y
        cases y <;> rfl
      exact { Alike.refl b with routes := by simp [hf], feeds := hfeeds }
  | dispatch m =>
    have hm : S m.feed = false := by simpa [Call.concerns, Call.feed?] using hc
    rw [Board.call, dispatch_fst]
    refine (Alike.of_note hm).trans (Alike.of_deliver hm m _ fun x hx => ?_)
    refine ⟨by rw [feedOf?_note, h.routed.feedOf? hx], fun i s hxi => ?_⟩
    subst hxi
    obtain ⟨r, hr, hri⟩ := List.mem_map.mp hx
    have hr : r ∈ b.routes := (List.mem_filter.mp hr).1
    refine Whole.of_feeds (h.routes r.1 i s ?_) (feedOf?_note b m)
    rw [← hri]
    exact hr

def asksOf (b : Board) (c : Call) : List (Ask × Answer) := (b.deliveriesOf c).flatMap Delivery.asks

/-- What comes back from a dispatch: the report, and whether the batch id went back. -/
def replyOf (b : Board) : Call → List (Report × Option Inconsistency)
  | .register _ => []
  | .dispatch m => [((b.dispatch m).2.2, b.verdict m)]

theorem Alike.consumers_eq (h : b.Alike S d) {f : Feed} (hf : S f) : b.consumers f = d.consumers f := by
  have hsub : ∀ b : Board, b.routes.filter (fun r => r.1 = f) =
      (b.routes.filter fun r => S r.1).filter fun r => r.1 = f := by
    intro b
    rw [List.filter_filter]
    refine List.filter_congr fun r _ => ?_
    by_cases hr : r.1 = f
    · simp [hr, hf]
    · simp [hr]
  rw [consumers, consumers, hsub b, hsub d, h.routes]

theorem Alike.tandem_call (h : b.Alike S d) (hb : b.Routed) {c : Call} (hc : c.concerns b S) :
    Tandem (b.asksOf c) (d.asksOf c) ((b.call c).Alike S (d.call c) ∧ b.replyOf c = d.replyOf c) := by
  cases c with
  | register x =>
    refine Tandem.of ⟨?_, rfl⟩
    have hfeed := h.feeds x
    simp only [Board.call, register]
    cases hx : b.feedOf? x with
    | none =>
      rw [← hfeed, hx]
      exact h
    | some f =>
      rw [← hfeed, hx]
      have hfeeds : ∀ y, ({ b with routes := b.routes ++ [(f, x)] } : Board).feedOf? y =
          ({ d with routes := d.routes ++ [(f, x)] } : Board).feedOf? y := by
        intro y
        have hy := h.feeds y
        cases y <;> exact hy
      exact { h with routes := by simp only [List.filter_append, h.routes], feeds := hfeeds }
  | dispatch m =>
    have hm : S m.feed := hc
    have hconsumers := h.consumers_eq hm
    have hdeliver := (h.note hm).tandem_deliver hm m (b.consumers m.feed) fun x hx => by
      rw [feedOf?_note, hb.feedOf? hx]
    simp only [asksOf, deliveriesOf, replyOf, Board.call, dispatch_fst, ← hconsumers]
    refine hdeliver.imp ?_
    rintro ⟨halike, hanswers⟩
    have hreport : (b.dispatch m).2.2 = (d.dispatch m).2.2 := by
      rw [report_dispatch, report_dispatch, Board.answers, Board.answers, ← hconsumers, hanswers]
    exact ⟨halike, by rw [hreport, (note_eq_of_last h.order (h.last m.feed hm)).2]⟩

theorem seen_asks (b : Board) (m : Message) (c : Consumer) :
    (Delivery.asks ⟨b, m, c⟩).filterMap Ask.seen? = said (b.consume m c).2.1 := by
  cases c with
  | cache i =>
    simp only [Delivery.asks, consume, consumeBy]
    cases b.caches[i]? with
    | none => rfl
    | some x => exact (x.said_consume i m).symm
  | handler i s =>
    simp only [Delivery.asks, consume, handle]
    cases b.engines[i]? with
    | none => rfl
    | some e => exact (e.said_handle i s m).symm

theorem seen_asks_deliver (m : Message) (cs : List Consumer) (b : Board) :
    ((deliveriesTo m cs b).flatMap Delivery.asks).filterMap Ask.seen? =
      said (deliver m cs b).2.1 := by
  induction cs generalizing b with
  | nil => rfl
  | cons c cs ih =>
    rw [deliveriesTo, List.flatMap_cons, List.filterMap_append, seen_asks, ih]
    simp only [deliver]
    -- a failure is logged, which tells and publishes nothing
    cases (b.consume m c).2.2 with
    | none => exact (said_append ..).symm
    | some e => exact (said_append _ (.logged _ :: _)).symm

theorem seen_asksOf (b : Board) (c : Call) :
    (b.asksOf c).filterMap Ask.seen? = said (b.seenOf c) := by
  cases c with
  | register x => rfl
  | dispatch m =>
    rw [asksOf, deliveriesOf, seen_asks_deliver, seenOf, seen_dispatch, said_append]
    cases b.verdict m <;> rfl

/-! ## Runs -/

/-- What the listeners and publishers on feeds of the set are asked in a run. -/
def asked (S : Feed → Bool) (b : Board) (cs : List Call) : List (Ask × Answer) :=
  overCalls (fun b c => if c.concerns b S then b.asksOf c else []) b cs

def replies (S : Feed → Bool) (b : Board) (cs : List Call) : List (Report × Option Inconsistency) :=
  overCalls (fun b c => if c.concerns b S then b.replyOf c else []) b cs

/-- Of a run on feeds of the set, the asks show all that is seen to be told and published, in its
order. Beyond that there are only updates that were refused. -/
theorem seen_asked (S : Feed → Bool) (b : Board) (cs : List Call) :
    (b.asked S cs).filterMap Ask.seen? =
      overCalls (fun b c => if c.concerns b S then said (b.seenOf c) else []) b cs := by
  rw [asked, apply_overCalls (g := List.filterMap Ask.seen?) rfl fun _ _ => List.filterMap_append]
  congr
  funext b c
  split
  · exact b.seen_asksOf c
  · rfl

theorem asked_cons {c : Call} (hc : c.concerns b S) (cs : List Call) :
    b.asked S (c :: cs) = b.asksOf c ++ (b.call c).asked S cs := by
  rw [asked, overCalls_cons, if_pos hc]
  rfl

theorem replies_cons {c : Call} (hc : c.concerns b S) (cs : List Call) :
    b.replies S (c :: cs) = b.replyOf c ++ (b.call c).replies S cs := by
  rw [replies, overCalls_cons, if_pos hc]
  rfl

theorem Alike.concerns_eq (h : b.Alike S d) : Call.concerns b S = Call.concerns d S := by
  funext c
  cases c with
  | register x => simp only [Call.concerns, Call.feed?, h.feeds]
  | dispatch m => rfl

theorem concerns_call (b : Board) (c : Call) : Call.concerns (b.call c) S = Call.concerns b S := by
  funext d
  cases d with
  | register x => simp only [Call.concerns, Call.feed?, feedOf?_call]
  | dispatch m => rfl

theorem Encloses.append {cs ds : List Call} (h : b.Encloses S (cs ++ ds)) :
    b.Encloses S cs ∧ (b.callAll cs).Encloses S ds := by
  induction cs generalizing b with
  | nil => exact ⟨⟨h.routed, h.routes, fun _ _ hc => absurd hc List.not_mem_nil⟩, h⟩
  | cons c cs ih =>
    refine ⟨⟨h.routed, h.routes, fun i s hc => h.calls i s ?_⟩, (ih h.call).2⟩
    exact List.mem_append_left ds hc

theorem Alike.of_calls {cs : List Call} (h : b.Encloses S cs) (hcs : ∀ c ∈ cs, ¬ c.concerns b S) :
    b.Alike S (b.callAll cs) ∧ b.asked S cs = [] ∧ b.replies S cs = [] := by
  induction cs generalizing b with
  | nil => exact ⟨Alike.refl b, rfl, rfl⟩
  | cons c cs ih =>
    have hc : c.concerns b S = false := Bool.eq_false_iff.mpr (hcs c List.mem_cons_self)
    obtain ⟨halike, hasked, hreplies⟩ := ih h.call fun x hx => by
      rw [concerns_call]
      exact hcs x (List.mem_cons_of_mem c hx)
    refine ⟨(Alike.of_call h hc).trans halike, ?_, ?_⟩
    · rw [asked, overCalls_cons, hc]
      exact hasked
    · rw [replies, overCalls_cons, hc]
      exact hreplies

theorem Alike.tandem_calls (h : b.Alike S d) {cs ds : List Call} (hb : b.Encloses S cs)
    (hd : d.Encloses S ds)
    (hsame : cs.filter (Call.concerns b S) = ds.filter (Call.concerns b S)) :
    Tandem (b.asked S cs) (d.asked S ds)
      ((b.callAll cs).Alike S (d.callAll ds) ∧ b.replies S cs = d.replies S ds) := by
  induction cs generalizing b d ds with
  | nil =>
    obtain ⟨halike, hasked, hreplies⟩ := Alike.of_calls hd fun c hc => by
      rw [← h.concerns_eq]
      exact List.filter_eq_nil_iff.mp hsame.symm c hc
    rw [hasked, hreplies]
    exact Tandem.of ⟨h.trans halike, rfl⟩
  | cons c cs ih =>
    cases hc : c.concerns b S with
    | false =>
      rw [List.filter_cons_of_neg (by simp [hc]), ← concerns_call b c] at hsame
      have hrest := ih ((Alike.of_call hb hc).symm.trans h) hb.call hd hsame
      rw [asked, replies, overCalls_cons, overCalls_cons, hc]
      exact hrest
    | true =>
      rw [List.filter_cons_of_pos hc] at hsame
      -- the same call in the other run, after calls for other feeds
      obtain ⟨pre, post, rfl, hpre, _, hpost⟩ := List.filter_eq_cons_iff.mp hsame.symm
      obtain ⟨hdpre, hdpost⟩ := hd.append
      obtain ⟨halike, hasked, hreplies⟩ := Alike.of_calls hdpre fun x hx => by
        rw [← h.concerns_eq]
        exact hpre x hx
      have hnow := h.trans halike
      have hc' : c.concerns (d.callAll pre) S = true := by
        rw [← hnow.concerns_eq]
        exact hc
      have hdasked : d.asked S (pre ++ c :: post) =
          (d.callAll pre).asksOf c ++ ((d.callAll pre).call c).asked S post := by
        have happend : d.asked S (pre ++ c :: post) =
            d.asked S pre ++ (d.callAll pre).asked S (c :: post) := overCalls_append _ d pre _
        rw [happend, hasked, asked_cons hc', List.nil_append]
      have hdreplies : d.replies S (pre ++ c :: post) =
          (d.callAll pre).replyOf c ++ ((d.callAll pre).call c).replies S post := by
        have happend : d.replies S (pre ++ c :: post) =
            d.replies S pre ++ (d.callAll pre).replies S (c :: post) := overCalls_append _ d pre _
        rw [happend, hreplies, replies_cons hc', List.nil_append]
      have hend : d.callAll (pre ++ c :: post) = ((d.callAll pre).call c).callAll post := by
        simp [callAll]
      rw [asked_cons hc, replies_cons hc, hdasked, hdreplies, hend]
      have hleft : cs.filter (Call.concerns (b.call c) S) = post.filter (Call.concerns (b.call c) S) := by
        rw [concerns_call, hpost]
      refine (hnow.tandem_call hb.routed hc).append ?_
      rintro ⟨hnext, hreply⟩
      refine (ih hnext hb.call hdpost.call hleft).imp ?_
      rintro ⟨hboards, hrest⟩
      exact ⟨hboards, by rw [hreply, hrest]⟩

/-! ## One board under two worlds -/

theorem feedOf?_under (b : Board) (o : Outcomes) (c : Consumer) : (b.under o).feedOf? c = b.feedOf? c := by
  cases c with
  | cache i => cases h : b.caches[i]? <;> simp [feedOf?, under, h]
  | handler i s =>
    cases h : b.engines[i]? with
    | none => simp [feedOf?, under, h]
    | some e => cases s <;> simp [feedOf?, under, h, Engine.feed]

theorem alike_under (b : Board) (o : Outcomes) : (b.under o).Alike S b where
  order := rfl
  feeds := feedOf?_under b o
  routes := rfl
  last _ _ := rfl
  caches i := by
    cases h : b.caches[i]? with
    | none => simp [cacheOn, under, h]
    | some c =>
      have hheard : (c.listeners.mapIdx fun j l => { l with answer := o.listener i j }).map
          Listener.heard = c.listeners.map Listener.heard := by
        apply List.ext_getElem?
        intro j
        rw [List.getElem?_map, List.getElem?_map, List.getElem?_mapIdx]
        cases c.listeners[j]? <;> rfl
      by_cases hc : S c.sheet.feed = true
      · simpa [cacheOn, under, h, Option.filter, hc, Cache.heard] using hheard
      · simp [cacheOn, under, h, Option.filter, hc]
  engines i := by
    cases h : b.engines[i]? with
    | none => simp [engineOn, under, h]
    | some e => simp [engineOn, under, h, Option.filter, Engine.muted]

/-- One board, with its caches and engines, is called in two ways, with the same calls for a set of
feeds among any others. No engine has a side registered in the set and one outside it. The listeners
and publishers answer in two ways as well, but on the set each answer hangs only on what was asked on
the set before. Then the runs are the same on the set: its sheets and what was heard, its engines and
what was offered, all that was asked and the order in which it was, the reports and the batch ids
found to go back. -/
theorem feeds_apart {b : Board} (hnew : b.routes = []) {S : Feed → Bool} {cs ds : List Call}
    (hwhole : ∀ i s e, .register (.handler i s) ∈ cs ++ ds → b.engines[i]? = some e →
      S e.bidFeed = S e.offerFeed)
    (hsame : cs.filter (Call.concerns b S) = ds.filter (Call.concerns b S)) {o o' : Outcomes}
    {world : List (Ask × Answer) → Ask → Answer} (hc : Follows world ((b.under o).asked S cs))
    (hd : Follows world ((b.under o').asked S ds)) :
    let c := (b.under o).callAll cs
    let d := (b.under o').callAll ds
    (∀ i, c.cacheOn S i = d.cacheOn S i) ∧ (∀ i, c.engineOn S i = d.engineOn S i) ∧
      (b.under o).asked S cs = (b.under o').asked S ds ∧
      (b.under o).replies S cs = (b.under o').replies S ds := by
  intro c d
  have hencloses : ∀ o xs, (∀ x ∈ xs, x ∈ cs ++ ds) → (b.under o).Encloses S xs := by
    intro o xs hxs
    have hroutes : (b.under o).routes = [] := hnew
    refine ⟨fun r hr => ?_, fun f i s hr => ?_, fun i s hi => ?_⟩
    · rw [hroutes] at hr
      cases hr
    · rw [hroutes] at hr
      cases hr
    · have hb : b.Whole S i := fun e he => hwhole i s e (hxs _ hi) he
      exact hb.of_feeds (feedOf?_under b o)
  have halike : (b.under o).Alike S (b.under o') := (alike_under b o).trans (alike_under b o').symm
  have hsame : cs.filter (Call.concerns (b.under o) S) = ds.filter (Call.concerns (b.under o) S) := by
    rw [(alike_under b o).concerns_eq, hsame]
  have htandem := halike.tandem_calls (hencloses o cs fun _ => List.mem_append_left ds)
    (hencloses o' ds fun _ => List.mem_append_right cs) hsame
  obtain hdiverge | ⟨hasked, hend, hreplies⟩ := htandem
  · exact absurd hdiverge (hc.not_diverge hd)
  · exact ⟨hend.caches, hend.engines, hasked, hreplies⟩

/-- A cache and an engine on one feed, and a cache on another. -/
def sampleTwoFeeds : Board :=
  let f : Feed := ⟨"XYZ", 1⟩
  { caches := [⟨.empty .fullDepth f .bid, [Cache.sampleListener]⟩,
      ⟨.empty .fullDepth ⟨"XYZ", 2⟩ .bid, [Cache.sampleListener]⟩]
    engines := [⟨"XYZ", f, f, {}, .openChannel⟩] }

def sampleQuote (n : UInt32) : Call := .dispatch (.quote ⟨⟨"XYZ", n⟩, ⟨"a"⟩, ⟨100⟩, ⟨1⟩, .bid, ⟨2⟩, 1⟩)

def sampleEnd (n : UInt32) (batch : UInt64) : Call := .dispatch (.batchEnd ⟨⟨"XYZ", n⟩, ⟨batch⟩, 1, 1⟩)

def sampleAlone : List Call :=
  [.register (.cache 0), .register (.handler 0 .bid), .register (.handler 0 .offer), sampleQuote 1,
    sampleEnd 1 2, sampleEnd 1 1]

def sampleAmong : List Call :=
  [.register (.cache 1), .register (.cache 0), sampleQuote 2, .register (.handler 0 .bid),
    .register (.handler 0 .offer), sampleQuote 1, sampleEnd 2 7, sampleEnd 1 2, sampleQuote 2,
    sampleEnd 1 1]

/-- Whatever may be refused is. -/
def refusal : Ask → Answer
  | .tell _ _ (.untouched _) => .listener none
  | .tell _ _ _ => .listener (some ⟨"log", "full"⟩)
  | .offer _ _ => .publisher (some .channelClosed)

theorem feeds_apart_sample :
    let S : Feed → Bool := fun f => f = ⟨"XYZ", 1⟩
    let b := sampleTwoFeeds.under refusing
    (b.replies S sampleAlone).map (fun r => (r.1.errors.map Failure.message, r.2.isSome)) =
        [([], false),
          (["commit error: snapshot 2 publication aborted: listener log failed: full",
            "handler error: failed to publish incremental update 2: publisher channel closed"], false),
          (["commit error: snapshot 1 publication aborted: listener log failed: full"], true)] ∧
      b.replies S sampleAmong = b.replies S sampleAlone ∧
      (b.callAll sampleAmong).cacheOn S 0 = (b.callAll sampleAlone).cacheOn S 0 ∧
      (b.callAll sampleAmong).engineOn S 0 = (b.callAll sampleAlone).engineOn S 0 := by
  intro S b
  have hwhole : ∀ i s e, .register (.handler i s) ∈ sampleAmong ++ sampleAlone →
      sampleTwoFeeds.engines[i]? = some e → S e.bidFeed = S e.offerFeed := by
    intro i s e _ he
    rw [List.mem_singleton.mp (List.mem_of_getElem? he)]
  have hamong : ∀ x ∈ b.asked S sampleAmong, x.2 = refusal x.1 := by decide +kernel
  have halone : ∀ x ∈ b.asked S sampleAlone, x.2 = refusal x.1 := by decide +kernel
  obtain ⟨hcaches, hengines, _, hreplies⟩ := feeds_apart rfl hwhole (by decide +kernel)
    (follows_of_forall hamong) (follows_of_forall halone)
  exact ⟨by decide +kernel, hreplies, hcaches 0, hengines 0⟩

end

end Board

end QuoteBoard
