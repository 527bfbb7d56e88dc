import QuoteBoard.Proofs.Delivery
import QuoteBoard.Proofs.Replica
import QuoteBoard.Proofs.Sheet

/-!
# Replicas of a watched board

A board has a cache for each side of a feed and one engine with both sides on it. In a dispatch the
caches each take the message once and the engine once for each side, in whatever order they were
registered; two deliveries to an engine make one turn of its barrier (`Engine.absorb_both`). So the
caches, the engine and a replica of the published updates stay in step (`Watched.run`), and the main
statement is `replica_eq_caches`.
-/

namespace QuoteBoard

/-! ## Caches -/

namespace Cache

def entries (x : Cache) : List Addition := x.sheet.reading.levels.map (·.level.addition)

structure Keeps (x : Cache) (f : Feed) (s : Side) (l : Ladder) : Prop where
  feed : x.sheet.feed = f
  side : x.sheet.side = s
  book : x.sheet.book = .ladder l

theorem Keeps.entries_eq {x : Cache} {f : Feed} {s : Side} {l : Ladder} (h : x.Keeps f s l) :
    x.entries = l.entries := by
  have hmap : x.entries = ((rankFrom 0 x.sheet.book.levels).map (·.level)).map Level.addition := by
    rw [List.map_map]
    rfl
  rw [hmap, map_level_rankFrom, h.book]
  rfl

theorem Keeps.commit {x : Cache} {f : Feed} {s : Side} {l : Ladder} (h : x.Keeps f s l)
    (n : BatchId) (t : Timestamp) : (x.commit n t).1.Keeps f s l := by
  obtain ⟨m, r, hx⟩ := x.sheet.settle_eq n t
  have hsheet : (x.commit n t).1.sheet = { x.sheet with modified := m, rebuilt := r } := hx
  exact ⟨by rw [hsheet]; exact h.feed, by rw [hsheet]; exact h.side, by rw [hsheet]; exact h.book⟩

theorem Keeps.consume {x : Cache} {f : Feed} {s : Side} {l : Ladder} (h : x.Keeps f s l)
    {m : Message} (hm : m.feed = f) : (x.consume m).1.Keeps f s (l.heed s m) := by
  have hf : m.feed = x.sheet.feed := hm.trans h.feed.symm
  cases m with
  | quote q =>
    simp only [Cache.consume, Ladder.heed, h.side]
    by_cases hs : q.side = s
    · have hsheet : (x.quote q).1.sheet = x.sheet.touch (.ladder (l.quote q)) q.time :=
        Sheet.quote_of_accepted h.book ⟨hf, hs.trans h.side.symm⟩
      rw [if_pos hs, if_pos hs]
      exact ⟨by rw [hsheet]; exact h.feed, by rw [hsheet]; exact h.side, by rw [hsheet]; rfl⟩
    · rw [if_neg hs, if_neg hs]
      exact h
  | withdrawal w =>
    simp only [Cache.consume, Ladder.heed, h.side]
    by_cases hs : w.side = s
    · obtain ⟨m, hx⟩ := Sheet.withdraw_of_accepted h.book (w := w) ⟨hf, hs.trans h.side.symm⟩
      have hsheet : (x.withdraw w).1.sheet = (x.sheet.withdraw w).1 := rfl
      rw [hx] at hsheet
      rw [if_pos hs, if_pos hs]
      exact ⟨by rw [hsheet]; exact h.feed, by rw [hsheet]; exact h.side, by rw [hsheet]⟩
    · rw [if_neg hs, if_neg hs]
      exact h
  | trade t =>
    have hsheet : (x.tradeDone t).1.sheet =
        { x.sheet.touch x.sheet.book t.time with trade := some t.last } :=
      Sheet.tradeDone_of_accepted hf
    show (x.tradeDone t).1.Keeps f s l
    exact ⟨by rw [hsheet]; exact h.feed, by rw [hsheet]; exact h.side, by rw [hsheet]; exact h.book⟩
  | rebuild r =>
    refine ⟨h.feed, h.side, ?_⟩
    show x.sheet.book.clear = _
    rw [h.book]
    rfl
  | batchEnd e =>
    simp only [Cache.consume]
    split
    · split
      · simp only [noUpdates]
        split <;> exact ⟨h.feed, h.side, h.book⟩
      · exact h.commit e.batch e.time
    · exact h

theorem Keeps.iterate_batchEnd {x : Cache} {f : Feed} {s : Side} {l : Ladder} (h : x.Keeps f s l)
    {e : BatchEnd} (he : e.feed = f) (n : Nat) :
    ((fun y : Cache => (y.consume (.batchEnd e)).1)^[n] x).Keeps f s l := by
  induction n generalizing x with
  | zero => exact h
  | succ n ih => exact ih (h.consume (m := .batchEnd e) he)

end Cache

/-! ## The engine -/

namespace Engine

structure Serves (e : Engine) (f : Feed) : Prop where
  bidFeed : e.bidFeed = f
  offerFeed : e.offerFeed = f
  accepts : ∀ us u, e.publisher.answer us u = none

theorem Serves.handle_eq {e : Engine} {f : Feed} (h : e.Serves f) {m : Message} (hm : m.feed = f)
    (s : Side) :
    ∃ p : Publisher, (∀ us u, p.answer us u = none) ∧
      (e.handle s m).1 = { e with barrier := (e.absorb s m).1, publisher := p } ∧
      (e.handle s m).2.1.filterMap EngineEvent.published? = (e.absorb s m).2.toList := by
  have hfeed : m.feed = e.feed s := by cases s <;> simp [feed, h.bidFeed, h.offerFeed, hm]
  unfold handle
  rw [if_pos hfeed]
  cases ha : e.absorb s m with
  | mk k u =>
    cases u with
    | none => exact ⟨e.publisher, h.accepts, rfl, rfl⟩
    | some u =>
      refine ⟨e.publisher.offer u, h.accepts, ?_⟩
      simp [publish, Publisher.reply, h.accepts, EngineEvent.published?]

theorem absorb_both {e : Engine} (hc : ∀ s, e.barrier.isCommitted s = false) (m : Message)
    (s : Side) :
    (e.absorb s m).2 = none ∧
      ∀ p, { e with barrier := (e.absorb s m).1, publisher := p }.absorb s.opposite m =
        e.barrier.turn e.product m := by
  cases m with
  | quote q =>
    refine ⟨rfl, fun p => ?_⟩
    cases s <;> cases hq : q.side <;>
      simp [absorb, Barrier.turn, Side.opposite, hq, Quote.addition]
  | withdrawal w =>
    refine ⟨rfl, fun p => ?_⟩
    cases s <;> cases hw : w.side <;> simp [absorb, Barrier.turn, Side.opposite, hw]
  | trade t => exact ⟨rfl, fun _ => rfl⟩
  | rebuild r => exact ⟨rfl, fun _ => rfl⟩
  | batchEnd d =>
    have hother : e.barrier.isCommitted s.opposite = false := hc _
    have hfirst : e.absorb s (.batchEnd d) = (e.barrier.markDone s, none) := by
      simp [absorb, Barrier.commit_eq, hother]
    refine ⟨by rw [hfirst], fun p => ?_⟩
    have hsecond : (e.barrier.markDone s).isCommitted s.opposite.opposite = true := by
      rw [Barrier.isCommitted_markDone]
      simp [Side.opposite_opposite]
    have hchanges : (e.barrier.markDone s).hasChanges = e.barrier.hasChanges := by cases s <;> rfl
    rw [hfirst]
    simp only [absorb, Barrier.commit_eq, hsecond, hchanges, if_true, Barrier.turn]
    cases s <;> rfl

theorem Serves.run_single {e : Engine} {f : Feed} (h : e.Serves f) {m : Message} (hm : m.feed = f)
    (hc : ∀ s, e.barrier.isCommitted s = false) (s : Side) : (e.run [(s, m)]).2 = [] := by
  obtain ⟨p, _, _, hpub⟩ := h.handle_eq hm s
  simp only [run, hpub, (absorb_both hc m s).1]
  rfl

theorem Serves.run_both {e : Engine} {f : Feed} (h : e.Serves f) {m : Message} (hm : m.feed = f)
    (hc : ∀ s, e.barrier.isCommitted s = false) (s : Side) :
    (e.run [(s, m), (s.opposite, m)]).1.Serves f ∧
      (e.run [(s, m), (s.opposite, m)]).1.barrier = (e.barrier.turn e.product m).1 ∧
      (e.run [(s, m), (s.opposite, m)]).2 = (e.barrier.turn e.product m).2.toList := by
  obtain ⟨p, hp, hfst, hpub⟩ := h.handle_eq hm s
  have hmid : (e.handle s m).1.Serves f := by
    rw [hfst]
    exact ⟨h.bidFeed, h.offerFeed, hp⟩
  obtain ⟨p', hp', hfst', hpub'⟩ := hmid.handle_eq hm s.opposite
  obtain ⟨hnone, hboth⟩ := absorb_both hc m s
  have hsecond : (e.handle s m).1.absorb s.opposite m = e.barrier.turn e.product m := by
    rw [hfst]
    exact hboth p
  rw [hsecond] at hfst' hpub'
  simp only [run, List.append_nil]
  refine ⟨?_, ?_, ?_⟩
  · rw [hfst']
    exact ⟨hmid.bidFeed, hmid.offerFeed, hp'⟩
  · rw [hfst']
  · rw [hpub, hnone, hpub']
    rfl

end Engine

theorem sides_cases {l : List Side} (h : ∀ s, l.count s ≤ 1) :
    l = [] ∨ ∃ s, l = [s] ∨ l = [s, s.opposite] := by
  match l with
  | [] => exact Or.inl rfl
  | [s] => exact Or.inr ⟨s, Or.inl rfl⟩
  | [s, t] =>
    refine Or.inr ⟨s, Or.inr ?_⟩
    have := h s
    cases s <;> cases t <;> first | rfl | simp at this
  | s :: t :: u :: l =>
    have hb := h .bid
    have ho := h .offer
    exfalso
    cases s <;> cases t <;> cases u <;> simp at hb ho

namespace Engine

theorem Serves.run_sides {e : Engine} {f : Feed} (h : e.Serves f) {m : Message} (hm : m.feed = f)
    (hc : ∀ s, e.barrier.isCommitted s = false) {l : List Side} (hl : ∀ s, l.count s ≤ 1)
    (hpub : (e.run (l.map (·, m))).2 ≠ []) :
    (e.run (l.map (·, m))).2 = (e.barrier.turn e.product m).2.toList := by
  obtain rfl | ⟨s, rfl | rfl⟩ := sides_cases hl
  · exact absurd rfl hpub
  · exact absurd (h.run_single hm hc s) hpub
  · exact (h.run_both hm hc s).2.2

theorem Serves.run_all {e : Engine} {f : Feed} (h : e.Serves f) {m : Message} (hm : m.feed = f)
    (hc : ∀ s, e.barrier.isCommitted s = false) {l : List Side} (hl : ∀ s, l.count s = 1) :
    (e.run (l.map (·, m))).1.Serves f ∧
      (e.run (l.map (·, m))).1.barrier = (e.barrier.turn e.product m).1 ∧
      (e.run (l.map (·, m))).2 = (e.barrier.turn e.product m).2.toList := by
  obtain rfl | ⟨s, rfl | rfl⟩ := sides_cases fun s => (hl s).le
  · exact absurd (hl .bid) (by decide)
  · have := hl s.opposite
    cases s <;> exact absurd this (by decide)
  · exact h.run_both hm hc s

end Engine

theorem Barrier.eq_empty_of_turn {b : Barrier} {p : String} {m : Message}
    (h : (b.turn p m).2 ≠ none) : (∃ e, m = .batchEnd e) ∧ (b.turn p m).1 = {} := by
  cases m with
  | batchEnd e =>
    refine ⟨⟨e, rfl⟩, ?_⟩
    by_cases hb : b.hasChanges = true
    · simp [turn, hb]
    · simp [turn, hb] at h
  | _ => exact absurd rfl h

namespace Board

theorem count_sides (j : Nat) (cs : List Consumer) (s : Side) :
    (sides j cs).count s = cs.count (.handler j s) := by
  induction cs with
  | nil => rfl
  | cons c cs ih =>
    cases c with
    | cache i => simpa [sides, List.count_cons] using ih
    | handler i t =>
      by_cases hij : i = j
      · subst hij
        simpa [sides, List.count_cons] using ih
      · simpa [sides, List.count_cons, hij] using ih

/-- A fresh cache for each side of a feed and a fresh engine with both sides on it, each registered
once, and a publisher that never fails. -/
structure Watched (b : Board) (f : Feed) (i : Side → Nat) (j : Nat) : Prop where
  caches : ∀ s, ∃ ls, b.caches[i s]? = some ⟨.empty .fullDepth f s, ls⟩
  engine : ∃ product p, b.engines[j]? = some ⟨product, f, f, {}, p⟩ ∧ ∀ us u, p.answer us u = none
  cache_once : ∀ s, (b.consumers f).count (.cache (i s)) = 1
  handler_once : ∀ s, (b.consumers f).count (.handler j s) = 1

/-- The same board at work, with the ladders of its caches and the barrier of its engine. -/
structure Serving (b : Board) (f : Feed) (i : Side → Nat) (j : Nat) (c : Side → Ladder)
    (k : Barrier) : Prop where
  caches : ∀ s, ∃ x, b.caches[i s]? = some x ∧ x.Keeps f s (c s)
  engine : ∃ e, b.engines[j]? = some e ∧ e.Serves f ∧ e.barrier = k
  cache_once : ∀ s, (b.consumers f).count (.cache (i s)) = 1
  handler_once : ∀ s, (b.consumers f).count (.handler j s) = 1

section
variable {b : Board} {f : Feed} {i : Side → Nat} {j : Nat} {c : Side → Ladder} {k : Barrier}

theorem Watched.serving (h : b.Watched f i j) : b.Serving f i j Ladder.empty {} where
  caches s := by
    obtain ⟨ls, hs⟩ := h.caches s
    exact ⟨_, hs, rfl, rfl, rfl⟩
  engine := by
    obtain ⟨product, p, he, hp⟩ := h.engine
    exact ⟨_, he, ⟨rfl, rfl, hp⟩, rfl⟩
  cache_once := h.cache_once
  handler_once := h.handler_once

theorem Serving.dispatch (h : b.Serving f i j c k) {m : Message} (hm : m.feed = f)
    (hc : ∀ s, k.isCommitted s = false) :
    ∃ product, (b.dispatch m).1.Serving f i j (fun s => (c s).heed s m) (k.turn product m).1 ∧
      published j (b.dispatch m).2.1 = (k.turn product m).2.toList := by
  obtain ⟨e, he, hserves, rfl⟩ := h.engine
  have hsides : ∀ s, (sides j (b.consumers f)).count s = 1 := fun s => by
    rw [count_sides, h.handler_once]
  obtain ⟨hserves', hbarrier, hpub⟩ := hserves.run_all hm hc hsides
  have hconsumers : (b.dispatch m).1.consumers f = b.consumers f := by
    simp only [consumers, dispatch_fst, routes_deliver, routes_note]
  refine ⟨e.product, ⟨?_, ?_, ?_, ?_⟩, ?_⟩
  · intro s
    obtain ⟨x, hx, hkeeps⟩ := h.caches s
    refine ⟨(x.consume m).1, ?_, hkeeps.consume hm⟩
    rw [dispatch_fst, hm, caches_deliver, h.cache_once, caches_note, hx]
    rfl
  · refine ⟨_, ?_, hserves', hbarrier⟩
    rw [dispatch_fst, hm, engines_deliver, engines_note, he]
    rfl
  · intro s
    rw [hconsumers, h.cache_once]
  · intro s
    rw [hconsumers, h.handler_once]
  · rw [published_dispatch, hm, published_deliver, engines_note, he]
    exact hpub

theorem Watched.run (hb : b.Watched f i j) {ms : List Message} (hms : InOrder f ms) :
    ∃ c k, (b.run ms).1.Serving f i j c k ∧
      InStep f ms c k (Replica.after f (published j (b.run ms).2)) := by
  induction ms using List.reverseRecOn with
  | nil => exact ⟨_, _, hb.serving, inStep_nil f⟩
  | append_singleton ms m ih =>
    obtain ⟨c, k, hserving, hstep⟩ := ih hms.of_append
    have hm : m.feed = f := hms.feed m (List.mem_append_right _ (List.mem_singleton_self m))
    obtain ⟨product, hnext, hpub⟩ := hserving.dispatch hm hstep.committed
    refine ⟨fun s => (c s).heed s m, (k.turn product m).1, ?_, ?_⟩
    · rw [run_snoc]
      exact hnext
    · rw [run_snoc, published_append, hpub, Replica.after, List.foldl_append]
      exact hstep.step hms product

def midway (b : Board) (ms : List Message) (m : Message) (cs : List Consumer) :
    Board × List BoardEvent :=
  let d := deliver m cs ((b.run ms).1.note m)
  (d.1, (b.run ms).2 ++ d.2.1)

def Agrees (f : Feed) (i : Side → Nat) (j : Nat) (now : Board × List BoardEvent) : Prop :=
  ∀ s, now.1.caches[i s]?.map Cache.entries =
    some ((Replica.after f (published j now.2)).book s).entries

theorem agrees_of_inStep {now : Board × List BoardEvent} {ms : List Message}
    (hcaches : ∀ s, ∃ x, now.1.caches[i s]? = some x ∧ x.Keeps f s (c s))
    (hstep : InStep f ms c {} (Replica.after f (published j now.2))) : Agrees f i j now := by
  intro s
  obtain ⟨x, hx, hkeeps⟩ := hcaches s
  rw [hx, Option.map_some, hkeeps.entries_eq, hstep.entries_eq rfl]

/-- Once an update is out, the rest of the dispatch changes neither a book nor the replica. -/
theorem Watched.agrees_midway (hb : b.Watched f i j) {ms : List Message} {m : Message}
    (hms : InOrder f (ms ++ [m])) {cs : List Consumer} (hcs : cs <+: b.consumers f)
    (hpub : published j (b.midway ms m cs).2 ≠ published j (b.run ms).2) :
    Agrees f i j (b.midway ms m cs) := by
  obtain ⟨c, k, hserving, hstep⟩ := hb.run hms.of_append
  obtain ⟨e, he, hserves, rfl⟩ := hserving.engine
  have hm : m.feed = f := hms.feed m (List.mem_append_right _ (List.mem_singleton_self m))
  have hsides : ∀ s, (sides j cs).count s ≤ 1 := by
    intro s
    rw [count_sides, ← hb.handler_once s]
    exact hcs.sublist.count_le _
  have hrun : published j (b.midway ms m cs).2 =
      published j (b.run ms).2 ++ (e.run ((sides j cs).map (·, m))).2 := by
    simp only [midway]
    rw [published_append, published_deliver, engines_note, he]
    rfl
  have hnew : (e.run ((sides j cs).map (·, m))).2 ≠ [] := by
    intro hnil
    rw [hrun, hnil, List.append_nil] at hpub
    exact hpub rfl
  have hturn := hserves.run_sides hm hstep.committed hsides hnew
  obtain ⟨⟨d, rfl⟩, hempty⟩ := Barrier.eq_empty_of_turn
    (b := e.barrier) (p := e.product) (m := m) fun hnone => hnew (by rw [hturn, hnone]; rfl)
  have hnext := hstep.step hms e.product
  rw [hempty, Replica.after, ← List.foldl_append, ← hturn, ← hrun] at hnext
  apply agrees_of_inStep ?_ hnext
  intro s
  obtain ⟨x, hx, hkeeps⟩ := hserving.caches s
  refine ⟨_, ?_, hkeeps.iterate_batchEnd (e := d) hm (cs.count (.cache (i s)))⟩
  simp only [midway]
  rw [caches_deliver, caches_note, hx]
  rfl

theorem midway_consumers (b : Board) (ms : List Message) (m : Message) :
    (b.midway ms m (b.consumers m.feed)).1 = (b.run (ms ++ [m])).1 ∧
      published j (b.midway ms m (b.consumers m.feed)).2 = published j (b.run (ms ++ [m])).2 := by
  have hc : (b.run ms).1.consumers m.feed = b.consumers m.feed := by
    simp only [consumers, routes_run]
  constructor
  · rw [run_snoc, dispatch_fst, hc]
    rfl
  · rw [run_snoc, published_append, published_dispatch, hc, ← published_append]
    rfl

end

/-- Whenever an update has just been published, a replica of the updates so far shows on each side
what the cache shows: at the end of the dispatch and already within it. -/
theorem replica_eq_caches {b : Board} {f : Feed} {i : Side → Nat} {j : Nat} {ms : List Message}
    (hb : b.Watched f i j) (hms : InOrder f ms) (pre : List Message) (m : Message)
    (hpre : pre ++ [m] <+: ms) :
    (published j (b.run (pre ++ [m])).2 ≠ published j (b.run pre).2 →
        Agrees f i j (b.run (pre ++ [m]))) ∧
      ∀ cs, cs <+: b.consumers f →
        published j (b.midway pre m cs).2 ≠ published j (b.run pre).2 →
        Agrees f i j (b.midway pre m cs) := by
  obtain ⟨rest, rfl⟩ := hpre
  have hpre := hms.of_append
  refine ⟨?_, fun cs hcs hpub => hb.agrees_midway hpre hcs hpub⟩
  intro hpub
  have hm : m.feed = f := hpre.feed m (List.mem_append_right _ (List.mem_singleton_self m))
  obtain ⟨hboard, hevents⟩ := midway_consumers (j := j) b pre m
  rw [← hevents] at hpub
  rw [hm] at hboard hevents hpub
  have hagrees := hb.agrees_midway hpre (List.prefix_refl _) hpub
  unfold Agrees at hagrees ⊢
  rw [← hboard, ← hevents]
  exact hagrees

/-- One feed, its two caches and one engine; the sides of the engine come between the caches. -/
def sampleBoard : Board :=
  let f : Feed := ⟨"XYZ", 1⟩
  let b : Board :=
    { caches := [.empty .fullDepth f .bid, .empty .fullDepth f .offer]
      engines := [⟨"XYZ", f, f, {}, .openChannel⟩] }
  [.cache 0, .handler 0 .bid, .handler 0 .offer, .cache 1].foldl register b

/-- Two batches: a rebuild with a level on each side, then a bid that takes the place of another. -/
def sampleBatches : List Message :=
  let f : Feed := ⟨"XYZ", 1⟩
  [.rebuild ⟨f, ⟨1⟩⟩, .quote ⟨f, ⟨"a"⟩, ⟨100⟩, ⟨1⟩, .bid, ⟨1⟩, 1⟩,
    .quote ⟨f, ⟨"x"⟩, ⟨105⟩, ⟨1⟩, .offer, ⟨1⟩, 1⟩, .batchEnd ⟨f, ⟨1⟩, 2, 1⟩,
    .withdrawal ⟨f, ⟨"a"⟩, .bid, ⟨2⟩, 2⟩, .quote ⟨f, ⟨"b"⟩, ⟨100⟩, ⟨2⟩, .bid, ⟨2⟩, 2⟩,
    .batchEnd ⟨f, ⟨2⟩, 2, 2⟩]

theorem watched_sampleBoard :
    sampleBoard.Watched ⟨"XYZ", 1⟩ (fun s => if s = .bid then 0 else 1) 0 where
  caches s := by cases s <;> exact ⟨_, rfl⟩
  engine := ⟨_, _, rfl, fun _ _ => rfl⟩
  cache_once s := by cases s <;> decide +kernel
  handler_once s := by cases s <;> decide +kernel

theorem inOrder_sampleBatches : InOrder ⟨"XYZ", 1⟩ sampleBatches where
  feed := by decide +kernel
  fits := by decide +kernel
  apart := by decide +kernel

theorem replica_eq_caches_sample :
    sampleBoard.Watched ⟨"XYZ", 1⟩ (fun s => if s = .bid then 0 else 1) 0 ∧
      InOrder ⟨"XYZ", 1⟩ sampleBatches ∧
      Agrees ⟨"XYZ", 1⟩ (fun s => if s = .bid then 0 else 1) 0 (sampleBoard.run sampleBatches) ∧
      Agrees ⟨"XYZ", 1⟩ (fun s => if s = .bid then 0 else 1) 0
        (sampleBoard.midway (sampleBatches.take 6) (.batchEnd ⟨⟨"XYZ", 1⟩, ⟨2⟩, 2, 2⟩)
          ((sampleBoard.consumers ⟨"XYZ", 1⟩).take 3)) := by
  have h := replica_eq_caches watched_sampleBoard inOrder_sampleBatches (sampleBatches.take 6)
    (.batchEnd ⟨⟨"XYZ", 1⟩, ⟨2⟩, 2, 2⟩) (List.prefix_refl _)
  refine ⟨watched_sampleBoard, inOrder_sampleBatches, h.1 fun heq => ?_,
    h.2 _ (List.take_prefix 3 _) fun heq => ?_⟩
  · exact absurd (congrArg List.length heq) (by decide +kernel)
  · exact absurd (congrArg List.length heq) (by decide +kernel)

end Board

end QuoteBoard
