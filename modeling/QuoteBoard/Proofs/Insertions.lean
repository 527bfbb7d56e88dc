import QuoteBoard.Proofs.Framing

/-!
# What a framer inserts

A framer writes a session down in its order and only adds to it. The items fall into runs of one
batch id, whatever else passes between them; a mark goes before the first item of each feed in a
run that begins with a snapshot, and the ends of a run, one for each of its feeds, go before the
next run or behind the last one (`frame_eq_written`). The batch that a framer has open is at each
moment what the run has so far (`batchAfter`).
-/

namespace QuoteBoard.Framer

theorem eraseDups_snoc {α : Type} [BEq α] [LawfulBEq α] (as : List α) (a : α) :
    (as ++ [a]).eraseDups = as.eraseDups ++ if a ∈ as then [] else [a] := by
  rw [List.eraseDups_append, List.removeAll]
  by_cases ha : a ∈ as <;> simp [ha, List.eraseDups_cons]

theorem nodup_eraseDups {α : Type} [BEq α] [LawfulBEq α] (as : List α) : as.eraseDups.Nodup := by
  induction as using List.reverseRecOn with
  | nil => simp
  | append_singleton as a ih =>
    rw [eraseDups_snoc]
    by_cases ha : a ∈ as
    · simpa [ha] using ih
    · simp only [ha, if_false]
      refine List.nodup_append.mpr ⟨ih, List.nodup_singleton a, fun b hb c hc hbc => ha ?_⟩
      rw [← List.mem_singleton.mp hc, ← hbc]
      exact List.mem_eraseDups.mp hb

/-! ## Runs of items -/

def items (cs : List Captured) : List Captured := cs.filter (·.message.isItem)

/-- What does not end a run: an item of its id, and whatever is no item. -/
def goesOn (n : BatchId) (c : Captured) : Bool := !c.message.isItem || c.message.batch = n

/-- The run that an item begins, with what passes between its items and behind the last one. -/
def runFrom (c : Captured) (cs : List Captured) : List Captured :=
  c :: cs.takeWhile (goesOn c.message.batch)

def afterRun (c : Captured) (cs : List Captured) : List Captured :=
  cs.dropWhile (goesOn c.message.batch)

/-- The runs of a session that begins with an item. -/
def runs : List Captured → List (List Captured)
  | [] => []
  | c :: cs => runFrom c cs :: runs (afterRun c cs)
termination_by cs => cs.length
decreasing_by exact Nat.lt_succ_of_le (List.length_dropWhile_le _ _)

def lead (cs : List Captured) : List Captured := cs.takeWhile fun c => !c.message.isItem

def afterLead (cs : List Captured) : List Captured := cs.dropWhile fun c => !c.message.isItem

theorem head?_dropWhile_eq_false {p : Captured → Bool} {cs : List Captured} :
    ∀ c ∈ (cs.dropWhile p).head?, p c = false := by
  intro c hc
  have h := List.head?_dropWhile_not p cs
  rw [hc] at h
  exact h

theorem runFrom_append_afterRun (c : Captured) (cs : List Captured) :
    runFrom c cs ++ afterRun c cs = c :: cs := by
  simp [runFrom, afterRun]

theorem head?_afterRun {c : Captured} {cs : List Captured} :
    ∀ d ∈ (afterRun c cs).head?, d.message.isItem ∧ d.message.batch ≠ c.message.batch := by
  intro d hd
  simpa [goesOn] using head?_dropWhile_eq_false d hd

theorem flatten_runs (cs : List Captured) : (runs cs).flatten = cs := by
  fun_induction runs cs with
  | case1 => rfl
  | case2 c cs ih => rw [List.flatten_cons, ih, runFrom_append_afterRun]

theorem lead_append_afterLead (cs : List Captured) : lead cs ++ afterLead cs = cs :=
  List.takeWhile_append_dropWhile

theorem not_isItem_lead (cs : List Captured) : ∀ c ∈ lead cs, c.message.isItem = false :=
  fun c hc => by simpa using List.mem_takeWhile_imp hc

theorem head?_afterLead (cs : List Captured) : ∀ c ∈ (afterLead cs).head?, c.message.isItem :=
  fun c hc => by simpa using head?_dropWhile_eq_false c hc

theorem items_append (cs ds : List Captured) : items (cs ++ ds) = items cs ++ items ds :=
  List.filter_append ..

theorem items_afterLead (cs : List Captured) : items (afterLead cs) = items cs := by
  have hlead : items (lead cs) = [] :=
    List.filter_eq_nil_iff.mpr fun c hc => by simp [not_isItem_lead cs c hc]
  have hsplit := congrArg items (lead_append_afterLead cs)
  rwa [items_append, hlead, List.nil_append] at hsplit

theorem head?_items {cs : List Captured} (hcs : ∀ c ∈ cs.head?, c.message.isItem) :
    (items cs).head? = cs.head? := by
  cases cs with
  | nil => rfl
  | cons c cs => simp [items, hcs c rfl]

theorem batch_of_mem_runFrom {c : Captured} {cs : List Captured} :
    ∀ d ∈ items (runFrom c cs), d.message.batch = c.message.batch := by
  intro d hd
  obtain ⟨hmem, hitem⟩ := List.mem_filter.mp hd
  rcases List.mem_cons.mp hmem with rfl | hmem
  · rfl
  · simpa [goesOn, hitem] using List.mem_takeWhile_imp hmem

theorem head?_of_mem_runs {cs : List Captured} (hcs : ∀ c ∈ cs.head?, c.message.isItem) :
    ∀ r ∈ runs cs, ∃ c ∈ r.head?, c.message.isItem := by
  fun_induction runs cs with
  | case1 => simp
  | case2 c cs ih =>
    exact List.forall_mem_cons.mpr ⟨⟨c, rfl, hcs c rfl⟩, ih fun d hd => (head?_afterRun d hd).1⟩

theorem map_items_runs {cs : List Captured} (hcs : ∀ c ∈ cs.head?, c.message.isItem) :
    (runs cs).map items = stretches (items cs) := by
  fun_induction runs cs with
  | case1 => rfl
  | case2 c cs ih =>
    have hitem : c.message.isItem := hcs c rfl
    have hone : stretches (items (runFrom c cs)) = [items (runFrom c cs)] := by
      refine List.splitBy_of_isChain (by simp [items, runFrom, hitem]) ?_
      refine (List.pairwise_of_forall_mem_list fun d hd e he => ?_).isChain
      simp [batch_of_mem_runFrom d hd, batch_of_mem_runFrom e he]
    have hcut : stretches (items (runFrom c cs) ++ items (afterRun c cs)) =
        stretches (items (runFrom c cs)) ++ stretches (items (afterRun c cs)) := by
      refine List.splitBy_append fun d hd e he => ?_
      rw [head?_items fun d hd => (head?_afterRun d hd).1] at he
      simpa [batch_of_mem_runFrom d (List.mem_of_getLast? hd)] using (head?_afterRun e he).2.symm
    rw [← runFrom_append_afterRun c cs, items_append, hcut, hone, List.map_cons,
      ih fun d hd => (head?_afterRun d hd).1, List.singleton_append]

/-- A session is what leads up to its first item and then its runs: each begins with an item, and
their items are the items of the session, cut where the id changes. -/
structure Cut (cs lead : List Captured) (runs : List (List Captured)) : Prop where
  whole : lead ++ runs.flatten = cs
  plain : ∀ c ∈ lead, c.message.isItem = false
  begun : ∀ r ∈ runs, ∃ c ∈ r.head?, c.message.isItem
  split : runs.map items = stretches (items cs)

theorem cut_runs (cs : List Captured) : Cut cs (lead cs) (runs (afterLead cs)) where
  whole := by rw [flatten_runs, lead_append_afterLead]
  plain := not_isItem_lead cs
  begun := head?_of_mem_runs (head?_afterLead cs)
  split := by rw [map_items_runs (head?_afterLead cs), items_afterLead]

/-! ## What is written of a run -/

/-- The feeds that have items, in the order of their first ones. -/
def feedsOf (cs : List Captured) : List Feed := ((items cs).map (·.message.feed)).eraseDups

def itemsFrom (f : Feed) (cs : List Captured) : List Captured := own f (items cs)

/-- The ends of a run, one for each of its feeds. -/
def endsOf (r : List Captured) : List Message :=
  (feedsOf r).map fun f =>
    .batchEnd ⟨f, idOf r, .ofNat (itemsFrom f r).length, timeOf (items r)⟩

/-- The mark before a message that comes after the messages `past` of a run. -/
def markBefore (n : BatchId) (rebuilt : Bool) (past : List Captured) (c : Captured) :
    List Message :=
  if rebuilt = true ∧ c.message.isItem = true ∧ c.message.feed ∉ feedsOf past then
    [.rebuild ⟨c.message.feed, n⟩]
  else []

/-- The messages of a run after its messages `past`, each with the mark before it. -/
def marked (n : BatchId) (rebuilt : Bool) : List Captured → List Captured → List Message
  | _, [] => []
  | past, c :: cs =>
    markBefore n rebuilt past c ++ c.message :: marked n rebuilt (past ++ [c]) cs

def written (r : List Captured) : List Message :=
  marked (idOf r) (isRebuilt r) [] r ++ endsOf r

/-! ## The open batch of a run -/

def counts (cs : List Captured) : List (Feed × UInt32) :=
  (feedsOf cs).map fun f => (f, .ofNat (itemsFrom f cs).length)

/-- The batch that is open after the messages `past` of a run. -/
def batchAfter (n : BatchId) (rebuilt : Bool) (past : List Captured) : OpenBatch :=
  ⟨n, rebuilt, counts past, timeOf (items past)⟩

theorem items_snoc (cs : List Captured) (c : Captured) :
    items (cs ++ [c]) = items cs ++ if c.message.isItem then [c] else [] := by
  cases hc : c.message.isItem <;> simp [items, hc]

theorem feedsOf_snoc (cs : List Captured) {c : Captured} (hc : c.message.isItem) :
    feedsOf (cs ++ [c]) =
      feedsOf cs ++ if c.message.feed ∈ feedsOf cs then [] else [c.message.feed] := by
  simp only [feedsOf, items_snoc, hc, if_true, List.map_append, List.map_singleton, eraseDups_snoc,
    List.mem_eraseDups]

theorem itemsFrom_snoc (f : Feed) (cs : List Captured) {c : Captured} (hc : c.message.isItem) :
    itemsFrom f (cs ++ [c]) = itemsFrom f cs ++ if c.message.feed = f then [c] else [] := by
  simp only [itemsFrom, items_snoc, hc, if_true, own_append, own_singleton]

theorem mem_feedsOf {f : Feed} {cs : List Captured} : f ∈ feedsOf cs ↔ itemsFrom f cs ≠ [] := by
  simp [feedsOf, itemsFrom, own]

theorem countItem_map {k : Feed → UInt32} {f : Feed} {fs : List Feed} (hfs : fs.Nodup) :
    OpenBatch.countItem f (fs.map fun g => (g, k g)) =
      (fs.map fun g => (g, if g = f then k g + 1 else k g)) ++ if f ∈ fs then [] else [(f, 1)] := by
  induction fs with
  | nil => rfl
  | cons g fs ih =>
    obtain ⟨hg, hfs⟩ := List.nodup_cons.mp hfs
    by_cases hgf : g = f
    · subst hgf
      have hrest : (fs.map fun h => (h, if h = g then k h + 1 else k h)) = fs.map fun h => (h, k h) :=
        List.map_congr_left fun h hh => by rw [if_neg fun heq : h = g => hg (heq ▸ hh)]
      simp [OpenBatch.countItem, hrest]
    · simp [OpenBatch.countItem, hgf, ih hfs, Ne.symm hgf]

theorem counts_snoc (cs : List Captured) {c : Captured} (hc : c.message.isItem) :
    counts (cs ++ [c]) = OpenBatch.countItem c.message.feed (counts cs) := by
  have hnodup : (feedsOf cs).Nodup := nodup_eraseDups _
  have hcount : ∀ g, (UInt32.ofNat (itemsFrom g (cs ++ [c])).length) =
      if g = c.message.feed then .ofNat (itemsFrom g cs).length + 1
      else .ofNat (itemsFrom g cs).length := by
    intro g
    rw [itemsFrom_snoc g cs hc]
    by_cases hg : c.message.feed = g
    · simp [hg, UInt32.ofNat_add]
    · simp [hg, Ne.symm hg]
  rw [counts, counts, countItem_map hnodup, feedsOf_snoc cs hc, List.map_append]
  simp only [hcount]
  by_cases hmem : c.message.feed ∈ feedsOf cs
  · simp [hmem]
  · have hnone : itemsFrom c.message.feed cs = [] := by simpa [mem_feedsOf] using hmem
    simp [hmem, hnone]

theorem hasFeed_batchAfter (n : BatchId) (rebuilt : Bool) (past : List Captured) (f : Feed) :
    (batchAfter n rebuilt past).hasFeed f = decide (f ∈ feedsOf past) := by
  rw [OpenBatch.hasFeed, batchAfter, counts, Bool.eq_iff_iff]
  simp

theorem marks_batchAfter (n : BatchId) (rebuilt : Bool) (past : List Captured) {c : Captured}
    (hc : c.message.isItem) :
    (batchAfter n rebuilt past).marks c.message.feed = markBefore n rebuilt past c := by
  rw [OpenBatch.marks, hasFeed_batchAfter, markBefore]
  simp [batchAfter, hc]

theorem add_batchAfter (n : BatchId) (rebuilt : Bool) (past : List Captured) {c : Captured}
    (hc : c.message.isItem) :
    (batchAfter n rebuilt past).add c.message = batchAfter n rebuilt (past ++ [c]) := by
  obtain ⟨t, ht⟩ := Option.isSome_iff_exists.mp (Message.time?_isSome hc)
  have htime : timeOf (items (past ++ [c])) = t := by simp [items_snoc, hc, timeOf, ht]
  simp only [batchAfter, OpenBatch.add, counts_snoc past hc, htime, ht, Option.getD_some]

theorem ends_batchAfter (r : List Captured) (rebuilt : Bool) :
    (batchAfter (idOf r) rebuilt r).ends = endsOf r := by
  simp [OpenBatch.ends, endsOf, batchAfter, counts, Function.comp_def]

/-! ## Framing a run -/

theorem push_of_not_isItem (fr : Framer) {c : Captured} (hc : c.message.isItem = false) :
    fr.push c = (fr, [c.message]) := by
  simp [push, hc]

theorem push_goesOn {n : BatchId} {c : Captured} (hc : goesOn n c) (rebuilt : Bool)
    (past : List Captured) :
    Framer.push ⟨some (batchAfter n rebuilt past)⟩ c =
      (⟨some (batchAfter n rebuilt (past ++ [c]))⟩, markBefore n rebuilt past c ++ [c.message]) := by
  cases hitem : c.message.isItem with
  | false =>
    have hsame : batchAfter n rebuilt (past ++ [c]) = batchAfter n rebuilt past := by
      simp [batchAfter, counts, feedsOf, itemsFrom, items_snoc, hitem]
    simp [push_of_not_isItem _ hitem, hsame, markBefore, hitem]
  | true =>
    have hid : c.message.batch = n := by simpa [goesOn, hitem] using hc
    have hbatchOf : batchOf ⟨some (batchAfter n rebuilt past)⟩ c = batchAfter n rebuilt past := by
      simp [batchOf, batchAfter, hid]
    have hends : endsBefore ⟨some (batchAfter n rebuilt past)⟩ c = [] := by
      simp [endsBefore, batchAfter, hid]
    simp only [push, hitem, if_true, hbatchOf, hends, List.nil_append, marks_batchAfter _ _ _ hitem,
      add_batchAfter _ _ _ hitem]

theorem pushAll_goesOn {n : BatchId} {cs : List Captured} (hcs : ∀ c ∈ cs, goesOn n c)
    (rebuilt : Bool) (past : List Captured) :
    Framer.pushAll ⟨some (batchAfter n rebuilt past)⟩ cs =
      (⟨some (batchAfter n rebuilt (past ++ cs))⟩, marked n rebuilt past cs) := by
  induction cs generalizing past with
  | nil => simp [pushAll, marked]
  | cons c cs ih =>
    have hpush := push_goesOn (hcs c (List.mem_cons_self ..)) rebuilt past
    have hrest := ih (fun d hd => hcs d (List.mem_cons_of_mem _ hd)) (past ++ [c])
    simp only [pushAll, hpush, hrest, marked, List.append_assoc, List.singleton_append]

/-- An item of another id shuts the open batch, and is then the first item of a framer that has
none open. -/
theorem push_of_other {fr : Framer} {c : Captured} (hc : c.message.isItem)
    (hfr : ∀ o, fr.opened = some o → o.batch ≠ c.message.batch) :
    fr.push c = ((fr.shut.1.push c).1, fr.shut.2 ++ (fr.shut.1.push c).2) := by
  cases ho : fr.opened with
  | none =>
    obtain ⟨o⟩ := fr
    cases ho
    rfl
  | some o => simp [push, hc, batchOf, endsBefore, shut, close, ho, hfr o ho]

theorem push_first_item {c : Captured} (hc : c.message.isItem) :
    Framer.push {} c =
      Framer.push ⟨some (batchAfter c.message.batch (c.capture = .snapshot) [])⟩ c := by
  simp [push, hc, batchOf, endsBefore, batchAfter, counts, feedsOf, items, timeOf]

theorem pushAll_run {fr : Framer} {c : Captured} (hc : c.message.isItem) (cs : List Captured)
    (hfr : ∀ o, fr.opened = some o → o.batch ≠ c.message.batch) :
    let r := runFrom c cs
    fr.pushAll r =
      (⟨some (batchAfter (idOf r) (isRebuilt r) r)⟩,
        fr.close ++ marked (idOf r) (isRebuilt r) [] r) := by
  intro r
  let new : OpenBatch := batchAfter (idOf r) (isRebuilt r) []
  have hgoesOn : ∀ d ∈ r, goesOn (idOf r) d :=
    List.forall_mem_cons.mpr ⟨by simp [goesOn, idOf, r, runFrom], fun d => List.mem_takeWhile_imp⟩
  have hrun : Framer.pushAll ⟨some new⟩ r = _ := pushAll_goesOn hgoesOn (isRebuilt r) []
  have hnew : Framer.push {} c = Framer.push ⟨some new⟩ c := push_first_item hc
  have hcut : fr.pushAll r =
      ((Framer.pushAll ⟨some new⟩ r).1, fr.close ++ (Framer.pushAll ⟨some new⟩ r).2) := by
    simp only [r, runFrom, pushAll, push_of_other hc hfr, shut, hnew, List.append_assoc]
  rw [hcut, hrun]
  rfl

/-! ## Framing a session -/

theorem close_pushAll_runs {cs : List Captured} (hcs : ∀ c ∈ cs.head?, c.message.isItem)
    (fr : Framer) (hfr : ∀ o, fr.opened = some o → ∀ c ∈ cs.head?, o.batch ≠ c.message.batch) :
    (fr.pushAll cs).2 ++ (fr.pushAll cs).1.close = fr.close ++ (runs cs).flatMap written := by
  fun_induction runs cs generalizing fr with
  | case1 => simp [pushAll]
  | case2 c cs ih =>
    have hrun := pushAll_run (hcs c rfl) cs fun o ho => hfr o ho c rfl
    have hother : ∀ o, (fr.pushAll (runFrom c cs)).1.opened = some o →
        ∀ d ∈ (afterRun c cs).head?, o.batch ≠ d.message.batch := by
      intro o ho d hd
      rw [hrun] at ho
      cases ho
      exact (head?_afterRun d hd).2.symm
    have hrest := ih (fun d hd => (head?_afterRun d hd).1) _ hother
    rw [← runFrom_append_afterRun c cs, pushAll_append, List.append_assoc, hrest, hrun]
    simp [close, ends_batchAfter, written]

theorem pushAll_lead (fr : Framer) (cs : List Captured) :
    fr.pushAll (lead cs) = (fr, (lead cs).map (·.message)) := by
  have hlead := not_isItem_lead cs
  revert hlead
  induction lead cs with
  | nil => exact fun _ => rfl
  | cons c ds ih =>
    intro hlead
    rw [pushAll, push_of_not_isItem fr (hlead c (List.mem_cons_self ..))]
    simp only [ih fun d hd => hlead d (List.mem_cons_of_mem _ hd)]
    rfl

/-- What passes between the items leaves no trace in a framer. -/
theorem pushAll_items (fr : Framer) (cs : List Captured) :
    (fr.pushAll (items cs)).1 = (fr.pushAll cs).1 := by
  induction cs generalizing fr with
  | nil => rfl
  | cons c cs ih =>
    cases hitem : c.message.isItem with
    | false =>
      have hskip : items (c :: cs) = items cs := by simp [items, hitem]
      rw [hskip, ih]
      simp [pushAll, push_of_not_isItem fr hitem]
    | true =>
      have hkeep : items (c :: cs) = c :: items cs := by simp [items, hitem]
      rw [hkeep, pushAll, pushAll, ih]

theorem count_of_mem_endsOf {r : List Captured} {e : BatchEnd} (he : .batchEnd e ∈ endsOf r)
    (hsmall : (itemsFrom e.feed r).length < UInt32.size) :
    e.count.toNat = (itemsFrom e.feed r).length := by
  obtain ⟨f, _, hf⟩ := List.mem_map.mp he
  obtain rfl := (Message.batchEnd.inj hf).symm
  exact UInt32.toNat_ofNat_of_lt' hsmall

/-- A framer writes a session down in its order: what leads up to the first item as it is, and then
each run with its marks and its ends, which count the items as long as the numbers fit. What is no
item passes and leaves the framer as it was, and a framer that has been shut writes the next session
like a new one. -/
theorem frame_eq_written (cs : List Captured) :
    frame cs = (lead cs).map (·.message) ++ (runs (afterLead cs)).flatMap written ∧
      Cut cs (lead cs) (runs (afterLead cs)) ∧
      (∀ r ∈ runs (afterLead cs), ∀ e, .batchEnd e ∈ endsOf r →
        (itemsFrom e.feed r).length < UInt32.size → e.count.toNat = (itemsFrom e.feed r).length) ∧
      ∀ fr : Framer,
        (∀ c, c.message.isItem = false → fr.push c = (fr, [c.message])) ∧
          (fr.pushAll (items cs)).1 = (fr.pushAll cs).1 ∧
          let next := fr.shut.1.pushAll cs
          fr.shut.1.close = [] ∧ next.2 ++ next.1.shut.2 = frame cs := by
  refine ⟨?_, cut_runs cs, fun r _ e => count_of_mem_endsOf, fun fr => ⟨?_, ?_, rfl, rfl⟩⟩
  · have hruns := close_pushAll_runs (head?_afterLead cs) {} fun o ho => by cases ho
    conv => lhs; rw [frame, ← lead_append_afterLead cs, pushAll_append, pushAll_lead]
    rw [List.append_assoc, hruns]
    rfl
  · exact fun c => push_of_not_isItem fr
  · exact pushAll_items fr cs

/-- Batch 1 is a snapshot of two feeds, and an end of batch 7 was stored in its midst. -/
example :
    let item (feed : Feed) (n : UInt64) : Message := .quote ⟨feed, ⟨"a"⟩, ⟨100⟩, ⟨1⟩, .bid, ⟨n⟩, 9⟩
    let one : Feed := ⟨"XYZ", 1⟩
    let two : Feed := ⟨"XYZ", 2⟩
    let end₇ : Message := .batchEnd ⟨one, ⟨7⟩, 0, 5⟩
    frame [⟨item one 1, .snapshot⟩, ⟨end₇, .snapshot⟩, ⟨item two 1, .incremental⟩,
        ⟨item one 1, .incremental⟩, ⟨item two 2, .incremental⟩] =
      [.rebuild ⟨one, ⟨1⟩⟩, item one 1, end₇, .rebuild ⟨two, ⟨1⟩⟩, item two 1, item one 1,
        .batchEnd ⟨one, ⟨1⟩, 2, 9⟩, .batchEnd ⟨two, ⟨1⟩, 1, 9⟩, item two 2,
        .batchEnd ⟨two, ⟨2⟩, 1, 9⟩] := by
  decide

end QuoteBoard.Framer
