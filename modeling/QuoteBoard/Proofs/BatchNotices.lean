import QuoteBoard.Cache
import QuoteBoard.Proofs.Book
import QuoteBoard.Proofs.Replica
import QuoteBoard.Proofs.Sheet

/-!
# What a cache tells its listeners

A cache that takes the messages of its feed tells its listeners nothing until a batch ends. What it
tells them then depends on the batch alone: whether a message of it changed the sheet that it found
(`Cache.Touched`), whether it has a rebuild mark (`Message.marked`), and what its end counts. So no
change is left over for a later batch. `Sheet.Heeds` says what a message can do to a sheet,
`Reports` what every message keeps, and the main statement is `notices_of_batches`.
-/

namespace QuoteBoard

theorem snoc_eq_append_cons {α : Type} {as l r : List α} {a b : α} (h : as ++ [a] = l ++ b :: r) :
    l = as ∧ b = a ∧ r = [] ∨ ∃ r', r = r' ++ [a] ∧ as = l ++ b :: r' := by
  rcases List.eq_nil_or_concat r with rfl | ⟨r', c, rfl⟩
  · obtain ⟨hl, hb⟩ := List.append_inj' h rfl
    exact Or.inl ⟨hl.symm, (List.singleton_inj.mp hb).symm, rfl⟩
  · rw [List.concat_eq_append] at h ⊢
    have h : as ++ [a] = (l ++ b :: r') ++ [c] := by simpa using h
    obtain ⟨hl, hc⟩ := List.append_inj' h rfl
    rw [List.singleton_inj.mp hc]
    exact Or.inr ⟨r', rfl, hl⟩

namespace Message

def marked (ms : List Message) : Bool := (openBatch ms).any isRebuild

theorem plain_of_isItem {m : Message} (h : m.isItem) : m.isEnd = false ∧ m.isRebuild = false := by
  cases m <;> first | exact ⟨rfl, rfl⟩ | cases h

theorem marked_snoc (ms : List Message) (m : Message) :
    marked (ms ++ [m]) = (!m.isEnd && (marked ms || m.isRebuild)) := by
  unfold marked
  rw [openBatch_snoc]
  cases m.isEnd <;> simp

end Message

open Message

/-! ## What a message does to a sheet -/

namespace Sheet

/-- A message changes what the sheet holds: a quote unless only trades are kept, a withdrawal when
its item is held, and a trade. Those of the other side pass by. -/
def Mutates (x : Sheet) : Message → Prop
  | .quote q => q.side = x.side ∧ x.policy ≠ .tradeOnly
  | .withdrawal w => w.side = x.side ∧ ∃ l ∈ x.book.levels, l.item = w.item
  | .trade _ => True
  | _ => False

/-- What a message of its feed makes of a sheet, whatever the listeners answer. -/
def heed (x : Sheet) : Message → Sheet
  | .quote q => if q.side = x.side then (x.quote q).1 else x
  | .withdrawal w => if w.side = x.side then (x.withdraw w).1 else x
  | .trade t => (x.tradeDone t).1
  | .rebuild _ => x.clear.markRebuilt
  | .batchEnd e => if e.closes x.feed then (x.settle e.batch e.time).1 else x

inductive Heeds (x : Sheet) : Message → Sheet → Prop where
  | idle {m : Message} (hitem : m.isItem) (hm : ¬ x.Mutates m) : Heeds x m x
  | change {m : Message} (hitem : m.isItem) (hm : x.Mutates m) {b : Book} (hb : b.Coherent)
    (hp : b.policy = x.policy) (t : Timestamp) (last : Option LastTrade) :
    Heeds x m { x.touch b t with trade := last }
  | rebuild (r : Rebuild) : Heeds x (.rebuild r) x.clear.markRebuilt
  | settle (e : BatchEnd) : Heeds x (.batchEnd e) (x.settle e.batch e.time).1

variable {x : Sheet}

theorem quote_eq {q : Quote} (h : q.feed = x.feed ∧ q.side = x.side) :
    (x.quote q).1 =
      if (x.book.quote q).2 = .applied then x.touch (x.book.quote q).1 q.time else x := by
  simp only [Sheet.quote, refusal?_eq_none.mpr h]
  rcases x.book.quote q with ⟨b, e⟩
  cases e <;> rfl

theorem withdraw_eq {w : Withdrawal} (h : w.feed = x.feed ∧ w.side = x.side) :
    (x.withdraw w).1 =
      if (x.book.remove w.item).2 = .applied then x.touch (x.book.remove w.item).1 w.time else x := by
  simp only [Sheet.withdraw, refusal?_eq_none.mpr h]
  rcases x.book.remove w.item with ⟨b, e⟩
  cases e <;> rfl

theorem heeds_quote (hx : x.book.Coherent) {q : Quote} (hq : q.feed = x.feed) :
    x.Heeds (.quote q) (x.heed (.quote q)) := by
  have hmutates : x.Mutates (.quote q) ↔ q.side = x.side ∧ (x.book.quote q).2 = .applied :=
    and_congr_right fun _ => (Book.quote_applied_iff x.book q).symm
  by_cases hs : q.side = x.side
  · rw [heed, if_pos hs, quote_eq ⟨hq, hs⟩]
    split
    · rename_i happlied
      exact .change rfl (hmutates.mpr ⟨hs, happlied⟩) (hx.quote q) (x.book.policy_quote q) q.time x.trade
    · rename_i hidle
      exact .idle rfl fun hm => hidle (hmutates.mp hm).2
  · rw [heed, if_neg hs]
    exact .idle rfl fun hm => hs (hmutates.mp hm).1

theorem heeds_withdrawal (hx : x.book.Coherent) {w : Withdrawal} (hw : w.feed = x.feed) :
    x.Heeds (.withdrawal w) (x.heed (.withdrawal w)) := by
  have hmutates : x.Mutates (.withdrawal w) ↔
      w.side = x.side ∧ (x.book.remove w.item).2 = .applied :=
    and_congr_right fun _ => (Book.remove_applied_iff hx w.item).symm
  by_cases hs : w.side = x.side
  · rw [heed, if_pos hs, withdraw_eq ⟨hw, hs⟩]
    split
    · rename_i happlied
      exact .change rfl (hmutates.mpr ⟨hs, happlied⟩) (hx.remove w.item)
        (x.book.policy_remove w.item) w.time x.trade
    · rename_i hidle
      exact .idle rfl fun hm => hidle (hmutates.mp hm).2
  · rw [heed, if_neg hs]
    exact .idle rfl fun hm => hs (hmutates.mp hm).1

theorem heeds_heed (hx : x.book.Coherent) {m : Message} (hm : m.feed = x.feed) :
    x.Heeds m (x.heed m) := by
  cases m with
  | quote q => exact heeds_quote hx hm
  | withdrawal w => exact heeds_withdrawal hx hm
  | trade t =>
    rw [heed, tradeDone_of_accepted hm]
    exact .change (m := .trade t) rfl trivial hx rfl t.time (some t.last)
  | rebuild r => exact .rebuild r
  | batchEnd e =>
    have hcloses : e.closes x.feed = true := decide_eq_true hm
    rw [heed, if_pos hcloses]
    exact .settle e

theorem settle_of_unmodified (hx : x.modified = false) (b : BatchId) (t : Timestamp) :
    x.settle b t = (x, none) := by
  simp [settle, hx]

theorem settle_of_modified (hx : x.modified = true) (b : BatchId) (t : Timestamp) :
    x.settle b t =
      ({ x with modified := false, rebuilt := false }, some ⟨b, x.rebuilt, t, x.view⟩) := by
  simp [settle, hx]

theorem reading_view (hx : x.book.Coherent) : x.view.reading = x.reading := by
  have hlevel : (fun n => x.view.reading.level n) = x.reading.level := by
    funext n
    exact (View.level_reading_ofLevels x.feed x.side x.book.levels x.trade x.time n).trans
      (Book.level_eq hx n).symm
  have hdepth : x.view.reading.depth = x.reading.depth :=
    (length_rankFrom 0 x.book.levels).trans (Book.depth_eq hx).symm
  show Reading.mk x.feed x.side (fun n => x.view.reading.level n) x.view.levels
    x.view.reading.depth x.trade x.time = x.reading
  rw [hlevel, hdepth]
  rfl

end Sheet

/-! ## Messages one after the other -/

namespace Cache

theorem sheet_consume (c : Cache) (m : Message) : (c.consume m).1.sheet = c.sheet.heed m := by
  cases m with
  | quote q => simp only [consume, Sheet.heed]; split <;> rfl
  | withdrawal w => simp only [consume, Sheet.heed]; split <;> rfl
  | trade t => rfl
  | rebuild r => rfl
  | batchEnd e =>
    simp only [consume, Sheet.heed]
    by_cases he : e.closes c.sheet.feed = true
    · rw [if_pos he, if_pos he]
      split
      · rename_i hidle
        rw [Sheet.settle_of_unmodified hidle.2]
        simp only [noUpdates]
        split <;> rfl
      · rfl
    · rw [if_neg he, if_neg he]

def consumeAll (c : Cache) (ms : List Message) : Cache := ms.foldl (fun c m => (c.consume m).1) c

theorem consumeAll_snoc (c : Cache) (ms : List Message) (m : Message) :
    c.consumeAll (ms ++ [m]) = ((c.consumeAll ms).consume m).1 := by
  simp [consumeAll]

/-- A message of the open batch changed the sheet that it found. -/
def Touched (c : Cache) (ms : List Message) : Prop :=
  ∃ pre m post, ms = pre ++ m :: post ∧ (∀ y ∈ m :: post, y.isEnd = false) ∧
    (c.consumeAll pre).sheet.Mutates m

theorem not_touched_nil (c : Cache) : ¬ c.Touched [] := by
  rintro ⟨pre, m, post, h, _⟩
  cases pre <;> cases h

theorem touched_snoc (c : Cache) (ms : List Message) (m : Message) :
    c.Touched (ms ++ [m]) ↔
      m.isEnd = false ∧ (c.Touched ms ∨ (c.consumeAll ms).sheet.Mutates m) := by
  constructor
  · rintro ⟨pre, y, post, heq, hopen, hy⟩
    obtain ⟨rfl, rfl, rfl⟩ | ⟨post', rfl, rfl⟩ := snoc_eq_append_cons heq
    · exact ⟨hopen y (List.mem_singleton_self y), Or.inr hy⟩
    · refine ⟨hopen m (by simp), Or.inl ⟨pre, y, post', rfl, fun z hz => hopen z ?_, hy⟩⟩
      exact List.mem_append_left [m] hz
  · rintro ⟨hend, ⟨pre, y, post, rfl, hopen, hy⟩ | hm⟩
    · refine ⟨pre, y, post ++ [m], by simp, ?_, hy⟩
      intro z hz
      rcases List.mem_append.mp (show z ∈ (y :: post) ++ [m] from hz) with hz | hz
      · exact hopen z hz
      · rw [List.mem_singleton.mp hz]
        exact hend
    · exact ⟨ms, m, [], rfl, by simpa using hend, hm⟩

end Cache

/-! ## What every message keeps -/

/-- A sheet says of the messages since the last end whether they changed it and whether they had a
rebuild mark. -/
structure Reports (p : Policy) (f : Feed) (s : Side) (touched : Prop) (marked : Bool) (x : Sheet) :
    Prop where
  feed : x.feed = f
  side : x.side = s
  policy : x.policy = p
  coherent : x.book.Coherent
  modified : x.modified = true ↔ touched ∨ marked = true
  rebuilt : x.rebuilt = marked

section
variable {p : Policy} {f : Feed} {s : Side}

theorem reports_empty : Reports p f s False false (.empty p f s) where
  feed := rfl
  side := rfl
  policy := Book.policy_empty p s
  coherent := Book.coherent_empty p s
  modified := by simp [Sheet.empty]
  rebuilt := rfl

theorem Reports.heeds {touched : Prop} {mark : Bool} {x x' : Sheet}
    (h : Reports p f s touched mark x) {m : Message} (hm : x.Heeds m x') :
    Reports p f s (m.isEnd = false ∧ (touched ∨ x.Mutates m))
      (!m.isEnd && (mark || m.isRebuild)) x' := by
  cases hm with
  | idle hitem hm =>
    have hplain := plain_of_isItem hitem
    refine ⟨h.feed, h.side, h.policy, h.coherent, ?_, ?_⟩
    · simpa [hplain, hm] using h.modified
    · simpa [hplain] using h.rebuilt
  | change hitem hm hb hp t last =>
    have hplain := plain_of_isItem hitem
    refine ⟨h.feed, h.side, hp.trans h.policy, hb, ?_, ?_⟩
    · simp [Sheet.touch, hplain, hm]
    · simpa [Sheet.touch, hplain] using h.rebuilt
  | rebuild r =>
    refine ⟨h.feed, h.side, (Book.policy_clear x.book).trans h.policy, Book.coherent_clear h.coherent,
      ?_, ?_⟩
    · simp [Sheet.clear, Sheet.markRebuilt, isEnd, isRebuild]
    · simp [Sheet.markRebuilt, isEnd, isRebuild]
  | settle e =>
    cases hmod : x.modified with
    | true =>
      rw [Sheet.settle_of_modified hmod]
      exact ⟨h.feed, h.side, h.policy, h.coherent, by simp [isEnd], rfl⟩
    | false =>
      have hmark : mark = false := by
        have := mt h.modified.mpr (by simp [hmod])
        simpa using fun hmark => this (Or.inr hmark)
      rw [Sheet.settle_of_unmodified hmod]
      exact ⟨h.feed, h.side, h.policy, h.coherent, by simp [hmod, isEnd], by simp [h.rebuilt, hmark, isEnd]⟩

theorem reports_consumeAll (ls : List Listener) {ms : List Message} (hms : ∀ m ∈ ms, m.feed = f) :
    let c : Cache := ⟨.empty p f s, ls⟩
    Reports p f s (c.Touched ms) (marked ms) (c.consumeAll ms).sheet := by
  intro c
  induction ms using List.reverseRecOn with
  | nil =>
    have htouched : c.Touched [] = False := eq_false c.not_touched_nil
    rw [htouched]
    exact reports_empty
  | append_singleton ms m ih =>
    have h := ih fun y hy => hms y (List.mem_append_left _ hy)
    have hm : m.feed = (c.consumeAll ms).sheet.feed :=
      (hms m (List.mem_append_right _ (List.mem_singleton_self m))).trans h.feed.symm
    rw [Cache.consumeAll_snoc, Cache.sheet_consume, marked_snoc, propext (c.touched_snoc ms m)]
    exact h.heeds (Sheet.heeds_heed h.coherent hm)

end

/-! ## Notices -/

def Listener.NeverFails (l : Listener) : Prop := ∀ heard n, l.answer heard n = none

def CacheEvent.notice? : CacheEvent → Option (Nat × Notice)
  | told l n => some (l, n)
  | _ => none

namespace Cache

def notices (es : List CacheEvent) : List (Nat × Notice) := es.filterMap CacheEvent.notice?

theorem notices_append (es fs : List CacheEvent) : notices (es ++ fs) = notices es ++ notices fs :=
  List.filterMap_append

theorem notices_map_logged (es : List LogEntry) : notices (es.map .logged) = [] := by
  rw [notices, List.filterMap_map]
  exact List.filterMap_eq_nil_iff.mpr fun _ _ => rfl

/-- Notices to `k` listeners in their order, each to all of them before the next one. -/
def toEach (k : Nat) (ns : List Notice) : List (Nat × Notice) :=
  ns.flatMap fun n => (List.range k).map (·, n)

variable {ls : List Listener}

theorem tell_of_neverFails (hls : ∀ l ∈ ls, l.NeverFails) (n : Notice) (i : Nat) :
    (tell n i ls).1 = ls.map (·.hear n) ∧
      notices (tell n i ls).2.1 = (List.range' i ls.length).map (·, n) ∧
      (tell n i ls).2.2 = none := by
  induction ls generalizing i with
  | nil => exact ⟨rfl, rfl, rfl⟩
  | cons l ls ih =>
    obtain ⟨hheard, htold, hok⟩ := ih (fun x hx => hls x (List.mem_cons_of_mem _ hx)) (i + 1)
    have hreply : l.reply n = none := hls l (List.mem_cons_self ..) l.heard n
    simp only [tell, hreply]
    refine ⟨by rw [hheard]; rfl, ?_, hok⟩
    rw [List.length_cons, List.range'_succ, List.map_cons, ← htold]
    rfl

theorem notices_tellAll (ls : List Listener) (n : Notice) (i : Nat) :
    notices (tellAll n i ls).2 = (List.range' i ls.length).map (·, n) := by
  induction ls generalizing i with
  | nil => rfl
  | cons l ls ih =>
    rw [List.length_cons, List.range'_succ, List.map_cons, ← ih]
    rfl

theorem announce_of_neverFails (hls : ∀ l ∈ ls, l.NeverFails) (ns : List Notice) :
    notices (announce ns ls).2.1 = toEach ls.length ns ∧ (announce ns ls).2.2 = none := by
  induction ns generalizing ls with
  | nil => exact ⟨rfl, rfl⟩
  | cons n ns ih =>
    obtain ⟨hheard, htold, hok⟩ := tell_of_neverFails hls n 0
    have hls' : ∀ l ∈ ls.map (·.hear n), l.NeverFails := by
      intro l' hl'
      obtain ⟨l, hl, rfl⟩ := List.mem_map.mp hl'
      exact hls l hl
    obtain ⟨hrest, hok'⟩ := ih hls'
    rw [← hheard] at hrest hok'
    have hannounce : announce (n :: ns) ls =
        ((announce ns (tell n 0 ls).1).1,
          (tell n 0 ls).2.1 ++ (announce ns (tell n 0 ls).1).2.1,
          (announce ns (tell n 0 ls).1).2.2) := by
      rw [announce]
      split
      · rename_i e htell
        rw [htell] at hok
        cases hok
      · rename_i htell
        rw [htell]
    rw [hannounce]
    refine ⟨?_, hok'⟩
    rw [notices_append, htold, hrest, hheard, List.length_map, ← List.range_eq_range']
    rfl

theorem commit_of_neverFails {c : Cache} (hc : ∀ l ∈ c.listeners, l.NeverFails) (b : BatchId)
    (t : Timestamp) :
    (c.commit b t).2.2 = none ∧
      notices (c.commit b t).2.1 =
        toEach c.listeners.length ((c.sheet.settle b t).2.toList.map .snapshot ++
          [.ended (c.sheet.settle b t).1 b (c.sheet.settle b t).2.isSome]) := by
  obtain ⟨htold, hok⟩ := announce_of_neverFails hc ((c.sheet.settle b t).2.toList.map .snapshot ++
    [.ended (c.sheet.settle b t).1 b (c.sheet.settle b t).2.isSome])
  simp only [commit, hok]
  refine ⟨rfl, ?_⟩
  rw [notices_append, notices_append, htold]
  exact (List.append_nil _).trans (List.append_nil _)

/-! ## Listeners keep their answers -/

theorem answers_tell (n : Notice) (i : Nat) (ls : List Listener) :
    (tell n i ls).1.map Listener.answer = ls.map Listener.answer := by
  induction ls generalizing i with
  | nil => rfl
  | cons l ls ih =>
    simp only [tell]
    cases l.reply n with
    | some e => rfl
    | none => simp [ih, Listener.hear]

theorem answers_tellAll (n : Notice) (i : Nat) (ls : List Listener) :
    (tellAll n i ls).1.map Listener.answer = ls.map Listener.answer := by
  induction ls generalizing i with
  | nil => rfl
  | cons l ls ih => simp [tellAll, ih, Listener.hear]

theorem answers_announce (ns : List Notice) (ls : List Listener) :
    (announce ns ls).1.map Listener.answer = ls.map Listener.answer := by
  induction ns generalizing ls with
  | nil => rfl
  | cons n ns ih =>
    have htell := answers_tell n 0 ls
    simp only [announce]
    split
    · rename_i h
      rw [h] at htell
      exact htell
    · rename_i h
      rw [h] at htell
      exact (ih _).trans htell

theorem answers_consume (c : Cache) (m : Message) :
    (c.consume m).1.listeners.map Listener.answer = c.listeners.map Listener.answer := by
  cases m with
  | quote q => simp only [consume]; split <;> rfl
  | withdrawal w => simp only [consume]; split <;> rfl
  | trade t => rfl
  | rebuild r => rfl
  | batchEnd e =>
    simp only [consume]
    split
    · split
      · simp only [noUpdates]
        split <;> exact answers_tellAll _ 0 c.listeners
      · exact answers_announce _ c.listeners
    · rfl

theorem answers_consumeAll (c : Cache) (ms : List Message) :
    (c.consumeAll ms).listeners.map Listener.answer = c.listeners.map Listener.answer := by
  induction ms using List.reverseRecOn with
  | nil => rfl
  | append_singleton ms m ih => rw [consumeAll_snoc, answers_consume, ih]

theorem neverFails_consumeAll {c : Cache} (hc : ∀ l ∈ c.listeners, l.NeverFails) (ms : List Message) :
    ∀ l ∈ (c.consumeAll ms).listeners, l.NeverFails := by
  intro l hl
  have hanswer : l.answer ∈ c.listeners.map Listener.answer := by
    rw [← answers_consumeAll c ms]
    exact List.mem_map_of_mem hl
  obtain ⟨l₀, hl₀, heq⟩ := List.mem_map.mp hanswer
  intro heard n
  rw [← heq]
  exact hc l₀ hl₀ heard n

theorem notices_consume_of_not_isEnd (c : Cache) {m : Message} (hm : m.isEnd = false) :
    notices (c.consume m).2.1 = [] := by
  cases m with
  | quote q =>
    simp only [consume]
    split
    · exact notices_map_logged _
    · rfl
  | withdrawal w =>
    simp only [consume]
    split
    · exact notices_map_logged _
    · rfl
  | trade t => exact notices_map_logged _
  | rebuild r => rfl
  | batchEnd e => cases hm

theorem notices_consume_batchEnd {c : Cache} (hc : ∀ l ∈ c.listeners, l.NeverFails) {e : BatchEnd}
    (he : e.closes c.sheet.feed = true) :
    let r := c.consume (.batchEnd e)
    r.2.2 = none ∧
      notices r.2.1 = toEach c.listeners.length
        (if c.sheet.modified then
          [.snapshot ⟨e.batch, c.sheet.rebuilt, e.time, c.sheet.view⟩, .ended r.1.sheet e.batch true]
        else if e.count = 0 then [.untouched e.batch]
        else [.ended r.1.sheet e.batch false]) := by
  intro r
  obtain ⟨hok, htold⟩ := commit_of_neverFails hc e.batch e.time
  by_cases hidle : e.count = 0 ∧ c.sheet.modified = false
  · have hr : r = ((c.noUpdates e).1, (c.noUpdates e).2, none) := by
      simp only [r, consume, he, hidle, if_true, and_self]
    refine ⟨by rw [hr], ?_⟩
    rw [hr, if_neg (by simp [hidle.2]), if_pos hidle.1]
    simp only [noUpdates, he, if_true]
    rw [notices_append, notices_tellAll, ← List.range_eq_range']
    rfl
  · have hr : r = c.commit e.batch e.time := by
      simp only [r, consume, he, if_true]
      rw [if_neg hidle]
    have hsheet : r.1.sheet = (c.sheet.settle e.batch e.time).1 := by rw [hr]; rfl
    rw [← hr] at hok htold
    refine ⟨hok, htold.trans ?_⟩
    rw [hsheet]
    cases hmod : c.sheet.modified with
    | true =>
      rw [Sheet.settle_of_modified hmod]
      rfl
    | false =>
      have hcount : e.count ≠ 0 := fun hcount => hidle ⟨hcount, hmod⟩
      rw [Sheet.settle_of_unmodified hmod, if_neg (by simp), if_neg hcount]
      rfl

/-- A cache of any policy that takes messages of its feed, with listeners that never fail. Before a
batch ends nobody is told anything. Its end never fails, leaves the sheet unmodified, and tells each
listener: when a message of the batch changed the sheet or marked a rebuild, a snapshot of all that
the cache shows, full when there was a mark, and then the end; otherwise the end alone, or, when it
counts no items, that nothing was touched. -/
theorem notices_of_batches {p : Policy} {f : Feed} {s : Side} {ls : List Listener}
    (hls : ∀ l ∈ ls, l.NeverFails) {ms : List Message} {m : Message}
    (hms : ∀ x ∈ ms ++ [m], x.feed = f) :
    let c₀ : Cache := ⟨.empty p f s, ls⟩
    let c := c₀.consumeAll ms
    let r := c.consume m
    (m.isEnd = false →
      notices r.2.1 = [] ∧
        (r.1.sheet.modified = true ↔
          c.sheet.modified = true ∨ c.sheet.Mutates m ∨ m.isRebuild = true)) ∧
      ∀ e, m = .batchEnd e →
        r.2.2 = none ∧ r.1.sheet.modified = false ∧ c.sheet.view.reading = c.sheet.reading ∧
          (c₀.Touched ms ∨ marked ms = true →
            notices r.2.1 = toEach ls.length
              [.snapshot ⟨e.batch, marked ms, e.time, c.sheet.view⟩, .ended r.1.sheet e.batch true]) ∧
          (¬ (c₀.Touched ms ∨ marked ms = true) → e.count ≠ 0 →
            notices r.2.1 = toEach ls.length [.ended r.1.sheet e.batch false]) ∧
          (¬ (c₀.Touched ms ∨ marked ms = true) → e.count = 0 →
            notices r.2.1 = toEach ls.length [.untouched e.batch]) := by
  intro c₀ c r
  have hbefore : ∀ x ∈ ms, x.feed = f := fun x hx => hms x (List.mem_append_left _ hx)
  have hfeed : m.feed = f := hms m (List.mem_append_right _ (List.mem_singleton_self m))
  have h : Reports p f s (c₀.Touched ms) (marked ms) c.sheet := reports_consumeAll ls hbefore
  -- what they have heard does not change how listeners answer
  have hsteady : ∀ l ∈ c.listeners, l.NeverFails := neverFails_consumeAll (c := c₀) hls ms
  have hlength : c.listeners.length = ls.length := by
    have hanswers := congrArg List.length (answers_consumeAll c₀ ms)
    simpa using hanswers
  have hnext := h.heeds (Sheet.heeds_heed h.coherent (hfeed.trans h.feed.symm))
  rw [← sheet_consume] at hnext
  refine ⟨fun hopen => ⟨notices_consume_of_not_isEnd c hopen, ?_⟩, ?_⟩
  · rw [hnext.modified, h.modified, hopen]
    simp only [true_and, Bool.not_false, Bool.true_and, Bool.or_eq_true]
    exact ⟨by tauto, by tauto⟩
  rintro e rfl
  have hdone : r.1.sheet.modified = false := by
    have := mt hnext.modified.mp (by simp [isEnd])
    simpa using this
  have hcloses : e.closes c.sheet.feed = true := decide_eq_true (hfeed.trans h.feed.symm)
  obtain ⟨hok, htold⟩ := notices_consume_batchEnd hsteady hcloses
  rw [hlength] at htold
  refine ⟨hok, hdone, Sheet.reading_view h.coherent, fun hyes => ?_, fun hno hcount => ?_,
    fun hno hcount => ?_⟩
  · rw [htold, if_pos (h.modified.mpr hyes), h.rebuilt]
  · rw [htold, if_neg (mt h.modified.mp hno), if_neg hcount]
  · rw [htold, if_neg (mt h.modified.mp hno), if_pos hcount]

def sampleListener : Listener := ⟨fun _ _ => none, []⟩

def sampleTaken : List Message :=
  let f : Feed := ⟨"XYZ", 1⟩
  [.quote ⟨f, ⟨"a"⟩, ⟨100⟩, ⟨1⟩, .bid, ⟨1⟩, 1⟩, .batchEnd ⟨f, ⟨1⟩, 1, 1⟩,
    .trade ⟨f, ⟨101⟩, ⟨2⟩, .offer, ⟨2⟩, 2⟩]

theorem notices_of_batches_sample :
    let c₀ : Cache := ⟨.empty .topOfBook ⟨"XYZ", 1⟩ .bid, [sampleListener]⟩
    let c := c₀.consumeAll sampleTaken
    let r := c.consume (.batchEnd ⟨⟨"XYZ", 1⟩, ⟨2⟩, 0, 2⟩)
    (∀ l ∈ [sampleListener], l.NeverFails) ∧ c₀.Touched sampleTaken ∧ r.2.2 = none ∧
      notices r.2.1 =
        [(0, .snapshot ⟨⟨2⟩, false, 2, c.sheet.view⟩), (0, .ended r.1.sheet ⟨2⟩ true)] := by
  intro c₀ c r
  have hls : ∀ l ∈ [sampleListener], l.NeverFails := by
    intro l hl heard n
    rw [List.mem_singleton.mp hl]
    rfl
  have htouched : c₀.Touched sampleTaken :=
    ⟨sampleTaken.take 2, sampleTaken[2], [], rfl, by decide, trivial⟩
  have htaken : ∀ x ∈ sampleTaken ++ [.batchEnd ⟨⟨"XYZ", 1⟩, ⟨2⟩, 0, 2⟩], x.feed = ⟨"XYZ", 1⟩ := by
    decide
  obtain ⟨_, hend⟩ := notices_of_batches (p := .topOfBook) (s := .bid) hls htaken
  obtain ⟨hok, _, _, htold, _⟩ := hend _ rfl
  exact ⟨hls, htouched, hok, htold (Or.inl htouched)⟩

end Cache

end QuoteBoard
