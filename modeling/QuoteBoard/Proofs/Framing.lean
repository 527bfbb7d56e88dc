import Mathlib.Data.List.SplitBy
import QuoteBoard.Proofs.BatchNotices
import QuoteBoard.Proofs.Fidelity

/-!
# Framing the items of several feeds

A framer has one batch open for all feeds together. So it cuts a session into stretches of items
with one id, and a feed gets a batch for each stretch that has items of it, with a mark when the
stretch begins with a snapshot (`frame_stretches`). These are the batches of the feed, one for each
id, exactly when the other feeds leave them whole (`oneBatchEach_iff`); `not_oneBatchEach` shows
feeds that do not.
-/

namespace QuoteBoard

theorem BatchId.lt_of_not_lt {m n : BatchId} (hle : ¬ n < m) (hne : m ≠ n) : m < n := by
  refine UInt64.lt_of_le_of_ne (UInt64.not_lt.mp hle) fun h => hne ?_
  cases m
  cases n
  exact congrArg BatchId.mk h

theorem BatchId.ne_of_lt {m n : BatchId} (hlt : m < n) : m ≠ n := by
  rintro rfl
  exact UInt64.lt_irrefl _ hlt

theorem Capture.eq_of_iff {a b : Capture} (h : a = .snapshot ↔ b = .snapshot) : a = b := by
  revert h
  cases a <;> cases b <;> decide

open Message

namespace Framer

def own (f : Feed) (cs : List Captured) : List Captured := cs.filter (·.message.feed = f)

/-- Items with one id in a row, as long as they go. -/
def stretches (cs : List Captured) : List (List Captured) :=
  cs.splitBy fun c d => c.message.batch == d.message.batch

def idOf (cs : List Captured) : BatchId := (cs.head?.map (·.message.batch)).getD default

def isRebuilt (cs : List Captured) : Bool := cs.head?.any fun c => c.capture = .snapshot

def timeOf (cs : List Captured) : Timestamp := (cs.getLast?.bind (·.message.time?)).getD 0

/-- A batch of a feed, up to its end. -/
def begun (f : Feed) (n : BatchId) (rebuilt : Bool) (cs : List Captured) : List Message :=
  (if rebuilt then [.rebuild ⟨f, n⟩] else []) ++ cs.map (·.message)

def framed (f : Feed) (n : BatchId) (rebuilt : Bool) (cs : List Captured) (t : Timestamp) :
    List Message :=
  begun f n rebuilt cs ++ [.batchEnd ⟨f, n, .ofNat cs.length, t⟩]

/-- What a feed gets of a stretch. -/
def part (f : Feed) (r : List Captured) : List Message :=
  if own f r = [] then [] else framed f (idOf r) (isRebuilt r) (own f r) (timeOf r)

theorem own_append (f : Feed) (cs ds : List Captured) : own f (cs ++ ds) = own f cs ++ own f ds :=
  List.filter_append ..

theorem own_singleton (f : Feed) (c : Captured) :
    own f [c] = if c.message.feed = f then [c] else [] := by
  by_cases hc : c.message.feed = f <;> simp [own, hc]

/-! ## Framing a stretch -/

def tally (f : Feed) : Nat → List (Feed × UInt32)
  | 0 => []
  | k + 1 => [(f, .ofNat (k + 1))]

theorem tally_eq_nil {f : Feed} {k : Nat} : tally f k = [] ↔ k = 0 := by
  cases k <;> simp [tally]

theorem filter_countItem (f g : Feed) {fs : List (Feed × UInt32)} {k : Nat}
    (hfs : fs.filter (·.1 = f) = tally f k) :
    (OpenBatch.countItem g fs).filter (·.1 = f) = tally f (k + if g = f then 1 else 0) := by
  induction fs generalizing k with
  | nil =>
    obtain rfl := tally_eq_nil.mp hfs.symm
    by_cases hg : g = f <;> simp [OpenBatch.countItem, tally, hg]
  | cons x fs ih =>
    by_cases hx : x.1 = f
    · cases k with
      | zero => simp [hx, tally] at hfs
      | succ k =>
        simp only [List.filter_cons, hx, decide_true, if_true, tally, List.cons.injEq] at hfs
        obtain ⟨rfl, hrest⟩ := hfs
        by_cases hg : g = f
        · simp [OpenBatch.countItem, hg, hrest, tally, UInt32.ofNat_add]
        · have hne : ¬ f = g := fun h => hg h.symm
          have hmore := ih (k := 0) hrest
          simp only [hg, if_false, tally] at hmore
          simp [OpenBatch.countItem, hg, hne, hmore, tally]
    · rw [List.filter_cons_of_neg (by simpa using hx)] at hfs
      by_cases hxg : x.1 = g
      · have hg : ¬ g = f := fun h => hx (hxg.trans h)
        simp [OpenBatch.countItem, hxg, hg, hfs]
      · rw [OpenBatch.countItem, if_neg hxg, List.filter_cons_of_neg (by simpa using hx)]
        exact ih hfs

/-- What a feed has of a batch after the items `cs`. -/
def sofar (f : Feed) (n : BatchId) (rebuilt : Bool) (cs : List Captured) : List Message :=
  if own f cs = [] then [] else begun f n rebuilt (own f cs)

/-- The batch that is open after the items `cs` of a stretch. -/
structure Opened (n : BatchId) (rebuilt : Bool) (cs : List Captured) (o : OpenBatch) : Prop where
  batch : o.batch = n
  rebuilt : o.rebuilt = rebuilt
  feeds : ∀ f, o.feeds.filter (·.1 = f) = tally f (own f cs).length
  time : o.time = timeOf cs

section
variable {n : BatchId} {rebuilt : Bool} {cs : List Captured} {o : OpenBatch}

theorem Opened.hasFeed (h : Opened n rebuilt cs o) (f : Feed) :
    o.hasFeed f = decide (own f cs ≠ []) := by
  have hnone : o.hasFeed f = false ↔ own f cs = [] := by
    rw [← List.length_eq_zero_iff, ← tally_eq_nil (f := f), ← h.feeds, List.filter_eq_nil_iff]
    simp [OpenBatch.hasFeed]
  by_cases hown : own f cs = []
  · simp [hnone.mpr hown, hown]
  · simpa [hown] using mt hnone.mp hown

theorem Opened.ends (h : Opened n rebuilt cs o) (f : Feed) :
    o.ends.filter (·.feed = f) =
      if own f cs = [] then [] else [.batchEnd ⟨f, n, .ofNat (own f cs).length, timeOf cs⟩] := by
  have hfilter : o.ends.filter (·.feed = f) =
      (o.feeds.filter (·.1 = f)).map fun g => .batchEnd ⟨g.1, o.batch, g.2, o.time⟩ := by
    rw [OpenBatch.ends, List.filter_map]
    rfl
  rw [hfilter, h.feeds, h.batch, h.time]
  cases own f cs <;> simp [tally]

theorem Opened.add (h : Opened n rebuilt cs o) {c : Captured} (hc : c.message.isItem) :
    Opened n rebuilt (cs ++ [c]) (o.add c.message) where
  batch := h.batch
  rebuilt := h.rebuilt
  feeds f := by
    rw [OpenBatch.add, filter_countItem f c.message.feed (h.feeds f), own_append, own_singleton]
    by_cases hf : c.message.feed = f <;> simp [hf]
  time := by
    obtain ⟨t, ht⟩ := Option.isSome_iff_exists.mp (Message.time?_isSome hc)
    simp [timeOf, OpenBatch.add, ht]

theorem Opened.marks (h : Opened n rebuilt cs o) (f g : Feed) :
    (o.marks g).filter (·.feed = f) =
      if g = f ∧ rebuilt ∧ own f cs = [] then [.rebuild ⟨f, n⟩] else [] := by
  have hfeed : (Message.rebuild ⟨g, n⟩).feed = g := rfl
  rw [OpenBatch.marks, h.rebuilt, h.hasFeed, h.batch]
  by_cases hg : g = f
  · subst hg
    by_cases hown : own g cs = [] <;> cases rebuilt <;> simp [hown, hfeed]
  · by_cases hown : own g cs = [] <;> cases rebuilt <;> simp [hown, hfeed, hg]

theorem Opened.sofar_snoc (h : Opened n rebuilt cs o) (f : Feed) (c : Captured) :
    sofar f n rebuilt (cs ++ [c]) =
      sofar f n rebuilt cs ++ (o.marks c.message.feed ++ [c.message]).filter (·.feed = f) := by
  rw [List.filter_append, h.marks]
  unfold sofar
  rw [own_append, own_singleton]
  by_cases hf : c.message.feed = f
  · by_cases hown : own f cs = []
    · cases rebuilt <;> simp [hf, hown, begun]
    · simp [hf, hown, begun]
  · simp [hf]

theorem Opened.push (h : Opened n rebuilt cs o) {c : Captured} (hitem : c.message.isItem)
    (hid : c.message.batch = n) :
    Framer.push ⟨some o⟩ c = (⟨some (o.add c.message)⟩, o.marks c.message.feed ++ [c.message]) := by
  simp [Framer.push, hitem, batchOf, endsBefore, h.batch, hid]

theorem Opened.pushAll (h : Opened n rebuilt cs o) {ds : List Captured}
    (hds : ∀ d ∈ ds, d.message.isItem ∧ d.message.batch = n) :
    ∃ o', (Framer.pushAll ⟨some o⟩ ds).1 = ⟨some o'⟩ ∧ Opened n rebuilt (cs ++ ds) o' ∧
      ∀ f, sofar f n rebuilt (cs ++ ds) =
        sofar f n rebuilt cs ++ (Framer.pushAll ⟨some o⟩ ds).2.filter (·.feed = f) := by
  induction ds generalizing cs o with
  | nil => exact ⟨o, rfl, by simpa using h, by simp [Framer.pushAll]⟩
  | cons d ds ih =>
    obtain ⟨hitem, hid⟩ := hds d (List.mem_cons_self ..)
    have hpush := h.push hitem hid
    obtain ⟨o', hfst, hopened, hsofar⟩ := ih (h.add hitem) fun x hx => hds x (List.mem_cons_of_mem _ hx)
    refine ⟨o', ?_, by simpa using hopened, fun f => ?_⟩
    · simp only [Framer.pushAll, hpush]
      exact hfst
    · have hsnoc := h.sofar_snoc f d
      have hrest := hsofar f
      rw [hsnoc] at hrest
      simp only [Framer.pushAll, hpush, List.filter_append] at hrest ⊢
      simpa [List.append_assoc] using hrest

end

/-- A stretch after others ends what is open and leaves its own batch open. -/
theorem pushAll_stretch {fr : Framer} {r : List Captured} {n : BatchId} (hr : r ≠ [])
    (hds : ∀ d ∈ r, d.message.isItem ∧ d.message.batch = n)
    (hfr : ∀ o, fr.opened = some o → o.batch ≠ n) :
    ∃ o, (fr.pushAll r).1 = ⟨some o⟩ ∧ Opened n (isRebuilt r) r o ∧
      ∀ f, (fr.pushAll r).2.filter (·.feed = f) =
        fr.close.filter (·.feed = f) ++ sofar f n (isRebuilt r) r := by
  obtain ⟨c, cs, rfl⟩ := List.exists_cons_of_ne_nil hr
  obtain ⟨hitem, hid⟩ := hds c (List.mem_cons_self ..)
  let new : OpenBatch := ⟨n, isRebuilt (c :: cs), [], 0⟩
  have hnew : Opened n (isRebuilt (c :: cs)) [] new := ⟨rfl, rfl, fun _ => rfl, rfl⟩
  have hbatchOf : fr.batchOf c = new := by
    unfold batchOf
    cases ho : fr.opened with
    | none => simp [hid, new, isRebuilt]
    | some o => simp [hid, hfr o ho, new, isRebuilt]
  have hends : fr.endsBefore c = fr.close := by
    unfold endsBefore close
    cases ho : fr.opened with
    | none => rfl
    | some o => simp [hid, hfr o ho]
  have hcut : fr.pushAll (c :: cs) =
      ((pushAll ⟨some new⟩ (c :: cs)).1, fr.close ++ (pushAll ⟨some new⟩ (c :: cs)).2) := by
    simp only [pushAll, hnew.push hitem hid]
    simp [push, hitem, hbatchOf, hends]
  obtain ⟨o, hfst, hopened, hsofar⟩ := hnew.pushAll hds
  rw [hcut]
  refine ⟨o, hfst, hopened, fun f => ?_⟩
  have hall := hsofar f
  rw [List.nil_append] at hall
  rw [List.filter_append, hall]
  simp [sofar, own]

/-! ## Framing a session -/

theorem part_eq (f : Feed) (r : List Captured) :
    part f r = sofar f (idOf r) (isRebuilt r) r ++
      if own f r = [] then [] else [.batchEnd ⟨f, idOf r, .ofNat (own f r).length, timeOf r⟩] := by
  by_cases hown : own f r = [] <;> simp [part, sofar, framed, hown]

theorem mem_stretches {cs r : List Captured} (hr : r ∈ stretches cs) :
    r ≠ [] ∧ (∀ c ∈ r, c.message.batch = idOf r) ∧ ∀ c ∈ r, c ∈ cs := by
  have hne := List.ne_nil_of_mem_splitBy hr
  refine ⟨hne, ?_, fun c hc => ?_⟩
  · have hchain : (r.map (·.message.batch)).IsChain (· = ·) := by
      rw [List.isChain_map]
      exact (List.isChain_of_mem_splitBy hr).imp fun c d h => by simpa using h
    have hsame := List.isChain_iff_pairwise.mp hchain
    obtain ⟨a, l, rfl⟩ := List.exists_cons_of_ne_nil hne
    rw [List.map_cons, List.pairwise_cons] at hsame
    intro c hc
    rcases List.mem_cons.mp hc with rfl | hl
    · rfl
    · exact (hsame.1 _ (List.mem_map_of_mem hl)).symm
  · rw [← List.flatten_splitBy (fun c d : Captured => c.message.batch == d.message.batch) cs]
    exact List.mem_flatten_of_mem hr hc

theorem isChain_stretches (cs : List Captured) :
    (stretches cs).IsChain fun r s => idOf r ≠ idOf s := by
  have h := List.isChain_getLast_head_splitBy
    (fun c d : Captured => c.message.batch == d.message.batch) cs
  refine h.imp_of_mem_imp fun r s hr hs ⟨hne, hne', hcut⟩ => ?_
  rw [← (mem_stretches hr).2.1 _ (List.getLast_mem hne), ← (mem_stretches hs).2.1 _ (List.head_mem hne')]
  simpa using hcut

theorem frame_stretches {cs : List Captured} (hitems : ∀ c ∈ cs, c.message.isItem) (f : Feed) :
    (frame cs).filter (·.feed = f) = (stretches cs).flatMap (part f) := by
  -- with any batch open that is not of the first stretch
  suffices h : ∀ (rs : List (List Captured)) (fr : Framer),
      (∀ r ∈ rs, r ≠ [] ∧ ∀ c ∈ r, c.message.isItem ∧ c.message.batch = idOf r) →
      rs.IsChain (fun r s => idOf r ≠ idOf s) →
      (∀ o r, fr.opened = some o → rs.head? = some r → o.batch ≠ idOf r) →
      ((fr.pushAll rs.flatten).2 ++ (fr.pushAll rs.flatten).1.close).filter (·.feed = f) =
        fr.close.filter (·.feed = f) ++ rs.flatMap (part f) by
    have hall := h (stretches cs) {} (fun r hr => ?_) (isChain_stretches cs) (by intro o r ho; cases ho)
    · rw [stretches, List.flatten_splitBy] at hall
      exact hall
    · obtain ⟨hne, hid, hmem⟩ := mem_stretches hr
      exact ⟨hne, fun c hc => ⟨hitems c (hmem c hc), hid c hc⟩⟩
  intro rs
  induction rs with
  | nil => exact fun fr _ _ _ => by simp [pushAll]
  | cons r rs ih =>
    intro fr hrs hchain hfr
    obtain ⟨hne, hr⟩ := hrs r (List.mem_cons_self ..)
    obtain ⟨hhead, htail⟩ := List.isChain_cons.mp hchain
    obtain ⟨o, hfst, hopened, hout⟩ := pushAll_stretch hne hr fun o ho => hfr o r ho rfl
    have hrest := ih ⟨some o⟩ (fun s hs => hrs s (List.mem_cons_of_mem _ hs)) htail (by
      intro o' s ho hs
      cases ho
      rw [hopened.batch]
      exact hhead s hs)
    rw [List.flatten_cons, pushAll_append, hfst, List.append_assoc, List.filter_append, hout f, hrest,
      List.flatMap_cons, part_eq]
    simp [close, hopened.ends]

/-! ## The batches of a feed -/

def itemsOf (f : Feed) (cs : List Captured) (n : BatchId) : List Captured :=
  (own f cs).filter (·.message.batch = n)

def hasSnapshot (f : Feed) (cs : List Captured) (n : BatchId) : Bool :=
  (itemsOf f cs n).any (·.capture = .snapshot)

/-- The batches of a feed with given ids and times: a mark when the items of the id were captured as
a snapshot, these items, and an end that counts them. -/
def batchesOf (f : Feed) (cs : List Captured) (bs : List (BatchId × Timestamp)) : List Message :=
  bs.flatMap fun b => framed f b.1 (hasSnapshot f cs b.1) (itemsOf f cs b.1) b.2

/-- A feed gets one batch for each id that its items have, in the order of the ids. -/
def OneBatchEach (f : Feed) (cs : List Captured) : Prop :=
  ∃ bs : List (BatchId × Timestamp),
    (bs.map (·.1)).Pairwise (· < ·) ∧
      (∀ n, n ∈ bs.map (·.1) ↔ ∃ c ∈ own f cs, c.message.batch = n) ∧
      (frame cs).filter (·.feed = f) = batchesOf f cs bs

/-- Other feeds leave the batches of a feed whole: the items of one id are in one stretch, and the
item that begins it was captured as they were. -/
structure Undisturbed (f : Feed) (cs : List Captured) : Prop where
  whole : (stretches cs).Pairwise fun r s =>
    ∀ c ∈ own f r, ∀ d ∈ own f s, c.message.batch ≠ d.message.batch
  led : ∀ r ∈ stretches cs, ∀ c ∈ own f r, ∀ d ∈ r.head?, d.capture = c.capture

theorem ends_framed (f : Feed) (n : BatchId) (rebuilt : Bool) {cs : List Captured} (t : Timestamp)
    (hcs : ∀ c ∈ cs, c.message.isItem) :
    ((framed f n rebuilt cs t).filter isEnd).map (·.batch) = [n] ∧
      ((framed f n rebuilt cs t).filter isRebuild).map (·.batch) = if rebuilt then [n] else [] := by
  have hends : (cs.map (·.message)).filter isEnd = [] := by
    rw [List.filter_eq_nil_iff]
    rintro m hm
    obtain ⟨c, hc, rfl⟩ := List.mem_map.mp hm
    simp [(plain_of_isItem (hcs c hc)).1]
  have hmarks : (cs.map (·.message)).filter isRebuild = [] := by
    rw [List.filter_eq_nil_iff]
    rintro m hm
    obtain ⟨c, hc, rfl⟩ := List.mem_map.mp hm
    simp [(plain_of_isItem (hcs c hc)).2]
  simp only [framed, begun, List.filter_append, List.map_append, hends, hmarks]
  cases rebuilt <;> exact ⟨rfl, rfl⟩

theorem ends_batches {α : Type} (f : Feed) (n : α → BatchId) (rebuilt : α → Bool)
    {items : α → List Captured} (t : α → Timestamp) {l : List α}
    (hl : ∀ a ∈ l, ∀ c ∈ items a, c.message.isItem) :
    let ms := l.flatMap fun a => framed f (n a) (rebuilt a) (items a) (t a)
    (ms.filter isEnd).map (·.batch) = l.map n ∧
      (ms.filter isRebuild).map (·.batch) = (l.filter rebuilt).map n := by
  induction l with
  | nil => exact ⟨rfl, rfl⟩
  | cons a l ih =>
    obtain ⟨hends, hmarks⟩ := ih fun b hb => hl b (List.mem_cons_of_mem _ hb)
    obtain ⟨hend, hmark⟩ := ends_framed f (n a) (rebuilt a) (t a)
      (hl a (List.mem_cons_self ..))
    simp only [List.flatMap_cons, List.filter_append, List.map_append, hends, hmarks, hend, hmark]
    cases hr : rebuilt a <;> simp [hr]

section
variable {f : Feed} {cs : List Captured}

theorem mem_own {c : Captured} : c ∈ own f cs ↔ c ∈ cs ∧ c.message.feed = f := by
  simp [own]

theorem ends_batchesOf (hitems : ∀ c ∈ cs, c.message.isItem) (f : Feed)
    (bs : List (BatchId × Timestamp)) :
    ((batchesOf f cs bs).filter isEnd).map (·.batch) = bs.map (·.1) ∧
      ((batchesOf f cs bs).filter isRebuild).map (·.batch) =
        (bs.filter fun b => hasSnapshot f cs b.1).map (·.1) :=
  ends_batches f _ _ _ fun _ _ c hc => hitems c (mem_own.mp (List.mem_filter.mp hc).1).1

theorem own_stretches (f : Feed) (cs : List Captured) : own f cs = (stretches cs).flatMap (own f) := by
  unfold own
  rw [← List.filter_flatMap, List.flatMap_id', stretches, List.flatten_splitBy]

theorem id_of_own {r : List Captured} (hr : r ∈ stretches cs) {c : Captured} (hc : c ∈ own f r) :
    c.message.batch = idOf r := (mem_stretches hr).2.1 c (mem_own.mp hc).1

def touching (f : Feed) (cs : List Captured) : List (List Captured) :=
  (stretches cs).filter (own f · ≠ [])

theorem frame_touching (hitems : ∀ c ∈ cs, c.message.isItem) (f : Feed) :
    (frame cs).filter (·.feed = f) =
      (touching f cs).flatMap fun r => framed f (idOf r) (isRebuilt r) (own f r) (timeOf r) := by
  rw [frame_stretches hitems, touching]
  induction stretches cs with
  | nil => rfl
  | cons r rs ih =>
    rw [List.flatMap_cons, ih]
    by_cases hr : own f r = []
    · rw [part, if_pos hr, List.filter_cons_of_neg (by simp [hr]), List.nil_append]
    · rw [part, if_neg hr, List.filter_cons_of_pos (by simpa using hr), List.flatMap_cons]

theorem mem_touching {r : List Captured} :
    r ∈ touching f cs ↔ r ∈ stretches cs ∧ ∃ c, c ∈ own f r := by
  have hsome : own f r ≠ [] ↔ ∃ c, c ∈ own f r :=
    ⟨List.exists_mem_of_ne_nil _, fun ⟨c, hc⟩ => List.ne_nil_of_mem hc⟩
  rw [touching, List.mem_filter, decide_eq_true_iff, hsome]

theorem ids_touching (f : Feed) (cs : List Captured) (n : BatchId) :
    n ∈ (touching f cs).map idOf ↔ ∃ c ∈ own f cs, c.message.batch = n := by
  constructor
  · intro hn
    obtain ⟨r, hr, rfl⟩ := List.mem_map.mp hn
    obtain ⟨hmem, c, hc⟩ := mem_touching.mp hr
    refine ⟨c, ?_, id_of_own hmem hc⟩
    rw [own_stretches]
    exact List.mem_flatMap.mpr ⟨r, hmem, hc⟩
  · rintro ⟨c, hc, rfl⟩
    rw [own_stretches] at hc
    obtain ⟨r, hmem, hc⟩ := List.mem_flatMap.mp hc
    exact List.mem_map.mpr ⟨r, mem_touching.mpr ⟨hmem, c, hc⟩, (id_of_own hmem hc).symm⟩

theorem Undisturbed.grows (h : Undisturbed f cs)
    (hids : (own f cs).Pairwise fun c d => ¬ d.message.batch < c.message.batch) :
    ((touching f cs).map idOf).Pairwise (· < ·) := by
  rw [own_stretches, List.pairwise_flatMap] at hids
  rw [List.pairwise_map, touching, List.pairwise_filter]
  refine (hids.2.and h.whole).imp_of_mem fun {r s} hr hs ⟨hle, hne⟩ hownr howns => ?_
  obtain ⟨c, hc⟩ := List.exists_mem_of_ne_nil _ (of_decide_eq_true hownr)
  obtain ⟨d, hd⟩ := List.exists_mem_of_ne_nil _ (of_decide_eq_true howns)
  rw [← id_of_own hr hc, ← id_of_own hs hd]
  exact BatchId.lt_of_not_lt (hle c hc d hd) (hne c hc d hd)

theorem Undisturbed.items (h : Undisturbed f cs) {r : List Captured} (hr : r ∈ touching f cs) :
    itemsOf f cs (idOf r) = own f r := by
  obtain ⟨hmem, c, hc⟩ := mem_touching.mp hr
  obtain ⟨rs, ss, hsplit⟩ := List.append_of_mem hmem
  have hwhole := h.whole
  rw [hsplit, List.pairwise_append, List.pairwise_cons] at hwhole
  obtain ⟨_, ⟨hafter, _⟩, hbefore⟩ := hwhole
  have hown : (own f r).filter (·.message.batch = idOf r) = own f r :=
    List.filter_eq_self.mpr fun d hd => by simpa using id_of_own hmem hd
  have hnone : ∀ qs : List (List Captured),
      (∀ q ∈ qs, ∀ d ∈ own f q, d.message.batch ≠ c.message.batch) →
      (qs.flatMap (own f)).filter (·.message.batch = idOf r) = [] := by
    intro qs hqs
    rw [List.filter_eq_nil_iff]
    intro d hd
    obtain ⟨q, hq, hd⟩ := List.mem_flatMap.mp hd
    simpa [id_of_own hmem hc] using hqs q hq d hd
  rw [itemsOf, own_stretches, hsplit, List.flatMap_append, List.flatMap_cons, List.filter_append,
    List.filter_append, hown,
    hnone rs fun q hq d hd => hbefore q hq r (List.mem_cons_self ..) d hd c hc,
    hnone ss fun q hq d hd => (hafter q hq c hc d hd).symm]
  simp

theorem isRebuilt_eq {r : List Captured} (hr : r ∈ stretches cs) {c : Captured}
    (hc : c ∈ own f r) (hled : ∀ d ∈ r.head?, d.capture = c.capture) :
    isRebuilt r = decide (c.capture = .snapshot) := by
  obtain ⟨d, l, rfl⟩ := List.exists_cons_of_ne_nil (mem_stretches hr).1
  simp [isRebuilt, hled d rfl]

theorem Undisturbed.rebuilt (h : Undisturbed f cs) {r : List Captured} (hr : r ∈ touching f cs) :
    hasSnapshot f cs (idOf r) = isRebuilt r := by
  rw [hasSnapshot, h.items hr]
  obtain ⟨hmem, c, hc⟩ := mem_touching.mp hr
  have hall : ∀ d ∈ own f r, decide (d.capture = .snapshot) = isRebuilt r :=
    fun d hd => (isRebuilt_eq hmem hd (h.led r hmem d hd)).symm
  cases hb : isRebuilt r with
  | true => exact List.any_eq_true.mpr ⟨c, hc, (hall c hc).trans hb⟩
  | false => exact List.any_eq_false.mpr fun d hd => by simp [hall d hd, hb]

theorem Undisturbed.oneBatchEach (h : Undisturbed f cs) (hitems : ∀ c ∈ cs, c.message.isItem)
    (hids : (own f cs).Pairwise fun c d => ¬ d.message.batch < c.message.batch) :
    OneBatchEach f cs := by
  refine ⟨(touching f cs).map fun r => (idOf r, timeOf r), ?_, fun n => ?_, ?_⟩
  · rw [List.map_map]
    exact h.grows hids
  · rw [List.map_map]
    exact ids_touching f cs n
  · rw [frame_touching hitems, batchesOf, List.flatMap_map]
    apply List.flatMap_congr
    intro r hr
    simp only [h.items hr, h.rebuilt hr]

theorem own_subset {r : List Captured} (hr : r ∈ stretches cs) {c : Captured} (hc : c ∈ own f r) :
    c ∈ own f cs := mem_own.mpr ⟨(mem_stretches hr).2.2 c (mem_own.mp hc).1, (mem_own.mp hc).2⟩

theorem isRebuilt_iff_marked (hgrows : ((touching f cs).map idOf).Pairwise (· < ·))
    {r : List Captured} (hr : r ∈ touching f cs) :
    isRebuilt r ↔ idOf r ∈ ((touching f cs).filter isRebuilt).map idOf := by
  have hnodup : ((touching f cs).map idOf).Nodup := hgrows.imp BatchId.ne_of_lt
  constructor
  · exact fun h => List.mem_map_of_mem (List.mem_filter.mpr ⟨hr, h⟩)
  · intro h
    obtain ⟨s, hs, heq⟩ := List.mem_map.mp h
    obtain ⟨hs, hmark⟩ := List.mem_filter.mp hs
    rwa [← List.inj_on_of_nodup_map hnodup hs hr heq]

theorem snapshot_iff_marked {bs : List (BatchId × Timestamp)}
    (hmem : ∀ n, n ∈ bs.map (·.1) ↔ ∃ c ∈ own f cs, c.message.batch = n)
    (hsame : ∀ c ∈ own f cs, ∀ d ∈ own f cs, c.message.batch = d.message.batch →
      c.capture = d.capture) {c : Captured} (hc : c ∈ own f cs) :
    c.capture = .snapshot ↔
      c.message.batch ∈ (bs.filter fun b => hasSnapshot f cs b.1).map (·.1) := by
  constructor
  · intro h
    obtain ⟨b, hb, hid⟩ := List.mem_map.mp ((hmem _).mpr ⟨c, hc, rfl⟩)
    have hitems : c ∈ itemsOf f cs b.1 := List.mem_filter.mpr ⟨hc, by simp [hid]⟩
    exact List.mem_map.mpr
      ⟨b, List.mem_filter.mpr ⟨hb, List.any_eq_true.mpr ⟨c, hitems, by simpa using h⟩⟩, hid⟩
  · intro h
    obtain ⟨b, hb, hid⟩ := List.mem_map.mp h
    obtain ⟨e, he, hmark⟩ := List.any_eq_true.mp (List.mem_filter.mp hb).2
    obtain ⟨heown, hbatch⟩ := List.mem_filter.mp he
    rw [← hsame e heown c hc ((of_decide_eq_true hbatch).trans hid)]
    exact of_decide_eq_true hmark

theorem undisturbed_of_oneBatchEach (h : OneBatchEach f cs) (hitems : ∀ c ∈ cs, c.message.isItem)
    (hsame : ∀ c ∈ own f cs, ∀ d ∈ own f cs, c.message.batch = d.message.batch →
      c.capture = d.capture) : Undisturbed f cs := by
  obtain ⟨bs, hgrows, hmem, hframe⟩ := h
  rw [frame_touching hitems] at hframe
  have hparts : ∀ r ∈ touching f cs, ∀ c ∈ own f r, c.message.isItem := fun r hr c hc =>
    hitems c (mem_own.mp (own_subset (mem_touching.mp hr).1 hc)).1
  obtain ⟨hends, hmarks⟩ := ends_batches f idOf isRebuilt timeOf hparts
  obtain ⟨hends', hmarks'⟩ := ends_batchesOf hitems f bs
  rw [hframe] at hends hmarks
  have hids : (touching f cs).map idOf = bs.map (·.1) := hends.symm.trans hends'
  have hmarked := hmarks.symm.trans hmarks'
  rw [← hids] at hgrows
  refine ⟨?_, fun r hr c hc d hd => Capture.eq_of_iff ?_⟩
  · have hlt := hgrows
    rw [List.pairwise_map, touching, List.pairwise_filter] at hlt
    refine hlt.imp_of_mem fun {r s} hr hs hrs c hc d hd => ?_
    rw [id_of_own hr hc, id_of_own hs hd]
    exact BatchId.ne_of_lt
      (hrs (by simpa using List.ne_nil_of_mem hc) (by simpa using List.ne_nil_of_mem hd))
  · rw [snapshot_iff_marked hmem hsame (own_subset hr hc), id_of_own hr hc, ← hmarked,
      ← isRebuilt_iff_marked hgrows (mem_touching.mpr ⟨hr, c, hc⟩), isRebuilt, hd]
    simp

/-- The items of a feed have ids that do not fall, and those of one id were captured alike. Then the
feed gets one batch for each id, however the items of other feeds come between, exactly when
these leave its batches whole. -/
theorem oneBatchEach_iff (hitems : ∀ c ∈ cs, c.message.isItem)
    (hids : (own f cs).Pairwise fun c d => ¬ d.message.batch < c.message.batch)
    (hsame : ∀ c ∈ own f cs, ∀ d ∈ own f cs, c.message.batch = d.message.batch →
      c.capture = d.capture) : OneBatchEach f cs ↔ Undisturbed f cs :=
  ⟨fun h => undisturbed_of_oneBatchEach h hitems hsame, fun h => h.oneBatchEach hitems hids⟩

end

def sampleItem (number : UInt32) (n : UInt64) (c : Capture) : Captured :=
  ⟨.quote ⟨⟨"XYZ", number⟩, ⟨"a"⟩, ⟨100⟩, ⟨1⟩, .bid, ⟨n⟩, 1⟩, c⟩

/-- Two feeds that share a batch, and one of them goes on alone. -/
def sampleShared : List Captured :=
  [sampleItem 1 1 .snapshot, sampleItem 2 1 .snapshot, sampleItem 1 1 .snapshot,
    sampleItem 1 2 .incremental]

theorem oneBatchEach_iff_sample :
    (OneBatchEach ⟨"XYZ", 1⟩ sampleShared ∧ Undisturbed ⟨"XYZ", 1⟩ sampleShared) ∧
      OneBatchEach ⟨"XYZ", 2⟩ sampleShared ∧ Undisturbed ⟨"XYZ", 2⟩ sampleShared := by
  have hitems : ∀ c ∈ sampleShared, c.message.isItem := by decide
  have hone : Undisturbed ⟨"XYZ", 1⟩ sampleShared := ⟨by decide, by decide⟩
  have htwo : Undisturbed ⟨"XYZ", 2⟩ sampleShared := ⟨by decide, by decide⟩
  refine ⟨⟨?_, hone⟩, ?_, htwo⟩
  · exact (oneBatchEach_iff hitems (by decide) (by decide)).mpr hone
  · exact (oneBatchEach_iff hitems (by decide) (by decide)).mpr htwo

/-- Feeds that do not leave each other's batches whole. In the first session an item of feed 2 cuts
batch 1 of feed 1 in two. In the second one an item of feed 1 begins batch 7, so that feed 2 gets no
mark for its snapshot. -/
theorem not_oneBatchEach :
    let cut := [sampleItem 1 1 .incremental, sampleItem 2 2 .incremental, sampleItem 1 1 .incremental]
    let led := [sampleItem 1 7 .incremental, sampleItem 2 7 .snapshot]
    (∀ cs ∈ [cut, led], (∀ c ∈ cs, c.message.isItem) ∧
      ∀ f ∈ [(⟨"XYZ", 1⟩ : Feed), ⟨"XYZ", 2⟩],
        (own f cs).Pairwise (fun c d => ¬ d.message.batch < c.message.batch) ∧
        ∀ c ∈ own f cs, ∀ d ∈ own f cs, c.message.batch = d.message.batch → c.capture = d.capture) ∧
      ¬ OneBatchEach ⟨"XYZ", 1⟩ cut ∧ ¬ OneBatchEach ⟨"XYZ", 2⟩ led := by
  intro cut led
  refine ⟨by decide, ?_, ?_⟩
  · rintro ⟨bs, hgrows, _, hframe⟩
    have hitems : ∀ c ∈ cut, c.message.isItem := by decide
    have hends := (ends_batchesOf hitems ⟨"XYZ", 1⟩ bs).1
    rw [← hframe] at hends
    rw [← hends] at hgrows
    exact absurd hgrows (by decide)
  · rintro ⟨bs, _, hmem, hframe⟩
    have hitems : ∀ c ∈ led, c.message.isItem := by decide
    have hmarks := (ends_batchesOf hitems ⟨"XYZ", 2⟩ bs).2
    have hmarked := (snapshot_iff_marked hmem (by decide)
      (c := sampleItem 2 7 .snapshot) (by decide)).mp rfl
    rw [← hmarks, ← hframe] at hmarked
    exact absurd hmarked (by decide)

end Framer

end QuoteBoard
