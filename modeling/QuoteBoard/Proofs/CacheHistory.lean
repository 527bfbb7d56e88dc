import Mathlib.Data.List.DropRight
import QuoteBoard.Cache
import QuoteBoard.Proofs.Sheet

/-!
# A cache and the calls made on it

What a full-depth cache shows can be read off the list of calls alone, without playing them: a quote
is held as long as no later call kills it (`survivors`), the trade is the last one since the last
clear (`heldTrade`), and the time is that of the last event that was applied (`appliedTimes`). The
main statement is `reading_run_eq_history`; `Reflects` is what every call keeps.
-/

namespace QuoteBoard

theorem getLast?_since_snoc {α β : Type} (stop : α → Bool) (read : α → Option β) (as : List α)
    (a : α) :
    (((as ++ [a]).rtakeWhile fun x => !stop x).filterMap read).getLast? =
      if stop a then none
      else (read a).or ((as.rtakeWhile fun x => !stop x).filterMap read).getLast? := by
  cases ha : stop a with
  | true =>
    rw [List.rtakeWhile_concat_neg _ _ _ (by simp [ha])]
    rfl
  | false =>
    rw [List.rtakeWhile_concat_pos _ _ _ (by simp [ha]), List.filterMap_append]
    cases hr : read a <;> simp [hr]

inductive CacheCall where
  | quote (q : Quote)
  | withdraw (w : Withdrawal)
  | tradeDone (t : Trade)
  | clear
  | markRebuilt
  | commit (batch : BatchId) (time : Timestamp)
  | noUpdates (e : BatchEnd)
  | addListener (l : Listener)

namespace Cache

def act (c : Cache) : CacheCall → Cache × List CacheEvent × Option CommitError
  | .quote q => ((c.quote q).1, (c.quote q).2, none)
  | .withdraw w => ((c.withdraw w).1, (c.withdraw w).2, none)
  | .tradeDone t => ((c.tradeDone t).1, (c.tradeDone t).2, none)
  | .clear => (c.clear, [], none)
  | .markRebuilt => (c.markRebuilt, [], none)
  | .commit b t => c.commit b t
  | .noUpdates e => ((c.noUpdates e).1, (c.noUpdates e).2, none)
  | .addListener l => (c.addListener l, [], none)

def run (c : Cache) (cs : List CacheCall) : Cache := cs.foldl (fun c x => (c.act x).1) c

theorem run_snoc (c : Cache) (cs : List CacheCall) (x : CacheCall) :
    c.run (cs ++ [x]) = ((c.run cs).act x).1 := by
  simp [run]

end Cache

/-- What a call does to the sheet of a cache, whatever the listeners answer. -/
def Sheet.after (s : Sheet) : CacheCall → Sheet
  | .quote q => (s.quote q).1
  | .withdraw w => (s.withdraw w).1
  | .tradeDone t => (s.tradeDone t).1
  | .clear => s.clear
  | .markRebuilt => s.markRebuilt
  | .commit b t => (s.settle b t).1
  | .noUpdates _ => s
  | .addListener _ => s

theorem Cache.sheet_act (c : Cache) (x : CacheCall) : (c.act x).1.sheet = c.sheet.after x := by
  cases x with
  | noUpdates e =>
    simp only [act, noUpdates, Sheet.after]
    split <;> rfl
  | _ => rfl

namespace CacheCall

section
variable (f : Feed) (s : Side)

/-! ## The history of a side -/

/-- The call takes the level of an earlier quote off the book. -/
def Kills (q : Quote) : CacheCall → Prop
  | quote r => (r.feed = f ∧ r.side = s) ∧ (r.item = q.item ∨ r.price = q.price)
  | withdraw w => (w.feed = f ∧ w.side = s) ∧ w.item = q.item
  | clear => True
  | _ => False

instance (q : Quote) (x : CacheCall) : Decidable (x.Kills f s q) := by
  cases x <;> unfold Kills <;> infer_instance

/-- The quotes of a side that no later call kills, oldest first. -/
def survivors : List CacheCall → List Quote
  | [] => []
  | quote q :: cs =>
    if (q.feed = f ∧ q.side = s) ∧ ∀ x ∈ cs, ¬ x.Kills f s q then q :: survivors cs
    else survivors cs
  | _ :: cs => survivors cs

def isClear : CacheCall → Bool
  | clear => true
  | _ => false

def trade? : CacheCall → Option LastTrade
  | tradeDone t => if t.feed = f then some t.last else none
  | _ => none

/-- The last trade of a feed after the last clear. -/
def heldTrade (cs : List CacheCall) : Option LastTrade :=
  ((cs.rtakeWhile fun x => !x.isClear).filterMap (trade? f)).getLast?

/-- The time of a call's event, when the side applies it after the calls `past`: quotes and trades
always, a withdrawal when its item is held. -/
def appliedTime? (past : List CacheCall) : CacheCall → Option Timestamp
  | quote q => if q.feed = f ∧ q.side = s then some q.time else none
  | tradeDone t => if t.feed = f then some t.time else none
  | withdraw w =>
    if (w.feed = f ∧ w.side = s) ∧ ∃ q ∈ survivors f s past, q.item = w.item then some w.time
    else none
  | _ => none

def appliedTimes : List CacheCall → List CacheCall → List Timestamp
  | _, [] => []
  | past, x :: cs => (appliedTime? f s past x).toList ++ appliedTimes (past ++ [x]) cs

/-! ## One more call -/

theorem mem_survivors {f : Feed} {s : Side} {q : Quote} {cs : List CacheCall}
    (h : q ∈ survivors f s cs) : .quote q ∈ cs ∧ q.feed = f ∧ q.side = s := by
  induction cs with
  | nil => cases h
  | cons x cs ih =>
    cases x with
    | quote r =>
      simp only [survivors] at h
      split at h
      · rename_i hr
        rcases List.mem_cons.mp h with rfl | h
        · exact ⟨List.mem_cons_self .., hr.1⟩
        · exact ⟨List.mem_cons_of_mem _ (ih h).1, (ih h).2⟩
      · exact ⟨List.mem_cons_of_mem _ (ih h).1, (ih h).2⟩
    | _ => exact ⟨List.mem_cons_of_mem _ (ih h).1, (ih h).2⟩

theorem pairwise_survivors (cs : List CacheCall) :
    (survivors f s cs).Pairwise fun a b => a.item ≠ b.item := by
  induction cs with
  | nil => exact List.Pairwise.nil
  | cons x cs ih =>
    cases x with
    | quote q =>
      simp only [survivors]
      split
      · rename_i hq
        refine List.Pairwise.cons ?_ ih
        intro r hr heq
        obtain ⟨hmem, hown⟩ := mem_survivors hr
        exact hq.2 _ hmem ⟨hown, Or.inl heq.symm⟩
      · exact ih
    | _ => exact ih

def added : CacheCall → List Quote
  | quote q => if q.feed = f ∧ q.side = s then [q] else []
  | _ => []

theorem survivors_snoc (cs : List CacheCall) (x : CacheCall) :
    survivors f s (cs ++ [x]) =
      (survivors f s cs).filter (fun q => ¬ x.Kills f s q) ++ x.added f s := by
  induction cs with
  | nil => cases x <;> simp [survivors, added]
  | cons y cs ih =>
    cases y with
    | quote q =>
      simp only [List.cons_append, survivors, ih, List.forall_mem_append, List.forall_mem_singleton]
      by_cases hq : (q.feed = f ∧ q.side = s) ∧ ∀ x ∈ cs, ¬ x.Kills f s q
      · rw [if_pos hq]
        by_cases hx : x.Kills f s q
        · rw [if_neg fun h => h.2.2 hx]
          simp [hx]
        · rw [if_pos ⟨hq.1, hq.2, hx⟩]
          simp [hx]
      · have : ¬ ((q.feed = f ∧ q.side = s) ∧ (∀ x ∈ cs, ¬ x.Kills f s q) ∧ ¬ x.Kills f s q) :=
          fun h => hq ⟨h.1, h.2.1⟩
        rw [if_neg hq, if_neg this]
    | _ => exact ih

theorem mem_survivors_snoc {cs : List CacheCall} {x : CacheCall} {q : Quote} :
    q ∈ survivors f s (cs ++ [x]) ↔ q ∈ survivors f s cs ∧ ¬ x.Kills f s q ∨ q ∈ x.added f s := by
  simp [survivors_snoc]

theorem heldTrade_snoc (cs : List CacheCall) (x : CacheCall) :
    heldTrade f (cs ++ [x]) = if x.isClear then none else (trade? f x).or (heldTrade f cs) :=
  getLast?_since_snoc isClear (trade? f) cs x

theorem appliedTimes_snoc (past cs : List CacheCall) (x : CacheCall) :
    appliedTimes f s past (cs ++ [x]) =
      appliedTimes f s past cs ++ (appliedTime? f s (past ++ cs) x).toList := by
  induction cs generalizing past with
  | nil => simp [appliedTimes]
  | cons y cs ih => simp [appliedTimes, ih]

theorem lastTime_snoc (cs : List CacheCall) (x : CacheCall) :
    (appliedTimes f s [] (cs ++ [x])).getLastD 0 =
      (appliedTime? f s cs x).getD ((appliedTimes f s [] cs).getLastD 0) := by
  rw [appliedTimes_snoc]
  cases h : appliedTime? f s cs x <;> simp [h]

end

end CacheCall

open CacheCall

/-! ## What every call keeps -/

structure Reflects (f : Feed) (s : Side) (cs : List CacheCall) (x : Sheet) (b : Ladder) : Prop where
  feed : x.feed = f
  side : x.side = s
  book : x.book = .ladder b
  ladder_side : b.side = s
  matched : b.Matched
  holds : ∀ l, b.Holds l ↔ ∃ q ∈ survivors f s cs, q.level = l
  trade : x.trade = heldTrade f cs
  time : x.time = (appliedTimes f s [] cs).getLastD 0

theorem reflects_empty (f : Feed) (s : Side) :
    Reflects f s [] (.empty .fullDepth f s) (.empty s) where
  feed := rfl
  side := rfl
  book := rfl
  ladder_side := rfl
  matched := Ladder.matched_empty s
  holds l := by simp [Ladder.not_holds_empty, survivors]
  trade := rfl
  time := rfl

section
variable {f : Feed} {s : Side} {cs : List CacheCall} {x : Sheet} {b : Ladder}

theorem Reflects.accepts_iff (h : Reflects f s cs x b) (g : Feed) (t : Side) :
    g = f ∧ t = s ↔ g = x.feed ∧ t = x.side := by
  rw [h.feed, h.side]

theorem Reflects.idle (h : Reflects f s cs x b) {y : CacheCall} (hk : ∀ q, ¬ y.Kills f s q)
    (ha : y.added f s = []) (hc : y.isClear = false) (ht : y.trade? f = none)
    (hn : y.appliedTime? f s cs = none) {x' : Sheet} (hfeed : x'.feed = x.feed)
    (hside : x'.side = x.side) (hbook : x'.book = x.book) (htrade : x'.trade = x.trade)
    (htime : x'.time = x.time) : Reflects f s (cs ++ [y]) x' b where
  feed := hfeed.trans h.feed
  side := hside.trans h.side
  book := hbook.trans h.book
  ladder_side := h.ladder_side
  matched := h.matched
  holds l := by
    rw [h.holds]
    simp [mem_survivors_snoc, hk, ha]
  trade := by
    rw [htrade, h.trade, heldTrade_snoc, hc, ht]
    simp
  time := by
    rw [htime, h.time, lastTime_snoc, hn]
    rfl

/-! ## Quotes -/

theorem Reflects.holds_quote (h : Reflects f s cs x b) {q : Quote} (hq : q.feed = f ∧ q.side = s)
    (l : Level) :
    (b.quote q).Holds l ↔ ∃ r ∈ survivors f s (cs ++ [.quote q]), r.level = l := by
  rw [Ladder.holds_quote h.matched, h.holds]
  constructor
  · rintro (rfl | ⟨⟨r, hr, rfl⟩, hi, hp⟩)
    · exact ⟨q, (mem_survivors_snoc f s).mpr (Or.inr (by simp [added, hq])), rfl⟩
    · refine ⟨r, (mem_survivors_snoc f s).mpr (Or.inl ⟨hr, ?_⟩), rfl⟩
      rintro ⟨_, heq | heq⟩
      · exact hi heq.symm
      · exact hp heq.symm
  · rintro ⟨r, hr, rfl⟩
    rcases (mem_survivors_snoc f s).mp hr with ⟨hr, hk⟩ | hr
    · refine Or.inr ⟨⟨r, hr, rfl⟩, fun heq => hk ⟨hq, Or.inl heq.symm⟩, fun heq => ?_⟩
      exact hk ⟨hq, Or.inr heq.symm⟩
    · simp only [added, hq, and_self, if_true, List.mem_singleton] at hr
      exact Or.inl (by rw [hr])

theorem Reflects.quote (h : Reflects f s cs x b) (q : Quote) :
    ∃ c, Reflects f s (cs ++ [.quote q]) (x.quote q).1 c := by
  by_cases hq : q.feed = f ∧ q.side = s
  · rw [Sheet.quote_of_accepted h.book ((h.accepts_iff _ _).mp hq)]
    refine ⟨b.quote q, h.feed, h.side, rfl, (b.side_quote q).trans h.ladder_side,
      Ladder.matched_quote h.matched q, h.holds_quote hq, ?_, ?_⟩
    · rw [heldTrade_snoc]
      exact h.trade
    · have ht : appliedTime? f s cs (.quote q) = some q.time := if_pos hq
      rw [lastTime_snoc, ht]
      rfl
  · have hk : ∀ r, ¬ (CacheCall.quote q).Kills f s r := fun r hk => hq (And.left hk)
    rw [Sheet.quote_of_refused fun hx => hq ((h.accepts_iff _ _).mpr hx)]
    exact ⟨b, h.idle hk (if_neg hq) rfl rfl (if_neg hq) rfl rfl rfl rfl rfl⟩

/-! ## Withdrawals -/

theorem Reflects.exists_item (h : Reflects f s cs x b) (i : ItemId) :
    (b.remove? i).isSome ↔ ∃ q ∈ survivors f s cs, q.item = i := by
  rw [← not_iff_not, Option.not_isSome_iff_eq_none, Ladder.remove?_eq_none]
  constructor
  · rintro hn ⟨q, hq, rfl⟩
    have hl : b.Holds q.level := (h.holds _).mpr ⟨q, hq, rfl⟩
    have : b.levels[q.item]? = some q.level := hl
    rw [hn] at this
    cases this
  · intro hn
    cases hl : b.levels[i]? with
    | none => rfl
    | some l =>
      obtain ⟨q, hq, rfl⟩ := (h.holds l).mp (h.matched.holds hl)
      exact absurd ⟨q, hq, h.matched.keyed hl⟩ hn

theorem Reflects.holds_withdraw (h : Reflects f s cs x b) {w : Withdrawal}
    (hw : w.feed = f ∧ w.side = s) (l : Level) :
    (b.discard w.item).Holds l ↔ ∃ q ∈ survivors f s (cs ++ [.withdraw w]), q.level = l := by
  rw [Ladder.holds_discard, h.holds]
  constructor
  · rintro ⟨⟨q, hq, rfl⟩, hi⟩
    exact ⟨q, (mem_survivors_snoc f s).mpr (Or.inl ⟨hq, fun hk => hi hk.2.symm⟩), rfl⟩
  · rintro ⟨q, hq, rfl⟩
    rcases (mem_survivors_snoc f s).mp hq with ⟨hq, hk⟩ | hq
    · refine ⟨⟨q, hq, rfl⟩, ?_⟩
      intro hi
      exact hk ⟨hw, hi.symm⟩
    · cases hq

theorem Reflects.withdraw (h : Reflects f s cs x b) (w : Withdrawal) :
    ∃ c, Reflects f s (cs ++ [.withdraw w]) (x.withdraw w).1 c := by
  by_cases hw : w.feed = f ∧ w.side = s
  · obtain ⟨m, hx⟩ := Sheet.withdraw_of_accepted h.book ((h.accepts_iff _ _).mp hw)
    rw [hx]
    refine ⟨b.discard w.item, h.feed, h.side, rfl, (b.side_discard w.item).trans h.ladder_side,
      Ladder.matched_discard h.matched w.item, h.holds_withdraw hw, ?_, ?_⟩
    · rw [heldTrade_snoc]
      exact h.trade
    · rw [lastTime_snoc, ← h.time]
      by_cases hheld : (b.remove? w.item).isSome
      · have ht : appliedTime? f s cs (.withdraw w) = some w.time :=
          if_pos ⟨hw, (h.exists_item w.item).mp hheld⟩
        simp only [ht, hheld, if_true, Option.getD_some]
      · have hn : appliedTime? f s cs (.withdraw w) = none :=
          if_neg fun hc => hheld ((h.exists_item w.item).mpr hc.2)
        simp only [hn, hheld, Bool.false_eq_true, if_false, Option.getD_none]
  · have hk : ∀ r, ¬ (CacheCall.withdraw w).Kills f s r := fun r hk => hw (And.left hk)
    have hn : appliedTime? f s cs (.withdraw w) = none := if_neg fun hc => hw hc.1
    rw [Sheet.withdraw_of_refused fun hx => hw ((h.accepts_iff _ _).mpr hx)]
    exact ⟨b, h.idle hk rfl rfl rfl hn rfl rfl rfl rfl rfl⟩

/-! ## The other calls -/

theorem Reflects.tradeDone (h : Reflects f s cs x b) (t : Trade) :
    Reflects f s (cs ++ [.tradeDone t]) (x.tradeDone t).1 b := by
  by_cases ht : t.feed = f
  · rw [Sheet.tradeDone_of_accepted (ht.trans h.feed.symm)]
    refine ⟨h.feed, h.side, h.book, h.ladder_side, h.matched, fun l => ?_, ?_, ?_⟩
    · rw [h.holds]
      simp [mem_survivors_snoc, Kills, added]
    · rw [heldTrade_snoc]
      simp [isClear, trade?, ht]
    · rw [lastTime_snoc]
      simp [appliedTime?, ht, Sheet.touch]
  · have hn : (CacheCall.tradeDone t).trade? f = none := if_neg ht
    have hm : (CacheCall.tradeDone t).appliedTime? f s cs = none := if_neg ht
    rw [Sheet.tradeDone_of_refused fun hx => ht (hx.trans h.feed)]
    exact h.idle (fun _ => id) rfl rfl hn hm rfl rfl rfl rfl rfl

theorem Reflects.clear (h : Reflects f s cs x b) :
    Reflects f s (cs ++ [.clear]) x.clear b.clear where
  feed := h.feed
  side := h.side
  book := by
    show x.book.clear = _
    rw [h.book]
    rfl
  ladder_side := h.ladder_side
  matched := b.matched_clear
  holds l := by
    simp [mem_survivors_snoc, Kills, added, b.not_holds_clear]
  trade := by
    rw [heldTrade_snoc]
    rfl
  time := by
    rw [lastTime_snoc]
    exact h.time

theorem Reflects.after (h : Reflects f s cs x b) (y : CacheCall) :
    ∃ c, Reflects f s (cs ++ [y]) (x.after y) c := by
  have idle : ∀ {y : CacheCall} {x' : Sheet}, (∀ q, ¬ y.Kills f s q) → y.added f s = [] →
      y.isClear = false → y.trade? f = none → y.appliedTime? f s cs = none →
      x'.feed = x.feed → x'.side = x.side → x'.book = x.book → x'.trade = x.trade →
      x'.time = x.time → ∃ c, Reflects f s (cs ++ [y]) x' c := by
    intro y x' hk ha hc ht hn hf hs hb htr htm
    exact ⟨b, h.idle hk ha hc ht hn hf hs hb htr htm⟩
  cases y with
  | quote q => exact h.quote q
  | withdraw w => exact h.withdraw w
  | tradeDone t => exact ⟨b, h.tradeDone t⟩
  | clear => exact ⟨b.clear, h.clear⟩
  | markRebuilt => exact idle (fun _ => id) rfl rfl rfl rfl rfl rfl rfl rfl rfl
  | commit n t =>
    obtain ⟨m, r, hx⟩ := x.settle_eq n t
    rw [Sheet.after, hx]
    exact idle (fun _ => id) rfl rfl rfl rfl rfl rfl rfl rfl rfl
  | noUpdates e => exact idle (fun _ => id) rfl rfl rfl rfl rfl rfl rfl rfl rfl
  | addListener l => exact idle (fun _ => id) rfl rfl rfl rfl rfl rfl rfl rfl rfl

end

theorem reflects_run (f : Feed) (s : Side) (cs : List CacheCall) :
    ∃ b, Reflects f s cs ((Cache.empty .fullDepth f s).run cs).sheet b := by
  induction cs using List.reverseRecOn with
  | nil => exact ⟨_, reflects_empty f s⟩
  | append_singleton cs x ih =>
    obtain ⟨b, h⟩ := ih
    rw [Cache.run_snoc, Cache.sheet_act]
    exact h.after x

/-! ## What a cache shows -/

theorem map_rank_rankFrom (n : Nat) (ls : List Level) :
    (rankFrom n ls).map (·.rank) = List.range' n ls.length := by
  induction ls generalizing n with
  | nil => rfl
  | cons l ls ih => simp [rankFrom, ih, List.range'_succ]

theorem Reflects.levels_perm {f : Feed} {s : Side} {cs : List CacheCall} {x : Sheet} {b : Ladder}
    (h : Reflects f s cs x b) : b.toList.Perm ((survivors f s cs).map Quote.level) := by
  apply (List.perm_ext_iff_of_nodup (Ladder.nodup_toList h.matched) ?_).mpr
  · intro l
    rw [Ladder.mem_toList h.matched, h.holds, List.mem_map]
  · rw [List.Nodup, List.pairwise_map]
    apply (pairwise_survivors f s cs).imp
    intro a b hne heq
    exact hne (congrArg Level.item heq)

/-- After any calls the levels of a fresh full-depth cache are those of the surviving quotes, once
each, strictly best first and ranked from zero; the trade is the last one since the last clear, and
the time that of the last applied event. -/
theorem reading_run_eq_history (f : Feed) (s : Side) (cs : List CacheCall) :
    let r := ((Cache.empty .fullDepth f s).run cs).sheet.reading
    (r.levels.map (·.level)).Perm ((survivors f s cs).map Quote.level) ∧
      (r.levels.map (·.level.price)).Pairwise s.Ahead ∧
      r.levels.map (·.rank) = List.range r.depth ∧
      r.trade = heldTrade f cs ∧
      r.time = (appliedTimes f s [] cs).getLastD 0 := by
  obtain ⟨b, h⟩ := reflects_run f s cs
  intro r
  have hlevels : r.levels = rankFrom 0 b.toList := by
    show rankFrom 0 (Book.levels _) = _
    rw [h.book]
    rfl
  have hdepth : r.depth = b.depth := by
    show Book.depth _ = _
    rw [h.book]
    rfl
  refine ⟨?_, ?_, ?_, h.trade, h.time⟩
  · rw [hlevels, map_level_rankFrom]
    exact h.levels_perm
  · have hmap : (rankFrom 0 b.toList).map (·.level.price) = b.toList.map (·.price) := by
      rw [← map_level_rankFrom 0 b.toList, List.map_map, map_level_rankFrom]
      rfl
    rw [hlevels, hmap, List.pairwise_map]
    exact h.ladder_side ▸ Ladder.pairwise_toList h.matched
  · rw [hlevels, hdepth, map_rank_rankFrom, Ladder.length_toList h.matched, List.range_eq_range']

end QuoteBoard
