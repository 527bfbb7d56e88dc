import QuoteBoard.Proofs.BatchNotices
import QuoteBoard.Proofs.CacheHistory

/-!
# What a commit tells, after any calls

Whether a commit finds a cache modified, and whether its snapshot is a full one, can be read off the
calls before it (`Cache.Altered`, `Cache.Marked`); how earlier commits went does not matter. What the
commit then tells is decided by what the listeners answer: each notice goes to the listeners in the
order of their registration, and the first one that fails ends the telling (`Announced`). The main
statement is `commit_of_calls`.
-/

namespace QuoteBoard

namespace CacheCall

def isCommit : CacheCall → Bool
  | commit _ _ => true
  | _ => false

def marks : CacheCall → Bool
  | markRebuilt => true
  | _ => false

def listener? : CacheCall → Option Listener
  | addListener l => some l
  | _ => none

end CacheCall

open CacheCall

/-! ## What a call does to the flags of a sheet -/

namespace Sheet

/-- The event of a call is applied: a quote of this side unless only trades are kept, a withdrawal of
an item that is held, a trade of the feed. A clear always counts. -/
def Alters (x : Sheet) : CacheCall → Prop
  | .quote q => (q.feed = x.feed ∧ q.side = x.side) ∧ x.policy ≠ .tradeOnly
  | .withdraw w => (w.feed = x.feed ∧ w.side = x.side) ∧ ∃ l ∈ x.book.levels, l.item = w.item
  | .tradeDone t => t.feed = x.feed
  | .clear => True
  | _ => False

/-- The sheet of a cache that began empty, with what every call keeps. -/
structure Kept (p : Policy) (f : Feed) (s : Side) (x : Sheet) : Prop where
  feed : x.feed = f
  side : x.side = s
  policy : x.policy = p
  coherent : x.book.Coherent

variable {p : Policy} {f : Feed} {s : Side} {x : Sheet}

theorem kept_empty (p : Policy) (f : Feed) (s : Side) : (empty p f s).Kept p f s :=
  ⟨rfl, rfl, Book.policy_empty p s, Book.coherent_empty p s⟩

/-- An applied event changes the book and sets the flag; any other call but a commit leaves the
flag as it is. -/
structure Effects (x : Sheet) (y : CacheCall) (x' : Sheet) : Prop where
  coherent : x'.book.Coherent
  policy : x'.policy = x.policy
  feed : x'.feed = x.feed
  side : x'.side = x.side
  modified : x'.modified = true ↔ y.isCommit = false ∧ (x.modified = true ∨ x.Alters y)
  rebuilt : x'.rebuilt = true ↔
    y.marks = true ∨ x.rebuilt = true ∧ (y.isCommit = true → ¬ x.modified = true)

theorem Effects.keeps {x' : Sheet} {y : CacheCall} (h : x.Effects y x') (hx : x.Kept p f s) :
    x'.Kept p f s :=
  ⟨h.feed.trans hx.feed, h.side.trans hx.side, h.policy.trans hx.policy, h.coherent⟩

theorem effects_idle (hx : x.book.Coherent) {y : CacheCall} (hc : y.isCommit = false)
    (hm : y.marks = false) (hy : ¬ x.Alters y) : x.Effects y x := by
  refine ⟨hx, rfl, rfl, rfl, ?_, ?_⟩ <;> simp [hc, hm, hy]

theorem effects_touch {b : Book} (hb : b.Coherent) (hp : b.policy = x.policy) {y : CacheCall}
    (hc : y.isCommit = false) (hm : y.marks = false) (hy : x.Alters y) (t : Timestamp)
    (last : Option LastTrade) : x.Effects y { x.touch b t with trade := last } := by
  refine ⟨hb, hp, rfl, rfl, ?_, ?_⟩
  · simp [hc, hy, touch]
  · simp [hc, hm, touch]

theorem effects_quote (hx : x.book.Coherent) (q : Quote) : x.Effects (.quote q) (x.quote q).1 := by
  by_cases hq : q.feed = x.feed ∧ q.side = x.side
  · have halters : x.Alters (.quote q) ↔ (x.book.quote q).2 = .applied := by
      rw [Book.quote_applied_iff]
      exact and_iff_right hq
    rw [quote_eq hq]
    split
    · rename_i happlied
      exact effects_touch (hx.quote q) (x.book.policy_quote q) rfl rfl (halters.mpr happlied) q.time
        x.trade
    · rename_i hidle
      exact effects_idle hx rfl rfl (mt halters.mp hidle)
  · rw [quote_of_refused hq]
    exact effects_idle hx rfl rfl fun h => hq h.1

theorem effects_withdraw (hx : x.book.Coherent) (w : Withdrawal) :
    x.Effects (.withdraw w) (x.withdraw w).1 := by
  by_cases hw : w.feed = x.feed ∧ w.side = x.side
  · have halters : x.Alters (.withdraw w) ↔ (x.book.remove w.item).2 = .applied := by
      rw [Book.remove_applied_iff hx]
      exact and_iff_right hw
    rw [withdraw_eq hw]
    split
    · rename_i happlied
      exact effects_touch (hx.remove w.item) (x.book.policy_remove w.item) rfl rfl
        (halters.mpr happlied) w.time x.trade
    · rename_i hidle
      exact effects_idle hx rfl rfl (mt halters.mp hidle)
  · rw [withdraw_of_refused hw]
    exact effects_idle hx rfl rfl fun h => hw h.1

theorem effects_tradeDone (hx : x.book.Coherent) (t : Trade) :
    x.Effects (.tradeDone t) (x.tradeDone t).1 := by
  by_cases ht : t.feed = x.feed
  · rw [tradeDone_of_accepted ht]
    exact effects_touch (y := .tradeDone t) hx rfl rfl rfl ht t.time (some t.last)
  · rw [tradeDone_of_refused ht]
    exact effects_idle hx rfl rfl ht

theorem settle_fst (x : Sheet) (b : BatchId) (t : Timestamp) :
    (x.settle b t).1 = { x with modified := false, rebuilt := x.rebuilt && !x.modified } := by
  obtain ⟨f, s, book, trade, modified, rebuilt, time⟩ := x
  cases modified <;> simp [settle]

theorem effects_commit (hx : x.book.Coherent) (b : BatchId) (t : Timestamp) :
    x.Effects (.commit b t) (x.settle b t).1 := by
  rw [settle_fst]
  refine ⟨hx, rfl, rfl, rfl, ?_, ?_⟩ <;> simp [isCommit, marks]

theorem effects_after (hx : x.book.Coherent) (y : CacheCall) : x.Effects y (x.after y) := by
  cases y with
  | quote q => exact effects_quote hx q
  | withdraw w => exact effects_withdraw hx w
  | tradeDone t => exact effects_tradeDone hx t
  | clear =>
    refine ⟨Book.coherent_clear hx, Book.policy_clear x.book, rfl, rfl, ?_, ?_⟩
    · simp [after, clear, isCommit, Alters]
    · simp [after, clear, isCommit, marks]
  | markRebuilt =>
    refine ⟨hx, rfl, rfl, rfl, ?_, ?_⟩
    · simp [after, markRebuilt, isCommit, Alters]
    · simp [after, markRebuilt, marks]
  | commit b t => exact effects_commit hx b t
  | noUpdates e => exact effects_idle hx rfl rfl id
  | addListener l => exact effects_idle hx rfl rfl id

end Sheet

/-! ## The flags read off the calls -/

namespace Cache

/-- Since the last commit, an event was applied or the book was cleared. -/
def Altered (c : Cache) (cs : List CacheCall) : Prop :=
  ∃ past y since, cs = past ++ y :: since ∧ (∀ z ∈ y :: since, z.isCommit = false) ∧
    (c.run past).sheet.Alters y

/-- A rebuild was marked, and no commit since then had anything to publish. -/
def Marked (c : Cache) (cs : List CacheCall) : Prop :=
  ∃ past y since, cs = past ++ y :: since ∧ y.marks = true ∧
    ∀ l z r, since = l ++ z :: r → z.isCommit = true → ¬ c.Altered (past ++ y :: l)

variable {c : Cache} {cs : List CacheCall}

theorem not_altered_nil (c : Cache) : ¬ c.Altered [] := by
  rintro ⟨past, y, since, h, _⟩
  cases past <;> cases h

theorem not_marked_nil (c : Cache) : ¬ c.Marked [] := by
  rintro ⟨past, y, since, h, _⟩
  cases past <;> cases h

theorem altered_snoc (c : Cache) (cs : List CacheCall) (y : CacheCall) :
    c.Altered (cs ++ [y]) ↔
      y.isCommit = false ∧ (c.Altered cs ∨ (c.run cs).sheet.Alters y) := by
  constructor
  · rintro ⟨past, z, since, heq, hopen, hz⟩
    obtain ⟨rfl, rfl, rfl⟩ | ⟨since', rfl, rfl⟩ := snoc_eq_append_cons heq
    · exact ⟨hopen z (List.mem_singleton_self z), Or.inr hz⟩
    · refine ⟨hopen y (by simp), Or.inl ⟨past, z, since', rfl, fun w hw => hopen w ?_, hz⟩⟩
      exact List.mem_append_left [y] hw
  · rintro ⟨hy, ⟨past, z, since, rfl, hopen, hz⟩ | halters⟩
    · refine ⟨past, z, since ++ [y], by simp, ?_, hz⟩
      intro w hw
      rcases List.mem_append.mp (show w ∈ (z :: since) ++ [y] from hw) with hw | hw
      · exact hopen w hw
      · rw [List.mem_singleton.mp hw]
        exact hy
    · exact ⟨cs, y, [], rfl, by simpa using hy, halters⟩

theorem marked_snoc (c : Cache) (cs : List CacheCall) (y : CacheCall) :
    c.Marked (cs ++ [y]) ↔
      y.marks = true ∨ c.Marked cs ∧ (y.isCommit = true → ¬ c.Altered cs) := by
  constructor
  · rintro ⟨past, z, since, heq, hz, hquiet⟩
    obtain ⟨rfl, rfl, rfl⟩ | ⟨since', rfl, rfl⟩ := snoc_eq_append_cons heq
    · exact Or.inl hz
    · refine Or.inr ⟨⟨past, z, since', rfl, hz, fun l w r heq => ?_⟩, hquiet since' y [] rfl⟩
      exact hquiet l w (r ++ [y]) (by simp [heq])
  · rintro (hy | ⟨⟨past, z, since, rfl, hz, hquiet⟩, hlast⟩)
    · exact ⟨cs, y, [], rfl, hy, fun l w r heq => by cases l <;> cases heq⟩
    · refine ⟨past, z, since ++ [y], by simp, hz, fun l w r heq hw => ?_⟩
      obtain ⟨rfl, rfl, rfl⟩ | ⟨r', rfl, rfl⟩ := snoc_eq_append_cons heq
      · exact hlast hw
      · exact hquiet l w r' rfl hw

structure Flagged (p : Policy) (f : Feed) (s : Side) (altered marked : Prop) (x : Sheet) : Prop where
  kept : x.Kept p f s
  modified : x.modified = true ↔ altered
  rebuilt : x.rebuilt = true ↔ marked

theorem flagged_run (p : Policy) (f : Feed) (s : Side) (cs : List CacheCall) :
    let c := empty p f s
    Flagged p f s (c.Altered cs) (c.Marked cs) (c.run cs).sheet := by
  intro c
  induction cs using List.reverseRecOn with
  | nil =>
    refine ⟨Sheet.kept_empty p f s, ?_, ?_⟩
    · exact iff_of_false Bool.false_ne_true c.not_altered_nil
    · exact iff_of_false Bool.false_ne_true c.not_marked_nil
  | append_singleton cs y ih =>
    have heffects := Sheet.effects_after ih.kept.coherent y
    rw [run_snoc, sheet_act]
    refine ⟨heffects.keeps ih.kept, ?_, ?_⟩
    · rw [heffects.modified, altered_snoc, ih.modified]
    · rw [heffects.rebuilt, marked_snoc, ih.modified, ih.rebuilt]

/-! ## Who is told what -/

/-- The notices of one listener, latest first. -/
def toldTo (i : Nat) (ns : List (Nat × Notice)) : List Notice :=
  ((ns.filter fun n => n.1 = i).map (·.2)).reverse

/-- The listeners when `ns` have been told. -/
def hearing (ls : List Listener) (ns : List (Nat × Notice)) : List Listener :=
  ls.mapIdx fun i l => { l with heard := toldTo i ns ++ l.heard }

/-- What a listener answers to a notice when `past` have been told. -/
def replyAfter (ls : List Listener) (past : List (Nat × Notice)) (n : Nat × Notice) :
    Option ListenerError :=
  ls[n.1]?.bind fun l => l.answer (toldTo n.1 past ++ l.heard) n.2

/-- Every one of `ns`, told one after the other when `past` have been told, is answered well. -/
def AllHeard (ls : List Listener) (past ns : List (Nat × Notice)) : Prop :=
  ∀ l n r, ns = l ++ n :: r → replyAfter ls (past ++ l) n = none

/-- How the telling of `due` goes when `past` have been told: all are answered well, or it ends
with the first that is not. -/
inductive Announced (ls : List Listener) (past due : List (Nat × Notice)) :
    List (Nat × Notice) → Option ListenerError → Prop where
  | delivered (h : AllHeard ls past due) : Announced ls past due due none
  | aborted {told : List (Nat × Notice)} {n : Nat × Notice} {rest : List (Nat × Notice)}
      {e : ListenerError} (hdue : due = told ++ n :: rest) (h : AllHeard ls past told)
      (he : replyAfter ls (past ++ told) n = some e) : Announced ls past due (told ++ [n]) (some e)

section
variable {ls : List Listener} {past due told : List (Nat × Notice)} {failed : Option ListenerError}

theorem getElem?_hearing (ls : List Listener) (ns : List (Nat × Notice)) (i : Nat) :
    (hearing ls ns)[i]? = ls[i]?.map fun l => { l with heard := toldTo i ns ++ l.heard } := by
  simp [hearing]

theorem hearing_nil (ls : List Listener) : hearing ls [] = ls := by
  apply List.ext_getElem?
  intro i
  rw [getElem?_hearing]
  cases ls[i]? <;> rfl

theorem length_hearing (ls : List Listener) (ns : List (Nat × Notice)) :
    (hearing ls ns).length = ls.length := by
  simp [hearing]

theorem toldTo_snoc (i : Nat) (ns : List (Nat × Notice)) (n : Nat × Notice) :
    toldTo i (ns ++ [n]) = if n.1 = i then n.2 :: toldTo i ns else toldTo i ns := by
  by_cases hn : n.1 = i <;> simp [toldTo, hn]

theorem replyAfter_eq (ls : List Listener) (past : List (Nat × Notice)) (n : Nat × Notice) :
    replyAfter ls past n = (hearing ls past)[n.1]?.bind fun l => l.reply n.2 := by
  rw [getElem?_hearing, replyAfter]
  cases ls[n.1]? <;> rfl

theorem AllHeard.nil : AllHeard ls past [] := by
  intro l n r h
  cases l <;> cases h

theorem AllHeard.cons {n : Nat × Notice} (hn : replyAfter ls past n = none)
    (h : AllHeard ls (past ++ [n]) due) : AllHeard ls past (n :: due) := by
  intro l m r heq
  cases l with
  | nil =>
    obtain ⟨rfl, rfl⟩ := List.cons.inj heq
    rwa [List.append_nil]
  | cons k l =>
    obtain ⟨rfl, rfl⟩ := List.cons.inj heq
    have := h l m r rfl
    rwa [List.append_assoc] at this

theorem AllHeard.append {more : List (Nat × Notice)} (h : AllHeard ls past due)
    (hmore : AllHeard ls (past ++ due) more) : AllHeard ls past (due ++ more) := by
  induction due generalizing past with
  | nil => simpa using hmore
  | cons n due ih =>
    have hn : replyAfter ls past n = none := by simpa using h [] n due rfl
    refine .cons hn (ih ?_ (by simpa using hmore))
    intro l m r heq
    have := h (n :: l) m r (by rw [heq]; rfl)
    rwa [List.append_cons] at this

theorem Announced.append {more : List (Nat × Notice)} (h : AllHeard ls past due)
    (hmore : Announced ls (past ++ due) more told failed) :
    Announced ls past (due ++ more) (due ++ told) failed := by
  cases hmore with
  | delivered hmore => exact .delivered (h.append hmore)
  | @aborted told n rest e hdue hmore he =>
    rw [← List.append_assoc]
    have hdue' : due ++ more = due ++ told ++ n :: rest := by rw [hdue, List.append_assoc]
    exact .aborted hdue' (h.append hmore) (by rwa [← List.append_assoc])

theorem Announced.cut {e : ListenerError} (more : List (Nat × Notice))
    (h : Announced ls past due told (some e)) : Announced ls past (due ++ more) told (some e) := by
  cases h with
  | aborted hdue h he => exact .aborted (by rw [hdue, List.append_assoc]; rfl) h he

/-! ## Telling -/

theorem hearing_snoc (ls : List Listener) (past : List (Nat × Notice)) (i : Nat) (n : Notice) :
    hearing ls (past ++ [(i, n)]) = (hearing ls past).modify i fun l => l.hear n := by
  apply List.ext_getElem?
  intro j
  rw [List.getElem?_modify, getElem?_hearing, getElem?_hearing, toldTo_snoc]
  by_cases hij : i = j
  · simp only [hij, if_true]
    cases ls[j]? <;> rfl
  · simp only [hij, if_false]
    cases ls[j]? <;> rfl

theorem hearing_told {pre ms : List Listener} {l : Listener} (h : hearing ls past = pre ++ l :: ms)
    (n : Notice) :
    replyAfter ls past (pre.length, n) = l.reply n ∧
      hearing ls (past ++ [(pre.length, n)]) = pre ++ l.hear n :: ms := by
  constructor
  · rw [replyAfter_eq, h]
    simp
  · rw [hearing_snoc, h, List.modify_eq_take_cons_drop (by simp)]
    simp

theorem tell_announced (n : Notice) {pre ms : List Listener} (h : hearing ls past = pre ++ ms) :
    let r := tell n pre.length ms
    Announced ls past ((List.range' pre.length ms.length).map (·, n)) (notices r.2.1) r.2.2 ∧
      hearing ls (past ++ notices r.2.1) = pre ++ r.1 := by
  induction ms generalizing pre past with
  | nil => exact ⟨.delivered .nil, by simpa [tell, notices] using h⟩
  | cons l ms ih =>
    obtain ⟨hreply, hheard⟩ := hearing_told h n
    rw [List.length_cons, List.range'_succ, List.map_cons]
    simp only [tell]
    cases hl : l.reply n with
    | some e =>
      have hfails : replyAfter ls (past ++ []) (pre.length, n) = some e := by
        rw [List.append_nil, hreply, hl]
      exact ⟨.aborted (List.nil_append _).symm .nil hfails, hheard⟩
    | none =>
      have hpre : hearing ls (past ++ [(pre.length, n)]) = (pre ++ [l.hear n]) ++ ms := by
        rw [hheard, List.append_cons]
      have hfirst : AllHeard ls past [(pre.length, n)] := .cons (hreply.trans hl) .nil
      obtain ⟨hrest, hlast⟩ := ih hpre
      rw [List.length_append, List.length_singleton] at hrest hlast
      refine ⟨hrest.append hfirst, ?_⟩
      rw [List.append_assoc, List.append_assoc] at hlast
      exact hlast

theorem announce_cons (n : Notice) (ns : List Notice) (ms : List Listener) :
    announce (n :: ns) ms =
      if (tell n 0 ms).2.2.isSome then tell n 0 ms
      else
        let r := announce ns (tell n 0 ms).1
        (r.1, (tell n 0 ms).2.1 ++ r.2.1, r.2.2) := by
  rw [announce]
  split <;> rename_i h <;> simp [h]

theorem announce_announced (ns : List Notice) {ms : List Listener} (h : hearing ls past = ms) :
    let r := announce ns ms
    Announced ls past (toEach ls.length ns) (notices r.2.1) r.2.2 ∧
      hearing ls (past ++ notices r.2.1) = r.1 := by
  induction ns generalizing past ms with
  | nil => exact ⟨.delivered .nil, by simpa [announce, notices] using h⟩
  | cons n ns ih =>
    have hlength : ms.length = ls.length := by rw [← h, length_hearing]
    have hdue : toEach ls.length (n :: ns) =
        (List.range' 0 ms.length).map (·, n) ++ toEach ls.length ns := by
      rw [hlength, ← List.range_eq_range']
      rfl
    obtain ⟨hround, hheard⟩ : Announced ls past ((List.range' 0 ms.length).map (·, n))
          (notices (tell n 0 ms).2.1) (tell n 0 ms).2.2 ∧
        hearing ls (past ++ notices (tell n 0 ms).2.1) = (tell n 0 ms).1 :=
      tell_announced n (show hearing ls past = [] ++ ms from h)
    rw [announce_cons, hdue]
    cases hfailed : (tell n 0 ms).2.2 with
    | some e =>
      rw [hfailed] at hround
      simp only [Option.isSome_some, if_true, hfailed]
      exact ⟨hround.cut _, hheard⟩
    | none =>
      rw [hfailed] at hround
      simp only [Option.isSome_none, Bool.false_eq_true, if_false, notices_append]
      obtain ⟨hrest, hlast⟩ := ih hheard
      generalize notices (tell n 0 ms).2.1 = told at hround hrest hlast ⊢
      cases hround with
      | delivered hall =>
        rw [List.append_assoc] at hlast
        exact ⟨hrest.append hall, hlast⟩

end

theorem commit_announced (c : Cache) (b : BatchId) (t : Timestamp) :
    let settled := c.sheet.settle b t
    let r := c.commit b t
    Announced c.listeners []
        (toEach c.listeners.length
          (settled.2.toList.map .snapshot ++ [.ended settled.1 b settled.2.isSome]))
        (notices r.2.1) (r.2.2.map (·.cause)) ∧
      r.1 = ⟨settled.1, hearing c.listeners (notices r.2.1)⟩ ∧ ∀ e ∈ r.2.2, e.batch = b := by
  intro settled r
  obtain ⟨htold, hheard⟩ := announce_announced
    (settled.2.toList.map .snapshot ++ [.ended settled.1 b settled.2.isSome])
    (hearing_nil c.listeners)
  generalize htelling : announce (settled.2.toList.map .snapshot ++
    [.ended settled.1 b settled.2.isSome]) c.listeners = telling at htold hheard
  have hr : r = c.commit b t := rfl
  simp only [commit] at hr
  rw [htelling] at hr
  have hnotices : notices r.2.1 = notices telling.2.1 := by
    rw [hr, notices_append, notices_append]
    cases telling.2.2 <;> simp [notices, CacheEvent.notice?]
  rw [hnotices]
  refine ⟨?_, ?_, ?_⟩
  · have hcause : r.2.2.map (·.cause) = telling.2.2 := by
      rw [hr]
      cases telling.2.2 <;> rfl
    rw [hcause]
    exact htold
  · rw [hr]
    exact congrArg (Cache.mk settled.1) hheard.symm
  · rw [hr]
    intro e he
    obtain ⟨cause, _, rfl⟩ := Option.map_eq_some_iff.mp he
    rfl

theorem answers_hearing (ls : List Listener) (ns : List (Nat × Notice)) :
    (hearing ls ns).map Listener.answer = ls.map Listener.answer := by
  apply List.ext_getElem?
  intro i
  rw [List.getElem?_map, List.getElem?_map, getElem?_hearing]
  cases ls[i]? <;> rfl

theorem answers_act (c : Cache) (y : CacheCall) :
    (c.act y).1.listeners.map Listener.answer =
      c.listeners.map Listener.answer ++ (y.listener?.map Listener.answer).toList := by
  cases y with
  | addListener l => simp [act, addListener, listener?]
  | noUpdates e =>
    simp only [act, noUpdates, listener?, Option.map_none, Option.toList_none, List.append_nil]
    split
    · exact answers_tellAll _ 0 c.listeners
    · rfl
  | commit b t =>
    obtain ⟨_, hcommit, _⟩ := commit_announced c b t
    simp only [act, listener?, Option.map_none, Option.toList_none, List.append_nil]
    rw [hcommit]
    exact answers_hearing _ _
  | _ => exact (List.append_nil _).symm

theorem answers_run (c : Cache) (cs : List CacheCall) :
    (c.run cs).listeners.map Listener.answer =
      c.listeners.map Listener.answer ++ (cs.filterMap listener?).map Listener.answer := by
  induction cs using List.reverseRecOn with
  | nil => simp [run]
  | append_singleton cs y ih =>
    rw [run_snoc, answers_act, ih, List.append_assoc, List.filterMap_append, List.map_append]
    cases y <;> rfl

/-- A commit after any calls on a cache of any policy. It finds the cache modified when an event was
applied or the book was cleared since the last commit, however that one went. It then tells the
snapshot, if there is one, to every listener in the order of registration and after that the end of
the batch to each, and stops at the first failure, which it returns. There is one snapshot for all;
it reads like the cache and is a full one when a rebuild was marked since the last commit that had
one. The book, the trade and the time stay as they are. -/
theorem commit_of_calls (p : Policy) (f : Feed) (s : Side) (cs : List CacheCall) (b : BatchId)
    (t : Timestamp) :
    let c₀ := empty p f s
    let c := c₀.run cs
    let r := c.commit b t
    let shot : Snapshot := ⟨b, c.sheet.rebuilt, t, c.sheet.view⟩
    let due : List Notice :=
      if c.sheet.modified then [.snapshot shot, .ended r.1.sheet b true]
      else [.ended r.1.sheet b false]
    (c.sheet.modified = true ↔ c₀.Altered cs) ∧
      c.listeners.map Listener.answer = (cs.filterMap listener?).map Listener.answer ∧
      Announced c.listeners [] (toEach c.listeners.length due) (notices r.2.1)
        (r.2.2.map (·.cause)) ∧
      (∀ e ∈ r.2.2, e.batch = b) ∧
      shot.view.reading = c.sheet.reading ∧
      (shot.full = true ↔ c₀.Marked cs) ∧
      r.1.listeners = hearing c.listeners (notices r.2.1) ∧
      r.1.sheet = { c.sheet with
        modified := false
        rebuilt := c.sheet.rebuilt && !c.sheet.modified } := by
  intro c₀ c r shot due
  have h : Flagged p f s (c₀.Altered cs) (c₀.Marked cs) c.sheet := flagged_run p f s cs
  obtain ⟨htold, hcache, hbatch⟩ := commit_announced c b t
  have hsheet : r.1.sheet = (c.sheet.settle b t).1 := congrArg Cache.sheet hcache
  have hdue : (c.sheet.settle b t).2.toList.map .snapshot ++
      [.ended (c.sheet.settle b t).1 b (c.sheet.settle b t).2.isSome] = due := by
    simp only [due, hsheet]
    unfold Sheet.settle
    split <;> rfl
  rw [hdue] at htold
  refine ⟨h.modified, answers_run c₀ cs, htold, hbatch, Sheet.reading_view h.kept.coherent, h.rebuilt,
    congrArg Cache.listeners hcache,
    hsheet.trans (Sheet.settle_fst _ b t)⟩

end Cache

end QuoteBoard
