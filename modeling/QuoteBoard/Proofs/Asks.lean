import QuoteBoard.Proofs.Calls

/-!
# What listeners and publishers are asked

A board tells notices to listeners and offers updates to publishers, one at a time, and each of them
answers (`Ask`, `Answer`). What a cache or an engine asks is what is seen to be told and published,
and the updates that are refused (`Cache.said_consume`, `Engine.said_handle`). Two caches or engines
that differ in nothing but the answers go in tandem: they ask the same and do the same, until the
same ask is answered in two ways (`Tandem`).
-/

namespace QuoteBoard

inductive Ask where
  | tell (cache listener : Nat) (n : Notice)
  | offer (engine : Nat) (u : Update)

inductive Answer where
  | listener (e : Option ListenerError)
  | publisher (e : Option PublishError)
  deriving DecidableEq

/-- What is seen of an ask: a notice whatever is answered, an update only when it is taken. -/
def Ask.seen? : Ask × Answer → Option BoardEvent
  | (tell k i n, _) => some (.told k i n)
  | (offer k u, .publisher none) => some (.published k u)
  | _ => none

namespace Board

/-- What is told and published, of all that is seen. -/
def said (es : List BoardEvent) : List BoardEvent :=
  es.filter fun
    | .told .. => true
    | .published .. => true
    | _ => false

theorem said_append (es fs : List BoardEvent) : said (es ++ fs) = said es ++ said fs :=
  List.filter_append ..

theorem said_ofCacheEvent (k : Nat) (es : List CacheEvent) :
    said (es.map (ofCacheEvent k)) = (Cache.notices es).map fun x => .told k x.1 x.2 := by
  induction es with
  | nil => rfl
  | cons e es ih =>
    cases e with
    | told i n => exact congrArg (BoardEvent.told k i n :: ·) ih
    | _ => exact ih

end Board

/-- Every ask is answered as the world says, given the earlier asks with their answers. -/
def Follows (world : List (Ask × Answer) → Ask → Answer) (t : List (Ask × Answer)) : Prop :=
  ∀ h x r u, t = h ++ (x, r) :: u → r = world h x

theorem follows_of_forall {g : Ask → Answer} {t : List (Ask × Answer)} (h : ∀ x ∈ t, x.2 = g x.1) :
    Follows (fun _ => g) t := by
  rintro k x r u rfl
  exact h (x, r) (List.mem_append_right k List.mem_cons_self)

/-! ## Tandems -/

section
variable {α β : Type} {t t' u u' : List (α × β)} {p q : Prop}

/-- After the same asks with the same answers, one ask is answered in two ways. -/
def Diverge (t t' : List (α × β)) : Prop :=
  ∃ h x r r' u u', t = h ++ (x, r) :: u ∧ t' = h ++ (x, r') :: u' ∧ r ≠ r'

def Tandem (t t' : List (α × β)) (p : Prop) : Prop := Diverge t t' ∨ t = t' ∧ p

theorem Follows.not_diverge {world : List (Ask × Answer) → Ask → Answer} {t t' : List (Ask × Answer)}
    (ht : Follows world t) (ht' : Follows world t') : ¬ Diverge t t' := by
  rintro ⟨h, x, r, r', u, u', hu, hu', hne⟩
  exact hne ((ht h x r u hu).trans (ht' h x r' u' hu').symm)

theorem Diverge.append (h : Diverge t t') (u u' : List (α × β)) : Diverge (t ++ u) (t' ++ u') := by
  obtain ⟨h, x, r, r', v, v', rfl, rfl, hne⟩ := h
  exact ⟨h, x, r, r', v ++ u, v' ++ u', by simp, by simp, hne⟩

theorem Diverge.prepend (h : Diverge t t') (u : List (α × β)) : Diverge (u ++ t) (u ++ t') := by
  obtain ⟨h, x, r, r', v, v', rfl, rfl, hne⟩ := h
  exact ⟨u ++ h, x, r, r', v, v', by simp, by simp, hne⟩

theorem Tandem.of (h : p) : Tandem t t p := Or.inr ⟨rfl, h⟩

theorem Tandem.imp (h : Tandem t t' p) (hpq : p → q) : Tandem t t' q :=
  h.imp_right fun ⟨ht, hp⟩ => ⟨ht, hpq hp⟩

theorem Tandem.append (h : Tandem t t' p) (k : p → Tandem u u' q) :
    Tandem (t ++ u) (t' ++ u') q := by
  obtain hdiverge | ⟨rfl, hp⟩ := h
  · exact Or.inl (hdiverge.append u u')
  · obtain hdiverge | ⟨rfl, hq⟩ := k hp
    · exact Or.inl (hdiverge.prepend t)
    · exact Tandem.of hq

theorem Tandem.cons {x : α} {r r' : β} (k : r = r' → Tandem u u' q) :
    Tandem ((x, r) :: u) ((x, r') :: u') q := by
  by_cases h : r = r'
  · obtain hdiverge | ⟨rfl, hq⟩ := k h
    · rw [h]
      exact Or.inl (hdiverge.prepend [(x, r')])
    · exact Or.inr ⟨by rw [h], hq⟩
  · exact Or.inl ⟨[], x, r, r', u, u', rfl, rfl, h⟩

end

/-! ## A cache -/

namespace Cache

/-- What the listeners of the cache at place `k` are asked, when a notice is told. -/
def asksTell (k : Nat) (n : Notice) : Nat → List Listener → List (Ask × Answer)
  | _, [] => []
  | i, l :: ls => (.tell k i n, .listener (l.reply n)) ::
      if (l.reply n).isSome then [] else asksTell k n (i + 1) ls

def asksAnnounce (k : Nat) : List Notice → List Listener → List (Ask × Answer)
  | [], _ => []
  | n :: ns, ls => asksTell k n 0 ls ++
      if (tell n 0 ls).2.2.isSome then [] else asksAnnounce k ns (tell n 0 ls).1

/-- A notice that cannot be refused. -/
def asksTellAll (k : Nat) (n : Notice) : Nat → List Listener → List (Ask × Answer)
  | _, [] => []
  | i, _ :: ls => (.tell k i n, .listener none) :: asksTellAll k n (i + 1) ls

def asks (c : Cache) (k : Nat) : Message → List (Ask × Answer)
  | .batchEnd e =>
    if e.closes c.sheet.feed then
      if e.count = 0 ∧ c.sheet.modified = false then asksTellAll k (.untouched e.batch) 0 c.listeners
      else
        let settled := c.sheet.settle e.batch e.time
        asksAnnounce k
          (settled.2.toList.map .snapshot ++ [.ended settled.1 e.batch settled.2.isSome]) c.listeners
    else []
  | _ => []

theorem said_tell (k : Nat) (n : Notice) (i : Nat) (ls : List Listener) :
    (notices (tell n i ls).2.1).map (fun x => .told k x.1 x.2) =
      (asksTell k n i ls).filterMap Ask.seen? := by
  induction ls generalizing i with
  | nil => rfl
  | cons l ls ih =>
    simp only [tell, asksTell]
    cases l.reply n with
    | some e => rfl
    | none => exact congrArg _ (ih (i + 1))

theorem said_announce (k : Nat) (ns : List Notice) (ls : List Listener) :
    (notices (announce ns ls).2.1).map (fun x => .told k x.1 x.2) =
      (asksAnnounce k ns ls).filterMap Ask.seen? := by
  induction ns generalizing ls with
  | nil => rfl
  | cons n ns ih =>
    have htell := said_tell k n 0 ls
    simp only [announce, asksAnnounce, List.filterMap_append, ← htell]
    rcases tell n 0 ls with ⟨ls, es, failed⟩
    cases failed with
    | some e => exact (List.append_nil _).symm
    | none => rw [notices_append, List.map_append, ih]; rfl

theorem said_tellAll (k : Nat) (n : Notice) (i : Nat) (ls : List Listener) :
    (notices (tellAll n i ls).2).map (fun x => .told k x.1 x.2) =
      (asksTellAll k n i ls).filterMap Ask.seen? := by
  induction ls generalizing i with
  | nil => rfl
  | cons l ls ih => exact congrArg _ (ih (i + 1))

/-- A cache asks its listeners what it is seen to tell them, no more and no less. -/
theorem said_consume (c : Cache) (k : Nat) (m : Message) :
    Board.said ((c.consume m).2.1.map (Board.ofCacheEvent k)) =
      (c.asks k m).filterMap Ask.seen? := by
  rw [Board.said_ofCacheEvent]
  cases m with
  | batchEnd e =>
    simp only [consume, asks]
    by_cases hcloses : e.closes c.sheet.feed = true
    · rw [if_pos hcloses, if_pos hcloses]
      split
      · rw [← said_tellAll]
        simp only [noUpdates, hcloses, if_true]
        rw [notices_append]
        simp [notices, CacheEvent.notice?]
      · rw [← said_announce]
        simp only [commit]
        rw [notices_append, notices_append]
        cases (announce _ c.listeners).2.2 <;> simp [notices, CacheEvent.notice?]
    · rw [if_neg hcloses, if_neg hcloses]
      rfl
  | _ => rw [notices_consume_of_not_isEnd c rfl]; rfl

/-! ## Caches in tandem -/

/-- A cache without the answers of its listeners. -/
def heard (c : Cache) : Sheet × List (List Notice) := (c.sheet, c.listeners.map (·.heard))

section
variable {ls ls' : List Listener}

theorem tandem_tell (k : Nat) (n : Notice) (i : Nat) (h : ls.map (·.heard) = ls'.map (·.heard)) :
    Tandem (asksTell k n i ls) (asksTell k n i ls')
      ((tell n i ls).1.map (·.heard) = (tell n i ls').1.map (·.heard) ∧
        (tell n i ls).2.2 = (tell n i ls').2.2) := by
  induction ls generalizing ls' i with
  | nil =>
    rw [List.map_eq_nil_iff.mp h.symm]
    exact Tandem.of ⟨rfl, rfl⟩
  | cons l ls ih =>
    obtain ⟨l', ls', rfl, hl, hls⟩ := List.map_eq_cons_iff.mp h.symm
    rw [asksTell, asksTell]
    refine Tandem.cons fun hanswer => ?_
    have hreply : l.reply n = l'.reply n := by injection hanswer
    cases hl' : l'.reply n with
    | some e =>
      rw [hl'] at hreply
      rw [hreply]
      refine Tandem.of ?_
      simp [tell, hreply, hl', hls, hl, Listener.hear]
    | none =>
      rw [hl'] at hreply
      simp only [hreply, Option.isSome_none, Bool.false_eq_true, if_false, tell, hl']
      refine (ih (i + 1) hls.symm).imp fun hrest => ?_
      simp [hrest, hl, Listener.hear]

theorem tandem_announce (k : Nat) (ns : List Notice) (h : ls.map (·.heard) = ls'.map (·.heard)) :
    Tandem (asksAnnounce k ns ls) (asksAnnounce k ns ls')
      ((announce ns ls).1.map (·.heard) = (announce ns ls').1.map (·.heard) ∧
        (announce ns ls).2.2 = (announce ns ls').2.2) := by
  induction ns generalizing ls ls' with
  | nil => exact Tandem.of ⟨h, rfl⟩
  | cons n ns ih =>
    refine (tandem_tell k n 0 h).append fun htell => ?_
    obtain ⟨hheard, hfailed⟩ := htell
    simp only [announce]
    rcases hone : tell n 0 ls with ⟨one, _, failed⟩
    rcases hother : tell n 0 ls' with ⟨other, _, failed'⟩
    rw [hone, hother] at hheard hfailed
    simp only at hheard hfailed
    subst hfailed
    cases failed with
    | some e => exact Tandem.of ⟨hheard, rfl⟩
    | none => exact ih hheard

theorem asksTellAll_eq (k : Nat) (n : Notice) (i : Nat) (h : ls.map (·.heard) = ls'.map (·.heard)) :
    asksTellAll k n i ls = asksTellAll k n i ls' ∧
      (tellAll n i ls).1.map (·.heard) = (tellAll n i ls').1.map (·.heard) := by
  induction ls generalizing ls' i with
  | nil =>
    rw [List.map_eq_nil_iff.mp h.symm]
    exact ⟨rfl, rfl⟩
  | cons l ls ih =>
    obtain ⟨l', ls', rfl, hl, hls⟩ := List.map_eq_cons_iff.mp h.symm
    obtain ⟨hasks, hrest⟩ := ih (i + 1) hls.symm
    simp [asksTellAll, tellAll, hasks, hrest, hl, Listener.hear]

end

theorem tandem_consume (k : Nat) (m : Message) {c d : Cache} (h : c.heard = d.heard) :
    Tandem (c.asks k m) (d.asks k m)
      ((c.consume m).1.heard = (d.consume m).1.heard ∧ (c.consume m).2.2 = (d.consume m).2.2) := by
  obtain ⟨x, ls⟩ := c
  obtain ⟨y, ls'⟩ := d
  obtain ⟨rfl, hls⟩ := Prod.mk.inj h
  have hls : ls.map (·.heard) = ls'.map (·.heard) := hls
  cases m with
  | quote q =>
    refine Tandem.of ?_
    simp only [consume]
    split <;> simp [heard, quote, onSheet, hls]
  | withdrawal w =>
    refine Tandem.of ?_
    simp only [consume]
    split <;> simp [heard, withdraw, onSheet, hls]
  | trade t => exact Tandem.of ⟨by simp [heard, consume, tradeDone, onSheet, hls], rfl⟩
  | rebuild r => exact Tandem.of ⟨by simp [heard, consume, clear, markRebuilt, hls], rfl⟩
  | batchEnd e =>
    simp only [asks, consume]
    split
    · split
      · obtain ⟨hasks, hheard⟩ := asksTellAll_eq k (.untouched e.batch) 0 hls
        rw [hasks]
        refine Tandem.of ?_
        simp only [noUpdates]
        split <;> simp [heard, hheard]
      · refine (tandem_announce k _ hls).imp fun htold => ?_
        simp only [heard, commit, htold, and_self]
    · exact Tandem.of ⟨by simp [heard, hls], rfl⟩

end Cache

/-! ## An engine -/

namespace Engine

def asks (e : Engine) (k : Nat) (s : Side) (m : Message) : List (Ask × Answer) :=
  (e.update? s m).toList.map fun u => (.offer k u, .publisher (e.publisher.reply u))

/-- An engine asks its publisher to take what it is seen to publish, and what is refused. -/
theorem said_handle (e : Engine) (k : Nat) (s : Side) (m : Message) :
    Board.said ((e.handle s m).2.1.map (Board.ofEngineEvent k)) =
      (e.asks k s m).filterMap Ask.seen? := by
  unfold handle asks update?
  by_cases hm : m.feed = e.feed s
  · rw [if_pos hm, if_pos hm]
    cases e.absorb s m with
    | mk b u =>
      cases u with
      | none => rfl
      | some u =>
        simp only [publish, Option.toList_some, List.map_cons, List.map_nil]
        cases e.publisher.reply u <;> rfl
  · rw [if_neg hm, if_neg hm]
    rfl

theorem answer_handle (e : Engine) (s : Side) (m : Message) :
    (e.handle s m).2.2 =
      (e.update? s m).bind fun u => (e.publisher.reply u).map fun why => ⟨u.batch, why⟩ := by
  unfold handle update?
  by_cases hm : m.feed = e.feed s
  · rw [if_pos hm, if_pos hm]
    cases e.absorb s m with
    | mk b u =>
      cases u with
      | none => rfl
      | some u =>
        simp only [publish, Option.bind_some]
        cases e.publisher.reply u <;> rfl
  · rw [if_neg hm, if_neg hm]
    rfl

theorem update?_muted (e : Engine) (s : Side) (m : Message) : e.muted.update? s m = e.update? s m := by
  have habsorb : e.muted.absorb s m = e.absorb s m := by cases m <;> rfl
  have hfeed : e.muted.feed s = e.feed s := by cases s <;> rfl
  rw [update?, update?, habsorb, hfeed]

theorem tandem_handle (k : Nat) (s : Side) (m : Message) {e d : Engine} (h : e.muted = d.muted) :
    Tandem (e.asks k s m) (d.asks k s m)
      ((e.handle s m).1.muted = (d.handle s m).1.muted ∧ (e.handle s m).2.2 = (d.handle s m).2.2) := by
  have hstate : (e.handle s m).1.muted = (d.handle s m).1.muted := by
    rw [← handle_muted, ← handle_muted, h]
  have hupdate : e.update? s m = d.update? s m := by rw [← update?_muted, h, update?_muted]
  rw [asks, asks, answer_handle, answer_handle, hupdate]
  cases d.update? s m with
  | none => exact Tandem.of ⟨hstate, rfl⟩
  | some u =>
    refine Tandem.cons fun hanswer => Tandem.of ⟨hstate, ?_⟩
    have hreply : e.publisher.reply u = d.publisher.reply u := by injection hanswer
    simp only [Option.bind_some, hreply]

end Engine

end QuoteBoard
