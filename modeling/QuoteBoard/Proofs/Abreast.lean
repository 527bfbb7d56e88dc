import QuoteBoard.Proofs.TwoFeeds

/-!
# Sides that keep abreast

A barrier knows that a side has committed, not in which batch. So an update holds the changes of one
batch only when the sides keep abreast (`Engine.Abreast`): their feeds end the same batches, and
neither side changes or ends anything while it is a batch ahead. `Engine.Standing` is where two such
sides can be between messages, `Standing.next` is one more message, and `joins_of_abreast` is what
an update then holds. `not_joins_apart` shows sides that are not abreast.
-/

namespace QuoteBoard

open Message BarrierCall

namespace Message

theorem changesOn_of_added {s : Side} {m : Message} {a : Addition} (h : m.addedOn? s = some a) :
    m.changesOn s := by
  cases m with
  | quote q => exact decide_eq_true (Option.ite_none_right_eq_some.mp h).1
  | _ => cases h

theorem changesOn_of_removed {s : Side} {m : Message} {i : ItemId} (h : m.removedOn? s = some i) :
    m.changesOn s := by
  cases m with
  | withdrawal w => exact decide_eq_true (Option.ite_none_right_eq_some.mp h).1
  | _ => cases h

end Message

theorem Side.eq_opposite {s t : Side} (h : t ≠ s) : t = s.opposite := by
  cases s <;> cases t <;> first | rfl | exact absurd rfl h

namespace Engine

def ends (s : Side) (hs : List (Side × Message)) : List BatchId :=
  ((share s hs).filter isEnd).map (·.batch)

/-- What the feeds of an engine bring, in one order. The ids that end the batches of a feed grow, and
a change has the id of the end after it. -/
structure Streams (e : Engine) (hs : List (Side × Message)) : Prop where
  feed : ∀ x ∈ hs, x.2.feed = e.feed x.1
  grows : ∀ s, (ends s hs).Pairwise (· < ·)
  change : ∀ pre x, pre ++ [x] <+: hs → x.2.changesOn x.1 →
    ∀ n ∈ (ends x.1 hs)[ended x.1 pre]?, x.2.batch = n

/-- The feeds end the same batches, and changes and ends come on a side only when the other one has
ended as many. -/
structure Abreast (hs : List (Side × Message)) : Prop where
  paired : ends .bid hs <+: ends .offer hs ∨ ends .offer hs <+: ends .bid hs
  apart : ∀ pre x, pre ++ [x] <+: hs → x.2.changesOn x.1 ∨ x.2.isEnd →
    ended x.1 pre ≤ ended x.1.opposite pre

/-- The update that an end gives after the messages `pre` has the changes of its batch and no others,
and the last end on the other side was that of the same batch. -/
structure Joins (pre : List (Side × Message)) (s : Side) (b : BatchEnd) (u : Update) : Prop where
  batch : u.batch = b.batch
  other : (ends s.opposite pre).getLast? = some b.batch
  added : ∀ t, u.added t = (share t (pre.filter (·.2.batch = b.batch))).filterMap (addedOn? t)
  removed : u.removed =
    (pre.filter (·.2.batch = b.batch)).filterMap fun x => x.2.removedOn? x.1

/-! ## Ends -/

theorem ended_append (s : Side) (hs ks : List (Side × Message)) :
    ended s (hs ++ ks) = ended s hs + ended s ks := by
  unfold ended
  rw [share_append, List.countP_append]

theorem ended_singleton (s : Side) (x : Side × Message) :
    ended s [x] = if x.1 = s ∧ x.2.isEnd then 1 else 0 := by
  by_cases hs : x.1 = s <;> simp [ended, share, hs, List.countP_cons]

theorem length_ends (s : Side) (hs : List (Side × Message)) : (ends s hs).length = ended s hs := by
  unfold ends ended
  rw [List.length_map, List.countP_eq_length_filter]

theorem ends_append (s : Side) (hs ks : List (Side × Message)) :
    ends s (hs ++ ks) = ends s hs ++ ends s ks := by
  unfold ends
  rw [share_append, List.filter_append, List.map_append]

theorem ends_prefix (s : Side) {hs ks : List (Side × Message)} (h : hs <+: ks) :
    ends s hs <+: ends s ks := ((h.filterMap _).filter _).map _

theorem Abreast.ends_eq {hs : List (Side × Message)} (ha : Abreast hs) {s : Side} {i : Nat}
    {m n : BatchId} (hm : (ends s hs)[i]? = some m) (hn : (ends s.opposite hs)[i]? = some n) :
    m = n := by
  have heq : ∀ {l r : List BatchId} {a c : BatchId}, l <+: r → l[i]? = some a → r[i]? = some c →
      a = c := by
    intro l r a c hlr hl hr
    obtain ⟨hi, rfl⟩ := List.getElem?_eq_some_iff.mp hl
    exact Option.some.inj ((List.prefix_iff_getElem?.mp hlr i hi).symm.trans hr)
  rcases ha.paired with hbid | hoffer
  · cases s with
    | bid => exact heq hbid hm hn
    | offer => exact (heq hbid hn hm).symm
  · cases s with
    | bid => exact (heq hoffer hn hm).symm
    | offer => exact heq hoffer hm hn

theorem snoc_prefix_append {p old new : List (Side × Message)} {x : Side × Message}
    (h : p ++ [x] <+: old ++ new) :
    p ++ [x] <+: old ∨ ∃ q, p = old ++ q ∧ q ++ [x] <+: new := by
  rcases List.prefix_or_prefix_of_prefix h (List.prefix_append old new) with hold | ⟨q, hq⟩
  · exact Or.inl hold
  · rcases List.eq_nil_or_concat q with rfl | ⟨q, y, rfl⟩
    · rw [List.append_nil] at hq
      exact Or.inl (hq ▸ List.prefix_rfl)
    · rw [List.concat_eq_append, ← List.append_assoc] at hq
      obtain ⟨rfl, hy⟩ := List.append_inj' hq rfl
      refine Or.inr ⟨q, rfl, ?_⟩
      rwa [List.append_assoc, List.prefix_append_right_inj] at h

/-! ## One more message -/

/-- The messages `old` are whole batches of both sides. In the messages `new` after them the side `s`
has ended nothing, the other one at most one batch. -/
structure Standing (product : String) (old new : List (Side × Message)) (s : Side) : Prop where
  closed : (cycles (calls product old)).2 = []
  level : ended s.opposite old = ended s old
  waiting : ended s new = 0
  ahead : ended s.opposite new ≤ 1
  past : ∀ p x, p ++ [x] <+: old → x.2.changesOn x.1 → ended x.1 p < ended x.1 old

section
variable {product : String} {old new : List (Side × Message)} {s : Side}

theorem Standing.cycle (h : Standing product old new s) :
    (cycles (calls product (old ++ new))).2 = calls product new := by
  have hopen : (calls product new).any (commits s) = false := by
    rw [commits_calls, List.any_eq_false]
    exact fun m hm => by simpa using List.countP_eq_zero.mp h.waiting m hm
  rw [calls_append, (open_cycle h.closed hopen fun k => flag_calls).1]

/-- Between two whole batches of both sides, either side can be the one to wait. -/
theorem Standing.swap (h : Standing product old new s) (hnone : ended s.opposite new = 0) :
    Standing product old new s.opposite where
  closed := h.closed
  level := by rw [s.opposite_opposite, h.level]
  waiting := hnone
  ahead := by rw [s.opposite_opposite, h.waiting]; omega
  past := h.past

theorem Standing.present (h : Standing product old new s) {hs : List (Side × Message)}
    (ha : Abreast hs) {p : List (Side × Message)} {x : Side × Message} (hp : p <+: new)
    (hx : (old ++ p) ++ [x] <+: hs) (hc : x.2.changesOn x.1 ∨ x.2.isEnd) : ended x.1 p = 0 := by
  have hle := ha.apart (old ++ p) x hx hc
  have hwaits : ended s p = 0 := by
    obtain ⟨q, rfl⟩ := hp
    have := h.waiting
    rw [ended_append] at this
    omega
  have hlevel := h.level
  rw [ended_append, ended_append] at hle
  by_cases hs : x.1 = s
  · rw [hs, hwaits]
  · have hopp : x.1 = s.opposite := Side.eq_opposite hs
    rw [hopp, s.opposite_opposite] at hle
    rw [hopp]
    omega

theorem Standing.stay (h : Standing product old new s) {x : Side × Message}
    (hx : ended s [x] = 0) (hahead : ended s.opposite new + ended s.opposite [x] ≤ 1) :
    Standing product old (new ++ [x]) s where
  closed := h.closed
  level := h.level
  waiting := by rw [ended_append, h.waiting, hx]
  ahead := by rw [ended_append]; exact hahead
  past := h.past

theorem Standing.close (h : Standing product old new s) {hs : List (Side × Message)}
    (ha : Abreast hs) {b : BatchEnd} (hpre : (old ++ new) ++ [(s, .batchEnd b)] <+: hs)
    (hone : ended s.opposite new = 1) :
    Standing product ((old ++ new) ++ [(s, .batchEnd b)]) [] s := by
  have hne : s ≠ s.opposite := by cases s <;> simp [Side.opposite]
  have hown : ended s [(s, .batchEnd b)] = 1 := by simp [ended_singleton, isEnd]
  have hother : ended s.opposite [(s, .batchEnd b)] = 0 := by simp [ended_singleton, hne]
  have hlevel := h.level
  have hwaiting := h.waiting
  have hnext : ∀ t, ended t old < ended t ((old ++ new) ++ [(s, .batchEnd b)]) := by
    intro t
    rw [ended_append, ended_append]
    by_cases ht : t = s
    · rw [ht]
      omega
    · rw [Side.eq_opposite ht]
      omega
  refine ⟨?_, ?_, rfl, Nat.zero_le 1, ?_⟩
  · have hcommitted : (calls product new).any (commits s.opposite) = true := by
      rw [commits_calls, List.any_eq_true]
      exact List.countP_pos_iff.mp (by rw [← ended, hone]; omega)
    rw [calls_append]
    show (cycles (calls product (old ++ new) ++ [.commit product b.batch s])).2 = []
    rw [cycles_snoc, h.cycle, closes, if_pos hcommitted]
  · simp only [ended_append]
    omega
  · intro p x hp hx
    rcases List.prefix_concat_iff.mp hp with hlast | hbefore
    · obtain ⟨_, hx'⟩ := List.append_inj' hlast rfl
      rw [List.singleton_inj.mp hx'] at hx
      cases hx
    · rcases snoc_prefix_append hbefore with hold | ⟨q, rfl, hnew⟩
      · exact (h.past p x hold hx).trans (hnext x.1)
      · have hfirst : ended x.1 q = 0 := by
          apply h.present ha ((List.prefix_append q [x]).trans hnew) _ (Or.inl hx)
          exact (hbefore.trans (List.prefix_append _ _)).trans hpre
        rw [ended_append, hfirst]
        exact hnext x.1

theorem Standing.next (h : Standing product old new s) {hs : List (Side × Message)}
    (ha : Abreast hs) {x : Side × Message} (hpre : (old ++ new) ++ [x] <+: hs) :
    ∃ old' new' s', (old ++ new) ++ [x] = old' ++ new' ∧ Standing product old' new' s' := by
  have hahead := h.ahead
  by_cases hend : x.2.isEnd
  · have hx : ∀ t, ended t [x] = if x.1 = t then 1 else 0 := fun t => by simp [ended_singleton, hend]
    have hne : s.opposite ≠ s := by cases s <;> simp [Side.opposite]
    by_cases hs : x.1 = s
    · by_cases hnone : ended s.opposite new = 0
      · -- the first end after whole batches: now the other side is the one to wait
        refine ⟨old, new ++ [x], s.opposite, List.append_assoc .., (h.swap hnone).stay ?_ ?_⟩
        · rw [hx, if_neg (by rw [hs]; exact hne.symm)]
        · rw [s.opposite_opposite, h.waiting, hx, if_pos hs]
      · obtain ⟨t, m⟩ := x
        obtain rfl : t = s := hs
        cases m with
        | batchEnd b => exact ⟨_, [], t, (List.append_nil _).symm, h.close ha hpre (by omega)⟩
        | _ => cases hend
    · have hopp : x.1 = s.opposite := Side.eq_opposite hs
      have hfirst : ended s.opposite new = 0 := by
        rw [← hopp]
        exact h.present ha List.prefix_rfl hpre (Or.inr hend)
      refine ⟨old, new ++ [x], s, List.append_assoc .., h.stay ?_ ?_⟩
      · rw [hx, if_neg hs]
      · rw [hfirst, hx, if_pos hopp]
  · have hzero : ∀ t, ended t [x] = 0 := fun t => by simp [ended_singleton, hend]
    refine ⟨old, new ++ [x], s, List.append_assoc .., h.stay (hzero s) ?_⟩
    rw [hzero]
    exact hahead

theorem exists_standing (product : String) {hs : List (Side × Message)} (ha : Abreast hs)
    {pre : List (Side × Message)} (hpre : pre <+: hs) :
    ∃ old new s, pre = old ++ new ∧ Standing product old new s := by
  induction pre using List.reverseRecOn with
  | nil => exact ⟨[], [], .bid, rfl, rfl, rfl, rfl, Nat.zero_le 1, by simp⟩
  | append_singleton pre x ih =>
    obtain ⟨old, new, s, rfl, h⟩ := ih ((List.prefix_append pre [x]).trans hpre)
    exact h.next ha hpre

end

/-! ## The batch of an update -/

section
variable {e : Engine} {hs old new : List (Side × Message)} {s : Side} {b : BatchEnd}

theorem ends_of_prefix {pre : List (Side × Message)} (hpre : pre ++ [(s, .batchEnd b)] <+: hs) :
    (ends s hs)[ended s pre]? = some b.batch := by
  obtain ⟨post, hpost⟩ := ends_prefix s hpre
  have hlast : ends s [(s, .batchEnd b)] = [b.batch] := by
    have hown : share s [(s, .batchEnd b)] = [.batchEnd b] := by simp [share]
    rw [ends, hown]
    rfl
  rw [← hpost, ends_append, hlast, ← length_ends]
  simp

theorem Standing.ends_eq (h : Standing e.product old new s) (ha : Abreast hs)
    (hpre : (old ++ new) ++ [(s, .batchEnd b)] <+: hs) (hone : ended s.opposite new = 1) :
    (ends s.opposite (old ++ new)).getLast? = some b.batch ∧
      ∀ t, (ends t hs)[ended t old]? = some b.batch := by
  have hlevel := h.level
  have hcount : ended s (old ++ new) = ended s old := by rw [ended_append, h.waiting, Nat.add_zero]
  have hown : (ends s hs)[ended s old]? = some b.batch := by
    rw [← hcount]
    exact ends_of_prefix hpre
  have hlen : (ends s.opposite (old ++ new)).length = ended s old + 1 := by
    rw [length_ends, ended_append]
    omega
  have hlast : (ends s.opposite (old ++ new)).getLast? = (ends s.opposite hs)[ended s old]? := by
    obtain ⟨post, hpost⟩ := ends_prefix s.opposite ((List.prefix_append _ _).trans hpre)
    rw [← hpost, List.getLast?_eq_getElem?, hlen, List.getElem?_append_left (by omega)]
    rfl
  obtain ⟨n, hn⟩ : ∃ n, (ends s.opposite (old ++ new)).getLast? = some n := by
    rw [List.getLast?_eq_getElem?, hlen]
    exact ⟨_, List.getElem?_eq_getElem (by omega)⟩
  have hother : (ends s.opposite hs)[ended s old]? = some n := by rw [← hlast, hn]
  obtain rfl := ha.ends_eq hown hother
  refine ⟨hn, fun t => ?_⟩
  by_cases ht : t = s
  · rw [ht]
    exact hown
  · rw [Side.eq_opposite ht, hlevel]
    exact hother

theorem Streams.batch_ne (hstreams : Streams e hs) (h : Standing e.product old new s)
    (hold : old <+: hs) (hends : ∀ t, (ends t hs)[ended t old]? = some b.batch)
    {x : Side × Message} (hx : x ∈ old) (hc : x.2.changesOn x.1) : x.2.batch ≠ b.batch := by
  obtain ⟨p, q, rfl⟩ := List.append_of_mem hx
  have hp : p ++ [x] <+: p ++ x :: q := ⟨q, by simp⟩
  have hlt := h.past p x hp hc
  obtain ⟨hbound, hlast⟩ := List.getElem?_eq_some_iff.mp (hends x.1)
  have hgrows := List.pairwise_iff_getElem.mp (hstreams.grows x.1) _ _ (hlt.trans hbound) hbound hlt
  have hown := hstreams.change p x (hp.trans hold) hc _ (List.getElem?_eq_getElem (hlt.trans hbound))
  intro heq
  rw [← hown, hlast, heq] at hgrows
  exact UInt64.lt_irrefl _ hgrows

theorem Streams.batch_eq (hstreams : Streams e hs) (h : Standing e.product old new s)
    (ha : Abreast hs) (hnew : old ++ new <+: hs)
    (hends : ∀ t, (ends t hs)[ended t old]? = some b.batch)
    {x : Side × Message} (hx : x ∈ new) (hc : x.2.changesOn x.1) : x.2.batch = b.batch := by
  obtain ⟨p, q, rfl⟩ := List.append_of_mem hx
  have hp : (old ++ p) ++ [x] <+: hs := List.IsPrefix.trans ⟨q, by simp⟩ hnew
  have hfirst := h.present ha (List.prefix_append p (x :: q)) hp (Or.inl hc)
  apply hstreams.change (old ++ p) x hp hc
  rw [ended_append, hfirst]
  exact hends x.1

end

theorem filterMap_batch {α : Type} {g : Side × Message → Option α} {n : BatchId}
    {old new : List (Side × Message)} (hg : ∀ x a, g x = some a → x.2.changesOn x.1)
    (hold : ∀ x ∈ old, x.2.changesOn x.1 → x.2.batch ≠ n)
    (hnew : ∀ x ∈ new, x.2.changesOn x.1 → x.2.batch = n) :
    ((old ++ new).filter (·.2.batch = n)).filterMap g = new.filterMap g := by
  rw [List.filterMap_filter, List.filterMap_append]
  have hnone : old.filterMap (fun x => if x.2.batch = n then g x else none) = [] := by
    rw [List.filterMap_eq_nil_iff]
    intro x hx
    cases hgx : g x with
    | none => simp
    | some a => simp [hold x hx (hg x a hgx)]
  have hall : new.filterMap (fun x => if x.2.batch = n then g x else none) = new.filterMap g := by
    apply List.filterMap_congr
    intro x hx
    cases hgx : g x with
    | none => simp
    | some a => simp [hnew x hx (hg x a hgx)]
  simpa [hnone] using hall

theorem filterMap_share {α : Type} (t : Side) (g : Message → Option α) (hs : List (Side × Message)) :
    (share t hs).filterMap g = hs.filterMap fun x => if x.1 = t then g x.2 else none := by
  unfold share
  rw [List.filterMap_filterMap]
  congr 1
  funext x
  by_cases hx : x.1 = t <;> simp [hx]

/-- A new engine takes the messages of its two feeds, whose sides keep abreast. An end that gives an
update then finds that the last end on the other side was that of the same batch, and the update has
exactly the changes of this batch. -/
theorem joins_of_abreast {e : Engine} (hb : e.barrier = {}) {hs : List (Side × Message)}
    (hstreams : Streams e hs) (ha : Abreast hs) {pre : List (Side × Message)} {s : Side}
    {b : BatchEnd} (hpre : pre ++ [(s, .batchEnd b)] <+: hs) {u : Update}
    (hu : ((e.run pre).1.barrier.commit e.product b.batch s).2 = some u) : Joins pre s b u := by
  have hhs : pre <+: hs := (List.prefix_append _ _).trans hpre
  have hbarrier : (e.run pre).1.barrier = (Barrier.run {} (calls e.product pre)).1 := by
    rw [(run_calls fun x hx => hstreams.feed x (hhs.subset hx)).1, hb]
    rfl
  obtain ⟨old, new, t, rfl, h⟩ := exists_standing e.product ha hhs
  have hanswer : answer (calls e.product (old ++ new)) (.commit e.product b.batch s) = some u := by
    rw [← (accumulates_run _).answer_eq, ← hbarrier]
    exact hu
  simp only [answer, h.cycle, Option.ite_none_right_eq_some, Option.some.injEq] at hanswer
  obtain ⟨⟨hcloses, _⟩, rfl⟩ := hanswer
  have hother : 0 < ended s.opposite new := by
    rw [closes, commits_calls, List.any_eq_true] at hcloses
    exact List.countP_pos_iff.mpr hcloses
  obtain rfl : s = t := by
    by_contra hne
    have hwaits := h.waiting
    rw [Side.eq_opposite (Ne.symm hne)] at hwaits
    omega
  have hone : ended s.opposite new = 1 := Nat.le_antisymm h.ahead hother
  obtain ⟨hlast, hends⟩ := h.ends_eq ha hpre hone
  have hjoin := fun {α : Type} (g : Side × Message → Option α) hg =>
    filterMap_batch (g := g) hg
      (fun x => hstreams.batch_ne h ((List.prefix_append _ _).trans hhs) hends)
      (fun x => hstreams.batch_eq h ha hhs hends)
  refine ⟨rfl, hlast, fun t => ?_, ?_⟩
  · have hadded : (share t ((old ++ new).filter (·.2.batch = b.batch))).filterMap (addedOn? t) =
        additions t (calls e.product new) := by
      rw [additions_calls, filterMap_share, filterMap_share]
      apply hjoin
      intro x a hx
      obtain ⟨rfl, ha⟩ := Option.ite_none_right_eq_some.mp hx
      exact changesOn_of_added ha
    rw [hadded]
    cases t <;> exact zipWith3_columns _
  · exact (removals_calls e.product new).trans (hjoin _ fun x a => changesOn_of_removed).symm

theorem streams_of_steps {e : Engine} {hs : List (Side × Message)}
    (hfeed : ∀ x ∈ hs, x.2.feed = e.feed x.1) (hgrows : ∀ s, (ends s hs).Pairwise (· < ·))
    (hsteps : ∀ n, (hs.get n).2.changesOn (hs.get n).1 →
      ∀ i ∈ (ends (hs.get n).1 hs)[ended (hs.get n).1 (hs.take n)]?, (hs.get n).2.batch = i) :
    Streams e hs := by
  refine ⟨hfeed, hgrows, ?_⟩
  rintro pre x ⟨post, rfl⟩
  have hstep := hsteps ⟨pre.length, by simp⟩
  simpa using hstep

theorem abreast_of_steps {hs : List (Side × Message)}
    (hpaired : ends .bid hs <+: ends .offer hs ∨ ends .offer hs <+: ends .bid hs)
    (hsteps : ∀ n, (hs.get n).2.changesOn (hs.get n).1 ∨ (hs.get n).2.isEnd →
      ended (hs.get n).1 (hs.take n) ≤ ended (hs.get n).1.opposite (hs.take n)) : Abreast hs := by
  refine ⟨hpaired, ?_⟩
  rintro pre x ⟨post, rfl⟩
  have hstep := hsteps ⟨pre.length, by simp⟩
  simpa using hstep

def sampleQuote (n : UInt64) : Side × Message :=
  (.bid, .quote ⟨sampleEngine.bidFeed, ⟨"a"⟩, ⟨100⟩, ⟨1⟩, .bid, ⟨n⟩, 1⟩)

def sampleEnd (s : Side) (n : UInt64) : BatchEnd := ⟨sampleEngine.feed s, ⟨n⟩, 1, 1⟩

/-- A cycle of both sides with a change, and the bid side's part of the next one. -/
def sampleAbreast : List (Side × Message) :=
  [sampleQuote 1, (.offer, .batchEnd (sampleEnd .offer 1)), (.bid, .batchEnd (sampleEnd .bid 1)),
    sampleQuote 2, (.bid, .batchEnd (sampleEnd .bid 2))]

theorem joins_of_abreast_sample :
    let hs := sampleAbreast ++ [(.offer, .batchEnd (sampleEnd .offer 2))]
    Streams sampleEngine hs ∧ Abreast hs ∧
      ∃ u, ((sampleEngine.run sampleAbreast).1.barrier.commit "P" ⟨2⟩ .offer).2 = some u ∧
        Joins sampleAbreast .offer (sampleEnd .offer 2) u := by
  intro hs
  have hstreams : Streams sampleEngine hs :=
    streams_of_steps (by decide) (by intro s; cases s <;> decide) (by decide)
  have habreast : Abreast hs := abreast_of_steps (by decide) (by decide)
  have hu : ((sampleEngine.run sampleAbreast).1.barrier.commit "P" ⟨2⟩ .offer).2.isSome := by decide
  obtain ⟨u, hu⟩ := Option.isSome_iff_exists.mp hu
  exact ⟨hstreams, habreast, u, hu, joins_of_abreast rfl hstreams habreast List.prefix_rfl hu⟩

/-- Sides that are not abreast. When the offer feed has no batch 1, its end 2 meets the end 1 of the
bid side and gives a change of batch 1 the id 2. When the bid side is a batch ahead, the end 1 of the
offer side gives a change of batch 2 the id 1. -/
theorem not_joins_apart :
    let skipped := [sampleQuote 1, (.bid, .batchEnd (sampleEnd .bid 1))]
    let ahead := skipped ++ [sampleQuote 2, (.bid, .batchEnd (sampleEnd .bid 2))]
    sampleEngine.bidFeed ≠ sampleEngine.offerFeed ∧
      Streams sampleEngine (skipped ++ [(.offer, .batchEnd (sampleEnd .offer 2))]) ∧
      (∃ u, ((sampleEngine.run skipped).1.barrier.commit "P" ⟨2⟩ .offer).2 = some u ∧
        u.batch = ⟨2⟩ ∧ (ends .bid skipped).getLast? = some ⟨1⟩ ∧
        u.added .bid = [⟨⟨"a"⟩, ⟨100⟩, ⟨1⟩⟩] ∧
        ¬ Joins skipped .offer (sampleEnd .offer 2) u) ∧
      Streams sampleEngine (ahead ++ [(.offer, .batchEnd (sampleEnd .offer 1))]) ∧
      ∃ u, ((sampleEngine.run ahead).1.barrier.commit "P" ⟨1⟩ .offer).2 = some u ∧
        u.batch = ⟨1⟩ ∧ (ends .bid ahead).getLast? = some ⟨2⟩ ∧
        u.added .bid = [⟨⟨"a"⟩, ⟨100⟩, ⟨1⟩⟩, ⟨⟨"a"⟩, ⟨100⟩, ⟨1⟩⟩] ∧
        ¬ Joins ahead .offer (sampleEnd .offer 1) u := by
  intro skipped ahead
  have hgrows : ∀ hs, (ends .bid hs).Pairwise (· < ·) → (ends .offer hs).Pairwise (· < ·) →
      ∀ s, (ends s hs).Pairwise (· < ·) := by
    intro hs hbid hoffer s
    cases s <;> assumption
  refine ⟨by decide, streams_of_steps (by decide) (hgrows _ (by decide) (by decide)) (by decide),
    ⟨_, rfl, rfl, rfl, rfl, fun h => ?_⟩,
    streams_of_steps (by decide) (hgrows _ (by decide) (by decide)) (by decide),
    ⟨_, rfl, rfl, rfl, rfl, fun h => ?_⟩⟩
  · exact absurd h.other (by decide)
  · exact absurd h.other (by decide)

end Engine

end QuoteBoard
