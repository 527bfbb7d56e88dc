import Mathlib.Data.List.Infix
import Mathlib.Data.List.Nodup
import QuoteBoard.Clock
import QuoteBoard.Replay.Timers

/-!
# Timers under a clock

An alarm clock has timers and the time, and writes down what comes of them: timers are armed, time
goes on, timers fire, at their time or late, and now and then all of them are cancelled. A timer is
outstanding from its arming until it fires or a cancellation comes (`AlarmClock.outstanding`). The
timers that have not fired are the outstanding ones, so that only such a timer fires, and only when
it is due (`AlarmClock.Kept`). The main statement is `AlarmClock.history_of_steps`.
-/

namespace QuoteBoard

/-! ## Timers that have not fired -/

namespace Timers

variable {α : Type} {ts : Timers α}

theorem live_mark (id : UInt64) (l : List (Timer α)) :
    ((mark id l).filter fun t => !t.fired) =
      (l.filter fun t => !t.fired).eraseP fun t => t.id = id := by
  induction l with
  | nil => rfl
  | cons t l ih =>
    rw [mark]
    cases hf : t.fired with
    | true => simp [hf, ih]
    | false =>
      by_cases hid : t.id = id
      · simp [hf, hid]
      · simp [hf, hid, ih]

theorem fire_cases (ts : Timers α) (id : UInt64) :
    ts.fire id = (ts, none) ∨
      ∃ l t r, ts.live = l ++ t :: r ∧ (ts.fire id).1.live = l ++ r ∧
        (ts.fire id).2 = some t.payload := by
  unfold fire
  cases hf : ts.find? id with
  | none => exact Or.inl rfl
  | some t =>
    obtain ⟨hid, l, r, hlive, hl⟩ := List.find?_eq_some_iff_append.mp hf
    refine Or.inr ⟨l, t, r, hlive, ?_, rfl⟩
    show (mark id ts.handles).filter _ = _
    rw [live_mark]
    show ts.live.eraseP _ = _
    rw [hlive, List.eraseP_append_right _ fun u hu => by simpa using hl u hu, List.eraseP_cons, hid]
    rfl

theorem eraseP_eq_filter {l : List (Timer α)} (hids : (l.map Timer.id).Nodup) (id : UInt64) :
    (l.eraseP fun t => t.id = id) = l.filter fun t => t.id ≠ id := by
  induction l with
  | nil => rfl
  | cons t l ih =>
    obtain ⟨ht, hids⟩ := List.nodup_cons.mp hids
    by_cases hid : t.id = id
    · have hrest : l.filter (fun u => u.id ≠ id) = l := by
        apply List.filter_eq_self.mpr
        intro u hu
        have hne : u.id ≠ id := fun h => ht (List.mem_map.mpr ⟨u, hu, h.trans hid.symm⟩)
        simpa using hne
      simpa [List.eraseP_cons, hid] using hrest.symm
    · simpa [List.eraseP_cons, hid] using ih hids

theorem live_fire (hids : (ts.live.map Timer.id).Nodup) (id : UInt64) :
    (ts.fire id).1.live = ts.live.filter fun t => t.id ≠ id := by
  unfold fire
  cases hf : ts.find? id with
  | none =>
    have hnone := List.find?_eq_none.mp hf
    exact (List.filter_eq_self.mpr fun t ht => by simpa using hnone t ht).symm
  | some t =>
    show (mark id ts.handles).filter _ = _
    rw [live_mark]
    exact eraseP_eq_filter hids id

theorem next_fire (ts : Timers α) (id : UInt64) : (ts.fire id).1.next = ts.next := by
  unfold fire
  split <;> rfl

theorem mem_dueBefore {limit : Nat} {t : Timer α} :
    t ∈ ts.dueBefore limit ↔ t ∈ ts.live ∧ t.due < limit := by
  rw [dueBefore, List.mem_mergeSort, List.mem_filter, decide_eq_true_iff]

theorem nodup_dueBefore (hids : (ts.live.map Timer.id).Nodup) (limit : Nat) :
    ((ts.dueBefore limit).map Timer.id).Nodup := by
  have hperm :=
    List.mergeSort_perm (ts.live.filter fun t => t.due < limit) fun a b => a.due ≤ b.due
  rw [dueBefore, (hperm.map Timer.id).nodup_iff]
  exact hids.sublist (List.filter_sublist.map Timer.id)

end Timers

/-! ## Histories -/

structure Arming where
  /-- How many timers were armed before. -/
  number : Nat
  id : UInt64
  moment : Nat
  delay : Duration
  deriving DecidableEq, Repr

/-- The timer that an arming leaves, when a sleep takes so many milliseconds. -/
def Arming.timer (sleep : Duration → Nat) (a : Arming) : Timer Nat :=
  ⟨a.id, a.moment + sleep a.delay, a.number, false⟩

inductive TimerEvent where
  | armed (a : Arming)
  | fired (number moment : Nat)
  | cancelled (count : Nat)
  deriving DecidableEq, Repr

namespace TimerEvent

@[simp] def arming? : TimerEvent → Option Arming
  | armed a => some a
  | _ => none

@[simp] def firing? : TimerEvent → Option Nat
  | fired n _ => some n
  | _ => none

/-- Whether a timer that is outstanding no longer is: it fires, or all of them are cancelled. -/
def ends (n : Nat) : TimerEvent → Bool
  | armed _ => false
  | fired m _ => m = n
  | cancelled _ => true

@[simp] theorem ends_armed (n : Nat) (a : Arming) : (armed a).ends n = false := rfl

@[simp] theorem ends_fired (n m t : Nat) : (fired m t).ends n = decide (m = n) := rfl

@[simp] theorem ends_cancelled (n k : Nat) : (cancelled k).ends n = true := rfl

end TimerEvent

inductive TimerStep where
  | arm (delay : Duration)
  | cancelAll
  /-- Time goes on, and whatever falls due before the end fires at its time. -/
  | elapse (ms : Nat)
  /-- Time goes on, and nothing gets its turn. -/
  | stall (ms : Nat)
  /-- A timer gets its turn, and fires if it is due. -/
  | wake (id : UInt64)
  deriving DecidableEq, Repr

@[simp] def TimerStep.delay? : TimerStep → Option Duration
  | arm d => some d
  | _ => none

/-- Timers, the time they go by, and what came of them. The payload of a timer is its number. -/
structure AlarmClock where
  now : Nat := 0
  timers : Timers Nat := {}
  history : List TimerEvent := []
  deriving DecidableEq, Repr

namespace AlarmClock

def armings (es : List TimerEvent) : List Arming := es.filterMap TimerEvent.arming?

def firings (es : List TimerEvent) : List Nat := es.filterMap TimerEvent.firing?

/-- The timers that were armed and have neither fired nor been cancelled. -/
def outstanding : List TimerEvent → List Arming
  | [] => []
  | .armed a :: es => if es.any (·.ends a.number) then outstanding es else a :: outstanding es
  | _ :: es => outstanding es

section
variable {es : List TimerEvent} {e : TimerEvent} {a : Arming} {n : Nat}

theorem armings_append (xs ys : List TimerEvent) : armings (xs ++ ys) = armings xs ++ armings ys :=
  List.filterMap_append

@[simp] theorem armings_concat (es : List TimerEvent) (e : TimerEvent) :
    armings (es ++ [e]) = armings es ++ e.arming?.toList := by
  rw [armings_append]
  cases e <;> rfl

@[simp] theorem firings_concat (es : List TimerEvent) (e : TimerEvent) :
    firings (es ++ [e]) = firings es ++ e.firing?.toList := by
  rw [firings, List.filterMap_append]
  cases e <;> rfl

theorem mem_armings : a ∈ armings es ↔ .armed a ∈ es := by
  refine List.mem_filterMap.trans ⟨fun h => ?_, fun h => ⟨_, h, rfl⟩⟩
  obtain ⟨e, he, ha⟩ := h
  cases e <;> cases ha
  exact he

theorem mem_firings : n ∈ firings es ↔ ∃ t, .fired n t ∈ es := by
  refine List.mem_filterMap.trans ⟨fun h => ?_, fun ⟨_, h⟩ => ⟨_, h, rfl⟩⟩
  obtain ⟨e, he, hn⟩ := h
  cases e <;> cases hn
  exact ⟨_, he⟩

theorem outstanding_append (xs ys : List TimerEvent) :
    outstanding (xs ++ ys) =
      (outstanding xs).filter (fun a => !ys.any (·.ends a.number)) ++ outstanding ys := by
  induction xs with
  | nil => rfl
  | cons e xs ih =>
    cases e with
    | armed a =>
      simp only [List.cons_append, outstanding, List.any_append]
      cases hxs : xs.any (·.ends a.number) with
      | true => simpa using ih
      | false => cases hys : ys.any (·.ends a.number) <;> simp [hys, ih]
    | fired n t => exact ih
    | cancelled k => exact ih

@[simp] theorem outstanding_concat (es : List TimerEvent) (e : TimerEvent) :
    outstanding (es ++ [e]) =
      (outstanding es).filter (fun a => !e.ends a.number) ++ e.arming?.toList := by
  rw [outstanding_append]
  cases e <;> simp [outstanding]

theorem outstanding_sublist (es : List TimerEvent) : (outstanding es).Sublist (armings es) := by
  induction es with
  | nil => exact List.Sublist.refl _
  | cons e es ih =>
    cases e with
    | armed a =>
      simp only [outstanding]
      split
      · exact ih.cons a
      · exact ih.cons_cons a
    | fired n t => exact ih
    | cancelled k => exact ih

theorem armings_map_fired (fs : List (Nat × Nat)) :
    armings (fs.map fun f => .fired f.2 f.1) = [] := by
  induction fs with
  | nil => rfl
  | cons f fs ih => exact ih

theorem any_ends_fired (n : Nat) (fs : List (Nat × Nat)) :
    (fs.map fun f => TimerEvent.fired f.2 f.1).any (·.ends n) = decide (n ∈ fs.map Prod.snd) := by
  induction fs with
  | nil => rfl
  | cons f fs ih =>
    simp only [List.map_cons, List.any_cons, List.mem_cons, Bool.decide_or, ih]
    rw [TimerEvent.ends_fired, decide_eq_decide.mpr eq_comm]

theorem outstanding_append_fired (es : List TimerEvent) (fs : List (Nat × Nat)) :
    outstanding (es ++ fs.map fun f => .fired f.2 f.1) =
      (outstanding es).filter fun a => a.number ∉ fs.map Prod.snd := by
  have hnil := outstanding_sublist (fs.map fun f => .fired f.2 f.1)
  rw [armings_map_fired] at hnil
  rw [outstanding_append, List.sublist_nil.mp hnil, List.append_nil]
  simp only [any_ends_fired, decide_not]

theorem exists_prefix_of_mem (h : e ∈ es) : ∃ xs, xs ++ [e] <+: es := by
  obtain ⟨xs, ys, rfl⟩ := List.append_of_mem h
  exact ⟨xs, ys, by simp⟩

end

/-! ## What can come next -/

/-- What an event has to do with those before it, when a sleep takes so many milliseconds. -/
def Fits (sleep : Duration → Nat) (xs : List TimerEvent) : TimerEvent → Prop
  | .armed a => a.number = (armings xs).length ∧ a.id = UInt64.ofNat a.number
  | .fired n t => ∃ a ∈ outstanding xs, a.number = n ∧ a.moment + sleep a.delay ≤ t
  | .cancelled k => k = (outstanding xs).length

def Lawful (sleep : Duration → Nat) (es : List TimerEvent) : Prop :=
  ∀ xs e, xs ++ [e] <+: es → Fits sleep xs e

section
variable {sleep : Duration → Nat} {es xs ys : List TimerEvent} {e : TimerEvent} {a b : Arming}
  {n t : Nat}

theorem lawful_nil : Lawful sleep [] := by
  intro xs e h
  simp at h

theorem Lawful.concat (h : Lawful sleep es) (he : Fits sleep es e) : Lawful sleep (es ++ [e]) := by
  intro xs f hf
  rcases List.prefix_concat_iff.mp hf with heq | hf
  · obtain ⟨rfl, hfe⟩ := List.append_inj' heq rfl
    rwa [List.singleton_inj.mp hfe]
  · exact h xs f hf

theorem Lawful.of_append (h : Lawful sleep (xs ++ ys)) : Lawful sleep xs :=
  fun zs e he => h zs e (he.trans (List.prefix_append xs ys))

/-! The numbers of the timers count them, and with them go the ids until these come round. -/

theorem Lawful.numbers (h : Lawful sleep es) :
    (armings es).map Arming.number = List.range (armings es).length := by
  induction es using List.reverseRecOn with
  | nil => rfl
  | append_singleton es e ih =>
    have ih := ih h.of_append
    have hfits := h es e (List.prefix_refl _)
    rw [armings_concat]
    cases e with
    | armed a =>
      show (armings es ++ [a]).map Arming.number = List.range (armings es ++ [a]).length
      rw [List.map_append, ih, List.length_append, List.length_singleton, List.range_succ]
      simp [hfits.1]
    | fired n t => simpa using ih
    | cancelled k => simpa using ih

theorem Lawful.number_lt (h : Lawful sleep es) (ha : a ∈ armings es) :
    a.number < (armings es).length := by
  have hmem := List.mem_map_of_mem (f := Arming.number) ha
  rw [h.numbers] at hmem
  exact List.mem_range.mp hmem

theorem Lawful.length_le_number (h : Lawful sleep (xs ++ ys)) (ha : a ∈ armings ys) :
    (armings xs).length ≤ a.number := by
  obtain ⟨us, vs, hys⟩ := exists_prefix_of_mem (mem_armings.mp ha)
  have hfits := h (xs ++ us) (.armed a) ⟨vs, by rw [← hys]; simp⟩
  rw [hfits.1, armings_append, List.length_append]
  exact Nat.le_add_right _ _

theorem Lawful.id_eq (h : Lawful sleep es) (ha : a ∈ armings es) :
    a.id = UInt64.ofNat a.number := by
  obtain ⟨xs, hxs⟩ := exists_prefix_of_mem (mem_armings.mp ha)
  exact (h xs _ hxs).2

theorem Lawful.eq_of_id (h : Lawful sleep es) (hbound : (armings es).length ≤ UInt64.size)
    (ha : a ∈ armings es) (hb : b ∈ armings es) (hid : a.id = b.id) : a.number = b.number := by
  have hla : a.number < UInt64.size := Nat.lt_of_lt_of_le (h.number_lt ha) hbound
  have hlb : b.number < UInt64.size := Nat.lt_of_lt_of_le (h.number_lt hb) hbound
  rw [h.id_eq ha, h.id_eq hb] at hid
  have heq := congrArg UInt64.toNat hid
  rwa [UInt64.toNat_ofNat_of_lt' hla, UInt64.toNat_ofNat_of_lt' hlb] at heq

theorem Lawful.nodup_ids (h : Lawful sleep es) (hbound : (armings es).length ≤ UInt64.size) :
    ((armings es).map Arming.id).Nodup := by
  have hnumbers : (armings es).Pairwise fun a b => a.number ≠ b.number := by
    have hrange := List.nodup_range (n := (armings es).length)
    rw [← h.numbers] at hrange
    exact List.pairwise_map.mp hrange
  apply List.pairwise_map.mpr
  apply hnumbers.imp_of_mem
  intro a b ha hb hne hid
  exact hne (h.eq_of_id hbound ha hb hid)

/-! A timer that has ended is not outstanding again, so it does not fire either. -/

theorem Lawful.not_outstanding (h : Lawful sleep (xs ++ e :: ys)) (he : e.ends n = true)
    (hn : n < (armings xs).length) (ha : a ∈ outstanding (xs ++ e :: ys)) : a.number ≠ n := by
  intro hnumber
  rw [outstanding_append] at ha
  rcases List.mem_append.mp ha with ha | ha
  · have hends := (List.mem_filter.mp ha).2
    simp [hnumber, he] at hends
  · have hle := h.length_le_number ((outstanding_sublist _).subset ha)
    omega

theorem Lawful.mem_of_fired (h : Lawful sleep (xs ++ e :: ys)) (he : e.ends n = true)
    (hn : n < (armings xs).length) (hfired : .fired n t ∈ xs ++ e :: ys) :
    .fired n t ∈ xs ++ [e] := by
  by_contra hmem
  -- then it fires after its end, when it is not outstanding
  have hys : .fired n t ∈ ys := by
    simp only [List.mem_append, List.mem_cons, List.not_mem_nil, or_false] at hfired hmem
    tauto
  obtain ⟨us, vs, rfl⟩ := List.append_of_mem hys
  have hprefix : (xs ++ e :: us) ++ [.fired n t] <+: xs ++ e :: (us ++ .fired n t :: vs) :=
    ⟨vs, by simp⟩
  obtain ⟨a, ha, hnumber, _⟩ := h _ _ hprefix
  have hlawful : Lawful sleep ((xs ++ e :: us) ++ .fired n t :: vs) := by simpa using h
  exact hlawful.of_append.not_outstanding he hn ha hnumber

theorem Lawful.not_mem_firings (h : Lawful sleep (es ++ [.fired n t])) : n ∉ firings es := by
  intro hn
  obtain ⟨s, hs⟩ := mem_firings.mp hn
  obtain ⟨xs, ys, rfl⟩ := List.append_of_mem hs
  obtain ⟨a, ha, hnumber, _⟩ := h _ _ (List.prefix_refl _)
  have hearlier := h.of_append
  obtain ⟨b, hb, hbn, _⟩ := hearlier xs (.fired n s) ⟨ys, by simp⟩
  have hlt : b.number < (armings xs).length :=
    hearlier.of_append.number_lt ((outstanding_sublist xs).subset hb)
  exact hearlier.not_outstanding (by simp) (hbn ▸ hlt) ha hnumber

theorem Lawful.nodup_firings (h : Lawful sleep es) : (firings es).Nodup := by
  induction es using List.reverseRecOn with
  | nil => exact List.nodup_nil
  | append_singleton es e ih =>
    have ih := ih h.of_append
    rw [firings_concat]
    cases e with
    | fired n t =>
      apply List.nodup_append.mpr
      refine ⟨ih, List.nodup_singleton n, fun m hm k hk heq => ?_⟩
      have hmem : n ∈ firings es := List.mem_singleton.mp hk ▸ heq ▸ hm
      exact h.not_mem_firings hmem
    | armed a => simpa using ih
    | cancelled k => simpa using ih

end

/-! ## The clock -/

def delays (ss : List TimerStep) : List Duration := ss.filterMap TimerStep.delay?

def step (sleep : Duration → Nat) (c : AlarmClock) : TimerStep → AlarmClock
  | .arm d =>
    let n := (armings c.history).length
    { c with
      timers := c.timers.arm (c.now + sleep d) n
      history := c.history ++ [.armed ⟨n, c.timers.next, c.now, d⟩] }
  | .cancelAll =>
    let r := c.timers.cancelAll
    { c with timers := r.1, history := c.history ++ [.cancelled r.2] }
  | .elapse ms =>
    let r := c.timers.elapse c.now (c.now + ms)
    { now := c.now + ms
      timers := r.1
      history := c.history ++ r.2.map fun f => .fired f.2 f.1 }
  | .stall ms => { c with now := c.now + ms }
  | .wake id =>
    if (c.timers.find? id).any fun t => t.due ≤ c.now then
      let r := c.timers.fire id
      { c with timers := r.1, history := c.history ++ r.2.toList.map (.fired · c.now) }
    else c

def run (sleep : Duration → Nat) (c : AlarmClock) (ss : List TimerStep) : AlarmClock :=
  ss.foldl (step sleep) c

/-- The history is lawful, and the timers that have not fired are those it leaves outstanding. -/
structure Kept (sleep : Duration → Nat) (c : AlarmClock) : Prop where
  lawful : Lawful sleep c.history
  live : c.timers.live = (outstanding c.history).map (Arming.timer sleep)
  next : c.timers.next = UInt64.ofNat (armings c.history).length

section
variable {sleep : Duration → Nat} {c : AlarmClock}

theorem Kept.nodup_ids (h : c.Kept sleep) (hbound : (armings c.history).length ≤ UInt64.size) :
    (c.timers.live.map Timer.id).Nodup := by
  rw [h.live, List.map_map]
  exact (h.lawful.nodup_ids hbound).sublist ((outstanding_sublist _).map Arming.id)

theorem Kept.arm (h : c.Kept sleep) (d : Duration) : (c.step sleep (.arm d)).Kept sleep where
  lawful := h.lawful.concat ⟨rfl, h.next⟩
  live := by
    show (c.timers.arm _ _).live = _
    rw [Timers.live_arm, h.live]
    simp [step, Arming.timer]
  next := by
    show c.timers.next + 1 = _
    rw [h.next]
    simp [step]

theorem Kept.cancelAll (h : c.Kept sleep) : (c.step sleep .cancelAll).Kept sleep where
  lawful := by
    apply h.lawful.concat
    show c.timers.pending = _
    rw [Timers.pending, h.live, List.length_map]
  live := by simp [step, Timers.cancelAll, Timers.live]
  next := by simpa [step, Timers.cancelAll] using h.next

theorem Kept.fire (h : c.Kept sleep) (hbound : (armings c.history).length ≤ UInt64.size) {t : Timer Nat}
    (ht : t ∈ c.timers.live) {m : Nat} (hm : t.due ≤ m) (now : Nat) :
    Kept sleep ⟨now, (c.timers.fire t.id).1, c.history ++ [.fired t.payload m]⟩ := by
  have hlive := h.live
  rw [hlive] at ht
  obtain ⟨a, ha, rfl⟩ := List.mem_map.mp ht
  refine ⟨h.lawful.concat ⟨a, ha, rfl, hm⟩, ?_, ?_⟩
  · show (c.timers.fire a.id).1.live = (outstanding (c.history ++ [.fired a.number m])).map _
    rw [Timers.live_fire (h.nodup_ids hbound), hlive, outstanding_concat, List.filter_map]
    simp only [TimerEvent.arming?, Option.toList_none, List.append_nil]
    congr 1
    apply List.filter_congr
    intro b hb
    have hmem := (outstanding_sublist c.history).subset
    -- a timer is found by its id, and a history goes by its number
    have hiff : b.id = a.id ↔ a.number = b.number := by
      constructor
      · intro hid
        exact (h.lawful.eq_of_id hbound (hmem hb) (hmem ha) hid).symm
      · intro hnumber
        rw [h.lawful.id_eq (hmem hb), h.lawful.id_eq (hmem ha), hnumber]
    simp [Arming.timer, hiff]
  · rw [Timers.next_fire, h.next]
    simp

theorem Kept.fireAll (h : c.Kept sleep) (hbound : (armings c.history).length ≤ UInt64.size)
    {ts : List (Timer Nat)} (hids : (ts.map Timer.id).Nodup) (hlive : ∀ t ∈ ts, t ∈ c.timers.live)
    {m : Timer Nat → Nat} (hm : ∀ t, t.due ≤ m t) (now : Nat) :
    Kept sleep ⟨now, ts.foldl (fun ts t => (ts.fire t.id).1) c.timers,
      c.history ++ ts.map fun t => .fired t.payload (m t)⟩ := by
  induction ts generalizing c with
  | nil => simpa using ⟨h.lawful, h.live, h.next⟩
  | cons t ts ih =>
    obtain ⟨ht, hids⟩ := List.nodup_cons.mp hids
    have hfire := h.fire hbound (hlive t List.mem_cons_self) (hm t) now
    have hrest := ih hfire ?_ hids ?_
    · simpa using hrest
    · simpa using hbound
    · -- the others are still live once this one has fired
      intro u hu
      show u ∈ (c.timers.fire t.id).1.live
      rw [Timers.live_fire (h.nodup_ids hbound)]
      have hne : u.id ≠ t.id := fun hid => ht (List.mem_map.mpr ⟨u, hu, hid⟩)
      exact List.mem_filter.mpr ⟨hlive u (List.mem_cons_of_mem t hu), by simpa using hne⟩

theorem Kept.elapse (h : c.Kept sleep) (hbound : (armings c.history).length ≤ UInt64.size) (ms : Nat) :
    (c.step sleep (.elapse ms)).Kept sleep := by
  have hids := Timers.nodup_dueBefore (h.nodup_ids hbound) (c.now + ms)
  have hfire := h.fireAll hbound hids (fun t ht => (Timers.mem_dueBefore.mp ht).1)
    (fun t => Nat.le_max_right c.now t.due) (c.now + ms)
  simp only [step, Timers.elapse]
  split
  · simpa [Function.comp_def] using hfire
  · simpa using ⟨h.lawful, h.live, h.next⟩

theorem Kept.wake (h : c.Kept sleep) (hbound : (armings c.history).length ≤ UInt64.size) (id : UInt64) :
    (c.step sleep (.wake id)).Kept sleep := by
  simp only [step]
  split
  · rename_i hany
    obtain ⟨t, hfind, hdue⟩ := (Option.any_eq_true _ _).mp hany
    obtain rfl : t.id = id := by simpa using List.find?_some hfind
    have hpayload : (c.timers.fire t.id).2 = some t.payload := by simp [Timers.fire, hfind]
    rw [hpayload]
    exact h.fire hbound (List.mem_of_find?_eq_some hfind) (of_decide_eq_true hdue) c.now
  · exact h

theorem delays_step (sleep : Duration → Nat) (c : AlarmClock) (s : TimerStep) :
    (armings (c.step sleep s).history).map Arming.delay =
      (armings c.history).map Arming.delay ++ s.delay?.toList := by
  cases s with
  | arm d => simp [step]
  | cancelAll => simp [step]
  | elapse ms => simp [step, armings_append, armings_map_fired]
  | stall ms => simp [step]
  | wake id =>
    simp only [step]
    split
    · cases (c.timers.fire id).2 <;> simp
    · simp

theorem delays_cons (s : TimerStep) (ss : List TimerStep) :
    delays (s :: ss) = s.delay?.toList ++ delays ss := by
  cases s <;> rfl

theorem delays_run (sleep : Duration → Nat) (c : AlarmClock) (ss : List TimerStep) :
    (armings (c.run sleep ss).history).map Arming.delay =
      (armings c.history).map Arming.delay ++ delays ss := by
  induction ss generalizing c with
  | nil => simp [run, delays]
  | cons s ss ih =>
    show (armings ((c.step sleep s).run sleep ss).history).map Arming.delay = _
    rw [ih, delays_step, delays_cons, List.append_assoc]

theorem Kept.step (h : c.Kept sleep) (hbound : (armings c.history).length ≤ UInt64.size)
    (s : TimerStep) : (c.step sleep s).Kept sleep := by
  cases s with
  | arm d => exact h.arm d
  | cancelAll => exact h.cancelAll
  | elapse ms => exact h.elapse hbound ms
  | stall ms => exact ⟨h.lawful, h.live, h.next⟩
  | wake id => exact h.wake hbound id

theorem Kept.run (h : c.Kept sleep) (ss : List TimerStep)
    (hbound : (armings c.history).length + (delays ss).length ≤ UInt64.size) :
    (c.run sleep ss).Kept sleep := by
  induction ss generalizing c with
  | nil => exact h
  | cons s ss ih =>
    have hstep := congrArg List.length (delays_step sleep c s)
    simp only [List.length_append, List.length_map] at hstep
    rw [delays_cons, List.length_append] at hbound
    exact ih (h.step (by omega) s) (by omega)

theorem Kept.due_of_elapse (h : c.Kept sleep) {ms : Nat} (hms : 0 < ms) {a : Arming}
    (ha : a ∈ outstanding (c.step sleep (.elapse ms)).history) :
    c.now + ms ≤ a.moment + sleep a.delay := by
  by_contra hlt
  have hlater : c.now < c.now + ms := by omega
  simp only [AlarmClock.step, Timers.elapse, if_pos hlater, outstanding_append_fired] at ha
  obtain ⟨ha, hfired⟩ := List.mem_filter.mp ha
  have hlive : a.timer sleep ∈ c.timers.live := h.live ▸ List.mem_map_of_mem ha
  have hdue := Timers.mem_dueBefore.mpr ⟨hlive, Nat.lt_of_not_le hlt⟩
  apply of_decide_eq_true hfired
  rw [List.map_map]
  exact List.mem_map.mpr ⟨a.timer sleep, hdue, rfl⟩

end

/-- Whatever is asked of timers and however time goes on, when no sleep is short: a timer fires at most
once and not before its delay is over. A cancellation ends as many as are outstanding, and of the
timers armed before it none fires any more. Ids differ until they come round. As many timers are
pending as are outstanding, whatever fired ones are kept beside them, and a cancellation counts as
many. Once time has gone on undisturbed, none is overdue. -/
theorem history_of_steps (sleep : Duration → Nat) (start : Nat) (ss : List TimerStep)
    (hcount : (delays ss).length ≤ UInt64.size)
    (hsleep : ∀ d ∈ delays ss, d.nanoseconds ≤ sleep d * 1000000) :
    let c := run sleep { now := start } ss
    (armings c.history).map Arming.delay = delays ss ∧
      (firings c.history).Nodup ∧
      (∀ xs n t, xs ++ [.fired n t] <+: c.history → ∃ a ∈ armings xs, a.number = n ∧
        a.moment * 1000000 + a.delay.nanoseconds ≤ t * 1000000) ∧
      (∀ xs k, xs ++ [.cancelled k] <+: c.history → k = (outstanding xs).length ∧
        ∀ a ∈ armings xs, ∀ t, .fired a.number t ∈ c.history → .fired a.number t ∈ xs) ∧
      (armings c.history).map Arming.number = List.range (delays ss).length ∧
      ((armings c.history).map Arming.id).Nodup ∧
      (∀ ts : Timers Nat, ts.live = c.timers.live →
        ts.pending = (outstanding c.history).length ∧ ts.cancelAll.2 = ts.pending) ∧
      ∀ ms, 0 < ms → ∀ a ∈ outstanding (c.step sleep (.elapse ms)).history,
        c.now + ms ≤ a.moment + sleep a.delay := by
  intro c
  have hdelays : (armings c.history).map Arming.delay = delays ss := delays_run sleep _ ss
  have hlength : (armings c.history).length = (delays ss).length := by
    rw [← hdelays, List.length_map]
  have hkept : c.Kept sleep := by
    apply Kept.run ⟨lawful_nil, rfl, rfl⟩
    simpa [armings] using hcount
  have hbound : (armings c.history).length ≤ UInt64.size := hlength ▸ hcount
  refine ⟨hdelays, hkept.lawful.nodup_firings, fun xs n t hxs => ?_, fun xs k hxs => ?_,
    hlength ▸ hkept.lawful.numbers, hkept.lawful.nodup_ids hbound, fun ts hts => ⟨?_, rfl⟩,
    fun ms hms a ha => hkept.due_of_elapse hms ha⟩
  · obtain ⟨a, ha, hnumber, hdue⟩ := hkept.lawful xs _ hxs
    have hmem := (outstanding_sublist xs).subset ha
    refine ⟨a, hmem, hnumber, ?_⟩
    have hasked : a.delay ∈ delays ss := by
      obtain ⟨ys, hys⟩ := hxs
      rw [← hdelays, ← hys, List.append_assoc, armings_append]
      exact List.mem_map_of_mem (List.mem_append_left _ hmem)
    have hdelay := hsleep a.delay hasked
    omega
  · refine ⟨hkept.lawful xs _ hxs, fun a ha t hfired => ?_⟩
    obtain ⟨ys, hys⟩ := hxs
    have hys : xs ++ .cancelled k :: ys = c.history := by simpa using hys
    have hlawful := hkept.lawful
    rw [← hys] at hlawful hfired
    have hmem := hlawful.mem_of_fired rfl (hlawful.of_append.number_lt ha) hfired
    simpa using hmem
  · rw [Timers.pending, hts, hkept.live, List.length_map]

/-- The waits of a player are such sleeps, up to the longest one. -/
theorem nanoseconds_le_wait_iff (d : Duration) :
    d.nanoseconds ≤ d.wait * 1000000 ↔ d.nanoseconds ≤ Duration.longestWait * 1000000 := by
  unfold Duration.wait
  omega

/-- Of four timers one fires in time and one late, one is cancelled and one is pending. -/
def sampleSteps : List TimerStep :=
  [.arm (.ofMilliseconds 100), .arm .zero, .arm (.ofMilliseconds 50), .elapse 20, .stall 60,
    .wake 0, .wake 2, .cancelAll, .elapse 100, .arm (.ofMilliseconds 5)]

theorem history_of_steps_sample :
    let c := run Duration.wait {} sampleSteps
    (delays sampleSteps).length ≤ UInt64.size ∧
      (∀ d ∈ delays sampleSteps, d.nanoseconds ≤ d.wait * 1000000) ∧
      c.history = [.armed ⟨0, 0, 0, .ofMilliseconds 100⟩, .armed ⟨1, 1, 0, .zero⟩,
        .armed ⟨2, 2, 0, .ofMilliseconds 50⟩, .fired 1 0, .fired 2 80, .cancelled 1,
        .armed ⟨3, 3, 180, .ofMilliseconds 5⟩] ∧
      (firings c.history).Nodup ∧ ((armings c.history).map Arming.id).Nodup ∧
      c.timers.pending = (outstanding c.history).length := by
  intro c
  have hcount : (delays sampleSteps).length ≤ UInt64.size := by decide
  have hlongest : ∀ d ∈ delays sampleSteps,
      d.nanoseconds ≤ Duration.longestWait * 1000000 := by decide
  have hsleep : ∀ d ∈ delays sampleSteps, d.nanoseconds ≤ d.wait * 1000000 :=
    fun d hd => (nanoseconds_le_wait_iff d).mpr (hlongest d hd)
  obtain ⟨_, hfirings, _, _, _, hids, hpending, _⟩ :=
    history_of_steps Duration.wait 0 sampleSteps hcount hsleep
  exact ⟨hcount, hsleep, by decide +kernel, hfirings, hids, (hpending c.timers rfl).1⟩

end AlarmClock

end QuoteBoard
