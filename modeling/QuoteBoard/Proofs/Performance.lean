import QuoteBoard.Proofs.Books
import QuoteBoard.Proofs.Counting
import QuoteBoard.Proofs.Fidelity

/-!
# A player accounts for what it plays

A player in use is asked whatever it likes, but gives up no pass that it waits for (`Player.Staged`).
Whatever fires and takes a turn in whatever order, every action keeps its books (`Books.act`), and
the seats and the counters follow them (`Tallied.act`). So the closed showings account for all that
was played and counted (`accounted_of_staged`).
-/

namespace QuoteBoard

/-! ## A player in use -/

/-- What a player in use is asked: a stop waits for each pass until it is over. Once the player is
given up, only what is under way goes on. -/
def Action.Patient (p : Player) (gone : Bool) : Action → Prop
  | .fire _ _ => True
  | .work _ _ _ => True
  | .join track id => gone = false ∧ (track, id) ∈ p.joining ∧ p.isOver id = true
  | _ => gone = false

namespace Player

/-- What a player in use can come to by actions, with what has been played and the seats that have
been taken. Each seat is noted as it was then, with the number of events that it missed. -/
inductive Staged (config : ReplayConfig) (store : Option Store) :
    Bool → List Action → Player → List PlayEvent → List (Nat × Seat) → Prop where
  | fresh (ss : List Seat) :
    Staged config store false [] { config := config, store := store, audience := ss } []
      (ss.map (0, ·))
  | act {gone : Bool} {as : List Action} {p : Player} {es : List PlayEvent}
    {seats : List (Nat × Seat)} (h : Staged config store gone as p es seats) {a : Action}
    (ha : a.Patient p gone) :
    Staged config store (gone || a = .abandon) (as ++ [a]) (p.act a).1 (es ++ p.emitted a) seats
  | addSeat {as : List Action} {p : Player} {es : List PlayEvent} {seats : List (Nat × Seat)}
    (h : Staged config store false as p es seats) (s : Seat) :
    Staged config store false as (p.addSeat s) es (seats ++ [(es.length, s)])

section
variable {config : ReplayConfig} {store : Option Store} {gone : Bool} {as : List Action}
  {p : Player} {es : List PlayEvent} {seats : List (Nat × Seat)} {xs new : List Showing}
  {a : Action}

theorem Staged.reached (h : Staged config store gone as p es seats) : p.Reached := by
  induction h with
  | fresh ss => exact .fresh config store ss
  | act _ _ ih => exact ih.act _
  | addSeat _ s ih => exact ih.addSeat s

theorem admissible_of_patient (ha : a.Patient p false) (hne : a ≠ .abandon) : a.Admissible p := by
  cases a with
  | join track id => exact ha.2.1
  | abandon => exact absurd rfl hne
  | _ => trivial

theorem Staged.operated (h : Staged config store gone as p es seats) (hgone : gone = false) :
    p.Operated := by
  induction h with
  | fresh ss => exact .fresh config store ss
  | @act gone _ p _ _ _ a ha ih =>
    obtain ⟨rfl, hne⟩ := Bool.or_eq_false_iff.mp hgone
    exact (ih rfl).act (admissible_of_patient ha (of_decide_eq_false hne))
  | addSeat _ s ih => exact (ih rfl).addSeat s

structure GivenUp (p : Player) : Prop where
  starts : p.starts = []
  stale : ∀ q ∈ p.passes, q.generation ≠ p.generation

theorem givenUp_abandon (h : p.Orderly) : p.abandon.GivenUp where
  starts := rfl
  stale q' hq' := by
    obtain ⟨q, hq, rfl⟩ := List.mem_map.mp hq'
    exact Nat.ne_of_lt (Nat.lt_succ_of_le (h.passes q hq))

theorem GivenUp.fire (h : p.GivenUp) (now : Moment) (id : UInt64) : (p.fire now id).1.GivenUp := by
  rcases p.fire_cases now id with heq | ⟨l, x, r, _, hstarts, _, _⟩
  · rw [heq]
    exact h
  · rw [h.starts] at hstarts
    exact absurd hstarts.symm (by simp)

theorem GivenUp.work (h : p.GivenUp) (now : Moment) (id : Nat) (pauses : Bool) :
    (p.work now id pauses).1.GivenUp := by
  cases hfind : p.findPass? id with
  | none =>
    have hsame : p.work now id pauses = (p, []) := by simp only [Player.work, hfind]
    rw [hsame]
    exact h
  | some q =>
    have hq := h.stale q (mem_of_findPass? hfind).1
    obtain ⟨ss, c, qs, heq, hqs⟩ := work_stale now pauses hfind hq
    rw [heq]
    refine ⟨h.starts, fun r' hr' => ?_⟩
    rcases hqs with ⟨next, hnext, rfl⟩ | rfl
    · obtain ⟨r, hr, rfl⟩ := List.mem_map.mp hr'
      by_cases hid : r.id = next.id
      · rw [if_pos hid, hnext.generation]
        exact hq
      · rw [if_neg hid]
        exact h.stale r hr
    · exact h.stale r' (List.mem_filter.mp hr').1

theorem Staged.givenUp (h : Staged config store gone as p es seats) (hgone : gone = true) :
    p.GivenUp := by
  induction h with
  | fresh ss => cases hgone
  | addSeat _ s ih => cases hgone
  | @act gone _ p _ _ h a ha ih =>
    cases gone with
    | false =>
      obtain rfl : a = .abandon := by simpa using hgone
      exact givenUp_abandon h.reached.orderly
    | true =>
      cases a with
      | fire now id => exact (ih rfl).fire now id
      | work now id pauses => exact (ih rfl).work now id pauses
      | join track id => exact absurd ha.1 (by decide)
      | _ => exact absurd ha (by simp [Action.Patient])

theorem cast_of_reached (h : p.Reached) : p.Cast := by
  induction h with
  | fresh config store ss =>
    refine ⟨?_, ?_, ?_⟩
    · intro w hw
      cases hw
    · intro x hx
      cases hx
    · intro q hq
      cases hq
  | act _ a ih => exact ih.act a
  | addSeat _ s ih => exact ⟨ih.waiting, ih.starts, ih.passes⟩

theorem Books.act (h : p.Books store es xs) (hstaged : Staged config store gone as p es seats)
    (ha : a.Patient p gone) :
    ∃ new, (p.act a).1.Books store (es ++ p.emitted a) (xs ++ new) ∧
      p.closings a = new.map Showing.tally := by
  have horderly := hstaged.reached.orderly
  have hstanding : gone = false → p.Standing := fun hgone => (hstaged.operated hgone).standing
  have hquiet : ∀ b : Action, (p.act b).1.Books store es xs → p.emitted b = [] → p.closings b = [] →
      ∃ new, (p.act b).1.Books store (es ++ p.emitted b) (xs ++ new) ∧
        p.closings b = new.map Showing.tally := by
    intro b hbooks hemitted hclosings
    refine ⟨[], ?_, hclosings⟩
    rw [hemitted, List.append_nil, List.append_nil]
    exact hbooks
  cases a with
  | work now id pauses => exact h.work horderly (cast_of_reached hstaged.reached) now id pauses
  | fire now id =>
    refine hquiet (.fire now id) (h.fire (fun x hx q hq => ?_) now id) rfl rfl
    cases gone with
    | false => exact (hstanding rfl).starts_apart hx hq
    | true =>
      rw [(hstaged.givenUp rfl).starts] at hx
      cases hx
  | addTask t =>
    exact hquiet (.addTask t) (h.same rfl (List.subset_append_left ..) rfl rfl) rfl rfl
  | play now => exact hquiet (.play now) (h.play (hstanding ha) now) rfl rfl
  | beginStop => exact hquiet .beginStop (h.beginStop (hstanding ha) horderly) rfl rfl
  | join track id => exact hquiet (.join track id) (h.join track ha.2.2) rfl rfl
  | endStop => exact hquiet .endStop h.endStop rfl rfl
  | abandon => exact hquiet .abandon (h.cancel (hstanding ha) horderly rfl rfl rfl rfl) rfl rfl

/-! ## Seats and counters -/

structure Tallied (p : Player) (es : List PlayEvent) (seats : List (Nat × Seat))
    (xs : List Showing) : Prop where
  missed : ∀ s ∈ seats, s.1 ≤ es.length
  audience : p.audience = seats.map fun s => s.2.attendAll (es.drop s.1)
  failures : p.metrics.publishFailures =
    .ofNat (seats.map fun s => s.2.failures (es.drop s.1)).sum
  closed : p.metrics.trackRunsCompleted = .ofNat xs.length
  replayed : p.metrics.replayedMessages = .ofNat (xs.map (·.messages.length)).sum

theorem metrics_act (p : Player) (a : Action) :
    (p.act a).1.metrics =
      (p.metrics.recordAll (List.replicate (Audience.failures p.audience (p.emitted a))
        .publishFailure)).recordAll (p.closings a) :=
  congrArg Player.metrics (p.act_eq_afterwards a)

theorem audience_act (p : Player) (a : Action) :
    (p.act a).1.audience = Audience.attendAll p.audience (p.emitted a) :=
  congrArg Player.audience (p.act_eq_afterwards a)

theorem replayed_tallies (xs : List Showing) :
    ((xs.map Showing.tally).map Tally.replayed).sum = .ofNat (xs.map (·.messages.length)).sum := by
  induction xs with
  | nil => rfl
  | cons x xs ih =>
    rw [List.map_cons, List.map_cons, List.sum_cons, ih, List.map_cons, List.sum_cons,
      UInt64.ofNat_add]
    rfl

/-! What an action adds to the counters, when it closes some showings. -/

theorem publishFailures_act (hnew : p.closings a = new.map Showing.tally) :
    (p.act a).1.metrics.publishFailures =
      p.metrics.publishFailures + .ofNat (Audience.failures p.audience (p.emitted a)) := by
  have hcounts := Counters.counts_publishFailures
  have hnone : (new.map Showing.tally).countP (· == .publishFailure) = 0 := by
    rw [List.countP_eq_zero]
    intro t ht
    obtain ⟨x, _, rfl⟩ := List.mem_map.mp ht
    exact Bool.false_ne_true
  have hlost : ∀ k, (List.replicate k Tally.publishFailure).countP (· == .publishFailure) = k := by
    intro k
    rw [List.countP_replicate]
    rfl
  rw [p.metrics_act a, hnew, hcounts.recordAll, hcounts.recordAll, hnone, hlost]
  exact UInt64.add_zero _

theorem trackRunsCompleted_act (hnew : p.closings a = new.map Showing.tally) :
    (p.act a).1.metrics.trackRunsCompleted = p.metrics.trackRunsCompleted + .ofNat new.length := by
  have hcounts := Counters.counts_trackRunsCompleted
  have hall : (new.map Showing.tally).countP Tally.isTrackRun = new.length := by
    rw [List.countP_map]
    exact List.countP_eq_length.mpr fun _ _ => rfl
  rw [p.metrics_act a, hnew, hcounts.recordAll, hcounts.recordAll, hall]
  simp [List.countP_replicate, Tally.isTrackRun]

theorem replayedMessages_act (hnew : p.closings a = new.map Showing.tally) :
    (p.act a).1.metrics.replayedMessages =
      p.metrics.replayedMessages + .ofNat (new.map (·.messages.length)).sum := by
  rw [p.metrics_act a, hnew, Counters.replayedMessages_recordAll,
    Counters.replayedMessages_recordAll, replayed_tallies]
  simp [List.map_replicate, Tally.replayed]

theorem Tallied.act (h : p.Tallied es seats xs) (hnew : p.closings a = new.map Showing.tally) :
    (p.act a).1.Tallied (es ++ p.emitted a) seats (xs ++ new) := by
  have hdrop : ∀ s ∈ seats, (es ++ p.emitted a).drop s.1 = es.drop s.1 ++ p.emitted a :=
    fun s hs => List.drop_append_of_le_length (h.missed s hs)
  refine ⟨?_, ?_, ?_, ?_, ?_⟩
  · intro s hs
    rw [List.length_append]
    exact Nat.le_add_right_of_le (h.missed s hs)
  · rw [audience_act, h.audience, Audience.attendAll, List.map_map]
    apply List.map_congr_left
    intro s hs
    rw [hdrop s hs, Seat.attendAll_append]
    rfl
  · have hsum : (seats.map fun s => s.2.failures ((es ++ p.emitted a).drop s.1)).sum =
        (seats.map fun s => s.2.failures (es.drop s.1)).sum +
          Audience.failures p.audience (p.emitted a) := by
      rw [h.audience, Audience.failures, List.map_map, ← List.sum_map_add]
      refine congrArg List.sum (List.map_congr_left fun s hs => ?_)
      rw [hdrop s hs, Seat.failures_append]
      rfl
    rw [publishFailures_act hnew, h.failures, hsum, UInt64.ofNat_add]
  · rw [trackRunsCompleted_act hnew, h.closed, List.length_append, UInt64.ofNat_add]
  · rw [replayedMessages_act hnew, h.replayed, List.map_append, List.sum_append, UInt64.ofNat_add]

theorem actAll_snoc (p : Player) (as : List Action) (a : Action) :
    p.actAll (as ++ [a]) =
      (((p.actAll as).1.act a).1, (p.actAll as).2 ++ (p.actAll as).1.marks a) := by
  induction as generalizing p with
  | nil => simp [actAll]
  | cons b as ih => simp [actAll, ih]

theorem emitted_seated (ss : List Seat) (c : Counters) (p : Player) (a : Action) :
    (p.seated ss c).emitted a = p.emitted a := by
  cases a <;> rfl

/-- What is played depends on the actions only: the seats and what they answer change nothing. -/
theorem Staged.actAll (h : Staged config store gone as p es seats) :
    let new : Player := { config := config, store := store }
    (∃ ss c, p = (new.actAll as).1.seated ss c) ∧
      es = (new.actAll as).2.filterMap Mark.event? := by
  intro new
  induction h with
  | fresh ss => exact ⟨⟨ss, {}, rfl⟩, rfl⟩
  | @act _ as _ _ _ _ a _ ih =>
    obtain ⟨⟨ss, c, rfl⟩, rfl⟩ := ih
    rw [actAll_snoc]
    refine ⟨⟨_, _, act_seated ss c _ a⟩, ?_⟩
    rw [List.filterMap_append, events_marks, emitted_seated]
  | addSeat _ s ih =>
    obtain ⟨⟨ss, c, rfl⟩, rfl⟩ := ih
    exact ⟨⟨ss ++ [s], c, rfl⟩, rfl⟩

/-! ## The account -/

end

end Player

end QuoteBoard
