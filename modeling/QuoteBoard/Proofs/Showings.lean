import QuoteBoard.Proofs.Turns

/-!
# Showings

A showing is what a pass plays from its start to its end: the start of its track, the framing of the
captured messages that it was given, and the stop. Before its end a pass has shown a beginning of
this (`Pass.shown`). A turn goes on from there, and either pauses or brings the showing to its end
(`Pass.Sound.turn`); a cancelled pass has only its end left to play (`Pass.events_of_cancelled`).
-/

namespace QuoteBoard

/-- The stream of a task; it is empty without a store, and when its track cannot be loaded. -/
def Task.stream (store : Option Store) (t : Task) : List Captured :=
  (store.bind fun s => (t.track.load s).toOption).getD []

theorem Task.session_fst (store : Option Store) (t : Task) :
    (Pass.session store t.track).1 = t.stream store := by
  cases store with
  | none => rfl
  | some s =>
    unfold Pass.session stream
    simp only [Option.bind_some]
    cases t.track.load s <;> rfl

structure Showing where
  task : Task
  generation : Nat
  /-- The captured messages that the pass was given. -/
  given : List Captured
  /-- The pass was cancelled before it came to the end of the stream. -/
  cut : Bool

namespace Showing

def number (r : Showing) : TrackNumber := r.task.number

def messages (r : Showing) : List Message := Framer.frame r.given

def events (r : Showing) : List PlayEvent :=
  .started r.number :: r.messages.map (.message r.number) ++ [.stopped r.number]

def tally (r : Showing) : Tally := .trackRun (.ofNat r.messages.length)

/-- A showing plays the stream of its task from the beginning, and all of it unless it was cut. Only
showings of generations before `now` are cut. -/
structure Faithful (store : Option Store) (now : Nat) (r : Showing) : Prop where
  begins : r.given <+: r.task.stream store
  whole : r.cut = false → r.given = r.task.stream store
  cut : r.cut = true → r.given ≠ r.task.stream store ∧ r.generation < now

theorem Faithful.mono {store : Option Store} {now later : Nat} {r : Showing}
    (h : r.Faithful store now) (hle : now ≤ later) : r.Faithful store later where
  begins := h.begins
  whole := h.whole
  cut hcut := ⟨(h.cut hcut).1, Nat.lt_of_lt_of_le (h.cut hcut).2 hle⟩

end Showing

namespace Pass

section
variable {store : Option Store} {q : Pass}

/-- The captured messages that a pass has been given so far. -/
def given (store : Option Store) (q : Pass) : List Captured :=
  (q.task.stream store).take ((q.task.stream store).length - (q.todo store).length)

def shown (store : Option Store) (q : Pass) : List PlayEvent :=
  if q.rest = none then [] else .started q.number :: q.tells (Framer.pushAll {} (q.given store)).2

/-- A pass has come to where it stands in its stream by framing what is before. -/
structure Sound (store : Option Store) (q : Pass) : Prop where
  stream : q.task.stream store = q.given store ++ q.todo store
  framer : q.framer = (Framer.pushAll {} (q.given store)).1
  sent : q.sent = .ofNat (Framer.pushAll {} (q.given store)).2.length

theorem given_eq {done : List Captured} (h : q.task.stream store = done ++ q.todo store) :
    q.given store = done := by
  rw [given, h, List.length_append, Nat.add_sub_cancel, List.take_left]

theorem todo_of_new (hrest : q.rest = none) : q.todo store = q.task.stream store := by
  rw [todo, hrest, Option.getD_none, Task.session_fst]

theorem given_of_new (hrest : q.rest = none) : q.given store = [] := by
  apply given_eq
  rw [todo_of_new hrest, List.nil_append]

theorem sound_of_new (hrest : q.rest = none) (hframer : q.framer = {}) (hsent : q.sent = 0) :
    q.Sound store := by
  refine ⟨?_, ?_, ?_⟩
  · rw [given_of_new hrest, todo_of_new hrest, List.nil_append]
  · rw [given_of_new hrest, hframer]
    rfl
  · rw [given_of_new hrest, hsent]
    rfl

theorem shown_of_new (hrest : q.rest = none) : q.shown store = [] := if_pos hrest

theorem shown_opening (store : Option Store) (q : Pass) :
    q.shown store ++ (if q.rest = none then [.started q.number] else []) =
      .started q.number :: q.tells (Framer.pushAll {} (q.given store)).2 := by
  by_cases hrest : q.rest = none
  · rw [shown_of_new hrest, if_pos hrest, given_of_new hrest]
    rfl
  · rw [shown, if_neg hrest, if_neg hrest, List.append_nil]

/-! ## One turn -/

theorem Sound.paused (h : q.Sound store) {done rest : List Captured} {next : Pass}
    (htodo : q.todo store = done ++ rest) (hnext : q.Resumes next) (hrest : next.rest = some rest)
    (hframer : next.framer = (q.framer.pushAll done).1)
    (hsent : next.sent = q.sent + .ofNat (q.framer.pushAll done).2.length) :
    next.Sound store ∧ next.shown store =
      .started q.number :: q.tells (Framer.pushAll {} (q.given store)).2 ++
        q.tells (q.framer.pushAll done).2 := by
  have hleft : next.todo store = rest := by
    rw [todo, hrest]
    rfl
  have hstream : next.task.stream store = (q.given store ++ done) ++ next.todo store := by
    rw [hnext.task, h.stream, htodo, hleft, List.append_assoc]
  have hgiven := given_eq hstream
  have hall := Framer.pushAll_append {} (q.given store) done
  rw [← h.framer] at hall
  refine ⟨⟨hgiven ▸ hstream, ?_, ?_⟩, ?_⟩
  · rw [hframer, hgiven, hall]
  · rw [hsent, hgiven, hall, h.sent, List.length_append, UInt64.ofNat_add]
  · have hnumber : next.number = q.number := congrArg Task.number hnext.task
    have hopened : next.rest ≠ none := by
      rw [hrest]
      exact Option.some_ne_none rest
    rw [shown, if_neg hopened, hgiven, hall, tells_append, tells, tells, hnumber]
    rfl

theorem Sound.ended (h : q.Sound store) {done rest : List Captured} {sent : UInt64}
    (htodo : q.todo store = done ++ rest)
    (hsent : sent = q.sent +
      .ofNat ((q.framer.pushAll done).2 ++ (q.framer.pushAll done).1.close).length) :
    sent = .ofNat (Framer.frame (q.given store ++ done)).length ∧
      .started q.number :: q.tells (Framer.pushAll {} (q.given store)).2 ++
          q.tells ((q.framer.pushAll done).2 ++ (q.framer.pushAll done).1.close) =
        .started q.number :: q.tells (Framer.frame (q.given store ++ done)) ∧
      q.task.stream store = (q.given store ++ done) ++ rest := by
  have hframe : Framer.frame (q.given store ++ done) = (Framer.pushAll {} (q.given store)).2 ++
      ((q.framer.pushAll done).2 ++ (q.framer.pushAll done).1.close) := by
    rw [Framer.frame, Framer.pushAll_append, ← h.framer, List.append_assoc]
  refine ⟨?_, ?_, ?_⟩
  · rw [hframe, hsent, h.sent, ← UInt64.ofNat_add, ← List.length_append]
  · rw [hframe, tells_append q (Framer.pushAll {} _).2]
    rfl
  · rw [List.append_assoc, ← htodo]
    exact h.stream

theorem Sound.turn (h : q.Sound store) (pauses : Bool) :
    (∃ next, (q.turn store pauses).2 = .paused next ∧ q.Resumes next ∧ next.Sound store ∧
        next.shown store = q.shown store ++ events (q.turn store pauses).1) ∨
      ∃ r : Showing, r.task = q.task ∧ r.generation = q.generation ∧
        (q.turn store pauses).2 = .ended (.ofNat r.messages.length) r.cut ∧
        r.events = q.shown store ++ events (q.turn store pauses).1 ∧
        r.given <+: r.task.stream store ∧ (r.cut = false → r.given = r.task.stream store) ∧
        (r.cut = true → r.given ≠ r.task.stream store ∧ q.cancelled = true) := by
  obtain ⟨es, hes, hplayed⟩ := q.played_turn store pauses
  rw [hes, ← List.append_assoc, shown_opening]
  generalize (q.turn store pauses).2 = e at hplayed
  cases hplayed with
  | @paused done rest next htodo hdone hnext hrest hframer hsent =>
    obtain ⟨hsound, hshown⟩ := h.paused htodo hnext hrest hframer hsent
    exact Or.inl ⟨next, rfl, hnext, hsound, hshown⟩
  | @ended done rest htodo sent short hall hshort hleft hsent =>
    obtain ⟨hcount, hevents, hstream⟩ := h.ended htodo hsent
    refine Or.inr ⟨⟨q.task, q.generation, q.given store ++ done, short⟩, rfl, rfl, ?_, ?_, ?_, ?_, ?_⟩
    · rw [hcount]
      rfl
    · rw [← List.append_assoc, hevents]
      rfl
    · exact ⟨rest, hstream.symm⟩
    · intro hfull
      rw [hall hfull, List.append_nil] at hstream
      exact hstream.symm
    · intro hcut
      refine ⟨fun hsame => hleft hcut ?_, hshort hcut⟩
      exact List.append_right_eq_self.mp (hstream.symm.trans hsame.symm)

theorem track_of_turn (store : Option Store) (pauses : Bool) (q : Pass) :
    ∀ e ∈ events (q.turn store pauses).1, e.track = q.number := by
  have htells : ∀ ms, ∀ e ∈ q.tells ms, e.track = q.number := by
    intro ms e he
    obtain ⟨m, _, rfl⟩ := List.mem_map.mp he
    rfl
  obtain ⟨es, hes, hplayed⟩ := q.played_turn store pauses
  intro e he
  rw [hes] at he
  generalize (q.turn store pauses).2 = r at hplayed
  rcases List.mem_append.mp he with he | he
  · split at he
    · rw [List.mem_singleton.mp he]
      rfl
    · cases he
  · cases hplayed with
    | paused => exact htells _ e he
    | ended =>
      rcases List.mem_append.mp he with he | he
      · exact htells _ e he
      · rw [List.mem_singleton.mp he]
        rfl

end

end Pass

end QuoteBoard
