import QuoteBoard.Proofs.Generations

/-!
# The course of a run

Of a player only the timers and passes of the present generation count for its run, and of those
only the tasks. `Player.course` keeps just this, and `Course.Step` says what can happen to it: a
timer starts its task, or a task plays to its end. Until a run is stopped or the next one begins,
every action of the player is such a step or changes nothing (`course_act`).
-/

namespace QuoteBoard

structure Runner where
  id : Nat
  task : Task
  cancelled : Bool
  deriving DecidableEq

def Pass.runner (q : Pass) : Runner := ⟨q.id, q.task, q.cancelled⟩

structure Course where
  phase : Phase
  planned : Nat
  waiting : List (TrackNumber × Task)
  armed : List Task
  running : List Runner
  finished : List TrackNumber
  active : List (TrackNumber × Nat)

namespace Course

def finishedWith (c : Course) (t : Task) : List TrackNumber :=
  if t.mode = .once ∧ t.number ∉ c.finished then c.finished ++ [t.number] else c.finished

/-- A task has left the timers `armed` and plays. -/
def begin (c : Course) (id : Nat) (t : Task) (armed : List Task) : Course :=
  { c with
    phase := if c.phase = .initialized then .playing else c.phase
    armed := armed
    running := c.running ++ [⟨id, t, false⟩]
    active := c.active.filter (fun a => a.1 ≠ t.number) ++ [(t.number, id)] }

/-- A task has played to its end and left the passes `running`. -/
def stop (c : Course) (t : Task) (running : List Runner) : Course :=
  { c with
    phase := if (c.finishedWith t).length = c.planned ∧ c.phase = .playing then .finished else c.phase
    waiting := c.waiting.filter fun w => w.1 ≠ t.number
    armed := c.armed ++ ((c.waiting.filter fun w => w.1 = t.number).map (·.2) ++
      if t.mode = .loop then [t] else [])
    running := running
    finished := c.finishedWith t
    active := c.active.filter fun a => a.1 ≠ t.number }

/-- What can happen to a course, and the track that has played to its end. -/
inductive Step : Course → Option TrackNumber → Course → Prop where
  | idle (c : Course) : Step c none c
  | start {c : Course} {l r : List Task} {t : Task} (id : Nat) (h : c.armed = l ++ t :: r) :
    Step c none (c.begin id t (l ++ r))
  | stop {c : Course} {l r : List Runner} {x : Runner} (h : c.running = l ++ x :: r) :
    Step c (some x.task.number) (c.stop x.task (l ++ r))

end Course

namespace Player

def tasksOf (g : Nat) (ss : List Start) : List Task :=
  (ss.filter fun s => s.generation = g).map (·.task)

theorem tasksOf_append (g : Nat) (ss us : List Start) :
    tasksOf g (ss ++ us) = tasksOf g ss ++ tasksOf g us := by
  unfold tasksOf
  rw [List.filter_append, List.map_append]

theorem tasksOf_cons (g : Nat) (s : Start) (ss : List Start) :
    tasksOf g (s :: ss) = if s.generation = g then s.task :: tasksOf g ss else tasksOf g ss := by
  by_cases hs : s.generation = g <;> simp [tasksOf, hs]

theorem tasksOf_present (g : Nat) (ts : List Task) :
    tasksOf g (ts.map fun t => ⟨t, g⟩) = ts := by
  induction ts with
  | nil => rfl
  | cons t ts ih => rw [List.map_cons, tasksOf_cons, if_pos rfl, ih]

theorem tasksOf_eq_nil {g : Nat} {ss : List Start} (h : ∀ s ∈ ss, s.generation ≠ g) :
    tasksOf g ss = [] := by
  rw [tasksOf, List.map_eq_nil_iff, List.filter_eq_nil_iff]
  intro s hs
  simpa using h s hs

def runnersOf (g : Nat) (qs : List Pass) : List Runner :=
  (qs.filter fun q => q.generation = g).map Pass.runner

theorem runnersOf_append (g : Nat) (qs rs : List Pass) :
    runnersOf g (qs ++ rs) = runnersOf g qs ++ runnersOf g rs := by
  unfold runnersOf
  rw [List.filter_append, List.map_append]

theorem runnersOf_cons (g : Nat) (q : Pass) (qs : List Pass) :
    runnersOf g (q :: qs) =
      if q.generation = g then q.runner :: runnersOf g qs else runnersOf g qs := by
  by_cases hq : q.generation = g <;> simp [runnersOf, hq]

theorem runnersOf_eq_nil {g : Nat} {qs : List Pass} (h : ∀ q ∈ qs, q.generation ≠ g) :
    runnersOf g qs = [] := by
  rw [runnersOf, List.map_eq_nil_iff, List.filter_eq_nil_iff]
  intro q hq
  simpa using h q hq

def armed (p : Player) : List Task := tasksOf p.generation p.starts

def running (p : Player) : List Runner := runnersOf p.generation p.passes

theorem runner_mem {p : Player} {q : Pass} (hq : q ∈ p.passes) (hg : q.generation = p.generation) :
    q.runner ∈ p.running :=
  List.mem_map_of_mem (List.mem_filter.mpr ⟨hq, decide_eq_true hg⟩)

def course (p : Player) : Course where
  phase := p.phase
  planned := p.planned
  waiting := p.registry.waiting
  armed := p.armed
  running := p.running
  finished := p.finished
  active := p.active

/-! ## Timers -/

/-- A start that leaves the timers begins in the present run or comes to nothing. -/
theorem course_begin {p : Player} {l r : List Start} {s : Start} (hstarts : p.starts = l ++ s :: r)
    {ts : Timers Start} (hrest : ts.live.map (·.payload) = l ++ r) (now : Moment) :
    p.course.Step none ({ p with timers := ts }.begin now s).1.course := by
  have hleft : ({ p with timers := ts } : Player).armed =
      tasksOf p.generation l ++ tasksOf p.generation r := by
    show tasksOf p.generation (ts.live.map (·.payload)) = _
    rw [hrest, tasksOf_append]
  have harmed : p.armed = tasksOf p.generation l ++ tasksOf p.generation (s :: r) := by
    rw [armed, hstarts, tasksOf_append]
  by_cases hs : s.generation = p.generation
  · rw [tasksOf_cons, if_pos hs] at harmed
    obtain ⟨q, ⟨hid, htask, hgen, hcancelled⟩, hbegin⟩ := begin_eq { p with timers := ts } now s hs
    have hrunning : runnersOf p.generation (p.passes ++ [q]) =
        p.running ++ [⟨q.id, s.task, false⟩] := by
      rw [runnersOf_append, runnersOf_cons, if_pos hgen]
      simp [running, runnersOf, Pass.runner, htask, hcancelled]
    have hnumber : q.number = s.task.number := congrArg Task.number htask
    have hstep := Course.Step.start (c := p.course) q.id harmed
    rw [← hleft] at hstep
    rw [hbegin]
    unfold course running
    simp only
    rw [hrunning, hnumber]
    exact hstep
  · rw [tasksOf_cons, if_neg hs, ← hleft] at harmed
    rw [begin_of_ne (p := { p with timers := ts }) hs]
    have hsame : ({ p with timers := ts } : Player).course = p.course := by
      show ({ p.course with armed := _ } : Course) = p.course
      rw [← harmed]
      rfl
    rw [hsame]
    exact .idle _

theorem course_fire (p : Player) (now : Moment) (id : UInt64) :
    p.course.Step none (p.fire now id).1.course := by
  rcases p.fire_cases now id with heq | ⟨l, s, r, ts, hstarts, hrest, heq⟩
  · rw [heq]
    exact .idle _
  · rw [heq]
    exact course_begin hstarts hrest now

/-! ## Turns -/

theorem running_replace {p : Player} (h : p.Orderly) {q next : Pass} (hq : q ∈ p.passes)
    (hnext : q.Resumes next) : (p.replace next).running = p.running := by
  have hrunner : ∀ r ∈ p.passes,
      (if r.id = next.id then next else r).generation = r.generation ∧
        (if r.id = next.id then next else r).runner = r.runner := by
    intro r hr
    by_cases hid : r.id = next.id
    · have hsame : r = q := List.inj_on_of_nodup_map h.ids hr hq (hid.trans hnext.id)
      rw [if_pos hid, hsame]
      exact ⟨hnext.generation, by simp [Pass.runner, hnext.id, hnext.task, hnext.cancelled]⟩
    · rw [if_neg hid]
      exact ⟨rfl, rfl⟩
  unfold running runnersOf replace
  simp only
  rw [List.filter_map, List.map_map]
  have hfilter : p.passes.filter
      ((fun q => decide (q.generation = p.generation)) ∘ fun r => if r.id = next.id then next else r) =
        p.passes.filter fun q => q.generation = p.generation :=
    List.filter_congr fun r hr => by simp only [Function.comp_apply, (hrunner r hr).1]
  rw [hfilter]
  apply List.map_congr_left
  intro r hr
  exact (hrunner r (List.mem_filter.mp hr).1).2

theorem passes_remove {p : Player} (h : p.Orderly) {l r : List Pass} {q : Pass}
    (hpasses : p.passes = l ++ q :: r) : (p.remove q.id).passes = l ++ r := by
  have hids := h.ids
  rw [hpasses, (List.perm_middle.map _).nodup_iff] at hids
  have hother : ∀ x ∈ l ++ r, x.id ≠ q.id := fun x hx heq =>
    (List.nodup_cons.mp hids).1 (List.mem_map.mpr ⟨x, hx, heq⟩)
  have hkeep : (l ++ r).filter (fun x => x.id ≠ q.id) = l ++ r :=
    List.filter_eq_self.mpr fun x hx => decide_eq_true (hother x hx)
  show p.passes.filter _ = _
  rw [hpasses, ← hkeep]
  simp

theorem running_remove {p : Player} (h : p.Orderly) {q : Pass} (hq : q ∈ p.passes) :
    (q.generation ≠ p.generation ∧ (p.remove q.id).running = p.running) ∨
      (q.generation = p.generation ∧
        ∃ l r, p.running = l ++ q.runner :: r ∧ (p.remove q.id).running = l ++ r) := by
  obtain ⟨l, r, hpasses⟩ := List.append_of_mem hq
  have hleft : (p.remove q.id).running = runnersOf p.generation l ++ runnersOf p.generation r := by
    show runnersOf p.generation (p.remove q.id).passes = _
    rw [passes_remove h hpasses, runnersOf_append]
  have hall : p.running = runnersOf p.generation l ++ runnersOf p.generation (q :: r) := by
    rw [running, hpasses, runnersOf_append]
  by_cases hg : q.generation = p.generation
  · rw [runnersOf_cons, if_pos hg] at hall
    exact Or.inr ⟨hg, _, _, hall, hleft⟩
  · rw [runnersOf_cons, if_neg hg] at hall
    exact Or.inl ⟨hg, hleft.trans hall.symm⟩

/-- Of the passes that end uncancelled only those of the run are steps of its course. -/
theorem course_complete {p : Player} (h : p.Orderly) (hlive : ∀ x ∈ p.running, x.cancelled = false)
    {q : Pass} (hq : q ∈ p.passes) (now : Moment) (sent : UInt64) {cancelled : Bool}
    (hc : q.cancelled = false → cancelled = false) :
    p.course.Step (if q.generation = p.generation then some q.number else none)
        (p.complete now q sent cancelled).1.course ∧
      (p.complete now q sent cancelled).1.passes = (p.remove q.id).passes := by
  obtain ⟨c, ⟨hg, heq⟩ | ⟨hg, hcancelled, heq⟩ | ⟨hg, _, heq⟩⟩ := p.complete_cases now q sent cancelled
  · rcases running_remove h hq with ⟨_, hsame⟩ | ⟨hg', _⟩
    · have hcourse : ({ p.remove q.id with metrics := c } : Player).course = p.course := by
        show ({ p.course with running := (p.remove q.id).running } : Course) = p.course
        rw [hsame]
        rfl
      rw [if_neg hg, heq, hcourse]
      exact ⟨.idle _, rfl⟩
    · exact absurd hg' hg
  · rw [hc (hlive _ (runner_mem hq hg))] at hcancelled
    cases hcancelled
  · rcases running_remove h hq with ⟨hg', _⟩ | ⟨_, l, r, hrunning, hleft⟩
    · exact absurd hg hg'
    · obtain ⟨ts, hstarts, hrelease⟩ := release_eq { p.remove q.id with
        metrics := c, active := p.active.filter fun a => a.1 ≠ q.number } now q.task
      have harmed : tasksOf p.generation (ts.live.map (·.payload)) =
          p.armed ++ p.releasedBy q.task := by
        rw [hstarts]
        exact (tasksOf_append ..).trans (congrArg _ (tasksOf_present ..))
      have hstep := Course.Step.stop (c := p.course) (x := q.runner) hrunning
      rw [← hleft] at hstep
      rw [if_pos hg, heq, hrelease]
      refine ⟨?_, rfl⟩
      unfold course armed starts
      simp only
      rw [show (p.remove q.id).generation = p.generation from rfl, harmed]
      exact hstep

/-- The track of a pass of the present run that comes to its end by an action. -/
def ended? (p : Player) : Action → Option TrackNumber
  | .work now id pauses =>
    (p.findPass? id).bind fun q =>
      if q.generation = p.generation ∧ (p.work now id pauses).1.isOver id then some q.number else none
  | _ => none

theorem course_work {p : Player} (h : p.Orderly) (hlive : ∀ x ∈ p.running, x.cancelled = false)
    (now : Moment) (id : Nat) (pauses : Bool) :
    p.course.Step (p.ended? (.work now id pauses)) (p.work now id pauses).1.course := by
  simp only [ended?]
  rcases p.work_cases now id pauses with ⟨hfind, heq⟩ | ⟨q, a, c, hfind, hturn⟩
  · rw [heq, hfind]
    exact .idle _
  have h' : ({ p with audience := a, metrics := c } : Player).Orderly :=
    ⟨h.starts, h.passes, h.spawned, h.ids⟩
  obtain ⟨hq, hid⟩ := mem_of_findPass? hfind
  rcases hturn with ⟨next, hnext, heq⟩ | ⟨sent, cancelled, hc, heq⟩
  · have hover : (p.work now id pauses).1.isOver id = false := by
      rw [heq]
      unfold isOver findPass?
      rw [Option.isNone_eq_false_iff, List.find?_isSome]
      refine ⟨next, List.mem_map.mpr ⟨q, hq, if_pos hnext.id.symm⟩, ?_⟩
      exact decide_eq_true (hnext.id.trans hid)
    have hsame := running_replace h' hq hnext
    rw [hfind, hover, heq]
    have hcourse : (({ p with audience := a, metrics := c } : Player).replace next).course =
        p.course := by
      show ({ p.course with running := _ } : Course) = p.course
      rw [hsame]
      rfl
    rw [hcourse]
    simp only [Option.bind_some, Bool.false_eq_true, and_false, if_false]
    exact .idle _
  · obtain ⟨hstep, hpasses⟩ := course_complete h' hlive hq now sent hc
    have hover : (p.work now id pauses).1.isOver id = true := by
      rw [heq]
      unfold isOver findPass?
      rw [hpasses, Option.isNone_iff_eq_none, List.find?_eq_none]
      intro r hr
      have hne := (List.mem_filter.mp hr).2
      rw [← hid]
      simpa using hne
    rw [hfind, hover, heq]
    simp only [Option.bind_some, and_true]
    exact hstep

/-! ## Actions -/

end Player

/-- An action that neither stops a run nor begins the next one. -/
def Action.Continues (p : Player) : Action → Prop
  | .addTask _ => True
  | .fire _ _ => True
  | .work _ _ _ => True
  | .play now => (p.play now).2.2 ≠ none
  | _ => False

namespace Player

theorem course_act {p : Player} (h : p.Orderly) (hlive : ∀ x ∈ p.running, x.cancelled = false)
    {a : Action} (ha : a.Continues p) : p.course.Step (p.ended? a) (p.act a).1.course := by
  cases a with
  | addTask t => exact .idle _
  | fire now id => exact p.course_fire now id
  | work now id pauses => exact course_work h hlive now id pauses
  | play now =>
    rcases p.play_cases now with ⟨heq, _⟩ | ⟨t, plan, _, _, _, hok⟩
    · show p.course.Step none (p.play now).1.course
      rw [heq]
      exact .idle _
    · exact absurd hok ha
  | beginStop => exact absurd ha id
  | join track id => exact absurd ha not_false
  | endStop => exact absurd ha id
  | abandon => exact absurd ha id

/-- What a run can come to before it is stopped or the next one begins, with the tracks that have
played to their end in it. -/
inductive Runs (start : Player) : Player → List TrackNumber → Prop where
  | refl : Runs start start []
  | act {p : Player} {done : List TrackNumber} (h : Runs start p done) {a : Action}
    (ha : a.Continues p) : Runs start (p.act a).1 (done ++ (p.ended? a).toList)
  | addSeat {p : Player} {done : List TrackNumber} (h : Runs start p done) (s : Seat) :
    Runs start (p.addSeat s) done

end Player

end QuoteBoard
