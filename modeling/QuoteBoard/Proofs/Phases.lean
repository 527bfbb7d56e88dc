import QuoteBoard.Proofs.Isolation

/-!
# The phases of a player

Phases change along a diagram (`Phase.Moves`), and each change is seen (`Player.changes`). What comes
of timers and passes moves a run on or leaves its phase alone (`Player.goesOn_act`); the rest is up
to the commands. So from a fresh player the changes that are seen make one route through the diagram
(`Player.Called.route`). A command that is refused changes nothing. The main statement is
`Player.phases_of_called`.
-/

namespace QuoteBoard

/-! ## The diagram -/

namespace Phase

inductive Moves : Phase → Phase → Prop where
  | play : Moves stopped initializing
  | replay : Moves finished initializing
  | prepare : Moves initializing initialized
  | skip : Moves initialized finished
  | start : Moves initialized playing
  | finish : Moves playing finished
  | stopInitializing : Moves initializing stopping
  | stopInitialized : Moves initialized stopping
  | stopPlaying : Moves playing stopping
  | stopFinished : Moves finished stopping
  | stop : Moves stopping stopped

/-- Changes in a row, each from the phase where the one before it led; a change that a command asked
for does not tell where from. -/
inductive Route : Phase → List (Option Phase × Phase) → Phase → Prop where
  | nil (s : Phase) : Route s [] s
  | cons {s t u : Phase} {old : Option Phase} {cs : List (Option Phase × Phase)}
    (hold : old = none ∨ old = some s) (hmove : s.Moves t) (h : Route t cs u) :
    Route s ((old, t) :: cs) u

theorem Route.append {s t u : Phase} {cs ds : List (Option Phase × Phase)} (h : Route s cs t)
    (k : Route t ds u) : Route s (cs ++ ds) u := by
  induction h with
  | nil s => exact k
  | cons hold hmove _ ih => exact .cons hold hmove (ih k)

theorem Moves.route {s t : Phase} (h : s.Moves t) : Route s [(some s, t)] t :=
  .cons (Or.inr rfl) h (.nil t)

/-- How a run goes on by itself. -/
inductive GoesOn : Phase → List (Option Phase × Phase) → Phase → Prop where
  | stays (s : Phase) : GoesOn s [] s
  | plays : GoesOn initialized [(some initialized, playing)] playing
  | finishes : GoesOn playing [(some playing, finished)] finished

section
variable {s t : Phase} {cs : List (Option Phase × Phase)}

theorem GoesOn.route (h : GoesOn s cs t) : Route s cs t := by
  cases h with
  | stays => exact .nil s
  | plays => exact Moves.start.route
  | finishes => exact Moves.finish.route

theorem GoesOn.stopping_iff (h : GoesOn s cs t) : t = stopping ↔ s = stopping := by
  cases h with
  | stays => exact Iff.rfl
  | plays => decide
  | finishes => decide

theorem GoesOn.not_skip (h : GoesOn s cs t) : (some initialized, finished) ∉ cs := by
  cases h with
  | stays => exact List.not_mem_nil
  | plays => decide
  | finishes => decide

end

end Phase

def ReplayEvent.change? : ReplayEvent → Option (Option Phase × Phase)
  | phase old new => some (old, new)
  | _ => none

theorem Plan.error_of_make {chained : Bool} {ts : List Task} {e : PlayerError}
    (h : (Plan.make chained ts).2 = .error e) :
    (∃ n, e = .duplicateTrack n) ∨ ∃ n, e = .dependencyCycle n := by
  rw [make_eq] at h
  split at h
  · rename_i n _
    exact Or.inl ⟨n, (Except.error.inj h).symm⟩
  · split at h
    · rename_i n _
      exact Or.inr ⟨n, (Except.error.inj h).symm⟩
    · cases h

namespace Player

open Phase

def changes (es : List ReplayEvent) : List (Option Phase × Phase) :=
  es.filterMap ReplayEvent.change?

theorem changes_append (es fs : List ReplayEvent) : changes (es ++ fs) = changes es ++ changes fs :=
  List.filterMap_append

theorem changes_map {α : Type} {f : α → ReplayEvent} (h : ∀ a, (f a).change? = none) (as : List α) :
    changes (as.map f) = [] := by
  rw [changes, List.filterMap_map]
  exact List.filterMap_eq_nil_iff.mpr fun a _ => h a

/-! ## What goes on by itself -/

theorem changes_onPlay (i : Nat) (e : PlayEvent) (s : Seat) : changes (s.onPlay i e).2.1 = [] := by
  cases s with
  | spectator s => rfl
  | board b => exact changes_map (fun _ => rfl) _

theorem changes_take (i : Nat) (c : Cue) (s : Seat) : changes (s.take i c).2 = [] := by
  cases c with
  | played e =>
    simp only [Seat.take]
    rw [changes_append, changes_onPlay]
    cases (s.onPlay i e).2.2 <;> rfl
  | _ => cases s <;> rfl

theorem changes_tell (c : Cue) (i : Nat) (ss : List Seat) : changes (Audience.tell c i ss).2 = [] := by
  induction ss generalizing i with
  | nil => rfl
  | cons s ss ih =>
    simp only [Audience.tell]
    rw [changes_append, changes_take, ih]
    rfl

section
variable {p : Player}

theorem changes_emitAll (p : Player) (ss : List Signal) : changes (p.emitAll ss).2 = [] := by
  induction ss generalizing p with
  | nil => rfl
  | cons s ss ih =>
    have hemit : changes (p.emit s).2 = [] := by
      cases s with
      | logged e => rfl
      | cue c => exact changes_tell c 0 p.audience
    simp only [emitAll]
    rw [changes_append, hemit, ih]
    rfl

theorem phase_armAll (p : Player) (now : Moment) (ts : List Task) :
    (p.armAll now ts).phase = p.phase := by
  obtain ⟨timers, harm⟩ := p.armAll_eq now ts
  rw [harm]

section
variable {s : Phase} (h : p.phase = s)
include h

theorem goesOn_advance {old new : Phase} (hgo : GoesOn old [(some old, new)] new) :
    GoesOn s (changes (p.advance old new).2) (p.advance old new).1.phase := by
  subst h
  unfold advance
  split
  · rename_i h
    rw [h]
    exact hgo
  · exact .stays p.phase

theorem goesOn_begin (now : Moment) (t : Start) :
    GoesOn s (changes (p.begin now t).2) (p.begin now t).1.phase := by
  simp only [begin]
  split
  · refine goesOn_advance ?_ .plays
    exact h
  · exact h ▸ .stays p.phase

theorem goesOn_fire (now : Moment) (id : UInt64) :
    GoesOn s (changes (p.fire now id).2) (p.fire now id).1.phase := by
  unfold fire
  split
  · exact h ▸ .stays p.phase
  · refine goesOn_begin ?_ now _
    exact h

theorem goesOn_release (now : Moment) (t : Task) :
    GoesOn s (changes (p.release now t).2) (p.release now t).1.phase := by
  simp only [release]
  generalize hq : armAll _ now _ = q
  have hphase : q.phase = s := by
    rw [← hq, phase_armAll]
    exact h
  split
  · exact goesOn_advance hphase .finishes
  · exact hphase ▸ .stays q.phase

theorem goesOn_complete (now : Moment) (q : Pass) (sent : UInt64) (cancelled : Bool) :
    GoesOn s (changes (p.complete now q sent cancelled).2)
      (p.complete now q sent cancelled).1.phase := by
  simp only [complete]
  split
  · split
    · exact h ▸ .stays p.phase
    · refine goesOn_release ?_ now q.task
      exact h
  · exact h ▸ .stays p.phase

end

theorem goesOn_work (p : Player) (now : Moment) (id : Nat) (pauses : Bool) :
    GoesOn p.phase (changes (p.work now id pauses).2) (p.work now id pauses).1.phase := by
  unfold work
  split
  · exact .stays p.phase
  · rename_i q _
    obtain ⟨a, c, htold⟩ := p.emitAll_eq (q.turn p.store pauses).1
    have hsilent := p.changes_emitAll (q.turn p.store pauses).1
    simp only
    split
    · rw [hsilent, htold]
      exact .stays p.phase
    · rw [changes_append, hsilent, htold, List.nil_append]
      refine goesOn_complete ?_ now q _ _
      rfl

/-! ## Commands -/

theorem changes_logged (ls : List LogEntry) : changes (ls.map .logged) = [] :=
  changes_map (fun _ => rfl) ls

/-- A refused play only warns of what it saw in the tasks. -/
theorem events_refused {now : Option Moment} (h : (p.play now).2.2 ≠ none) :
    ∃ ls : List LogEntry, (p.play now).2.1 = ls.map .logged := by
  unfold play at h ⊢
  cases now with
  | none => exact ⟨[], rfl⟩
  | some now =>
    refine ⟨(Plan.make p.config.chained p.tasks).1, ?_⟩
    cases hmake : (Plan.make p.config.chained p.tasks).2 with
    | error e => simp only [hmake]
    | ok plan =>
      by_cases hphase : p.phase = .stopped ∨ p.phase = .finished
      · simp [hmake, hphase] at h
      · simp only [hmake, hphase, if_false]

theorem changes_run (now : Moment) (plan : List Planned) :
    changes (p.run now plan).2 = if plan = [] then [(some .initialized, .finished)] else [] := by
  cases plan <;> rfl

theorem phase_run (now : Moment) (plan : List Planned) :
    (p.run now plan).1.phase = if plan = [] then .finished else .initialized := by
  obtain ⟨ts, _, heq⟩ := p.run_eq now plan
  rw [heq]

theorem changes_obeyed {plan : List Planned}
    (hmake : (Plan.make p.config.chained p.tasks).2 = .ok plan)
    (hphase : p.phase = .stopped ∨ p.phase = .finished) (now : Moment) :
    changes (p.play (some now)).2.1 = [(none, .initializing), (some .initializing, .initialized)] ++
      if plan = [] then [(some .initialized, .finished)] else [] := by
  have hstore : changes (if p.store.isNone then [.logged .noStore] else []) = [] := by
    split <;> rfl
  have hsplit : ∀ (old : Option Phase) (new : Phase) (es : List ReplayEvent),
      changes (.phase old new :: es) = (old, new) :: changes es := fun _ _ _ => rfl
  simp only [play, hmake, hphase, if_true]
  rw [changes_append, changes_append, changes_logged, hsplit, hsplit, hstore, changes_run]
  rfl

theorem beginStop_accepted (h : ¬ (p.phase = .stopped ∨ p.phase = .stopping)) :
    p.beginStop.1.phase = .stopping ∧ p.beginStop.2 = ([.phase none .stopping], none) := by
  unfold beginStop
  rw [if_neg h]
  exact ⟨rfl, rfl⟩

theorem endStop_of_stopping (h : p.phase = .stopping) (hjoining : p.joining = []) :
    p.endStop = ({ p with phase := .stopped }, [.phase (some .stopping) .stopped]) := by
  unfold endStop advance
  rw [if_pos hjoining, if_pos h]

end

end Player

/-! ## What an action does to the phase -/

def Action.isCommand : Action → Bool
  | play _ => true
  | beginStop => true
  | endStop => true
  | _ => false

namespace Player

open Phase

/-- The changes of phase that an action makes, and the phase that it leads to. -/
inductive Shifts (p : Player) : Action → List (Option Phase × Phase) → Phase → Prop where
  | goesOn {a : Action} {cs : List (Option Phase × Phase)} {t : Phase} (ha : a.isCommand = false)
    (h : GoesOn p.phase cs t) : Shifts p a cs t
  | playRefused (now : Option Moment) : Shifts p (.play now) [] p.phase
  | played (now : Moment) {plan : List Planned}
    (hmake : (Plan.make p.config.chained p.tasks).2 = .ok plan)
    (hphase : p.phase = .stopped ∨ p.phase = .finished) :
    Shifts p (.play (some now))
      ([(none, .initializing), (some .initializing, .initialized)] ++
        if plan = [] then [(some .initialized, .finished)] else [])
      (if plan = [] then .finished else .initialized)
  | stopRefused (hphase : p.phase = .stopped ∨ p.phase = .stopping) : Shifts p .beginStop [] p.phase
  | stops (hphase : ¬ (p.phase = .stopped ∨ p.phase = .stopping)) :
    Shifts p .beginStop [(none, .stopping)] .stopping
  | waits (h : p.phase = .stopping → p.joining ≠ []) : Shifts p .endStop [] p.phase
  | stopped (hphase : p.phase = .stopping) (hjoining : p.joining = []) :
    Shifts p .endStop [(some .stopping, .stopped)] .stopped

section
variable {p : Player}

theorem goesOn_act (p : Player) {a : Action} (ha : a.isCommand = false) :
    GoesOn p.phase (changes (p.act a).2.1) (p.act a).1.phase := by
  cases a with
  | addTask t => exact .stays p.phase
  | fire now id => exact goesOn_fire rfl now id
  | work now id pauses => exact p.goesOn_work now id pauses
  | join track id =>
    simp only [act, join]
    split
    · exact .stays p.phase
    · exact .stays p.phase
  | abandon => exact .stays p.phase
  | _ => cases ha

theorem shifts_act (p : Player) (a : Action) :
    p.Shifts a (changes (p.act a).2.1) (p.act a).1.phase := by
  by_cases ha : a.isCommand = false
  · exact .goesOn ha (p.goesOn_act ha)
  · cases a with
    | play now =>
      rw [act]
      rcases p.play_cases now with ⟨heq, hrefused⟩ | ⟨t, plan, rfl, hmake, heq, hobeyed⟩
      · obtain ⟨ls, hls⟩ := events_refused hrefused
        rw [heq, hls, changes_logged]
        exact .playRefused now
      · have hphase := phase_of_obeyed hobeyed
        rw [changes_obeyed hmake hphase, heq, phase_run]
        exact .played t hmake hphase
    | beginStop =>
      rw [act]
      by_cases hphase : p.phase = .stopped ∨ p.phase = .stopping
      · rw [beginStop_refused hphase]
        exact .stopRefused hphase
      · obtain ⟨hstopping, hevents⟩ := beginStop_accepted hphase
        rw [hstopping, hevents]
        exact .stops hphase
    | endStop =>
      show p.Shifts .endStop (changes p.endStop.2) p.endStop.1.phase
      by_cases hphase : p.phase = .stopping
      · by_cases hjoining : p.joining = []
        · rw [endStop_of_stopping hphase hjoining]
          exact .stopped hphase hjoining
        · rw [endStop, if_neg hjoining]
          exact .waits fun _ => hjoining
      · rw [endStop_of_ne hphase]
        exact .waits fun h => absurd h hphase
    | _ => exact absurd rfl ha

variable {a : Action} {cs : List (Option Phase × Phase)} {t : Phase}

theorem Shifts.route (h : p.Shifts a cs t) : Route p.phase cs t := by
  cases h with
  | goesOn _ h => exact h.route
  | playRefused => exact .nil p.phase
  | @played now plan _ hphase =>
    have hmove : p.phase.Moves .initializing := by
      rcases hphase with h | h <;> rw [h]
      · exact .play
      · exact .replay
    have hstart :
        Route p.phase [(none, .initializing), (some .initializing, .initialized)] .initialized :=
      .cons (Or.inl rfl) hmove Moves.prepare.route
    refine hstart.append ?_
    split
    · exact Moves.skip.route
    · exact .nil .initialized
  | stopRefused => exact .nil p.phase
  | stops hphase =>
    obtain ⟨hstopped, hstopping⟩ := not_or.mp hphase
    have hmove : p.phase.Moves .stopping := by
      cases hp : p.phase with
      | stopped => exact absurd hp hstopped
      | initializing => exact .stopInitializing
      | initialized => exact .stopInitialized
      | playing => exact .stopPlaying
      | finished => exact .stopFinished
      | stopping => exact absurd hp hstopping
    exact .cons (Or.inl rfl) hmove (.nil .stopping)
  | waits => exact .nil p.phase
  | stopped hphase => exact hphase ▸ Moves.stop.route

theorem Shifts.tasks_of_skip (h : p.Shifts a cs t) (hskip : (some .initialized, .finished) ∈ cs) :
    (∃ now, a = .play (some now)) ∧ p.tasks = [] := by
  cases h with
  | goesOn _ h => exact absurd hskip h.not_skip
  | @played now plan hmake _ =>
    refine ⟨⟨now, rfl⟩, ?_⟩
    by_cases hplan : plan = []
    · have hperm := (Plan.sound_of_make hmake).2
      rw [hplan] at hperm
      exact hperm.nil_eq.symm
    · rw [if_neg hplan] at hskip
      exact absurd hskip (by decide)
  | stops => exact absurd hskip (by decide)
  | stopped => exact absurd hskip (by decide)
  | _ => exact absurd hskip List.not_mem_nil

end

/-! ## Calls -/

/-- Whether a stop is under way after an action: one that was accepted is, until it waits for no pass
any more. -/
def stopsAfter (p : Player) (stop : Bool) : Action → Bool
  | .beginStop => stop || p.beginStop.2.2.isNone
  | .endStop => stop && !p.joining.isEmpty
  | _ => stop

/-- What can come of a player, whether a stop is under way then, and what was seen. -/
inductive Called : Player → Bool → List ReplayEvent → Prop where
  | fresh (config : ReplayConfig) (store : Option Store) (audience : List Seat) :
    Called { config := config, store := store, audience := audience } false []
  | act {p : Player} {stop : Bool} {es : List ReplayEvent} (h : Called p stop es) (a : Action) :
    Called (p.act a).1 (p.stopsAfter stop a) (es ++ (p.act a).2.1)
  | addSeat {p : Player} {stop : Bool} {es : List ReplayEvent} (h : Called p stop es) (s : Seat) :
    Called (p.addSeat s) stop es

section
variable {p : Player} {stop : Bool} {es : List ReplayEvent}

theorem Shifts.stopping_iff {a : Action} {cs : List (Option Phase × Phase)} {t : Phase}
    (h : p.Shifts a cs t) (hstop : stop = true ↔ p.phase = .stopping) :
    p.stopsAfter stop a = true ↔ t = .stopping := by
  cases h with
  | goesOn ha h =>
    rw [h.stopping_iff, ← hstop]
    cases a with
    | beginStop => cases ha
    | endStop => cases ha
    | _ => exact Iff.rfl
  | playRefused => exact hstop
  | @played now plan _ hphase =>
    have hno : p.phase ≠ .stopping := by rcases hphase with h | h <;> rw [h] <;> decide
    refine ⟨fun h => absurd (hstop.mp h) hno, ?_⟩
    split <;> exact fun h => absurd h (by decide)
  | stopRefused hphase =>
    rw [stopsAfter, beginStop_refused hphase, ← hstop]
    simp
  | stops hphase =>
    rw [stopsAfter, (beginStop_accepted hphase).2]
    simp
  | waits h =>
    rw [stopsAfter, ← hstop]
    simp only [Bool.and_eq_true, Bool.not_eq_true', List.isEmpty_eq_false_iff, and_iff_left_iff_imp]
    exact fun hs => h (hstop.mp hs)
  | stopped _ hjoining =>
    rw [stopsAfter, hjoining]
    simp

theorem Called.route (h : p.Called stop es) : Route .stopped (changes es) p.phase := by
  induction h with
  | fresh config store audience => exact .nil .stopped
  | @act p _ _ _ a ih =>
    rw [changes_append]
    exact ih.append (p.shifts_act a).route
  | addSeat _ s ih => exact ih

theorem Called.stopping_iff (h : p.Called stop es) : stop = true ↔ p.phase = .stopping := by
  induction h with
  | fresh config store audience => exact ⟨fun h => (nomatch h), fun h => (nomatch h)⟩
  | @act p _ _ _ a ih => exact (p.shifts_act a).stopping_iff ih
  | addSeat _ s ih => exact ih

/-! ## Answers -/

theorem play_of_error {e : PlayerError} (h : (Plan.make p.config.chained p.tasks).2 = .error e)
    (now : Moment) : (p.play (some now)).2.2 = some e := by
  simp only [play, h]

theorem play_of_ok {plan : List Planned} (h : (Plan.make p.config.chained p.tasks).2 = .ok plan)
    (now : Moment) :
    (p.play (some now)).2.2 = if p.phase = .stopped ∨ p.phase = .finished then none
      else some (.invalidState .play p.phase) := by
  simp only [play, h]
  split <;> rfl

structure Answers (p : Player) : Prop where
  /-- Tasks that make no plan are refused, whatever the phase, and for what is wrong with them. -/
  tasks : ∀ now, ((∃ n, (p.play (some now)).2.2 = some (.duplicateTrack n)) ∨
      ∃ n, (p.play (some now)).2.2 = some (.dependencyCycle n)) ↔
    ∃ e, (Plan.make p.config.chained p.tasks).2 = .error e
  why : ∀ now e, (Plan.make p.config.chained p.tasks).2 = .error e →
    (p.play (some now)).2.2 = some e
  play : ∀ now plan, (Plan.make p.config.chained p.tasks).2 = .ok plan →
    (p.play (some now)).2.2 = if p.phase = .stopped ∨ p.phase = .finished then none
      else some (.invalidState .play p.phase)
  stop : p.beginStop.2.2 = if p.phase = .stopped ∨ p.phase = .stopping
    then some (.invalidState .stop p.phase) else none
  /-- A call that fails changes nothing, and nothing is seen of it but warnings. -/
  refused : ∀ a, (p.act a).2.2 ≠ none →
    (p.act a).1 = p ∧ ∃ ls : List LogEntry, (p.act a).2.1 = ls.map .logged

theorem answers (p : Player) : p.Answers where
  tasks now := by
    constructor
    · intro h
      cases hmake : (Plan.make p.config.chained p.tasks).2 with
      | error e => exact ⟨e, rfl⟩
      | ok plan =>
        rw [play_of_ok hmake] at h
        split at h <;> simp at h
    · rintro ⟨e, hmake⟩
      rw [play_of_error hmake]
      rcases Plan.error_of_make hmake with ⟨n, rfl⟩ | ⟨n, rfl⟩
      · exact Or.inl ⟨n, rfl⟩
      · exact Or.inr ⟨n, rfl⟩
  why now _ hmake := play_of_error hmake now
  play now _ hmake := play_of_ok hmake now
  stop := by
    split
    · rename_i h
      rw [beginStop_refused h]
    · rename_i h
      rw [(beginStop_accepted h).2]
  refused a h := by
    cases a with
    | play now => exact ⟨(play_refused now h).1, events_refused h⟩
    | beginStop =>
      have h : p.beginStop.2.2 ≠ none := h
      by_cases hphase : p.phase = .stopped ∨ p.phase = .stopping
      · rw [act, beginStop_refused hphase]
        exact ⟨rfl, [], rfl⟩
      · rw [(beginStop_accepted hphase).2] at h
        exact absurd rfl h
    | _ => exact absurd rfl h

/-- Whatever a player is asked and whatever comes of its timers and passes, its phase goes through the
diagram, and to the end at once only without tasks. A stop that is under way still finds the player
stopping when it ends. A call that the tasks or the phase forbid fails and changes nothing. -/
theorem phases_of_called (h : p.Called stop es) :
    Route .stopped (changes es) p.phase ∧ (stop = true ↔ p.phase = .stopping) ∧
      (stop = true → p.joining = [] →
        p.endStop = ({ p with phase := .stopped }, [.phase (some .stopping) .stopped])) ∧
      (∀ a, (some .initialized, .finished) ∈ changes (p.act a).2.1 →
        (∃ now, a = .play (some now)) ∧ p.tasks = []) ∧
      p.Answers :=
  ⟨h.route, h.stopping_iff, fun hstop => endStop_of_stopping (h.stopping_iff.mp hstop),
    fun a => (p.shifts_act a).tasks_of_skip, p.answers⟩

end

theorem Called.perform {p : Player} {stop : Bool} {es : List ReplayEvent} (h : p.Called stop es)
    (as : List Action) : ∃ stop', (p.perform as).1.Called stop' (es ++ (p.perform as).2.1) := by
  induction as generalizing p stop es with
  | nil =>
    refine ⟨stop, ?_⟩
    rw [Player.perform, List.append_nil]
    exact h
  | cons a as ih =>
    obtain ⟨stop', hrest⟩ := ih (h.act a)
    rw [List.append_assoc] at hrest
    exact ⟨stop', hrest⟩

theorem called_sampleStopped : ∃ es, sampleStopped.Called false es ∧
    changes es = [(none, .initializing), (some .initializing, .initialized),
      (some .initialized, .playing), (none, .stopping), (some .stopping, .stopped)] := by
  have hfresh : samplePlayer.Called false [] :=
    ((Called.fresh {} none []).act (.addTask sampleTasks[0])).act (.addTask sampleTasks[1])
  have hstart : sampleStart.Called false (samplePlayer.play (some ⟨default, 0⟩)).2.1 := by
    have hplayed := hfresh.act (.play (some ⟨default, 0⟩))
    rwa [act, (play_of_make make_sampleTasks (Or.inl rfl) ⟨default, 0⟩).1] at hplayed
  obtain ⟨stop, hstopped⟩ :=
    hstart.perform [.fire ⟨default, 0⟩ 0, .beginStop, .join ⟨1⟩ 0, .endStop]
  have hstop : stop = false := by
    have hphase : sampleStopped.phase ≠ .stopping := by decide +kernel
    exact Bool.eq_false_iff.mpr fun h => hphase (hstopped.stopping_iff.mp h)
  rw [hstop] at hstopped
  refine ⟨_, hstopped, ?_⟩
  rw [changes_append, changes_obeyed make_sampleTasks (Or.inl rfl)]
  decide +kernel

theorem phases_of_called_sample : ∃ es, sampleStopped.Called false es ∧ (changes es).length = 5 ∧
    Route .stopped (changes es) sampleStopped.phase ∧ sampleStopped.Answers := by
  obtain ⟨es, hcalled, hchanges⟩ := called_sampleStopped
  obtain ⟨hroute, _, _, _, hanswers⟩ := phases_of_called hcalled
  exact ⟨es, hcalled, congrArg List.length hchanges, hroute, hanswers⟩

end Player

end QuoteBoard
