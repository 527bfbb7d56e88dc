import QuoteBoard.Proofs.Renaming
import QuoteBoard.Proofs.Scenes

/-!
# The seats of a player

What the passes play comes to every seat in the same order, and what one seat answers is of no
consequence for the others: each seat goes on by itself (`Seat.attendAll`), and only the events that
it did not take are counted (`Player.emitAll_eq_told`). What comes to them is what is seen to be
played (`Player.events_marks`). The run takes no notice of its seats, so a player does the same
before any audience (`Player.act_seated`).
-/

namespace QuoteBoard

def Mark.event? : Mark → Option PlayEvent
  | played _ _ e => some e
  | _ => none

def ReplayEvent.tally? : ReplayEvent → Option Tally
  | tallied t => some t
  | _ => none

/-! ## One seat -/

namespace Seat

def attend (s : Seat) (e : PlayEvent) : Seat := (s.onPlay 0 e).1

def attendAll (s : Seat) (es : List PlayEvent) : Seat := es.foldl attend s

def fails (s : Seat) (e : PlayEvent) : Bool := (s.onPlay 0 e).2.2.isSome

/-- The number of events that a seat does not take, of those that come to it. -/
def failures : Seat → List PlayEvent → Nat
  | _, [] => 0
  | s, e :: es => (s.fails e).toNat + (s.attend e).failures es

theorem attendAll_append (s : Seat) (es fs : List PlayEvent) :
    s.attendAll (es ++ fs) = (s.attendAll es).attendAll fs := List.foldl_append

theorem failures_append (s : Seat) (es fs : List PlayEvent) :
    s.failures (es ++ fs) = s.failures es + (s.attendAll es).failures fs := by
  induction es generalizing s with
  | nil => exact (Nat.zero_add _).symm
  | cons e es ih =>
    show (s.fails e).toNat + (s.attend e).failures (es ++ fs) = _
    rw [ih, ← Nat.add_assoc]
    rfl

theorem onPlay_place (s : Seat) (i : Nat) (e : PlayEvent) :
    (s.onPlay i e).1 = s.attend e ∧ (s.onPlay i e).2.2.isSome = s.fails e ∧
      (s.onPlay i e).2.1.filterMap ReplayEvent.tally? = [] := by
  cases s with
  | spectator s => exact ⟨rfl, rfl, rfl⟩
  | board b =>
    refine ⟨rfl, rfl, ?_⟩
    show ((b.onPlay e).2.1.map _).filterMap _ = []
    rw [List.filterMap_map]
    exact List.filterMap_eq_nil_iff.mpr fun _ _ => rfl

theorem take_cue (s : Seat) (i : Nat) (c : Cue) :
    let es := (Signal.played? (.cue c)).toList
    (s.take i c).1 = s.attendAll es ∧
      (s.take i c).2.filterMap ReplayEvent.tally? =
        List.replicate (s.failures es) .publishFailure := by
  cases c with
  | played e =>
    obtain ⟨hstate, hfails, htold⟩ := s.onPlay_place i e
    refine ⟨hstate, ?_⟩
    show ((s.onPlay i e).2.1 ++ _).filterMap _ = List.replicate ((s.fails e).toNat + 0) _
    rw [List.filterMap_append, htold, ← hfails]
    cases (s.onPlay i e).2.2 <;> rfl
  | _ => cases s <;> exact ⟨rfl, rfl⟩

end Seat

/-! ## All seats -/

namespace Audience

def attendAll (ss : List Seat) (es : List PlayEvent) : List Seat := ss.map (·.attendAll es)

def failures (ss : List Seat) (es : List PlayEvent) : Nat := (ss.map (·.failures es)).sum

theorem attendAll_nil (ss : List Seat) : attendAll ss [] = ss := List.map_id ss

theorem failures_nil (ss : List Seat) : failures ss [] = 0 := by
  induction ss with
  | nil => rfl
  | cons s ss ih =>
    rw [failures, List.map_cons, List.sum_cons]
    exact (Nat.zero_add _).trans ih

theorem attendAll_append (ss : List Seat) (es fs : List PlayEvent) :
    attendAll ss (es ++ fs) = attendAll (attendAll ss es) fs := by
  simp [attendAll, Seat.attendAll_append]

theorem failures_append (ss : List Seat) (es fs : List PlayEvent) :
    failures ss (es ++ fs) = failures ss es + failures (attendAll ss es) fs := by
  induction ss with
  | nil => rfl
  | cons s ss ih =>
    simp only [failures, attendAll, List.map_cons, List.sum_cons, Seat.failures_append] at ih ⊢
    omega

theorem tell_eq (c : Cue) (i : Nat) (ss : List Seat) :
    let es := (Signal.played? (.cue c)).toList
    (tell c i ss).1 = attendAll ss es ∧
      (tell c i ss).2.filterMap ReplayEvent.tally? =
        List.replicate (failures ss es) .publishFailure := by
  intro es
  induction ss generalizing i with
  | nil => exact ⟨rfl, rfl⟩
  | cons s ss ih =>
    obtain ⟨hseat, hfailed⟩ := s.take_cue i c
    obtain ⟨hrest, hmore⟩ := ih (i + 1)
    constructor
    · show (s.take i c).1 :: (tell c (i + 1) ss).1 = _
      rw [hseat, hrest]
      rfl
    · show ((s.take i c).2 ++ (tell c (i + 1) ss).2).filterMap _ = _
      rw [List.filterMap_append, hfailed, hmore, List.replicate_append_replicate]
      rfl

end Audience

namespace Player

/-- Before another audience, and with other counts. -/
def seated (p : Player) (ss : List Seat) (c : Counters) : Player :=
  { p with audience := ss, metrics := c }

/-- Events have come to the seats. -/
def told (p : Player) (es : List PlayEvent) : Player :=
  p.seated (Audience.attendAll p.audience es)
    (p.metrics.recordAll (List.replicate (Audience.failures p.audience es) .publishFailure))

theorem told_nil (p : Player) : p.told [] = p := by
  rw [told, Audience.attendAll_nil, Audience.failures_nil]
  rfl

theorem told_append (p : Player) (es fs : List PlayEvent) : p.told (es ++ fs) = (p.told es).told fs := by
  rw [told, Audience.attendAll_append, Audience.failures_append, ← List.replicate_append_replicate,
    Counters.recordAll_append]
  rfl

theorem countAll_eq_recordAll (p : Player) (es : List ReplayEvent) :
    p.countAll es = { p with metrics := p.metrics.recordAll (es.filterMap ReplayEvent.tally?) } := by
  induction es generalizing p with
  | nil => rfl
  | cons e es ih =>
    cases e with
    | tallied t => exact ih { p with metrics := p.metrics.record t }
    | _ => exact ih p

theorem emit_eq_told (p : Player) (x : Signal) : (p.emit x).1 = p.told x.played?.toList := by
  cases x with
  | logged e => exact p.told_nil.symm
  | cue c =>
    obtain ⟨hseats, hfailed⟩ := Audience.tell_eq c 0 p.audience
    show ({ p with audience := _ } : Player).countAll _ = _
    rw [countAll_eq_recordAll, hseats, hfailed]
    rfl

theorem emitAll_eq_told (p : Player) (xs : List Signal) :
    (p.emitAll xs).1 = p.told (Pass.events xs) := by
  induction xs generalizing p with
  | nil => exact p.told_nil.symm
  | cons x xs ih =>
    have hevents : Pass.events (x :: xs) = x.played?.toList ++ Pass.events xs := by
      cases hx : x.played? <;> simp [Pass.events, hx]
    show ((p.emit x).1.emitAll xs).1 = _
    rw [ih, emit_eq_told, hevents, told_append]

/-! ## What an action plays and counts -/

/-- What is played in an action. -/
def emitted (p : Player) : Action → List PlayEvent
  | .work _ id pauses =>
    ((p.findPass? id).map fun q => Pass.events (q.turn p.store pauses).1).getD []
  | _ => []

def TurnEnd.tallies : TurnEnd → List Tally
  | .paused _ => []
  | .ended sent _ => [.trackRun sent]

/-- What is counted in an action besides failures. -/
def closings (p : Player) : Action → List Tally
  | .work _ id pauses =>
    ((p.findPass? id).map fun q => TurnEnd.tallies (q.turn p.store pauses).2).getD []
  | _ => []

section
variable {p : Player} {id : Nat} {q : Pass} {pauses : Bool}

/-- The seats are told what a turn plays before the pass is put back. -/
theorem work_paused (now : Moment) (hfind : p.findPass? id = some q) {next : Pass}
    (hturn : (q.turn p.store pauses).2 = .paused next) :
    (p.work now id pauses).1 =
      (p.told (Pass.events (q.turn p.store pauses).1)).replace { next with
        ready := if q.task.paced then now.tick + p.config.pacingDuration.wait else now.tick } := by
  rw [← emitAll_eq_told]
  simp only [work, hfind, hturn]

theorem work_ended (now : Moment) (hfind : p.findPass? id = some q) {sent : UInt64}
    {cancelled : Bool} (hturn : (q.turn p.store pauses).2 = .ended sent cancelled) :
    (p.work now id pauses).1 =
      ((p.told (Pass.events (q.turn p.store pauses).1)).complete now q sent cancelled).1 := by
  rw [← emitAll_eq_told]
  simp only [work, hfind, hturn]

theorem emitted_work (now : Moment) (hfind : p.findPass? id = some q) :
    p.emitted (.work now id pauses) = Pass.events (q.turn p.store pauses).1 := by
  simp [emitted, hfind]

theorem closings_work (now : Moment) (hfind : p.findPass? id = some q) :
    p.closings (.work now id pauses) = TurnEnd.tallies (q.turn p.store pauses).2 := by
  simp [closings, hfind]

end

theorem events_armed (ss : List Start) (cause : Option (TrackNumber × Nat)) :
    (ss.map fun x => Mark.armed x.generation cause x.task).filterMap Mark.event? = [] := by
  rw [List.filterMap_map]
  exact List.filterMap_eq_nil_iff.mpr fun _ _ => rfl

theorem events_turnMarks (p : Player) (q : Pass) (pauses : Bool) :
    (p.turnMarks q pauses).filterMap Mark.event? = Pass.events (q.turn p.store pauses).1 := by
  have hplayed : ∀ es : List PlayEvent,
      (es.map (Mark.played q.generation q.id)).filterMap Mark.event? = es := by
    intro es
    rw [List.filterMap_map]
    exact List.filterMap_some
  unfold turnMarks
  simp only [List.filterMap_append, hplayed]
  generalize (q.turn p.store pauses).2 = e
  rcases e with _ | ⟨sent, cancelled⟩
  · exact List.append_nil _
  · cases cancelled with
    | true => exact List.append_nil _
    | false =>
      by_cases hg : q.generation = p.generation
      · simp [hg, Mark.event?]
      · simp [hg]

theorem events_marks (p : Player) (a : Action) :
    (p.marks a).filterMap Mark.event? = p.emitted a := by
  rw [marks, List.filterMap_append, events_armed, List.append_nil]
  cases a with
  | work now id pauses =>
    cases hfind : p.findPass? id with
    | none => simp [actionMarks, emitted, hfind]
    | some q =>
      rw [emitted_work now hfind]
      simp only [actionMarks, hfind]
      exact p.events_turnMarks q pauses
  | play now =>
    simp only [actionMarks]
    split <;> rfl
  | _ => rfl

/-! ## The run takes no notice of its seats -/

section
variable (ss : List Seat) (c : Counters) (p : Player)

theorem advance_seated (old new : Phase) :
    (p.seated ss c).advance old new = ((p.advance old new).1.seated ss c, (p.advance old new).2) := by
  have hphase : (p.seated ss c).phase = p.phase := rfl
  unfold advance
  rw [hphase]
  split <;> rfl

theorem armAll_seated (now : Moment) (ts : List Task) :
    (p.seated ss c).armAll now ts = (p.armAll now ts).seated ss c := by
  induction ts generalizing p with
  | nil => rfl
  | cons t ts ih => exact ih (p.arm now t)

theorem begin_seated (now : Moment) (x : Start) :
    ((p.seated ss c).begin now x).1 = (p.begin now x).1.seated ss c := by
  have henter : (p.seated ss c).enter now x = (p.enter now x).seated ss c := rfl
  have hg : (p.seated ss c).generation = p.generation := rfl
  rw [begin_eq_enter, begin_eq_enter, henter, advance_seated, hg]
  split <;> rfl

theorem fire_seated (now : Moment) (id : UInt64) :
    ((p.seated ss c).fire now id).1 = (p.fire now id).1.seated ss c := by
  have htimers : (p.seated ss c).timers = p.timers := rfl
  unfold fire
  rw [htimers]
  cases p.timers.fire id with
  | mk ts x =>
    cases x with
    | none => rfl
    | some x => exact begin_seated ss c { p with timers := ts } now x

theorem conclude_seated : (p.seated ss c).conclude.1 = p.conclude.1.seated ss c := by
  have hfinished : (p.seated ss c).finished = p.finished := rfl
  have hplanned : (p.seated ss c).planned = p.planned := rfl
  rw [conclude, conclude, hfinished, hplanned, advance_seated]
  split <;> rfl

theorem release_seated (now : Moment) (t : Task) :
    ((p.seated ss c).release now t).1 = (p.release now t).1.seated ss c := by
  let mid : Player := { p with
    registry := (p.registry.take t.number).1
    finished := p.finishedWith t }
  show ((mid.seated ss c).armAll now (p.releasedBy t)).conclude.1 =
    (mid.armAll now (p.releasedBy t)).conclude.1.seated ss c
  rw [armAll_seated, conclude_seated]

theorem complete_seated (now : Moment) (q : Pass) (sent : UInt64) (cancelled : Bool) :
    ((p.seated ss c).complete now q sent cancelled).1 =
      (p.complete now q sent cancelled).1.seated ss (c.record (.trackRun sent)) := by
  have hdischarge : (p.seated ss c).discharge q sent =
      (p.discharge q sent).seated ss (c.record (.trackRun sent)) := rfl
  have hretire : ∀ d, ((p.discharge q sent).seated ss d).retire q.number =
      ((p.discharge q sent).retire q.number).seated ss d := fun _ => rfl
  have hg : (p.seated ss c).generation = p.generation := rfl
  rw [complete_eq_discharge, complete_eq_discharge, hdischarge, hretire, hg]
  by_cases hq : q.generation = p.generation
  · rw [if_pos hq, if_pos hq]
    cases cancelled with
    | true => rfl
    | false => exact release_seated ..
  · rw [if_neg hq, if_neg hq]

end

/-- A player before another audience, after events have come to it and tallies have been counted. -/
def afterwards (p : Player) (ss : List Seat) (c : Counters) (es : List PlayEvent) (ts : List Tally) :
    Player :=
  p.seated (Audience.attendAll ss es)
    ((c.recordAll (List.replicate (Audience.failures ss es) .publishFailure)).recordAll ts)

section
variable (ss : List Seat) (c : Counters) (p : Player)

theorem afterwards_nil : p.afterwards ss c [] [] = p.seated ss c := by
  rw [afterwards, Audience.attendAll_nil, Audience.failures_nil]
  rfl

theorem complete_told (es : List PlayEvent) (now : Moment) (q : Pass) (sent : UInt64)
    (cancelled : Bool) :
    (((p.seated ss c).told es).complete now q sent cancelled).1 =
      (p.complete now q sent cancelled).1.afterwards ss c es [.trackRun sent] :=
  complete_seated _ _ p now q sent cancelled

theorem work_seated (now : Moment) (id : Nat) (pauses : Bool) :
    ((p.seated ss c).work now id pauses).1 = (p.work now id pauses).1.afterwards ss c
      (p.emitted (.work now id pauses)) (p.closings (.work now id pauses)) := by
  cases hfind : p.findPass? id with
  | none =>
    have hsame : ∀ r : Player, r.findPass? id = none → (r.work now id pauses).1 = r := by
      intro r hr
      simp only [work, hr]
    have hsilent : p.emitted (.work now id pauses) = [] ∧
        p.closings (.work now id pauses) = [] := by
      simp [emitted, closings, hfind]
    rw [hsame p hfind, hsame (p.seated ss c) hfind, hsilent.1, hsilent.2, afterwards_nil]
  | some q =>
    rw [emitted_work now hfind, closings_work now hfind]
    cases hturn : (q.turn p.store pauses).2 with
    | paused next =>
      rw [work_paused now hfind hturn, work_paused (p := p.seated ss c) now hfind hturn]
      rfl
    | ended sent cancelled =>
      have hself : p.told = (p.seated p.audience p.metrics).told := rfl
      rw [work_ended now hfind hturn, work_ended (p := p.seated ss c) now hfind hturn, complete_told,
        hself, complete_told]
      rfl

theorem run_seated (now : Moment) (plan : List Planned) :
    ((p.seated ss c).run now plan).1 = (p.run now plan).1.seated ss c := by
  let mid : Player := { p with
    phase := .initialized
    generation := p.generation + 1
    planned := plan.length
    active := []
    finished := []
    registry := registered plan }
  have hrun : ∀ r : Player, (if plan.isEmpty then r.advance .initialized .finished
      else (r.armAll now (Plan.free plan), [])).1 =
        if plan.isEmpty then (r.advance .initialized .finished).1 else r.armAll now (Plan.free plan) := by
    intro r
    split <;> rfl
  show (if plan.isEmpty then (mid.seated ss c).advance .initialized .finished
      else ((mid.seated ss c).armAll now (Plan.free plan), [])).1 =
    (if plan.isEmpty then mid.advance .initialized .finished
      else (mid.armAll now (Plan.free plan), [])).1.seated ss c
  rw [hrun, hrun, advance_seated, armAll_seated]
  split <;> rfl

theorem play_seated (now : Option Moment) :
    ((p.seated ss c).play now).1 = (p.play now).1.seated ss c := by
  cases now with
  | none => rfl
  | some now =>
    have hconfig : (p.seated ss c).config = p.config := rfl
    have htasks : (p.seated ss c).tasks = p.tasks := rfl
    have hphase : (p.seated ss c).phase = p.phase := rfl
    unfold play
    simp only [hconfig, htasks, hphase]
    cases (Plan.make p.config.chained p.tasks).2 with
    | error e => rfl
    | ok plan =>
      by_cases hstart : p.phase = .stopped ∨ p.phase = .finished
      · simp only [hstart, if_true, run_seated]
      · simp only [hstart, if_false]

theorem act_seated (a : Action) :
    ((p.seated ss c).act a).1 = (p.act a).1.afterwards ss c (p.emitted a) (p.closings a) := by
  cases a with
  | work now id pauses => exact work_seated ss c p now id pauses
  | addTask t => exact (afterwards_nil ss c (p.addTask t)).symm
  | play now => exact (play_seated ss c p now).trans (afterwards_nil ss c _).symm
  | fire now id => exact (fire_seated ss c p now id).trans (afterwards_nil ss c _).symm
  | beginStop =>
    refine Eq.trans ?_ (afterwards_nil ss c _).symm
    have hphase : (p.seated ss c).phase = p.phase := rfl
    simp only [act, beginStop, hphase]
    split <;> rfl
  | join track id =>
    refine Eq.trans ?_ (afterwards_nil ss c _).symm
    have hover : (p.seated ss c).isOver id = p.isOver id := rfl
    simp only [act, join, hover]
    split <;> rfl
  | endStop =>
    refine Eq.trans ?_ (afterwards_nil ss c _).symm
    have hjoining : (p.seated ss c).joining = p.joining := rfl
    simp only [act, endStop, hjoining, advance_seated]
    split <;> rfl
  | abandon => exact (afterwards_nil ss c p.abandon).symm

theorem act_eq_afterwards (a : Action) :
    (p.act a).1 = (p.act a).1.afterwards p.audience p.metrics (p.emitted a) (p.closings a) :=
  act_seated p.audience p.metrics p a

end

end Player

end QuoteBoard
