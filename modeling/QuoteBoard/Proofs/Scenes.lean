import QuoteBoard.Proofs.Tracks
import QuoteBoard.Proofs.Turns

/-!
# What is seen of a player

`Player.marks` is what an action lets be seen: a run that begins, what a pass plays in its turn,
that it has played to its end in its run, and the timers that are armed. Of the player itself only
its generation counts, who waits, the timers, and the passes with whether they have been opened
(`Player.scene`).
`Scene.Step` says what can happen to a scene and be seen of it, over all runs of a player, and every
action is such a step (`scene_act`).
-/

namespace QuoteBoard

/-- What can be seen of a player. A timer that the end of a pass arms names the track and the pass as
its cause. -/
inductive Mark where
  | began (generation : Nat) (chained : Bool) (tasks : List Task)
  | played (generation pass : Nat) (e : PlayEvent)
  | completed (generation pass : Nat) (track : TrackNumber)
  | armed (generation : Nat) (cause : Option (TrackNumber × Nat)) (t : Task)
  deriving DecidableEq

/-! ## Scenes -/

structure Actor where
  id : Nat
  task : Task
  generation : Nat
  /-- The pass has had its first turn. -/
  opened : Bool

def Pass.actor (q : Pass) : Actor := ⟨q.id, q.task, q.generation, q.rest.isSome⟩

structure Scene where
  generation : Nat
  waiting : List (TrackNumber × Task)
  starts : List Start
  actors : List Actor

namespace Plan

def awaited (plan : List Planned) : List (TrackNumber × Task) :=
  plan.filterMap fun x => x.after.map fun n => (n, x.task)

def free (plan : List Planned) : List Task := (plan.filter fun x => x.after.isNone).map (·.task)

end Plan

/-- What an actor shows in a turn: the start of its track in the first one, then messages, and the
stop at its end. -/
def Actor.plays (x : Actor) (ms : List Message) (stops : Bool) : List Mark :=
  let es : List PlayEvent := (if x.opened then [] else [.started x.task.number]) ++
    ms.map (.message x.task.number) ++ if stops then [.stopped x.task.number] else []
  es.map (.played x.generation x.id)

namespace Scene

def releasedBy (s : Scene) (t : Task) : List Task :=
  (s.waiting.filter fun w => w.1 = t.number).map (·.2) ++ if t.mode = .loop then [t] else []

/-- A task has played to its end: those who waited for it have timers, and so has itself when it
starts over. -/
def release (s : Scene) (t : Task) : Scene :=
  { s with
    waiting := s.waiting.filter fun w => w.1 ≠ t.number
    starts := s.starts ++ (s.releasedBy t).map (⟨·, s.generation⟩) }

def completion (s : Scene) (t : Task) (id : Nat) : List Mark :=
  .completed s.generation id t.number ::
    (s.releasedBy t).map (.armed s.generation (some (t.number, id)))

def begin (s : Scene) (plan : List Planned) : Scene :=
  { s with
    generation := s.generation + 1
    waiting := Plan.awaited plan
    starts := s.starts ++ (Plan.free plan).map (⟨·, s.generation + 1⟩) }

def beginning (s : Scene) (chained : Bool) (ts : List Task) (plan : List Planned) : List Mark :=
  .began (s.generation + 1) chained ts :: (Plan.free plan).map (.armed (s.generation + 1) none)

/-- What can happen to a scene, and what is seen of it. -/
inductive Step : Scene → List Mark → Scene → Prop where
  | lose {s s' : Scene} (hg : s.generation ≤ s'.generation)
    (hwaiting : s'.generation = s.generation → s'.waiting = s.waiting)
    (hstarts : s'.starts.Sublist s.starts) (hactors : s'.actors.Sublist s.actors) : Step s [] s'
  | start {s : Scene} {l r : List Start} {x : Start} (h : s.starts = l ++ x :: r)
    (hx : x.generation = s.generation) (id : Nat) :
    Step s [] { s with
      starts := l ++ r
      actors := s.actors ++ [⟨id, x.task, s.generation, false⟩] }
  | pause {s : Scene} {l r : List Actor} {x : Actor} (h : s.actors = l ++ x :: r)
    (ms : List Message) :
    Step s (x.plays ms false) { s with actors := l ++ { x with opened := true } :: r }
  | leave {s : Scene} {l r : List Actor} {x : Actor} (h : s.actors = l ++ x :: r)
    (ms : List Message) : Step s (x.plays ms true) { s with actors := l ++ r }
  | complete {s : Scene} {l r : List Actor} {x : Actor} (h : s.actors = l ++ x :: r)
    (hx : x.generation = s.generation) (ms : List Message) :
    Step s (x.plays ms true ++ s.completion x.task x.id) (release { s with actors := l ++ r } x.task)
  | begin (s : Scene) {chained : Bool} {ts : List Task} {plan : List Planned}
    (h : (Plan.make chained ts).2 = .ok plan) : Step s (s.beginning chained ts plan) (s.begin plan)

theorem Step.refl (s : Scene) : Step s [] s :=
  .lose (Nat.le_refl _) (fun _ => rfl) (List.Sublist.refl _) (List.Sublist.refl _)

end Scene

namespace Player

def scene (p : Player) : Scene := ⟨p.generation, p.registry.waiting, p.starts, p.passes.map Pass.actor⟩

/-! ## Marks of an action -/

/-- What a turn of a pass shows. A pass that ended uncancelled has completed if it is of the present
run. -/
def turnMarks (p : Player) (q : Pass) (pauses : Bool) : List Mark :=
  let r := q.turn p.store pauses
  (Pass.events r.1).map (.played q.generation q.id) ++
    match r.2 with
    | .ended _ false =>
      if q.generation = p.generation then [.completed q.generation q.id q.number] else []
    | _ => []

/-- The timers that an action arms; new ones stand behind those that there were. -/
def newStarts (p : Player) (a : Action) : List Start := (p.act a).1.starts.drop p.starts.length

def actionMarks (p : Player) : Action → List Mark
  | .play now =>
    if (p.play now).2.2.isNone then [.began (p.play now).1.generation p.config.chained p.tasks] else []
  | .work _ id pauses => ((p.findPass? id).map fun q => p.turnMarks q pauses).getD []
  | _ => []

def cause? (p : Player) : Action → Option (TrackNumber × Nat)
  | .work _ id _ => (p.findPass? id).map fun q => (q.number, q.id)
  | _ => none

def marks (p : Player) (a : Action) : List Mark :=
  p.actionMarks a ++ (p.newStarts a).map fun s => .armed s.generation (p.cause? a) s.task

/-- What has been seen of a player since it was new. -/
inductive Traced : Player → List Mark → Prop where
  | fresh (config : ReplayConfig) (store : Option Store) (audience : List Seat) :
    Traced { config := config, store := store, audience := audience } []
  | act {p : Player} {tr : List Mark} (h : Traced p tr) (a : Action) :
    Traced (p.act a).1 (tr ++ p.marks a)
  | addSeat {p : Player} {tr : List Mark} (h : Traced p tr) (s : Seat) : Traced (p.addSeat s) tr

theorem Traced.reached {p : Player} {tr : List Mark} (h : p.Traced tr) : p.Reached := by
  induction h with
  | fresh config store audience => exact .fresh config store audience
  | act _ a ih => exact ih.act a
  | addSeat _ s ih => exact ih.addSeat s

def actAll (p : Player) : List Action → Player × List Mark
  | [] => (p, [])
  | a :: as => (((p.act a).1.actAll as).1, p.marks a ++ ((p.act a).1.actAll as).2)

theorem Traced.actAll {p : Player} {tr : List Mark} (h : p.Traced tr) (as : List Action) :
    (p.actAll as).1.Traced (tr ++ (p.actAll as).2) := by
  induction as generalizing p tr with
  | nil => simpa [Player.actAll] using h
  | cons a as ih =>
    have hrest := ih (h.act a)
    rwa [List.append_assoc] at hrest

theorem marks_of_armed {p : Player} {a : Action} {ss : List Start}
    (h : (p.act a).1.starts = p.starts ++ ss) :
    p.marks a = p.actionMarks a ++ ss.map fun s => .armed s.generation (p.cause? a) s.task := by
  rw [marks, newStarts, h, List.drop_left]

theorem marks_of_sublist {p : Player} {a : Action} (h : (p.act a).1.starts.Sublist p.starts) :
    p.marks a = p.actionMarks a := by
  rw [marks, newStarts, List.drop_eq_nil_of_le h.length_le]
  exact List.append_nil _

/-! ## Turns -/

section
variable {p : Player}

theorem passes_replace (h : p.Orderly) {l r : List Pass} {q next : Pass}
    (hpasses : p.passes = l ++ q :: r) (hid : next.id = q.id) :
    (p.replace next).passes = l ++ next :: r := by
  have hids := h.ids
  rw [hpasses, (List.perm_middle.map _).nodup_iff] at hids
  have hother : ∀ x ∈ l ++ r, (if x.id = next.id then next else x) = x := by
    intro x hx
    rw [if_neg]
    intro heq
    exact (List.nodup_cons.mp hids).1 (List.mem_map.mpr ⟨x, hx, heq.trans hid⟩)
  have hsame : ∀ xs : List Pass, (∀ x ∈ xs, x ∈ l ++ r) →
      xs.map (fun x => if x.id = next.id then next else x) = xs := fun xs hxs =>
    (List.map_congr_left fun x hx => hother x (hxs x hx)).trans (List.map_id xs)
  show p.passes.map _ = _
  rw [hpasses, List.map_append, List.map_cons, if_pos hid.symm,
    hsame l fun x hx => List.mem_append_left _ hx, hsame r fun x hx => List.mem_append_right _ hx]

theorem shown_turn (store : Option Store) (pauses : Bool) (q : Pass) :
    let r := q.turn store pauses
    ∃ ms, (∃ next, r.2 = .paused next ∧ q.Resumes next ∧ next.rest.isSome ∧
        (Pass.events r.1).map (.played q.generation q.id) = q.actor.plays ms false) ∨
      ∃ sent cancelled, r.2 = .ended sent cancelled ∧
        (Pass.events r.1).map (.played q.generation q.id) = q.actor.plays ms true := by
  intro r
  obtain ⟨es, hes, hplayed⟩ := q.played_turn store pauses
  have hopening : (if q.rest = none then [PlayEvent.started q.number] else []) =
      if q.actor.opened then [] else [PlayEvent.started q.number] := by
    unfold Pass.actor
    cases q.rest <;> simp
  rw [hopening] at hes
  rw [show Pass.events r.1 = _ from hes]
  generalize hr : r.2 = e
  rw [show (q.turn store pauses).2 = e from hr] at hplayed
  cases hplayed with
  | @paused done rest next hcs hdone hnext hrest hframer =>
    refine ⟨(q.framer.pushAll done).2, Or.inl ⟨next, rfl, hnext, by rw [hrest]; rfl, ?_⟩⟩
    simp only [Actor.plays, Pass.tells, Bool.false_eq_true, if_false, List.append_nil]
    rfl
  | @ended done rest hcs sent short hall hshort =>
    let ms := (q.framer.pushAll done).2 ++ (q.framer.pushAll done).1.close
    refine ⟨ms, Or.inr ⟨sent, short, rfl, ?_⟩⟩
    simp only [Actor.plays, Pass.tells, if_true, List.append_assoc]
    rfl

theorem work_turn (now : Moment) (pauses : Bool) {id : Nat} {q : Pass}
    (hfind : p.findPass? id = some q) :
    ∃ a c, (∀ next, (q.turn p.store pauses).2 = .paused next → ∃ ready,
        (p.work now id pauses).1 =
          ({ p with audience := a, metrics := c } : Player).replace { next with ready := ready }) ∧
      ∀ sent cancelled, (q.turn p.store pauses).2 = .ended sent cancelled →
        (p.work now id pauses).1 =
          (({ p with audience := a, metrics := c } : Player).complete now q sent cancelled).1 := by
  obtain ⟨a, c, htold⟩ := p.emitAll_eq (q.turn p.store pauses).1
  refine ⟨a, c, fun next hnext => ?_, fun sent cancelled hended => ?_⟩
  · refine ⟨if q.task.paced then now.tick + p.config.pacingDuration.wait else now.tick, ?_⟩
    unfold work
    simp only [hfind, htold, hnext]
  · unfold work
    simp only [hfind, htold, hended]

/-! ## Steps -/

theorem scene_pause (h : p.Orderly) {l r : List Pass} {q next : Pass} (hpasses : p.passes = l ++ q :: r)
    (hnext : q.Resumes next) (hrest : next.rest.isSome) :
    (p.replace next).scene = { p.scene with
      actors := l.map Pass.actor ++ { q.actor with opened := true } :: r.map Pass.actor } := by
  have hactor : next.actor = { q.actor with opened := true } := by
    simp [Pass.actor, hnext.id, hnext.task, hnext.generation, hrest]
  unfold scene
  rw [passes_replace h hpasses hnext.id, List.map_append, List.map_cons, hactor]
  rfl

theorem scene_complete (h : p.Orderly) {l r : List Pass} {q : Pass} (hpasses : p.passes = l ++ q :: r)
    (now : Moment) (sent : UInt64) (cancelled : Bool) (ms : List Message) :
    let p' := (p.complete now q sent cancelled).1
    (p'.starts = p.starts ∧ (cancelled = false → q.generation ≠ p.generation) ∧
        p.scene.Step (q.actor.plays ms true) p'.scene) ∨
      cancelled = false ∧ q.generation = p.generation ∧
        p'.starts = p.starts ++ (p.scene.releasedBy q.task).map (⟨·, p.generation⟩) ∧
        p.scene.Step (q.actor.plays ms true ++ p.scene.completion q.task q.id) p'.scene := by
  have hactors : p.scene.actors = l.map Pass.actor ++ q.actor :: r.map Pass.actor := by
    show p.passes.map _ = _
    rw [hpasses, List.map_append, List.map_cons]
  have hremoved := passes_remove h hpasses
  have hleave := Scene.Step.leave hactors ms
  rw [← List.map_append, ← hremoved] at hleave
  obtain ⟨c, ⟨hg, heq⟩ | ⟨hg, hcancelled, heq⟩ | ⟨hg, hlive, heq⟩⟩ := p.complete_cases now q sent cancelled
  · rw [heq]
    exact Or.inl ⟨rfl, fun _ => hg, hleave⟩
  · rw [heq]
    refine Or.inl ⟨rfl, fun hlive => ?_, hleave⟩
    rw [hcancelled] at hlive
    cases hlive
  · obtain ⟨ts, hstarts, hrelease⟩ := release_eq { p.remove q.id with
      metrics := c, active := p.active.filter fun a => a.1 ≠ q.number } now q.task
    have hcomplete := Scene.Step.complete hactors hg ms
    rw [← List.map_append, ← hremoved] at hcomplete
    have hnew : (p.complete now q sent cancelled).1.starts =
        p.starts ++ (p.scene.releasedBy q.task).map (⟨·, p.generation⟩) := by
      rw [heq, hrelease]
      exact hstarts
    refine Or.inr ⟨hlive, hg, hnew, ?_⟩
    have hscene : (p.complete now q sent cancelled).1.scene =
        Scene.release { p.scene with actors := (p.remove q.id).passes.map Pass.actor } q.task := by
      unfold scene
      rw [hnew, heq, hrelease]
      rfl
    rw [hscene]
    exact hcomplete

theorem marks_work {now : Moment} {id : Nat} {pauses : Bool} {q : Pass}
    (hfind : p.findPass? id = some q) {ts : List Task}
    (hstarts : (p.work now id pauses).1.starts = p.starts ++ ts.map (⟨·, p.generation⟩)) :
    p.marks (.work now id pauses) =
      p.turnMarks q pauses ++ ts.map (.armed p.generation (some (q.number, q.id))) := by
  have hnew : (p.act (.work now id pauses)).1.starts =
      p.starts ++ ts.map (⟨·, p.generation⟩) := hstarts
  rw [marks_of_armed hnew, List.map_map]
  simp only [actionMarks, cause?, hfind]
  rfl

theorem turnMarks_of_ended {q : Pass} {pauses : Bool} {sent : UInt64} {cancelled : Bool}
    (hturn : (q.turn p.store pauses).2 = .ended sent cancelled) :
    p.turnMarks q pauses =
      (Pass.events (q.turn p.store pauses).1).map (.played q.generation q.id) ++
        if cancelled = false ∧ q.generation = p.generation then
          [.completed q.generation q.id q.number]
        else [] := by
  unfold turnMarks
  simp only [hturn]
  cases cancelled <;> simp

/-- An action that shows nothing, and changes nothing that counts. -/
theorem scene_idle {a : Action} (hshown : p.actionMarks a = []) (heq : (p.act a).1.scene = p.scene) :
    p.scene.Step (p.marks a) (p.act a).1.scene := by
  have hstarts : (p.act a).1.starts = p.starts := congrArg Scene.starts heq
  rw [marks_of_sublist (hstarts ▸ List.Sublist.refl _), hshown, heq]
  exact .refl _

theorem scene_work (h : p.Orderly) (now : Moment) (id : Nat) (pauses : Bool) :
    p.scene.Step (p.marks (.work now id pauses)) (p.work now id pauses).1.scene := by
  cases hfind : p.findPass? id with
  | none =>
    have heq : (p.work now id pauses).1 = p := by simp only [work, hfind]
    have hshown : p.actionMarks (.work now id pauses) = [] := by simp [actionMarks, hfind]
    exact scene_idle hshown (congrArg scene heq)
  | some q =>
    obtain ⟨l, r, hpasses⟩ := List.append_of_mem (mem_of_findPass? hfind).1
    -- telling the audience changes nothing of the scene
    obtain ⟨a, c, hpaused, hended⟩ := p.work_turn now pauses hfind
    have h' : ({ p with audience := a, metrics := c } : Player).Orderly :=
      ⟨h.starts, h.passes, h.spawned, h.ids⟩
    obtain ⟨ms, ⟨next, hturn, hnext, hrest, hplays⟩ | ⟨sent, cancelled, hturn, hplays⟩⟩ :=
      shown_turn p.store pauses q
    · obtain ⟨ready, heq⟩ := hpaused next hturn
      have hstarts : (p.work now id pauses).1.starts = p.starts ++ [].map (⟨·, p.generation⟩) := by
        rw [heq]
        exact (List.append_nil _).symm
      have hactors : p.scene.actors = l.map Pass.actor ++ q.actor :: r.map Pass.actor := by
        show p.passes.map _ = _
        rw [hpasses, List.map_append, List.map_cons]
      have hready : q.Resumes { next with ready := ready } :=
        ⟨hnext.id, hnext.task, hnext.generation, hnext.cancelled⟩
      rw [marks_work hfind hstarts, heq, scene_pause h' hpasses hready hrest, turnMarks]
      simp only [hturn, hplays, List.map_nil, List.append_nil]
      exact .pause hactors ms
    · have heq := hended sent cancelled hturn
      have hscene : ({ p with audience := a, metrics := c } : Player).scene = p.scene := rfl
      have hcomplete := scene_complete h' hpasses now sent cancelled ms
      rw [← heq, hscene] at hcomplete
      rcases hcomplete with ⟨hsame, hstale, hstep⟩ | ⟨hlive, hg, hmore, hstep⟩
      · have hstarts : (p.work now id pauses).1.starts = p.starts ++ [].map (⟨·, p.generation⟩) :=
          hsame.trans (List.append_nil _).symm
        have hnone : ¬ (cancelled = false ∧ q.generation = p.generation) := fun hh => hstale hh.1 hh.2
        rw [marks_work hfind hstarts, turnMarks_of_ended hturn, hplays, if_neg hnone]
        simpa using hstep
      · rw [marks_work hfind hmore, turnMarks_of_ended hturn, hplays, if_pos ⟨hlive, hg⟩,
          List.append_assoc, List.singleton_append, show q.generation = p.generation from hg]
        exact hstep

theorem scene_begin (p : Player) (now : Moment) {x : Start} (hx : x.generation = p.generation) :
    (p.begin now x).1.scene = { p.scene with
      actors := p.scene.actors ++ [⟨p.spawned, x.task, p.generation, false⟩] } := by
  unfold begin
  rw [if_pos hx, advance_eq]
  simp [scene, Pass.actor, starts, hx]

theorem scene_fire (now : Moment) (id : UInt64) :
    p.scene.Step (p.marks (.fire now id)) (p.fire now id).1.scene := by
  rcases p.fire_cases now id with heq | ⟨l, x, r, ts, hstarts, hrest, heq⟩
  · exact scene_idle rfl (congrArg scene heq)
  · let left : Player := { p with timers := ts }
    have hleft : left.scene = { p.scene with starts := l ++ r } := by
      show Scene.mk _ _ (ts.live.map (·.payload)) _ = _
      rw [hrest]
      rfl
    have hfewer : (l ++ r).Sublist p.starts := by
      rw [hstarts]
      exact (List.sublist_cons_self x r).append_left l
    have hscene : (p.fire now id).1.scene = (left.begin now x).1.scene := congrArg scene heq
    have hsame : ((p.act (.fire now id)).1.starts).Sublist p.starts := by
      show ((p.fire now id).1.scene.starts).Sublist _
      rw [hscene]
      by_cases hx : x.generation = p.generation
      · rw [left.scene_begin now hx, hleft]
        exact hfewer
      · rw [begin_of_ne (p := left) hx, hleft]
        exact hfewer
    rw [marks_of_sublist hsame, hscene]
    by_cases hx : x.generation = p.generation
    · rw [left.scene_begin now hx, hleft]
      exact .start hstarts hx p.spawned
    · rw [begin_of_ne (p := left) hx, hleft]
      exact .lose (Nat.le_refl _) (fun _ => rfl) hfewer (List.Sublist.refl _)

theorem scene_play (now : Option Moment) :
    p.scene.Step (p.marks (.play now)) (p.play now).1.scene := by
  rcases p.play_cases now with ⟨heq, hrefused⟩ | ⟨t, plan, _, hmake, heq, hok⟩
  · have hnone : ¬ (p.play now).2.2.isNone := by simpa using hrefused
    exact scene_idle (if_neg hnone) (congrArg scene heq)
  · obtain ⟨ts, hstarts, hrun⟩ := p.run_eq t plan
    rw [hrun] at heq
    have hnew : (p.act (.play now)).1.starts =
        p.starts ++ (Plan.free plan).map (⟨·, p.generation + 1⟩) := by
      show (p.play now).1.starts = _
      rw [heq]
      exact hstarts
    have hscene : (p.play now).1.scene = p.scene.begin plan := by
      rw [heq]
      show Scene.mk _ (registered plan).waiting (ts.live.map (·.payload)) _ = _
      rw [Course.waiting_registered, hstarts]
      rfl
    have hgeneration : (p.play now).1.generation = p.generation + 1 := by rw [heq]
    rw [marks_of_armed hnew, actionMarks, if_pos (by rw [hok]; rfl), hgeneration, hscene, List.map_map]
    exact .begin p.scene hmake

/-- An action that shows nothing, and only takes timers and passes away. -/
theorem scene_lose {a : Action} (hshown : p.actionMarks a = [])
    (hg : p.generation ≤ (p.act a).1.generation)
    (hwaiting : (p.act a).1.generation = p.generation → (p.act a).1.registry = p.registry)
    (hstarts : (p.act a).1.starts.Sublist p.starts)
    (hactors : ((p.act a).1.passes.map Pass.actor).Sublist (p.passes.map Pass.actor)) :
    p.scene.Step (p.marks a) (p.act a).1.scene := by
  rw [marks_of_sublist hstarts, hshown]
  exact .lose hg (fun heq => congrArg Registry.waiting (hwaiting heq)) hstarts hactors

theorem actors_cancel (qs : List Pass) (ids : List Nat) :
    (qs.map fun q => { q with cancelled := q.cancelled || ids.contains q.id }).map Pass.actor =
      qs.map Pass.actor := by
  rw [List.map_map]
  rfl

theorem scene_stop {a : Action} (hshown : p.actionMarks a = [])
    (hg : (p.act a).1.generation = p.generation + 1) (hstarts : (p.act a).1.starts = [])
    {ids : List Nat} (hpasses : (p.act a).1.passes =
      p.passes.map fun q => { q with cancelled := q.cancelled || ids.contains q.id }) :
    p.scene.Step (p.marks a) (p.act a).1.scene := by
  apply scene_lose hshown
  · omega
  · intro heq
    omega
  · rw [hstarts]
    exact List.nil_sublist _
  · rw [hpasses, actors_cancel]

theorem scene_act (h : p.Orderly) (a : Action) : p.scene.Step (p.marks a) (p.act a).1.scene := by
  cases a with
  | addTask t => exact scene_idle rfl rfl
  | play now => exact scene_play now
  | fire now id => exact scene_fire now id
  | work now id pauses => exact scene_work h now id pauses
  | beginStop =>
    by_cases hidle : p.phase = .stopped ∨ p.phase = .stopping
    · exact scene_idle rfl (by simp [act, beginStop, hidle])
    · have hpasses : (p.act .beginStop).1.passes = p.passes.map fun q =>
          { q with cancelled := q.cancelled || (p.active.map (·.2)).contains q.id } := by
        simp only [act, beginStop]
        rw [if_neg hidle]
      apply scene_stop rfl _ _ hpasses
      · simp only [act, beginStop]
        rw [if_neg hidle]
      · simp only [act, beginStop]
        rw [if_neg hidle]
        rfl
  | join track id =>
    apply scene_lose rfl
    · simp only [act, join]
      split <;> exact Nat.le_refl _
    · intro _
      simp only [act, join]
      split <;> rfl
    · simp only [act, join]
      split <;> exact List.Sublist.refl _
    · simp only [act, join]
      split
      · exact List.Sublist.refl _
      · exact (List.filter_sublist).map _
  | endStop =>
    refine scene_idle rfl ?_
    simp only [act, endStop]
    split
    · rw [advance_eq]
      rfl
    · rfl
  | abandon => exact scene_stop rfl rfl rfl rfl

end

end Player

end QuoteBoard
