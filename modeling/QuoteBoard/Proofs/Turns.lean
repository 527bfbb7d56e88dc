import QuoteBoard.Proofs.Generations

/-!
# What a turn plays

A pass plays its session through its framer, from where the turn before left it. `Played` says what
one turn can play of the captured messages that are left, whether it pauses, ends or was cancelled,
and `Pass.Playback` puts the turns of a pass together: from its start to its end a pass plays the
framing of a prefix of its session, and of all of it unless a cancellation cut it short (`Reaches`).
-/

namespace QuoteBoard

def Signal.played? : Signal → Option PlayEvent
  | cue (.played e) => some e
  | _ => none

namespace Pass

def events (ss : List Signal) : List PlayEvent := ss.filterMap Signal.played?

theorem events_append (ss us : List Signal) : events (ss ++ us) = events ss ++ events us :=
  List.filterMap_append

def tells (q : Pass) (ms : List Message) : List PlayEvent := ms.map (.message q.number)

theorem tells_append (q : Pass) (ms ns : List Message) :
    q.tells (ms ++ ns) = q.tells ms ++ q.tells ns := List.map_append

theorem events_playing (q : Pass) (ms : List Message) : events (q.playing ms) = q.tells ms := by
  rw [events, playing, List.filterMap_map]
  exact congrFun List.filterMap_eq_map ms

/-- The captured messages of a pass that are left, all of them before its first turn. -/
def todo (store : Option Store) (q : Pass) : List Captured :=
  q.rest.getD (session store q.task.track).1

/-- What a turn plays of the captured messages `cs`, and how it ends. -/
inductive Played (q : Pass) (cs : List Captured) : List PlayEvent → TurnEnd → Prop where
  | paused {done rest : List Captured} {next : Pass} (hcs : cs = done ++ rest) (hdone : done ≠ [])
    (hnext : q.Resumes next) (hrest : next.rest = some rest)
    (hframer : next.framer = (q.framer.pushAll done).1)
    (hsent : next.sent = q.sent + .ofNat (q.framer.pushAll done).2.length) :
    Played q cs (q.tells (q.framer.pushAll done).2) (.paused next)
  | ended {done rest : List Captured} (hcs : cs = done ++ rest) (sent : UInt64) {short : Bool}
    (hall : short = false → rest = []) (hshort : short = true → q.cancelled = true)
    (hleft : short = true → rest ≠ [])
    (hsent : sent = q.sent +
      .ofNat ((q.framer.pushAll done).2 ++ (q.framer.pushAll done).1.close).length) :
    Played q cs
      (q.tells ((q.framer.pushAll done).2 ++ (q.framer.pushAll done).1.close) ++ [.stopped q.number])
      (.ended sent short)

theorem events_finish (q : Pass) (short : Bool) :
    events (q.finish short).1 = q.tells q.framer.close ++ [.stopped q.number] := by
  simp only [finish]
  rw [events_append, events_playing]
  rfl

theorem played_finish (q : Pass) {cs : List Captured} {short : Bool}
    (hall : short = false → cs = []) (hshort : short = true → q.cancelled = true)
    (hleft : short = true → cs ≠ []) :
    Played q cs (events (q.finish short).1) (q.finish short).2 := by
  rw [events_finish]
  exact .ended (List.nil_append cs).symm _ hall hshort hleft rfl

theorem events_give (q : Pass) (c : Captured) :
    events (q.give c).2 = q.tells (q.framer.push c).2 := by
  simp only [give]
  rw [events_append, events_playing]
  split <;> rfl

theorem played_pause (q : Pass) (c : Captured) (cs : List Captured) :
    Played q (c :: cs) (events (q.give c).2) (.paused { (q.give c).1 with rest := some cs }) := by
  have hpush : events (q.give c).2 = q.tells (q.framer.pushAll [c]).2 := by
    rw [events_give]
    simp [Framer.pushAll]
  rw [hpush]
  refine .paused rfl (List.cons_ne_nil c []) ⟨rfl, rfl, rfl, rfl⟩ rfl rfl ?_
  simp [give, Framer.pushAll]

theorem sent_give (q : Pass) (c : Captured) (ms : List Message) :
    (q.give c).1.sent + .ofNat ms.length = q.sent + .ofNat ((q.framer.push c).2 ++ ms).length := by
  rw [List.length_append, UInt64.ofNat_add, ← UInt64.add_assoc]
  rfl

theorem Played.give {q : Pass} {c : Captured} {cs : List Captured} {es : List PlayEvent}
    {e : TurnEnd} (h : Played (q.give c).1 cs es e) :
    Played q (c :: cs) (events (q.give c).2 ++ es) e := by
  rw [events_give]
  cases h with
  | @paused done rest next hcs hdone hnext hrest hframer hsent =>
    have htells : q.tells (q.framer.push c).2 ++ (q.give c).1.tells ((q.give c).1.framer.pushAll done).2 =
        q.tells (q.framer.pushAll (c :: done)).2 := (q.tells_append _ _).symm
    rw [htells]
    exact .paused (by rw [hcs]; rfl) (List.cons_ne_nil c done)
      ⟨hnext.id, hnext.task, hnext.generation, hnext.cancelled⟩ hrest hframer
      (hsent.trans (q.sent_give c (Framer.pushAll _ done).2))
  | @ended done rest hcs sent short hall hshort hleft hsent =>
    have htells : q.tells (q.framer.push c).2 ++
        q.tells (((q.give c).1.framer.pushAll done).2 ++ ((q.give c).1.framer.pushAll done).1.close) =
        q.tells ((q.framer.pushAll (c :: done)).2 ++ (q.framer.pushAll (c :: done)).1.close) := by
      rw [← tells_append, ← List.append_assoc]
      rfl
    show Played q (c :: cs) (q.tells _ ++ (q.tells _ ++ [.stopped q.number])) _
    rw [← List.append_assoc, htells]
    refine .ended (by rw [hcs]; rfl) sent hall hshort hleft ?_
    rw [hsent, q.sent_give c, ← List.append_assoc]
    rfl

theorem played_play (pauses : Bool) (cs : List Captured) (q : Pass) :
    Played q cs (events (play pauses cs q).1) (play pauses cs q).2 := by
  induction cs generalizing q with
  | nil => exact q.played_finish (fun _ => rfl) (fun h => by cases h) fun h => by cases h
  | cons c cs ih =>
    simp only [play]
    split
    · rename_i hcancelled
      exact q.played_finish (fun h => by cases h) (fun _ => hcancelled) fun _ => List.cons_ne_nil c cs
    · split
      · exact q.played_pause c cs
      · rw [events_append]
        exact (ih (q.give c).1).give

theorem turn_eq_play (store : Option Store) (pauses : Bool) (q : Pass) :
    events (q.turn store pauses).1 = (if q.rest = none then [.started q.number] else []) ++
        events (play pauses (q.todo store) q).1 ∧
      (q.turn store pauses).2 = (play pauses (q.todo store) q).2 := by
  unfold turn todo
  cases hrest : q.rest with
  | some cs => exact ⟨rfl, rfl⟩
  | none =>
    have hopened : events (session store q.task.track).2 = [] := by
      unfold session
      cases store with
      | none => rfl
      | some s =>
        simp only
        cases q.task.track.load s <;> rfl
    refine ⟨?_, rfl⟩
    simp only
    rw [events_append, hopened]
    rfl

theorem played_turn (store : Option Store) (pauses : Bool) (q : Pass) :
    ∃ es, events (q.turn store pauses).1 = (if q.rest = none then [.started q.number] else []) ++ es ∧
      Played q (q.todo store) es (q.turn store pauses).2 := by
  obtain ⟨hevents, hend⟩ := q.turn_eq_play store pauses
  rw [hevents, hend]
  exact ⟨_, rfl, played_play pauses (q.todo store) q⟩

/-! ## All turns of a pass -/

/-- A pass as its next turn finds it: it may have been put off, and cancelled. -/
def resume (q : Pass) (ready : Nat) (cancelled : Bool) : Pass :=
  { q with ready := ready, cancelled := cancelled }

/-- What a pass has played after a number of turns, whether it was cancelled before the last one, and
how that one ended. A pass that was cancelled stays so. -/
inductive Playback (store : Option Store) (q : Pass) :
    Nat → Bool → List PlayEvent → TurnEnd → Prop where
  | first (pauses : Bool) :
    Playback store q 1 q.cancelled (events (q.turn store pauses).1) (q.turn store pauses).2
  | next {turns : Nat} {cancelled : Bool} {es : List PlayEvent} {r : Pass}
    (h : Playback store q turns cancelled es (.paused r)) (ready : Nat) (now pauses : Bool) :
    Playback store q (turns + 1) (cancelled || now)
      (es ++ events ((r.resume ready (cancelled || now)).turn store pauses).1)
      ((r.resume ready (cancelled || now)).turn store pauses).2

/-- How far a new pass has come in its session `cs`. Only a cancelled pass ends short of it. -/
def Reaches (n : TrackNumber) (cs : List Captured) (turns : Nat) (cancelled : Bool)
    (es : List PlayEvent) : TurnEnd → Prop
  | .paused r => r.number = n ∧ ∃ done rest, cs = done ++ rest ∧ turns ≤ done.length ∧
      r.rest = some rest ∧ r.framer = (Framer.pushAll {} done).1 ∧
      es = .started n :: (Framer.pushAll {} done).2.map (.message n)
  | .ended _ short => (short = true → cancelled = true) ∧ ∃ done rest, cs = done ++ rest ∧
      (short = false → rest = []) ∧
      es = .started n :: (Framer.frame done).map (.message n) ++ [.stopped n]

theorem Played.reaches {store : Option Store} {q : Pass} {n : TrackNumber} {cs done : List Captured}
    {turns : Nat} {before es : List PlayEvent} {e : TurnEnd} (hn : q.number = n)
    (hcs : cs = done ++ q.todo store) (hturns : turns ≤ done.length)
    (hframer : q.framer = (Framer.pushAll {} done).1)
    (hbefore : before = .started n :: (Framer.pushAll {} done).2.map (.message n))
    (h : Played q (q.todo store) es e) : Reaches n cs (turns + 1) q.cancelled (before ++ es) e := by
  cases h with
  | @paused more rest next hmore hsome hnext hrest hnextFramer =>
    have hnumber : next.number = n := (congrArg Task.number hnext.task).trans hn
    have hlen : turns + 1 ≤ (done ++ more).length := by
      have := List.length_pos_iff.mpr hsome
      rw [List.length_append]
      omega
    refine ⟨hnumber, done ++ more, rest, by rw [hcs, hmore, List.append_assoc], hlen, hrest, ?_, ?_⟩
    · rw [hnextFramer, hframer, Framer.pushAll_append]
    · rw [hbefore, hframer, Framer.pushAll_append, List.map_append, tells, hn]
      rfl
  | @ended more rest hmore sent short hall hshort =>
    refine ⟨hshort, done ++ more, rest, by rw [hcs, hmore, List.append_assoc], hall, ?_⟩
    rw [hbefore, hframer, Framer.frame, Framer.pushAll_append, tells, hn]
    simp

theorem Playback.reaches {store : Option Store} {q : Pass} (hrest : q.rest = none)
    (hframer : q.framer = {}) {turns : Nat} {cancelled : Bool} {es : List PlayEvent} {e : TurnEnd}
    (h : q.Playback store turns cancelled es e) :
    Reaches q.number (session store q.task.track).1 turns cancelled es e := by
  induction h with
  | first pauses =>
    obtain ⟨es, hes, hplayed⟩ := q.played_turn store pauses
    rw [hes, if_pos hrest]
    have hall : (session store q.task.track).1 = [] ++ q.todo store := by simp [todo, hrest]
    exact hplayed.reaches rfl hall (Nat.zero_le _) hframer rfl
  | @next turns cancelled es r h ready now pauses ih =>
    obtain ⟨hn, done, rest, hcs, hturns, hr, hrframer, hes⟩ := ih
    let found := r.resume ready (cancelled || now)
    obtain ⟨fs, hfs, hplayed⟩ := found.played_turn store pauses
    have hopened : found.rest = some rest := hr
    have htodo : found.todo store = rest := by rw [todo, hopened]; rfl
    rw [hfs, hopened, if_neg (by simp), List.nil_append]
    exact Played.reaches (q := found) hn (by rw [htodo]; exact hcs) hturns hrframer hes hplayed

end Pass

end QuoteBoard
