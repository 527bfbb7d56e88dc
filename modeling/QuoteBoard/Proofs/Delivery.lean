import Mathlib.Data.List.Induction
import Mathlib.Logic.Function.Iterate
import QuoteBoard.Board

/-!
# What a delivery does to each consumer

A delivery reaches each cache once for every time it stands among the consumers, and an engine
through the sides that stand there, in their order (`caches_deliver`, `engines_deliver`). What an
engine publishes depends on nothing else (`published_deliver`). A dispatch is a delivery to the
consumers of the feed, on a board that only noted the batch id and the count (`dispatch_fst`).
-/

namespace QuoteBoard

/-! ## Engines -/

def EngineEvent.published? : EngineEvent → Option Update
  | published u => some u
  | _ => none

namespace Engine

def run (e : Engine) : List (Side × Message) → Engine × List Update
  | [] => (e, [])
  | (s, m) :: hs =>
    (((e.handle s m).1.run hs).1,
      (e.handle s m).2.1.filterMap EngineEvent.published? ++ ((e.handle s m).1.run hs).2)

end Engine

namespace Board

def published (j : Nat) (es : List BoardEvent) : List Update :=
  es.filterMap fun
    | .published i u => if i = j then some u else none
    | _ => none

theorem published_append (j : Nat) (es fs : List BoardEvent) :
    published j (es ++ fs) = published j es ++ published j fs := by
  simp [published]

theorem published_ofCacheEvent (i j : Nat) (es : List CacheEvent) :
    published j (es.map (ofCacheEvent i)) = [] := by
  induction es with
  | nil => rfl
  | cons e es ih => cases e <;> exact ih

theorem published_ofEngineEvent (i j : Nat) (es : List EngineEvent) :
    published j (es.map (ofEngineEvent i)) =
      if i = j then es.filterMap EngineEvent.published? else [] := by
  induction es with
  | nil => simp [published]
  | cons e es ih =>
    cases e with
    | published u =>
      rw [List.map_cons, ← List.singleton_append, published_append, ih]
      by_cases h : i = j <;> simp [published, ofEngineEvent, EngineEvent.published?, h]
    | logged l => exact ih
    | tallied t => exact ih

/-! ## One consumer -/

theorem countAll_eq (b : Board) (es : List BoardEvent) :
    ∃ a, b.countAll es = { b with activity := a } := by
  induction es generalizing b with
  | nil => exact ⟨b.activity, rfl⟩
  | cons e es ih =>
    cases e with
    | tallied t => exact ih (b.count t)
    | _ => exact ih b

@[simp] theorem caches_countAll (b : Board) (es : List BoardEvent) :
    (b.countAll es).caches = b.caches := by
  obtain ⟨a, h⟩ := b.countAll_eq es
  rw [h]

@[simp] theorem engines_countAll (b : Board) (es : List BoardEvent) :
    (b.countAll es).engines = b.engines := by
  obtain ⟨a, h⟩ := b.countAll_eq es
  rw [h]

@[simp] theorem routes_countAll (b : Board) (es : List BoardEvent) :
    (b.countAll es).routes = b.routes := by
  obtain ⟨a, h⟩ := b.countAll_eq es
  rw [h]

theorem getElem?_set_of_some {α : Type} {as : List α} {i : Nat} {a x : α} (h : as[i]? = some a)
    (j : Nat) : (as.set i x)[j]? = if i = j then some x else as[j]? := by
  have hi : i < as.length := (List.getElem?_eq_some_iff.mp h).1
  rw [List.getElem?_set]
  simp [hi]

theorem caches_consume_cache (b : Board) (m : Message) (i j : Nat) :
    (b.consume m (.cache i)).1.caches[j]? =
      if i = j then b.caches[j]?.map fun c => (c.consume m).1 else b.caches[j]? := by
  simp only [consume, consumeBy]
  cases h : b.caches[i]? with
  | none =>
    by_cases hij : i = j
    · simp [← hij, h]
    · simp [hij]
  | some c =>
    simp only [caches_countAll]
    rw [getElem?_set_of_some h]
    by_cases hij : i = j
    · simp [← hij, h]
    · simp [hij]

theorem caches_consume_handler (b : Board) (m : Message) (i : Nat) (s : Side) :
    (b.consume m (.handler i s)).1.caches = b.caches := by
  simp only [consume, handle]
  cases b.engines[i]? <;> simp

theorem engines_consume_cache (b : Board) (m : Message) (i : Nat) :
    (b.consume m (.cache i)).1.engines = b.engines := by
  simp only [consume, consumeBy]
  cases b.caches[i]? <;> simp

theorem engines_consume_handler (b : Board) (m : Message) (i j : Nat) (s : Side) :
    (b.consume m (.handler i s)).1.engines[j]? =
      if i = j then b.engines[j]?.map fun e => (e.handle s m).1 else b.engines[j]? := by
  simp only [consume, handle]
  cases h : b.engines[i]? with
  | none =>
    by_cases hij : i = j
    · simp [← hij, h]
    · simp [hij]
  | some e =>
    simp only [engines_countAll]
    rw [getElem?_set_of_some h]
    by_cases hij : i = j
    · simp [← hij, h]
    · simp [hij]

theorem routes_consume (b : Board) (m : Message) (c : Consumer) :
    (b.consume m c).1.routes = b.routes := by
  cases c with
  | cache i =>
    simp only [consume, consumeBy]
    cases b.caches[i]? <;> simp
  | handler i s =>
    simp only [consume, handle]
    cases b.engines[i]? <;> simp

theorem published_consume_cache (b : Board) (m : Message) (i j : Nat) :
    published j (b.consume m (.cache i)).2.1 = [] := by
  simp only [consume, consumeBy]
  cases b.caches[i]? with
  | none => rfl
  | some c => exact published_ofCacheEvent i j _

theorem published_consume_handler (b : Board) (m : Message) (i j : Nat) (s : Side) :
    published j (b.consume m (.handler i s)).2.1 =
      if i = j then
        (b.engines[j]?.map fun e => (e.handle s m).2.1.filterMap EngineEvent.published?).getD []
      else [] := by
  simp only [consume, handle]
  cases h : b.engines[i]? with
  | none =>
    by_cases hij : i = j
    · simp [← hij, h, published]
    · simp [hij, published]
  | some e =>
    simp only [published_ofEngineEvent]
    by_cases hij : i = j
    · simp [← hij, h]
    · simp [hij]

/-! ## All consumers -/

theorem deliver_cons (m : Message) (c : Consumer) (cs : List Consumer) (b : Board) (j : Nat) :
    (deliver m (c :: cs) b).1 = (deliver m cs (b.consume m c).1).1 ∧
      published j (deliver m (c :: cs) b).2.1 =
        published j (b.consume m c).2.1 ++ published j (deliver m cs (b.consume m c).1).2.1 := by
  simp only [deliver]
  cases (b.consume m c).2.2 with
  | none => exact ⟨rfl, published_append j _ _⟩
  | some e =>
    refine ⟨rfl, ?_⟩
    rw [published_append]
    rfl

theorem caches_deliver (m : Message) (cs : List Consumer) (b : Board) (j : Nat) :
    (deliver m cs b).1.caches[j]? =
      b.caches[j]?.map (fun c => (c.consume m).1)^[cs.count (.cache j)] := by
  induction cs generalizing b with
  | nil => simp [deliver]
  | cons c cs ih =>
    rw [(deliver_cons m c cs b j).1, ih]
    cases c with
    | cache i =>
      rw [caches_consume_cache, List.count_cons]
      by_cases hij : i = j
      · simp [hij]
      · simp [hij]
    | handler i s =>
      rw [caches_consume_handler, List.count_cons]
      simp

def sides (j : Nat) (cs : List Consumer) : List Side :=
  cs.filterMap fun
    | .handler i s => if i = j then some s else none
    | _ => none

theorem engines_deliver (m : Message) (cs : List Consumer) (b : Board) (j : Nat) :
    (deliver m cs b).1.engines[j]? =
      b.engines[j]?.map fun e => (e.run ((sides j cs).map (·, m))).1 := by
  induction cs generalizing b with
  | nil => simp [deliver, sides, Engine.run]
  | cons c cs ih =>
    rw [(deliver_cons m c cs b j).1, ih]
    cases c with
    | cache i =>
      rw [engines_consume_cache]
      rfl
    | handler i s =>
      rw [engines_consume_handler]
      by_cases hij : i = j
      · simp [hij, sides, Engine.run]
        rfl
      · simp [hij, sides]

theorem published_deliver (m : Message) (cs : List Consumer) (b : Board) (j : Nat) :
    published j (deliver m cs b).2.1 =
      (b.engines[j]?.map fun e => (e.run ((sides j cs).map (·, m))).2).getD [] := by
  induction cs generalizing b with
  | nil => cases b.engines[j]? <;> rfl
  | cons c cs ih =>
    rw [(deliver_cons m c cs b j).2, ih]
    cases c with
    | cache i =>
      rw [published_consume_cache, engines_consume_cache]
      rfl
    | handler i s =>
      rw [published_consume_handler, engines_consume_handler]
      by_cases hij : i = j
      · cases h : b.engines[j]? <;> simp [hij, sides, Engine.run]
      · simp [hij, sides]

theorem routes_deliver (m : Message) (cs : List Consumer) (b : Board) :
    (deliver m cs b).1.routes = b.routes := by
  induction cs generalizing b with
  | nil => rfl
  | cons c cs ih => rw [(deliver_cons m c cs b 0).1, ih, routes_consume]

/-! ## Dispatches -/

/-- The board once a message is noted, before it is delivered. -/
def note (b : Board) (m : Message) : Board :=
  let checked := if b.checkOrder then b.checkBatch m else (b, none)
  { checked.1 with traffic := checked.1.traffic.record (.dispatch checked.2.isSome) }

theorem checkBatch_eq (b : Board) (m : Message) : ∃ l, (b.checkBatch m).1 = { b with last := l } := by
  unfold checkBatch
  cases b.last[m.feed]? with
  | none => exact ⟨_, rfl⟩
  | some last =>
    by_cases h : m.batch < last
    · exact ⟨b.last, by simp [h]⟩
    · exact ⟨b.last.insert m.feed m.batch, by simp [h]⟩

theorem note_eq (b : Board) (m : Message) :
    ∃ l t, b.note m = { b with last := l, traffic := t } := by
  unfold note
  by_cases hc : b.checkOrder = true
  · obtain ⟨l, h⟩ := b.checkBatch_eq m
    rw [if_pos hc]
    refine ⟨l, b.traffic.record (.dispatch (b.checkBatch m).2.isSome), ?_⟩
    simp only [h]
  · rw [if_neg hc]
    exact ⟨_, _, rfl⟩

@[simp] theorem caches_note (b : Board) (m : Message) : (b.note m).caches = b.caches := by
  obtain ⟨l, t, h⟩ := b.note_eq m
  rw [h]

@[simp] theorem engines_note (b : Board) (m : Message) : (b.note m).engines = b.engines := by
  obtain ⟨l, t, h⟩ := b.note_eq m
  rw [h]

@[simp] theorem routes_note (b : Board) (m : Message) : (b.note m).routes = b.routes := by
  obtain ⟨l, t, h⟩ := b.note_eq m
  rw [h]

theorem consumers_note (b : Board) (m : Message) (f : Feed) :
    (b.note m).consumers f = b.consumers f := by
  simp [consumers]

theorem dispatch_fst (b : Board) (m : Message) :
    (b.dispatch m).1 = (deliver m (b.consumers m.feed) (b.note m)).1 := by
  rw [← consumers_note b m]
  rfl

theorem published_dispatch (b : Board) (m : Message) (j : Nat) :
    published j (b.dispatch m).2.1 =
      published j (deliver m (b.consumers m.feed) (b.note m)).2.1 := by
  have hlog : ∀ o : Option Inconsistency,
      published j (o.toList.map fun why => .logged (.outOfOrder why)) = [] := by
    intro o
    cases o <;> rfl
  rw [← consumers_note b m]
  show published j (List.map _ _ ++ _) = _
  rw [published_append, hlog]
  rfl

def run (b : Board) (ms : List Message) : Board × List BoardEvent :=
  ms.foldl (fun r m => ((r.1.dispatch m).1, r.2 ++ (r.1.dispatch m).2.1)) (b, [])

theorem run_snoc (b : Board) (ms : List Message) (m : Message) :
    b.run (ms ++ [m]) =
      (((b.run ms).1.dispatch m).1, (b.run ms).2 ++ ((b.run ms).1.dispatch m).2.1) := by
  simp [run]

theorem routes_run (b : Board) (ms : List Message) : (b.run ms).1.routes = b.routes := by
  induction ms using List.reverseRecOn with
  | nil => rfl
  | append_singleton ms m ih => rw [run_snoc, dispatch_fst, routes_deliver, routes_note, ih]

end Board

end QuoteBoard
