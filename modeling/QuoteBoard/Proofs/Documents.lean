import QuoteBoard.Proofs.WireForms

/-!
# Documents survive their text

A message, a captured message, a play event, an update and a snapshot are each read back from the
text they are written to, and no two of them have one text, as long as every size is faithful. A
size that is no number is written as null, and the document is then refused.
-/

namespace QuoteBoard

open Json

inductive Form where
  | message
  | captured
  | event
  | update
  | snapshot
  deriving DecidableEq, Repr

/-- What is written as a text of its own. -/
inductive Document where
  | message (m : Message)
  | captured (c : Captured)
  | event (e : PlayEvent)
  | update (u : Update)
  | snapshot (s : Snapshot)
  deriving DecidableEq, Repr

def Form.heading : Form → String
  | message => "type"
  | captured => "message"
  | event => "event"
  | update => "message_id"
  | snapshot => "id"

theorem Form.heading_inj {f g : Form} (h : f.heading = g.heading) : f = g := by
  cases f <;> cases g <;> first | rfl | (revert h; decide)

namespace Document

def form : Document → Form
  | message _ => .message
  | captured _ => .captured
  | event _ => .event
  | update _ => .update
  | snapshot _ => .snapshot

def toJson : Document → Value
  | message m => m.toJson
  | captured c => c.toJson
  | event e => e.toJson
  | update u => u.toJson
  | snapshot s => s.toJson

def text (d : Document) : String := d.toJson.render

def ofJson? : Form → Value → Option Document
  | .message, v => (Message.ofJson? 0 v).map message
  | .captured, v => (Captured.ofJson? v).map captured
  | .event, v => (PlayEvent.ofJson? v).map event
  | .update, v => (Update.ofJson? v).map update
  | .snapshot, v => (Snapshot.ofJson? v).map snapshot

def read? (f : Form) (s : String) : Option Document := (parse? s).bind (ofJson? f)

def sizes : Document → Sizes
  | message m => m.sizes
  | captured c => c.sizes
  | event e => e.sizes
  | update u => u.sizes
  | snapshot s => s.sizes

/-- The ranks in the document are machine words. -/
def RanksFit : Document → Prop
  | snapshot s => ∀ r ∈ s.view.levels, r.rank < UInt64.size
  | _ => True

variable {d e : Document}

theorem survives (hd : d.RanksFit) : Survives d.toJson (ofJson? d.form) d.sizes d := by
  cases d with
  | message m =>
    have hm : Survives m.toJson (Message.ofJson? 0) m.sizes m := m.survives (by decide)
    exact hm.map message
  | captured c => exact c.survives.map captured
  | event e => exact e.survives.map event
  | update u => exact u.survives.map update
  | snapshot s => exact (Snapshot.survives hd).map snapshot

theorem parse?_text (hd : d.RanksFit) : parse? d.text = some d.toJson :=
  parse?_render (survives hd).legible

theorem read?_text (hd : d.RanksFit) : read? d.form d.text = ofJson? d.form d.toJson := by
  rw [read?, parse?_text hd, Option.bind_some]

theorem exists_toJson_eq (d : Document) :
    ∃ v ms, d.toJson = .obj ((some d.form.heading, v) :: ms) := by
  cases d <;> exact ⟨_, _, rfl⟩

theorem form_eq_of_toJson_eq (h : e.toJson = d.toJson) : e.form = d.form := by
  obtain ⟨v, ms, he⟩ := e.exists_toJson_eq
  obtain ⟨w, ns, hd⟩ := d.exists_toJson_eq
  rw [he, hd] at h
  simp only [Value.obj.injEq, List.cons.injEq, Prod.mk.injEq, Option.some.injEq] at h
  exact Form.heading_inj h.1.1

theorem eq_of_text_eq (hd : d.RanksFit) (he : e.RanksFit) (hd' : d.sizes.Faithful)
    (he' : e.sizes.Faithful) (h : e.text = d.text) : e = d := by
  have hjson : e.toJson = d.toJson := render_inj (survives he).legible (survives hd).legible h
  have hread := (survives he).kept he'
  rw [hjson, form_eq_of_toJson_eq hjson, (survives hd).kept hd'] at hread
  exact (Option.some.inj hread).symm

/-- A document with faithful sizes is read back from its text, which no other has; each size that
is no number is written as null and has the document refused. -/
theorem text_survives (hd : d.RanksFit) :
    (d.sizes.Faithful → read? d.form d.text = some d ∧
      ∀ e : Document, e.RanksFit → e.sizes.Faithful → e.text = d.text → e = d) ∧
    ∀ p ∈ d.sizes, Binary64.finite p.2.bits = false →
      (parse? d.text).bind (fun v => v.at? p.1) = some .null ∧ read? d.form d.text = none := by
  refine ⟨fun h => ⟨?_, fun e he h' => eq_of_text_eq hd he h h'⟩, fun p hp hfinite => ⟨?_, ?_⟩⟩
  · rw [read?_text hd, (survives hd).kept h]
  · rw [parse?_text hd, Option.bind_some, (survives hd).shown p hp, Size.toJson_eq_null hfinite]
  · rw [read?_text hd, (survives hd).refused ⟨p, hp, hfinite⟩]

def sample (size last : UInt64) : Document :=
  .snapshot ⟨⟨4⟩, false, 7, ⟨⟨"F", 1⟩, .bid, [⟨0, ⟨⟨"q\n1"⟩, ⟨100⟩, ⟨size⟩, .bid, ⟨4⟩, 7⟩⟩],
    some ⟨⟨-5⟩, ⟨last⟩, .bid, ⟨4⟩, 6⟩, 7⟩⟩

theorem ranksFit_sample (size last : UInt64) : (sample size last).RanksFit := by
  simp [sample, RanksFit]

theorem faithful_sample : (sample 0x3FF8000000000000 0x4024000000000000).sizes.Faithful := by
  have hsize : Size.Faithful ⟨0x3FF8000000000000⟩ := ⟨by decide, by decide +kernel⟩
  have hlast : Size.Faithful ⟨0x4024000000000000⟩ := ⟨by decide, by decide +kernel⟩
  intro p hp
  rcases List.mem_pair.1 hp with rfl | rfl
  · exact hsize
  · exact hlast

theorem text_survives_sample :
    read? .snapshot (sample 0x3FF8000000000000 0x4024000000000000).text =
      some (sample 0x3FF8000000000000 0x4024000000000000) ∧
    (parse? (sample 0x3FF8000000000000 0x7FF8000000000000).text).bind
      (fun v => v.at? [.field "view", .field "trade", .field "size"]) = some .null ∧
    read? .snapshot (sample 0x3FF8000000000000 0x7FF8000000000000).text = none := by
  have hkept := (text_survives (ranksFit_sample 0x3FF8000000000000 0x4024000000000000)).1
    faithful_sample
  have hlost := (text_survives (ranksFit_sample 0x3FF8000000000000 0x7FF8000000000000)).2
    ([.field "view", .field "trade", .field "size"], ⟨0x7FF8000000000000⟩)
    (List.mem_pair.2 (Or.inr rfl)) (by decide)
  exact ⟨hkept.1, hlost⟩

end Document

end QuoteBoard
