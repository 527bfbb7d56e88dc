import Mathlib.Data.List.Basic
import QuoteBoard.Proofs.JsonText
import QuoteBoard.Wire.Basic

/-!
# Records read back

A record whose names are all different gives back each of its fields, and a tagged record its tag.
Sizes are the only content that can get lost, so a written value is told with the place of every
size in it (`Survives`): with sizes that their own text keeps it is read back, and with one that is
no number it is refused.
-/

namespace QuoteBoard.Json

namespace Value

/-! ## Fields by name -/

variable {l : List (String × Value)} {n tag : String} {t v : Value}

abbrev members (l : List (String × Value)) : List (Option String × Value) :=
  l.map fun p => (some p.1, p.2)

theorem named_members_eq_nil (h : n ∉ l.map (·.1)) : named n (members l) = [] := by
  simp only [List.mem_map, not_exists, not_and] at h
  simp only [named, List.map_eq_nil_iff, List.filter_eq_nil_iff, List.mem_map]
  rintro _ ⟨p, hp, rfl⟩
  simpa using h p hp

theorem named_members (hl : (l.map (·.1)).Nodup) (h : (n, v) ∈ l) : named n (members l) = [v] := by
  induction l with
  | nil => cases h
  | cons p l ih =>
    rw [List.map_cons, List.nodup_cons] at hl
    rcases List.mem_cons.1 h with rfl | h
    · have hrest := named_members_eq_nil hl.1
      simp only [named, List.map_eq_nil_iff] at hrest
      simp [named, hrest]
    · have hne : p.1 ≠ n := by
        rintro rfl
        exact hl.1 (List.mem_map.2 ⟨_, h, rfl⟩)
      have hrest := ih hl.2 h
      unfold named at hrest
      simp [named, hne, hrest]

theorem single?_members (hl : (l.map (·.1)).Nodup) (h : (n, v) ∈ l) :
    single? (members l) n = some (some v) := by
  rw [single?, named_members hl h]

theorem fields?_ofFields {names : List String} (h : l.map (·.1) = names) (hn : names.Nodup) :
    (ofFields l).fields? names = some (l.map fun p => some p.2) := by
  subst h
  have hread : ∀ k : List (String × Value), (∀ p ∈ k, p ∈ l) →
      (k.map (·.1)).mapM (single? (members l)) = some (k.map fun p => some p.2) := by
    intro k hk
    induction k with
    | nil => rfl
    | cons p k ih =>
      rw [List.map_cons, List.mapM_cons, single?_members hn (hk p (List.mem_cons_self ..)),
        ih fun q hq => hk q (List.mem_cons_of_mem p hq)]
      rfl
  have hsome : (members l).all (fun m => m.1.isSome) = true := by simp
  rw [ofFields, fields?, members?, if_pos hsome, hread l fun _ h => h]

theorem untag?_ofFields (h : tag ∉ l.map (·.1)) :
    (ofFields ((tag, t) :: l)).untag? tag = some (t, ofFields l) := by
  have hnamed : named tag (members ((tag, t) :: l)) = [t] := by
    have hl := named_members_eq_nil h
    unfold named at hl ⊢
    rw [members, List.map_cons, List.filter_cons_of_pos (by simp), List.map_cons, hl]
  have hrest : (members l).filter (fun m => m.1 ≠ some tag) = members l := by
    simp only [List.mem_map, not_exists, not_and] at h
    simp only [List.filter_eq_self, List.mem_map]
    rintro _ ⟨p, hp, rfl⟩
    simpa using h p hp
  rw [ofFields, untag?, hnamed]
  simp only [List.map_cons]
  rw [List.filter_cons_of_neg (by simp), hrest]
  rfl

/-! ## Legible, sound and shallow records -/

@[simp]
theorem legible_ofFields : (ofFields l).Legible ↔ ∀ p ∈ l, p.2.Legible := by
  unfold ofFields
  rw [Legible]
  induction l with
  | nil => simp [LegibleMembers]
  | cons p l ih => simp [LegibleMembers, ih]

@[simp]
theorem legible_arr {vs : List Value} : (arr vs).Legible ↔ ∀ v ∈ vs, v.Legible := by
  rw [Legible]
  induction vs with
  | nil => simp [LegibleElements]
  | cons v vs ih => simp [LegibleElements, ih]

@[simp]
theorem legible_ofString (s : String) : (ofString s).Legible := rfl

@[simp]
theorem legible_ofInt (i : Int) : (ofInt i).Legible := trivial

@[simp]
theorem legible_null : null.Legible := trivial

@[simp]
theorem legible_bool (b : Bool) : (bool b).Legible := trivial

@[simp]
theorem legible_ofDouble (bits : UInt64) : (ofDouble bits).Legible := by
  unfold ofDouble
  split <;> trivial

@[simp]
theorem sound_ofFields : (ofFields l).sound = l.all fun p => p.2.sound := by
  unfold ofFields
  rw [sound]
  induction l with
  | nil => rfl
  | cons p l ih => simp [soundMembers, ih]

@[simp]
theorem sound_ofString (s : String) : (ofString s).sound = true := rfl

theorem toInt?_ofInt (i : Int) : (ofInt i).toInt? = some i := by
  simp only [ofInt, toInt?, Number.ofInt, Number.toInt?, and_self, if_true, decide_eq_true_eq]
  by_cases hi : i < 0
  · have hne : i.natAbs ≠ 0 := by omega
    have habs : -(i.natAbs : Int) = i := by omega
    rw [if_pos hi, if_neg hne, habs]
  · have habs : (i.natAbs : Int) = i := by omega
    rw [if_neg hi, habs]

theorem sound_ofInt {i : Int} (h : i.natAbs < UInt64.size) : (ofInt i).sound = true := by
  have hint := toInt?_ofInt i
  simp only [ofInt, toInt?] at hint
  have hwhole : (Number.ofInt i).whole = i.natAbs := rfl
  simp [ofInt, sound, hint, hwhole, h]

@[simp]
theorem depth_ofFields_nil : (ofFields []).depth = 1 := rfl

@[simp]
theorem depth_ofFields_cons (p : String × Value) :
    (ofFields (p :: l)).depth = max (p.2.depth + 1) (ofFields l).depth := by
  simp [ofFields, depth, depthOfMembers]

@[simp]
theorem depth_ofString (s : String) : (ofString s).depth = 0 := rfl

@[simp]
theorem depth_ofInt (i : Int) : (ofInt i).depth = 0 := rfl

@[simp]
theorem depth_ofDouble (bits : UInt64) : (ofDouble bits).depth = 0 := by
  unfold ofDouble
  split <;> rfl

/-! ## Integers -/

theorem toNatBelow?_ofInt {k bound : Nat} (h : k < bound) :
    (ofInt k).toNatBelow? bound = some k := by
  simp [toNatBelow?, toInt?_ofInt, h]

@[simp]
theorem toUInt32?_ofInt (x : UInt32) : (ofInt x.toNat).toUInt32? = some x := by
  simp [toUInt32?, toNatBelow?_ofInt x.toNat_lt_size]

@[simp]
theorem toUInt64?_ofInt (x : UInt64) : (ofInt x.toNat).toUInt64? = some x := by
  simp [toUInt64?, toNatBelow?_ofInt x.toNat_lt_size]

@[simp]
theorem toInt64?_ofInt (x : Int64) : (ofInt x.toInt).toInt64? = some x := by
  have hrange : Int64.minValue.toInt ≤ x.toInt ∧ x.toInt ≤ Int64.maxValue.toInt :=
    ⟨x.minValue_le_toInt, x.toInt_le⟩
  rw [toInt64?, toInt?_ofInt, Option.bind_eq_bind, Option.bind_some, if_pos hrange,
    Int64.ofInt_toInt]

/-! ## Lists -/

variable {α : Type} {f : Value → Option α} {g : α → Value} {xs : List α}

theorem toList?_map (h : ∀ x ∈ xs, f (g x) = some x) : (arr (xs.map g)).toList? f = some xs := by
  rw [toList?]
  induction xs with
  | nil => rfl
  | cons x xs ih =>
    rw [List.forall_mem_cons] at h
    rw [List.map_cons, List.mapM_cons, h.1, ih h.2]
    rfl

theorem toList?_map_eq_none {x : α} (hx : x ∈ xs) (h : f (g x) = none) :
    (arr (xs.map g)).toList? f = none := by
  rw [toList?]
  induction xs with
  | nil => cases hx
  | cons y xs ih =>
    rw [List.map_cons, List.mapM_cons]
    rcases List.mem_cons.1 hx with rfl | hx
    · rw [h]
      rfl
    · rw [ih hx]
      cases f (g y) <;> rfl

/-! ## Places -/

/-- One step into a value: to the field of a name, or to an element. -/
inductive Step where
  | field (name : String)
  | index (i : Nat)
  deriving DecidableEq, Repr

def step? : Value → Step → Option Value
  | .obj ms, .field n => (single? ms n).join
  | .arr l, .index i => l[i]?
  | _, _ => none

def at? : Value → List Step → Option Value
  | v, [] => some v
  | v, s :: p => (v.step? s).bind fun w => w.at? p

theorem at?_field {p : List Step} (hl : (l.map (·.1)).Nodup) (h : (n, v) ∈ l) :
    (ofFields l).at? (.field n :: p) = v.at? p := by
  have hstep : (ofFields l).step? (.field n) = some v := by
    rw [ofFields, step?, single?_members hl h]
    rfl
  rw [at?, hstep, Option.bind_some]

theorem at?_index {p : List Step} {vs : List Value} {i : Nat} (h : vs[i]? = some v) :
    (arr vs).at? (.index i :: p) = v.at? p := by
  rw [at?, step?, h, Option.bind_some]

end Value

end QuoteBoard.Json

namespace QuoteBoard

open Json Json.Value

/-! ## Sizes -/

namespace Size

/-- The size is a number whose written form reads back to the same bits. -/
structure Faithful (s : Size) : Prop where
  finite : Binary64.finite s.bits = true
  readBack : (parse? s.toJson.render).bind ofJson? = some s

variable {s : Size}

theorem legible_toJson (s : Size) : s.toJson.Legible := legible_ofDouble s.bits

theorem Faithful.ofJson?_toJson (h : s.Faithful) : ofJson? s.toJson = some s := by
  have hread := h.readBack
  rwa [parse?_render s.legible_toJson] at hread

theorem Faithful.sound_toJson (h : s.Faithful) : s.toJson.sound = true := by
  have hread := h.ofJson?_toJson
  unfold toJson ofDouble at hread ⊢
  rw [if_pos h.finite] at hread ⊢
  simp only [ofJson?, toDouble?, Option.map_eq_some_iff] at hread
  obtain ⟨_, hbits, -⟩ := hread
  simp [sound, hbits]

theorem toJson_eq_null (h : Binary64.finite s.bits = false) : s.toJson = .null := by
  simp [toJson, ofDouble, h]

theorem ofJson?_null : ofJson? .null = none := rfl

end Size

/-- Sizes with their places. -/
abbrev Sizes := List (List Step × Size)

namespace Sizes

def one (s : Size) : Sizes := [([], s)]

def within (s : Step) (l : Sizes) : Sizes := l.map fun p => (s :: p.1, p.2)

def column {α : Type} (f : α → Sizes) (xs : List α) : Sizes :=
  (xs.mapIdx fun i x => within (.index i) (f x)).flatten

def Faithful (l : Sizes) : Prop := ∀ p ∈ l, p.2.Faithful

/-- Some size is no number. -/
def Broken (l : Sizes) : Prop := ∃ p ∈ l, Binary64.finite p.2.bits = false

/-- Every size is written at its place. -/
def Shown (v : Value) (l : Sizes) : Prop := ∀ p ∈ l, v.at? p.1 = some p.2.toJson

section
variable {α : Type} {f : α → Sizes} {xs : List α} {k l : Sizes} {s : Step}

theorem mem_column {p : List Step × Size} :
    p ∈ column f xs ↔ ∃ i, ∃ x, xs[i]? = some x ∧ p ∈ within (.index i) (f x) := by
  simp only [column, List.mem_flatten, List.mem_mapIdx]
  constructor
  · rintro ⟨_, ⟨i, hi, rfl⟩, hp⟩
    exact ⟨i, xs[i], List.getElem?_eq_getElem hi, hp⟩
  · rintro ⟨i, x, hx, hp⟩
    obtain ⟨hi, rfl⟩ := List.getElem?_eq_some_iff.1 hx
    exact ⟨_, ⟨i, hi, rfl⟩, hp⟩

@[simp]
theorem not_broken_nil : ¬ Broken [] := by simp [Broken]

@[simp]
theorem faithful_one {z : Size} : (one z).Faithful ↔ z.Faithful := by simp [Faithful, one]

@[simp]
theorem broken_one {z : Size} : (one z).Broken ↔ Binary64.finite z.bits = false := by
  simp [Broken, one]

@[simp]
theorem faithful_within : (within s l).Faithful ↔ l.Faithful := by
  simp only [Faithful, within, List.forall_mem_map]

@[simp]
theorem broken_within : (within s l).Broken ↔ l.Broken := by
  simp only [Broken, within, List.mem_map, exists_exists_and_eq_and]

@[simp]
theorem faithful_append : (k ++ l).Faithful ↔ k.Faithful ∧ l.Faithful := by
  simp only [Faithful, List.forall_mem_append]

@[simp]
theorem broken_append : (k ++ l).Broken ↔ k.Broken ∨ l.Broken := by
  simp only [Broken, List.mem_append, or_and_right, exists_or]

theorem faithful_column (h : (column f xs).Faithful) {x : α} (hx : x ∈ xs) : (f x).Faithful := by
  obtain ⟨i, hi⟩ := List.mem_iff_getElem?.1 hx
  rw [← faithful_within]
  intro p hp
  exact h p (mem_column.2 ⟨i, x, hi, hp⟩)

theorem broken_column (h : (column f xs).Broken) : ∃ x ∈ xs, (f x).Broken := by
  obtain ⟨p, hp, hbroken⟩ := h
  obtain ⟨i, x, hx, hp⟩ := mem_column.1 hp
  exact ⟨x, List.mem_of_getElem? hx, broken_within.1 ⟨p, hp, hbroken⟩⟩

theorem shown_nil (v : Value) : Shown v [] := by simp [Shown]

theorem shown_one (z : Size) : (one z).Shown z.toJson := by simp [Shown, one, at?]

theorem shown_append {v : Value} (hk : k.Shown v) (hl : l.Shown v) : (k ++ l).Shown v :=
  List.forall_mem_append.2 ⟨hk, hl⟩

theorem shown_field {fields : List (String × Value)} {n : String} {v : Value}
    (hn : (fields.map (·.1)).Nodup) (hv : (n, v) ∈ fields) (hl : l.Shown v) :
    (within (.field n) l).Shown (.ofFields fields) := by
  intro p hp
  obtain ⟨q, hq, rfl⟩ := List.mem_map.1 hp
  exact (at?_field hn hv).trans (hl q hq)

theorem shown_column {g : α → Value} (h : ∀ x ∈ xs, (f x).Shown (g x)) :
    (column f xs).Shown (.arr (xs.map g)) := by
  intro p hp
  obtain ⟨i, x, hx, hp⟩ := mem_column.1 hp
  obtain ⟨q, hq, rfl⟩ := List.mem_map.1 hp
  have hi : (xs.map g)[i]? = some (g x) := by rw [List.getElem?_map, hx, Option.map_some]
  exact (at?_index hi).trans (h x (List.mem_of_getElem? hx) q hq)

end

end Sizes

/-- What has been written is read back unless a size has been lost. -/
structure Survives {α : Type} (v : Value) (read? : Value → Option α) (sizes : Sizes) (x : α) :
    Prop where
  legible : v.Legible
  shown : sizes.Shown v
  kept : sizes.Faithful → read? v = some x
  refused : sizes.Broken → read? v = none

namespace Survives

variable {α β γ : Type} {f : Value → Option α} {g : Value → Option β} {read? : Value → Option γ}
  {v w : Value} {k l : Sizes} {x : α} {y : β} {z : γ} {ms : List (String × Value)}
  {n m : String}

theorem plain (hv : v.Legible) (h : f v = some x) : Survives v f [] x where
  legible := hv
  shown := Sizes.shown_nil v
  kept _ := h
  refused hs := absurd hs Sizes.not_broken_nil

theorem size (s : Size) : Survives s.toJson Size.ofJson? (.one s) s where
  legible := s.legible_toJson
  shown := Sizes.shown_one s
  kept h := (Sizes.faithful_one.1 h).ofJson?_toJson
  refused h := by rw [Size.toJson_eq_null (Sizes.broken_one.1 h), Size.ofJson?_null]

theorem map (h : Survives v f l x) (c : α → γ) :
    Survives v (fun v => (f v).map c) l (c x) where
  legible := h.legible
  shown := h.shown
  kept hs := by rw [h.kept hs, Option.map_some]
  refused hs := by rw [h.refused hs, Option.map_none]

/-- A value that is looked at as a whole before it is read. -/
theorem guarded {p : Value → Bool} (h : Survives v f l x) (hp : l.Faithful → p v = true) :
    Survives v (fun v => if p v then f v else none) l x where
  legible := h.legible
  shown := h.shown
  kept hs := by rw [if_pos (hp hs), h.kept hs]
  refused hs := by rw [h.refused hs, ite_self]

theorem field (h : Survives v f l x) (hn : (ms.map (·.1)).Nodup) (hv : (n, v) ∈ ms)
    (hlegible : ∀ p ∈ ms, p.2.Legible)
    (hsome : f v = some x → read? (.ofFields ms) = some z)
    (hnone : f v = none → read? (.ofFields ms) = none) :
    Survives (.ofFields ms) read? (.within (.field n) l) z where
  legible := legible_ofFields.2 hlegible
  shown := Sizes.shown_field hn hv h.shown
  kept hs := hsome (h.kept (Sizes.faithful_within.1 hs))
  refused hs := hnone (h.refused (Sizes.broken_within.1 hs))

theorem twoFields (h : Survives v f k x) (h' : Survives w g l y) (hn : (ms.map (·.1)).Nodup)
    (hv : (n, v) ∈ ms) (hw : (m, w) ∈ ms) (hlegible : ∀ p ∈ ms, p.2.Legible)
    (hsome : f v = some x → g w = some y → read? (.ofFields ms) = some z)
    (hnone : f v = none ∨ g w = none → read? (.ofFields ms) = none) :
    Survives (.ofFields ms) read? (.within (.field n) k ++ .within (.field m) l) z where
  legible := legible_ofFields.2 hlegible
  shown := Sizes.shown_append (Sizes.shown_field hn hv h.shown) (Sizes.shown_field hn hw h'.shown)
  kept hs := by
    rw [Sizes.faithful_append, Sizes.faithful_within, Sizes.faithful_within] at hs
    exact hsome (h.kept hs.1) (h'.kept hs.2)
  refused hs := by
    rw [Sizes.broken_append, Sizes.broken_within, Sizes.broken_within] at hs
    exact hnone (hs.imp h.refused h'.refused)

variable {write : α → Value} {sizes : α → Sizes}

theorem list {xs : List α} (h : ∀ x ∈ xs, Survives (write x) f (sizes x) x) :
    Survives (.arr (xs.map write)) (toList? f) (.column sizes xs) xs where
  legible := by
    rw [legible_arr, List.forall_mem_map]
    exact fun x hx => (h x hx).legible
  shown := Sizes.shown_column fun x hx => (h x hx).shown
  kept hs := toList?_map fun x hx => (h x hx).kept (Sizes.faithful_column hs hx)
  refused hs := by
    obtain ⟨x, hx, hbroken⟩ := Sizes.broken_column hs
    exact toList?_map_eq_none hx ((h x hx).refused hbroken)

/-- A value that may be absent is written as null, so one that is there must not be. -/
theorem option {t : Option α} (h : ∀ x ∈ t, Survives (write x) f (sizes x) x)
    (hwrite : ∀ x, write x ≠ .null) :
    Survives ((t.map write).getD .null) (fun v => toOption? f (some v)) ((t.map sizes).getD []) t
    := by
  cases t with
  | none => exact plain legible_null rfl
  | some x =>
    have hread : toOption? f (some (write x)) = (f (write x)).map some := by
      unfold toOption?
      split
      · rename_i heq
        cases heq
      · rename_i heq
        exact absurd (Option.some.inj heq) (hwrite x)
      · rename_i heq
        rw [Option.some.inj heq]
    have hx := (h x rfl).map some
    exact ⟨hx.legible, hx.shown, fun hs => hread.trans (hx.kept hs),
      fun hs => hread.trans (hx.refused hs)⟩

end Survives

end QuoteBoard
