import Mathlib.Data.List.Basic
import QuoteBoard.Json.Printer
import QuoteBoard.Json.Reader

/-!
# Reading back what was written

Every number token is read back from its written form, and so is every value whose texts are all
well formed (`Value.Legible`): `parse?_render`. What follows a value in a document is a comma, a
closing bracket or nothing, and none of these goes on with a number (`Follows`).
-/

namespace QuoteBoard.Json

/-! ## Digits -/

def NoDigit (s : List Char) : Prop := ∀ c r, s = c :: r → c.isDigit = false

theorem digit?_digitChar (d : Fin 10) : digit? (digitChar d) = some d := by
  revert d
  decide

theorem takeDigits_append {ds : List (Fin 10)} {cs rest : List Char}
    (hcs : cs.map digit? = ds.map some) (hrest : NoDigit rest) :
    takeDigits (cs ++ rest) = (ds, rest) := by
  induction cs generalizing ds with
  | nil =>
    obtain rfl : ds = [] := by cases ds <;> simp_all
    cases rest with
    | nil => rfl
    | cons c r =>
      have hc : digit? c = none := by simp [digit?, hrest c r rfl]
      simp [takeDigits, hc]
  | cons c cs ih =>
    cases ds with
    | nil => cases hcs
    | cons d ds =>
      simp only [List.map_cons, List.cons.injEq] at hcs
      simp [takeDigits, hcs.1, ih hcs.2]

theorem map_digit?_digitChars (ds : List (Fin 10)) :
    (ds.map digitChar).map digit? = ds.map some := by
  rw [List.map_map]
  apply List.map_congr_left
  intro d _
  exact digit?_digitChar d

theorem map_digit?_toDigits (n : Nat) :
    (Nat.toDigits 10 n).map digit? = (Number.digitList n).map some := by
  rw [Number.digitList, List.map_map]
  apply List.map_congr_left
  intro c hc
  simp [digit?, Nat.isDigit_of_mem_toDigits (by decide) (by decide) hc]

theorem digitList_of_ten_le {n : Nat} (h : 10 ≤ n) :
    Number.digitList n = Number.digitList (n / 10) ++ [Fin.ofNat 10 (n % 10)] := by
  have hdigit : ∀ d < 10, Number.digitOf (Nat.digitChar d) = Fin.ofNat 10 d := by decide
  unfold Number.digitList
  rw [Nat.toDigits_of_base_le (by decide) h, List.map_append]
  simp [hdigit (n % 10) (Nat.mod_lt _ (by decide))]

theorem digitList_of_lt_ten {n : Nat} (h : n < 10) : Number.digitList n = [Fin.ofNat 10 n] := by
  revert n
  decide

theorem natOfDigits_digitList (n : Nat) : natOfDigits (Number.digitList n) = n := by
  induction n using Nat.strongRecOn with
  | ind n ih =>
    rcases Nat.lt_or_ge n 10 with h | h
    · rw [digitList_of_lt_ten h]
      simp [natOfDigits, Nat.mod_eq_of_lt h]
    · have hdiv := ih (n / 10) (by omega)
      unfold natOfDigits at hdiv ⊢
      rw [digitList_of_ten_le h, List.foldl_append, hdiv]
      simp only [List.foldl_cons, List.foldl_nil, Fin.val_ofNat]
      omega

/-- Only zero is written with a leading zero. -/
theorem exists_digitList_eq_cons (n : Nat) :
    ∃ d ds, Number.digitList n = d :: ds ∧ (d.val = 0 → ds = []) := by
  induction n using Nat.strongRecOn with
  | ind n ih =>
    rcases Nat.lt_or_ge n 10 with h | h
    · exact ⟨_, [], digitList_of_lt_ten h, fun _ => rfl⟩
    · obtain ⟨d, ds, hds, hzero⟩ := ih (n / 10) (by omega)
      refine ⟨d, ds ++ [_], by rw [digitList_of_ten_le h, hds]; rfl, fun hd => ?_⟩
      have hvalue := natOfDigits_digitList (n / 10)
      rw [hds, hzero hd] at hvalue
      simp only [natOfDigits, List.foldl_cons, List.foldl_nil, hd] at hvalue
      omega

/-! ## Numbers -/

/-- The text does not go on with a number. -/
structure Follows (s : List Char) : Prop where
  digit : NoDigit s
  point : ∀ c r, s = c :: r → c ≠ '.'
  exponent : ∀ c r, s = c :: r → c ≠ 'e' ∧ c ≠ 'E'

theorem noDigit_cons {c : Char} (h : c.isDigit = false) (r : List Char) : NoDigit (c :: r) := by
  intro d s heq
  obtain rfl := (List.cons.inj heq).1
  exact h

theorem follows_nil : Follows [] := by
  constructor <;> intro c r h <;> cases h

theorem follows_cons {c : Char} (h : c = ',' ∨ c = ']' ∨ c = '}') (r : List Char) :
    Follows (c :: r) := by
  refine ⟨noDigit_cons ?_ r, ?_, ?_⟩
  · rcases h with rfl | rfl | rfl <;> rfl
  · intro d s heq
    obtain rfl := (List.cons.inj heq).1
    rcases h with rfl | rfl | rfl <;> decide
  · intro d s heq
    obtain rfl := (List.cons.inj heq).1
    rcases h with rfl | rfl | rfl <;> decide

namespace Number

def fractionText (ds : List (Fin 10)) : List Char :=
  if ds = [] then [] else '.' :: ds.map digitChar

def exponentText : Option Int → List Char
  | none => []
  | some e => 'e' :: (if e < 0 then '-' else '+') :: Nat.toDigits 10 e.natAbs

theorem render_eq (n : Number) :
    n.render = (if n.negative then ['-'] else []) ++ (Nat.toDigits 10 n.whole ++
      (fractionText n.fraction ++ exponentText n.exponent)) := by
  unfold render fractionText exponentText
  cases n.exponent <;> simp

end Number

open Number

variable {rest : List Char}

theorem readWhole?_toDigits (n : Nat) (h : NoDigit rest) :
    readWhole? (Nat.toDigits 10 n ++ rest) = some (n, rest) := by
  unfold readWhole?
  obtain ⟨d, ds, hds, hzero⟩ := exists_digitList_eq_cons n
  have hvalue := natOfDigits_digitList n
  rw [hds] at hvalue
  rw [takeDigits_append (map_digit?_toDigits n) h, hds]
  by_cases hd : d.val = 0
  · simp [hzero hd, ← hvalue]
  · simp [hd, hvalue]

theorem readFraction?_text (ds : List (Fin 10)) (h : NoDigit rest)
    (hpoint : ∀ c r, rest = c :: r → c ≠ '.') :
    readFraction? (fractionText ds ++ rest) = some (ds, rest) := by
  unfold fractionText
  cases ds with
  | nil =>
    unfold readFraction?
    split
    · rename_i r heq
      exact absurd rfl (hpoint _ _ heq)
    · rfl
  | cons d ds =>
    rw [if_neg (List.cons_ne_nil d ds), List.cons_append, readFraction?,
      takeDigits_append (map_digit?_digitChars (d :: ds)) h]

theorem readExponentDigits?_toDigits (negative : Bool) (n : Nat) (h : NoDigit rest) :
    readExponentDigits? negative (Nat.toDigits 10 n ++ rest) =
      some (some (if negative then -(n : Int) else n), rest) := by
  unfold readExponentDigits?
  obtain ⟨d, ds, hds, _⟩ := exists_digitList_eq_cons n
  have hvalue := natOfDigits_digitList n
  rw [hds] at hvalue
  rw [takeDigits_append (map_digit?_toDigits n) h, hds]
  simp [hvalue]

theorem readExponent?_text (e : Option Int) (h : Follows rest) :
    readExponent? (exponentText e ++ rest) = some (e, rest) := by
  cases e with
  | none =>
    cases rest with
    | nil => rfl
    | cons c r =>
      obtain ⟨he, hE⟩ := h.exponent c r rfl
      simp [exponentText, readExponent?, he, hE]
  | some e =>
    by_cases he : e < 0
    · have hread := readExponentDigits?_toDigits true e.natAbs h.digit
      have hvalue : -(e.natAbs : Int) = e := by omega
      rw [if_pos rfl, hvalue] at hread
      simpa [exponentText, he, readExponent?] using hread
    · have hread := readExponentDigits?_toDigits false e.natAbs h.digit
      have hvalue : (e.natAbs : Int) = e := by omega
      rw [if_neg (by decide), hvalue] at hread
      simpa [exponentText, he, readExponent?] using hread

theorem noDigit_exponentText (e : Option Int) (h : NoDigit rest) :
    NoDigit (exponentText e ++ rest) := by
  cases e with
  | none => exact h
  | some e => exact noDigit_cons rfl _

theorem noPoint_exponentText (e : Option Int) (h : Follows rest) :
    ∀ c r, exponentText e ++ rest = c :: r → c ≠ '.' := by
  cases e with
  | none => exact h.point
  | some e =>
    intro c r heq
    obtain rfl := (List.cons.inj heq).1
    decide

theorem noDigit_fractionText (ds : List (Fin 10)) (h : NoDigit rest) :
    NoDigit (fractionText ds ++ rest) := by
  unfold fractionText
  split
  · exact h
  · exact noDigit_cons rfl _

def readUnsigned? (negative : Bool) (s : List Char) : Option (Number × List Char) := do
  let (whole, s) ← readWhole? s
  let (fraction, s) ← readFraction? s
  let (exponent, s) ← readExponent? s
  return (⟨negative, whole, fraction, exponent⟩, s)

theorem readNumber?_minus (s : List Char) : readNumber? ('-' :: s) = readUnsigned? true s := rfl

theorem readNumber?_of_ne_minus {c : Char} (h : c ≠ '-') (s : List Char) :
    readNumber? (c :: s) = readUnsigned? false (c :: s) := by
  unfold readNumber? readUnsigned?
  split
  rename_i heq
  split at heq
  · rename_i hc
    exact absurd (List.cons.inj hc).1 h
  · obtain ⟨rfl, rfl⟩ := Prod.mk.inj heq
    rfl

theorem readUnsigned?_text (n : Number) (h : Follows rest) :
    readUnsigned? n.negative (Nat.toDigits 10 n.whole ++
      (fractionText n.fraction ++ (exponentText n.exponent ++ rest))) = some (n, rest) := by
  have hexponent := readExponent?_text n.exponent h
  have hdigit := noDigit_exponentText n.exponent h.digit
  have hfraction := readFraction?_text n.fraction hdigit (noPoint_exponentText n.exponent h)
  have hwhole := readWhole?_toDigits n.whole (noDigit_fractionText n.fraction hdigit)
  simp [readUnsigned?, hwhole, hfraction, hexponent]

theorem exists_toDigits_eq_cons (n : Nat) :
    ∃ c cs, Nat.toDigits 10 n = c :: cs ∧ c.isDigit = true := by
  cases h : Nat.toDigits 10 n with
  | nil => exact absurd h Nat.toDigits_ne_nil
  | cons c cs =>
    have hmem : c ∈ Nat.toDigits 10 n := h ▸ List.mem_cons_self ..
    exact ⟨c, cs, rfl, Nat.isDigit_of_mem_toDigits (by decide) (by decide) hmem⟩

theorem Number.exists_render_eq_cons (n : Number) :
    ∃ c cs, n.render = c :: cs ∧ (c = '-' ∨ c.isDigit = true) := by
  rw [render_eq]
  cases n.negative with
  | true => exact ⟨'-', _, rfl, Or.inl rfl⟩
  | false =>
    obtain ⟨c, cs, hcs, hc⟩ := exists_toDigits_eq_cons n.whole
    rw [hcs]
    exact ⟨c, _, rfl, Or.inr hc⟩

theorem readNumber?_render (n : Number) (h : Follows rest) :
    readNumber? (n.render ++ rest) = some (n, rest) := by
  have hread := readUnsigned?_text n h
  rw [render_eq]
  simp only [List.append_assoc]
  cases hn : n.negative with
  | true =>
    rw [hn] at hread
    simp only [if_true, List.singleton_append, readNumber?_minus]
    exact hread
  | false =>
    rw [hn] at hread
    obtain ⟨c, cs, hcs, hc⟩ := exists_toDigits_eq_cons n.whole
    have hminus : c ≠ '-' := by
      rintro rfl
      exact absurd hc (by decide)
    rw [hcs, List.cons_append] at hread ⊢
    simp only [Bool.false_eq_true, if_false, List.nil_append, readNumber?_of_ne_minus hminus]
    exact hread

/-! ## Texts -/

theorem readUnit?_control : ∀ n < 0x20,
    readUnit? '0' '0' (hexDigit (n / 16)) (hexDigit (n % 16)) = some (.char (Char.ofNat n)) := by
  decide

theorem readPieces?_plain {c : Char} (hquote : c ≠ '"') (hslash : c ≠ '\\')
    (hplain : ¬ c.toNat < 0x20) (r : List Char) :
    readPieces? (c :: r) = (readPieces? r).map fun p => (.char c :: p.1, p.2) := by
  rw [readPieces?.eq_def]
  split
  · rename_i h
    cases h
  · rename_i h
    exact absurd (List.cons.inj h).1 hquote
  · rename_i h
    exact absurd (List.cons.inj h).1 hslash
  · rename_i h
    exact absurd (List.cons.inj h).1 hslash
  · rename_i d s _ _ _ h
    obtain ⟨rfl, rfl⟩ := List.cons.inj h
    rw [if_neg hplain]
    cases readPieces? r <;> rfl

theorem readPieces?_simple {c x : Char} (hu : c ≠ 'u') (hx : simpleEscape? c = some x)
    (r : List Char) :
    readPieces? ('\\' :: c :: r) = (readPieces? r).map fun p => (.char x :: p.1, p.2) := by
  rw [readPieces?.eq_def]
  split
  · rename_i h
    cases h
  · rename_i h
    exact absurd (List.cons.inj h).1 (by decide)
  · rename_i h
    exact absurd (List.cons.inj (List.cons.inj h).2).1 hu
  · rename_i h
    obtain ⟨rfl, rfl⟩ := List.cons.inj (List.cons.inj h).2
    rw [hx]
    cases readPieces? r <;> rfl
  · rename_i hno h
    obtain ⟨rfl, rfl⟩ := List.cons.inj h
    exact (hno c r rfl rfl).elim

theorem readPieces?_escape (c : Char) (r : List Char) :
    readPieces? (escape c ++ r) = (readPieces? r).map fun p => (.char c :: p.1, p.2) := by
  unfold escape
  split_ifs with h₁ h₂ h₃ h₄ h₅ h₆ h₇ h₈
  · exact h₁ ▸ readPieces?_simple (c := '"') (by decide) rfl r
  · exact h₂ ▸ readPieces?_simple (c := '\\') (by decide) rfl r
  · exact h₃ ▸ readPieces?_simple (by decide) rfl r
  · exact h₄ ▸ readPieces?_simple (by decide) rfl r
  · exact h₅ ▸ readPieces?_simple (by decide) rfl r
  · exact h₆ ▸ readPieces?_simple (by decide) rfl r
  · exact h₇ ▸ readPieces?_simple (by decide) rfl r
  · have hunit := readUnit?_control c.toNat h₈
    rw [Char.ofNat_toNat] at hunit
    simp only [List.cons_append, List.nil_append, readPieces?, hunit]
    cases readPieces? r <;> rfl
  · exact readPieces?_plain h₁ h₂ h₈ r

theorem readPieces?_text (cs r : List Char) :
    readPieces? (cs.flatMap escape ++ '"' :: r) = some (cs.map .char, r) := by
  induction cs with
  | nil => rw [List.flatMap_nil, List.nil_append, readPieces?]; rfl
  | cons c cs ih =>
    rw [List.flatMap_cons, List.append_assoc, readPieces?_escape, ih]
    rfl

theorem joinPieces?_chars (cs : List Char) : joinPieces? (cs.map .char) = some cs := by
  induction cs with
  | nil => rfl
  | cons c cs ih => simp [joinPieces?, ih]

theorem readText?_text (s : String) (r : List Char) :
    readText? (s.toList.flatMap escape ++ '"' :: r) = some (some s, r) := by
  simp [readText?, readPieces?_text, joinPieces?_chars]

/-! ## Values -/

namespace Value

mutual

/-- Every text in the value is well formed. -/
def Legible : Value → Prop
  | .str s => s.isSome
  | .arr l => LegibleElements l
  | .obj l => LegibleMembers l
  | _ => True

def LegibleElements : List Value → Prop
  | [] => True
  | v :: l => Legible v ∧ LegibleElements l

def LegibleMembers : List (Option String × Value) → Prop
  | [] => True
  | (k, v) :: l => k.isSome ∧ Legible v ∧ LegibleMembers l

end

end Value

open Value

theorem skipBlanks_cons {c : Char} (h : blank c = false) (r : List Char) :
    skipBlanks (c :: r) = c :: r := by
  simp [skipBlanks, h]

theorem not_blank_of_number {c : Char} (h : c = '-' ∨ c.isDigit = true) : blank c = false := by
  rw [Bool.eq_false_iff]
  intro hblank
  simp only [blank, Bool.or_eq_true, decide_eq_true_eq, or_assoc] at hblank
  rcases hblank with rfl | rfl | rfl | rfl <;> revert h <;> decide

theorem readValue?_number {c : Char} (h : c = '-' ∨ c.isDigit = true) (fuel : Nat) (r : List Char) :
    readValue? (fuel + 1) (c :: r) = (readNumber? (c :: r)).map fun p => (.num p.1, p.2) := by
  have hne : ∀ d s, ¬ (d = '-' ∨ d.isDigit = true) → c :: r ≠ d :: s := by
    rintro d s hd heq
    exact hd ((List.cons.inj heq).1 ▸ h)
  rw [readValue?, skipBlanks_cons (not_blank_of_number h)]
  split
  case h_7 => rfl
  all_goals
    rename_i heq
    exact absurd heq (hne _ _ (by decide))

theorem Value.exists_renderChars_eq_cons (v : Value) :
    ∃ c cs, renderChars v = c :: cs ∧ blank c = false ∧ c ≠ ']' := by
  cases v with
  | null => exact ⟨'n', _, rfl, rfl, by decide⟩
  | bool b => cases b <;> exact ⟨_, _, rfl, rfl, by decide⟩
  | num n =>
    obtain ⟨c, cs, hcs, hc⟩ := n.exists_render_eq_cons
    refine ⟨c, cs, by rw [renderChars, hcs], not_blank_of_number hc, ?_⟩
    rintro rfl
    revert hc
    decide
  | str s => exact ⟨'"', _, by rw [renderChars]; rfl, rfl, by decide⟩
  | arr l => exact ⟨'[', _, by rw [renderChars], rfl, by decide⟩
  | obj l => exact ⟨'\x7b', _, by rw [renderChars], rfl, by decide⟩

theorem exists_renderElements_eq_cons (v : Value) (l : List Value) :
    ∃ c cs, renderElements (v :: l) = c :: cs ∧ blank c = false ∧ c ≠ ']' := by
  obtain ⟨c, cs, hcs, hc⟩ := v.exists_renderChars_eq_cons
  cases l with
  | nil => exact ⟨c, cs, by rw [renderElements, hcs], hc⟩
  | cons w l => exact ⟨c, _, by rw [renderElements, hcs, List.cons_append], hc⟩

theorem exists_renderMembers_eq_cons (m : Option String × Value)
    (ms : List (Option String × Value)) : ∃ cs, renderMembers (m :: ms) = '"' :: cs := by
  cases ms with
  | nil => exact ⟨_, by rw [renderMembers, renderText, List.cons_append]⟩
  | cons n ms => exact ⟨_, by rw [renderMembers, renderText, List.cons_append, List.cons_append]⟩

mutual

theorem readValue?_render (v : Value) {fuel : Nat} {rest : List Char} (hv : v.Legible)
    (hfuel : 2 * (renderChars v).length ≤ fuel) (h : Follows rest) :
    readValue? fuel (renderChars v ++ rest) = some (v, rest) := by
  obtain ⟨fuel, rfl⟩ : ∃ k, fuel = k + 1 := by
    obtain ⟨c, cs, hcs, _⟩ := v.exists_renderChars_eq_cons
    rw [hcs, List.length_cons] at hfuel
    exact ⟨fuel - 1, by omega⟩
  match v with
  | .null => rfl
  | .bool true => rfl
  | .bool false => rfl
  | .num n =>
    obtain ⟨c, cs, hcs, hc⟩ := n.exists_render_eq_cons
    have hread := readNumber?_render n h
    rw [renderChars]
    rw [hcs, List.cons_append] at hread ⊢
    rw [readValue?_number hc, hread]
    rfl
  | .str (some s) =>
    rw [renderChars, renderText, List.cons_append, List.append_assoc, readValue?,
      skipBlanks_cons rfl]
    simp only [Option.getD_some, List.cons_append, List.nil_append, readText?_text]
    rfl
  | .arr [] => rfl
  | .arr (v :: l) =>
    rw [renderChars, List.length_cons, List.length_append] at hfuel
    have hread : readElements? fuel (renderElements (v :: l) ++ ']' :: rest) =
        some (v :: l, rest) :=
      readElements?_render (v :: l) hv (List.cons_ne_nil v l) (by omega)
    obtain ⟨c, cs, hcs, hblank, hc⟩ := exists_renderElements_eq_cons v l
    rw [renderChars]
    rw [hcs] at hread ⊢
    simp only [List.cons_append, List.append_assoc, List.nil_append] at hread ⊢
    rw [readValue?, skipBlanks_cons rfl]
    simp only [skipBlanks_cons hblank]
    split
    · rename_i heq
      exact absurd (List.cons.inj heq).1 hc
    · rename_i heq
      rw [hread]
      rfl
  | .obj [] => rfl
  | .obj (m :: ms) =>
    rw [renderChars, List.length_cons, List.length_append] at hfuel
    have hread : readMembers? fuel (renderMembers (m :: ms) ++ '\x7d' :: rest) =
        some (m :: ms, rest) :=
      readMembers?_render (m :: ms) hv (List.cons_ne_nil m ms) (by omega)
    obtain ⟨cs, hcs⟩ := exists_renderMembers_eq_cons m ms
    rw [renderChars]
    rw [hcs] at hread ⊢
    simp only [List.cons_append, List.append_assoc, List.nil_append] at hread ⊢
    rw [readValue?, skipBlanks_cons rfl]
    simp [skipBlanks_cons (c := '"') rfl, hread]

theorem readElements?_render (l : List Value) {fuel : Nat} {rest : List Char}
    (hl : LegibleElements l) (hne : l ≠ []) (hfuel : 2 * (renderElements l).length < fuel) :
    readElements? fuel (renderElements l ++ ']' :: rest) = some (l, rest) := by
  obtain ⟨fuel, rfl⟩ : ∃ k, fuel = k + 1 := ⟨fuel - 1, by omega⟩
  match l with
  | [v] =>
    rw [renderElements] at hfuel ⊢
    rw [readElements?, readValue?_render v hl.1 (by omega) (follows_cons (by simp) _)]
    simp [skipBlanks_cons (c := ']') rfl]
  | v :: w :: l =>
    rw [renderElements, List.length_append, List.length_cons] at hfuel
    rw [renderElements, List.append_assoc, List.cons_append, readElements?,
      readValue?_render v hl.1 (by omega) (follows_cons (by simp) _)]
    have hread : readElements? fuel (renderElements (w :: l) ++ ']' :: rest) =
        some (w :: l, rest) :=
      readElements?_render (w :: l) hl.2 (List.cons_ne_nil w l) (by omega)
    simp [skipBlanks_cons (c := ',') rfl, hread]

theorem readMembers?_render (ms : List (Option String × Value)) {fuel : Nat} {rest : List Char}
    (hms : LegibleMembers ms) (hne : ms ≠ []) (hfuel : 2 * (renderMembers ms).length < fuel) :
    readMembers? fuel (renderMembers ms ++ '\x7d' :: rest) = some (ms, rest) := by
  obtain ⟨fuel, rfl⟩ : ∃ k, fuel = k + 1 := ⟨fuel - 1, by omega⟩
  match ms with
  | [(some k, v)] =>
    rw [renderMembers, List.length_append, List.length_cons] at hfuel
    have hread : readValue? fuel (renderChars v ++ '\x7d' :: rest) = some (v, '\x7d' :: rest) :=
      readValue?_render v hms.2.1 (by omega) (follows_cons (by simp) rest)
    simp [renderMembers, renderText, readMembers?, skipBlanks_cons, readText?_text, hread, blank]
  | (some k, v) :: n :: ms =>
    simp only [renderMembers, List.length_append, List.length_cons] at hfuel
    have hmembers : readMembers? fuel (renderMembers (n :: ms) ++ '\x7d' :: rest) =
        some (n :: ms, rest) :=
      readMembers?_render (n :: ms) hms.2.2 (List.cons_ne_nil n ms) (by omega)
    have hread (r : List Char) : readValue? fuel (renderChars v ++ ',' :: r) = some (v, ',' :: r) :=
      readValue?_render v hms.2.1 (by omega) (follows_cons (by simp) r)
    simp [renderMembers, renderText, readMembers?, skipBlanks_cons, readText?_text, hread,
      hmembers, blank]

end

theorem parse?_render {v : Value} (hv : v.Legible) : parse? v.render = some v := by
  have hread : readValue? (2 * (renderChars v).length + 2) (renderChars v ++ []) = some (v, []) :=
    readValue?_render v hv (by omega) follows_nil
  rw [List.append_nil] at hread
  rw [parse?, Value.render, String.toList_ofList, parseChars?, hread]
  rfl

theorem render_inj {v w : Value} (hv : v.Legible) (hw : w.Legible) (h : v.render = w.render) :
    v = w := by
  have hread := parse?_render hv
  rw [h, parse?_render hw] at hread
  exact (Option.some.inj hread).symm

end QuoteBoard.Json
