import QuoteBoard.Json.Value

/-!
# Reading JSON

The strict grammar over a list of characters. A reader takes a value off the front of the text and
gives back the rest; `parse?` wants the whole text used. Nesting is bounded by the length of the
text, which is where the fuel comes from.
-/

namespace QuoteBoard.Json

def blank (c : Char) : Bool := c = ' ' || c = '\t' || c = '\n' || c = '\r'

def skipBlanks (s : List Char) : List Char := s.dropWhile blank

/-! ## Numbers -/

def digit? (c : Char) : Option (Fin 10) :=
  if c.isDigit then some (Number.digitOf c) else none

def takeDigits : List Char → List (Fin 10) × List Char
  | [] => ([], [])
  | c :: r =>
    match digit? c with
    | none => ([], c :: r)
    | some d =>
      let p := takeDigits r
      (d :: p.1, p.2)

def natOfDigits (ds : List (Fin 10)) : Nat := ds.foldl (fun n d => n * 10 + d.val) 0

/-- A whole part: zero alone, or digits that do not start with zero. -/
def readWhole? (s : List Char) : Option (Nat × List Char) :=
  match takeDigits s with
  | ([], _) => none
  | (d :: ds, r) => if d.val = 0 && !ds.isEmpty then none else some (natOfDigits (d :: ds), r)

def readFraction? (s : List Char) : Option (List (Fin 10) × List Char) :=
  match s with
  | '.' :: r =>
    match takeDigits r with
    | ([], _) => none
    | p => some p
  | _ => some ([], s)

def readExponentDigits? (negative : Bool) (s : List Char) : Option (Option Int × List Char) :=
  match takeDigits s with
  | ([], _) => none
  | (ds, r) => some (some (if negative then -(natOfDigits ds : Int) else natOfDigits ds), r)

def readExponent? (s : List Char) : Option (Option Int × List Char) :=
  match s with
  | c :: r =>
    if c = 'e' ∨ c = 'E' then
      match r with
      | '+' :: r => readExponentDigits? false r
      | '-' :: r => readExponentDigits? true r
      | r => readExponentDigits? false r
    else some (none, s)
  | [] => some (none, s)

def readNumber? (s : List Char) : Option (Number × List Char) := do
  let (negative, s) := match s with
    | '-' :: r => (true, r)
    | r => (false, r)
  let (whole, s) ← readWhole? s
  let (fraction, s) ← readFraction? s
  let (exponent, s) ← readExponent? s
  return (⟨negative, whole, fraction, exponent⟩, s)

/-! ## Texts -/

/-- A piece of a text: a character, or one half of a surrogate pair. -/
inductive Piece where
  | char (c : Char)
  | high (u : Nat)
  | low (u : Nat)
  deriving DecidableEq, Repr

def hexValue? (c : Char) : Option Nat :=
  if c.isDigit then some (c.toNat - '0'.toNat)
  else if 'a' ≤ c ∧ c ≤ 'f' then some (c.toNat - 'a'.toNat + 10)
  else if 'A' ≤ c ∧ c ≤ 'F' then some (c.toNat - 'A'.toNat + 10)
  else none

def Piece.ofUnit (u : Nat) : Piece :=
  if 0xD800 ≤ u ∧ u ≤ 0xDBFF then .high u
  else if 0xDC00 ≤ u ∧ u ≤ 0xDFFF then .low u
  else .char (Char.ofNat u)

def readUnit? (a b c d : Char) : Option Piece := do
  let a ← hexValue? a
  let b ← hexValue? b
  let c ← hexValue? c
  let d ← hexValue? d
  return .ofUnit (((a * 16 + b) * 16 + c) * 16 + d)

def simpleEscape? (c : Char) : Option Char :=
  match c with
  | '"' => some '"'
  | '\\' => some '\\'
  | '/' => some '/'
  | 'b' => some '\x08'
  | 'f' => some '\x0c'
  | 'n' => some '\n'
  | 'r' => some '\r'
  | 't' => some '\t'
  | _ => none

def readPieces? : List Char → Option (List Piece × List Char)
  | [] => none
  | '"' :: r => some ([], r)
  | '\\' :: 'u' :: a :: b :: c :: d :: r => do
    let p ← readUnit? a b c d
    let (ps, r) ← readPieces? r
    return (p :: ps, r)
  | '\\' :: c :: r => do
    let x ← simpleEscape? c
    let (ps, r) ← readPieces? r
    return (.char x :: ps, r)
  | c :: r =>
    if c.toNat < 0x20 then none
    else do
      let (ps, r) ← readPieces? r
      return (.char c :: ps, r)

/-- Joins the surrogate pairs; none when a half stands alone. -/
def joinPieces? : List Piece → Option (List Char)
  | [] => some []
  | .char c :: ps => (joinPieces? ps).map (c :: ·)
  | .high h :: .low l :: ps =>
    (joinPieces? ps).map (Char.ofNat ((h - 0xD800) * 1024 + (l - 0xDC00) + 0x10000) :: ·)
  | _ => none

def readText? (s : List Char) : Option (Option String × List Char) := do
  let (ps, r) ← readPieces? s
  return ((joinPieces? ps).map String.ofList, r)

/-! ## Values -/

mutual

def readValue? : Nat → List Char → Option (Value × List Char)
  | 0, _ => none
  | fuel + 1, s =>
    match skipBlanks s with
    | 'n' :: 'u' :: 'l' :: 'l' :: r => some (.null, r)
    | 't' :: 'r' :: 'u' :: 'e' :: r => some (.bool true, r)
    | 'f' :: 'a' :: 'l' :: 's' :: 'e' :: r => some (.bool false, r)
    | '"' :: r => (readText? r).map fun p => (.str p.1, p.2)
    | '[' :: r =>
      match skipBlanks r with
      | ']' :: r => some (.arr [], r)
      | r => (readElements? fuel r).map fun p => (.arr p.1, p.2)
    | '{' :: r =>
      match skipBlanks r with
      | '}' :: r => some (.obj [], r)
      | r => (readMembers? fuel r).map fun p => (.obj p.1, p.2)
    | r => (readNumber? r).map fun p => (.num p.1, p.2)

def readElements? : Nat → List Char → Option (List Value × List Char)
  | 0, _ => none
  | fuel + 1, s => do
    let (v, r) ← readValue? fuel s
    match skipBlanks r with
    | ',' :: r => (readElements? fuel r).map fun p => (v :: p.1, p.2)
    | ']' :: r => some ([v], r)
    | _ => none

def readMembers? : Nat → List Char → Option (List (Option String × Value) × List Char)
  | 0, _ => none
  | fuel + 1, s =>
    match skipBlanks s with
    | '"' :: r => do
      let (k, r) ← readText? r
      match skipBlanks r with
      | ':' :: r => do
        let (v, r) ← readValue? fuel r
        match skipBlanks r with
        | ',' :: r => (readMembers? fuel r).map fun p => ((k, v) :: p.1, p.2)
        | '}' :: r => some ([(k, v)], r)
        | _ => none
      | _ => none
    | _ => none

end

def parseChars? (s : List Char) : Option Value := do
  let (v, r) ← readValue? (2 * s.length + 2) s
  if skipBlanks r = [] then some v else none

def parse? (s : String) : Option Value := parseChars? s.toList

end QuoteBoard.Json
