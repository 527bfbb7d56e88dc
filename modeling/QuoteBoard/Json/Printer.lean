import QuoteBoard.Json.Value

/-!
# Writing JSON

The compact form: no blanks, members in order. In a text only the quote, the backslash and the
control characters are escaped.
-/

namespace QuoteBoard.Json

def hexDigit (n : Nat) : Char := "0123456789abcdef".toList.getD n '0'

def escape (c : Char) : List Char :=
  if c = '"' then ['\\', '"']
  else if c = '\\' then ['\\', '\\']
  else if c = '\x08' then ['\\', 'b']
  else if c = '\x0c' then ['\\', 'f']
  else if c = '\n' then ['\\', 'n']
  else if c = '\r' then ['\\', 'r']
  else if c = '\t' then ['\\', 't']
  else if c.toNat < 0x20 then
    ['\\', 'u', '0', '0', hexDigit (c.toNat / 16), hexDigit (c.toNat % 16)]
  else [c]

def renderText (s : String) : List Char := '"' :: (s.toList.flatMap escape ++ ['"'])

def digitChar (d : Fin 10) : Char := hexDigit d.val

/-- The written form of a number; an exponent always carries its sign. -/
def Number.render (n : Number) : List Char :=
  (if n.negative then ['-'] else []) ++ Nat.toDigits 10 n.whole ++
  (if n.fraction = [] then [] else '.' :: n.fraction.map digitChar) ++
  match n.exponent with
  | none => []
  | some e => 'e' :: (if e < 0 then '-' else '+') :: Nat.toDigits 10 e.natAbs

namespace Value

mutual

/-- The written form of a value. An ill-formed text is written as an empty one. -/
def renderChars : Value → List Char
  | .null => "null".toList
  | .bool true => "true".toList
  | .bool false => "false".toList
  | .num n => n.render
  | .str s => renderText (s.getD "")
  | .arr l => '[' :: (renderElements l ++ [']'])
  | .obj l => '{' :: (renderMembers l ++ ['}'])

def renderElements : List Value → List Char
  | [] => []
  | [v] => renderChars v
  | v :: w :: l => renderChars v ++ ',' :: renderElements (w :: l)

def renderMembers : List (Option String × Value) → List Char
  | [] => []
  | [(k, v)] => renderText (k.getD "") ++ ':' :: renderChars v
  | (k, v) :: w :: l =>
    renderText (k.getD "") ++ ':' :: renderChars v ++ ',' :: renderMembers (w :: l)

end

def render (v : Value) : String := String.ofList (renderChars v)

end Value

end QuoteBoard.Json
