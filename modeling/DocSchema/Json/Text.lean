import DocSchema.Binary64.Decimal
import DocSchema.Json.Basic

/-!
# Writing JSON text

One writer serves both layouts: the compact one puts nothing between tokens, the indented one puts every
item and member on a line of its own. Empty containers stay closed up in both.
-/

namespace DocSchema.Json

/-- What stands between the tokens of a text: a line break at a nesting depth, and the gap after a colon. -/
structure Layout where
  lineBreak : Nat → List Char
  gap : List Char

namespace Layout

def compact : Layout :=
  ⟨fun _ => [], []⟩

/-- Two spaces for each level. -/
def indented : Layout :=
  ⟨fun depth => '\n' :: List.replicate (2 * depth) ' ', [' ']⟩

end Layout

def hexDigit (n : Nat) : Char :=
  Nat.digitChar n

/-- Quotes, backslashes and the characters below U+0020 are escaped; every other character stands for itself. -/
def escape (c : Char) : List Char :=
  if c = '"' then ['\\', '"']
  else if c = '\\' then ['\\', '\\']
  else if c = '\x08' then ['\\', 'b']
  else if c = '\x0c' then ['\\', 'f']
  else if c = '\n' then ['\\', 'n']
  else if c = '\r' then ['\\', 'r']
  else if c = '\t' then ['\\', 't']
  else if c.toNat < 0x20 then
    ['\\', 'u', '0', '0', hexDigit (c.toNat / 16), hexDigit (c.toNat % 16)]
  else [c]

def quoted (s : String) : List Char :=
  '"' :: (s.toList.flatMap escape ++ ['"'])

def intText : Int → List Char
  | .ofNat n => Nat.toDigits 10 n
  | .negSucc n => '-' :: Nat.toDigits 10 (n + 1)

def numberText : Number → List Char
  | .int i => intText i
  | .float x => x.text

def boolText (b : Bool) : List Char :=
  if b then ['t', 'r', 'u', 'e'] else ['f', 'a', 'l', 's', 'e']

/-- A bracketed sequence of texts at a nesting depth. -/
def bracketed (layout : Layout) (depth : Nat) (opening closing : Char) : List (List Char) → List Char
  | [] => [opening, closing]
  | parts =>
    let separator := ',' :: layout.lineBreak (depth + 1)
    opening :: (layout.lineBreak (depth + 1) ++ List.intercalate separator parts ++
      layout.lineBreak depth ++ [closing])

mutual

def write (layout : Layout) (depth : Nat) : Json → List Char
  | .null => ['n', 'u', 'l', 'l']
  | .bool b => boolText b
  | .num n => numberText n
  | .str s => quoted s
  | .arr items => bracketed layout depth '[' ']' (writeItems layout (depth + 1) items)
  | .obj members => bracketed layout depth '{' '}' (writeMembers layout (depth + 1) members)

def writeItems (layout : Layout) (depth : Nat) : List Json → List (List Char)
  | [] => []
  | v :: rest => write layout depth v :: writeItems layout depth rest

def writeMembers (layout : Layout) (depth : Nat) : List (String × Json) → List (List Char)
  | [] => []
  | (name, v) :: rest =>
    (quoted name ++ ':' :: (layout.gap ++ write layout depth v)) :: writeMembers layout depth rest

end

/-- The text of a value without any space. -/
def text (v : Json) : String :=
  String.ofList (write .compact 0 v)

def indentedText (v : Json) : String :=
  String.ofList (write .indented 0 v)

end DocSchema.Json
