import DocSchema.Binary64.Decimal
import DocSchema.Digits
import DocSchema.Json.Basic

/-!
# Tokens of JSON texts

A text is split one character at a time. Strings and numbers are checked in full here; one that is spelled
correctly and still denotes nothing becomes a token without a content.
-/

namespace DocSchema.Json

inductive Token where
  | beginArray
  | endArray
  | beginObject
  | endObject
  | comma
  | colon
  | null
  | bool (value : Bool)
  | number (value : Option Number)
  | string (value : Option String)
deriving DecidableEq, Repr

/-- One element of a string: a character as it stands, or a code unit written as an escape. -/
inductive TextUnit where
  | char (c : Char)
  | code (n : Nat)
deriving DecidableEq, Repr

namespace TextUnit

def isHigh (n : Nat) : Bool :=
  0xD800 ≤ n && n < 0xDC00

def isLow (n : Nat) : Bool :=
  0xDC00 ≤ n && n < 0xE000

def combine (high low : Nat) : Char :=
  Char.ofNat (0x10000 + (high - 0xD800) * 0x400 + (low - 0xDC00))

/-- The characters of a string; escaped surrogates have to come in pairs. -/
def chars? : List TextUnit → Option (List Char)
  | [] => some []
  | .char c :: rest => (chars? rest).map (c :: ·)
  | .code n :: rest =>
    if isHigh n then
      match rest with
      | .code m :: rest => if isLow m then (chars? rest).map (combine n m :: ·) else none
      | _ => none
    else if isLow n then none
    else (chars? rest).map (Char.ofNat n :: ·)

end TextUnit

/-- A number as it is spelled. -/
structure Numeral where
  negative : Bool
  whole : List Char
  fractional : Option (List Char)
  exponent : Option Int
deriving DecidableEq, Repr

namespace Numeral

/-- Split off a leading run of digits, which must not be empty. -/
def digits? (text : List Char) : Option (List Char × List Char) :=
  let ds := text.takeWhile Char.isDigit
  if ds.isEmpty then none else some (ds, text.dropWhile Char.isDigit)

def exponent? : List Char → Option Int
  | '+' :: text => unsigned text
  | '-' :: text => (unsigned text).map (- ·)
  | text => unsigned text
where
  unsigned (text : List Char) : Option Int := do
    let (ds, rest) ← digits? text
    if rest.isEmpty then some (Digits.value ds : Int) else none

def ofUnsigned? (negative : Bool) (text : List Char) : Option Numeral := do
  let (whole, rest) ← digits? text
  if 1 < whole.length && whole.head? = some '0' then none
  else
    let (fractional, rest) ←
      match rest with
      | '.' :: rest => (digits? rest).map fun p => (some p.1, p.2)
      | rest => some (none, rest)
    match rest with
    | [] => some ⟨negative, whole, fractional, none⟩
    | e :: rest =>
      if e = 'e' || e = 'E' then
        (exponent? rest).map fun n => ⟨negative, whole, fractional, some n⟩
      else none

def ofText? : List Char → Option Numeral
  | '-' :: text => ofUnsigned? true text
  | text => ofUnsigned? false text

def decimal (n : Numeral) : Decimal :=
  let fractional := n.fractional.getD []
  ⟨Digits.value (n.whole ++ fractional), n.exponent.getD 0 - fractional.length⟩

/-- A numeral without point and exponent is an integer if it fits 64 bits, signed below zero and unsigned
from zero on; minus zero and every other numeral is a float. -/
def number? (n : Numeral) : Option Number :=
  let size := Digits.value n.whole
  let fits := if n.negative then size ≠ 0 ∧ size ≤ Word.signedBound else size < Word.unsignedBound
  if n.fractional.isNone ∧ n.exponent.isNone ∧ fits then
    some (.int (if n.negative then -(size : Int) else size))
  else (Binary64.ofDecimal? n.negative n.decimal).map .float

end Numeral

/-- Where the splitting of a text stands. What was read of a token is kept in reverse. -/
inductive ScanMode where
  | between
  | word (read : List Char)
  | string (read : List TextUnit)
  | escape (read : List TextUnit)
  | code (read : List TextUnit) (missing : Nat) (value : Nat)
deriving DecidableEq, Repr

/-- The tokens found so far, in reverse, and the token in progress. -/
structure Scan where
  mode : ScanMode
  tokens : List Token
deriving DecidableEq, Repr

namespace Scan

def start : Scan :=
  ⟨.between, []⟩

def isBlank (c : Char) : Bool :=
  c = ' ' || c = '\n' || c = '\t' || c = '\r'

/-- Characters of numbers and of the three names. -/
def isWordChar (c : Char) : Bool :=
  c.isAlphanum || c = '+' || c = '-' || c = '.'

def wordToken? (word : List Char) : Option Token :=
  if word = ['n', 'u', 'l', 'l'] then some .null
  else if word = ['t', 'r', 'u', 'e'] then some (.bool true)
  else if word = ['f', 'a', 'l', 's', 'e'] then some (.bool false)
  else (Numeral.ofText? word).map fun n => .number n.number?

def stringToken (units : List TextUnit) : Token :=
  .string ((TextUnit.chars? units).map String.ofList)

def punctuation? (c : Char) : Option Token :=
  if c = '[' then some .beginArray
  else if c = ']' then some .endArray
  else if c = '{' then some .beginObject
  else if c = '}' then some .endObject
  else if c = ',' then some .comma
  else if c = ':' then some .colon
  else none

def hexValue? (c : Char) : Option Nat :=
  if c.isDigit then some (c.toNat - 48)
  else if 'a' ≤ c ∧ c ≤ 'f' then some (c.toNat - 87)
  else if 'A' ≤ c ∧ c ≤ 'F' then some (c.toNat - 55)
  else none

def escaped? (c : Char) : Option Char :=
  if c = '"' ∨ c = '\\' ∨ c = '/' then some c
  else if c = 'b' then some '\x08'
  else if c = 'f' then some '\x0c'
  else if c = 'n' then some '\n'
  else if c = 'r' then some '\r'
  else if c = 't' then some '\t'
  else none

/-- A character that is not part of a token in progress. -/
def fresh (tokens : List Token) (c : Char) : Option Scan :=
  if isBlank c then some ⟨.between, tokens⟩
  else if c = '"' then some ⟨.string [], tokens⟩
  else if isWordChar c then some ⟨.word [c], tokens⟩
  else (punctuation? c).map fun t => ⟨.between, t :: tokens⟩

def step (s : Scan) (c : Char) : Option Scan :=
  match s.mode with
  | .between => fresh s.tokens c
  | .word read =>
    if isWordChar c then some ⟨.word (c :: read), s.tokens⟩
    else do
      let t ← wordToken? read.reverse
      fresh (t :: s.tokens) c
  | .string read =>
    if c = '"' then some ⟨.between, stringToken read.reverse :: s.tokens⟩
    else if c = '\\' then some ⟨.escape read, s.tokens⟩
    else if c.toNat < 0x20 then none
    else some ⟨.string (.char c :: read), s.tokens⟩
  | .escape read =>
    if c = 'u' then some ⟨.code read 4 0, s.tokens⟩
    else (escaped? c).map fun e => ⟨.string (.char e :: read), s.tokens⟩
  | .code read missing value => do
    let digit ← hexValue? c
    let value := 16 * value + digit
    if missing ≤ 1 then some ⟨.string (.code value :: read), s.tokens⟩
    else some ⟨.code read (missing - 1) value, s.tokens⟩

def finish (s : Scan) : Option (List Token) :=
  match s.mode with
  | .between => some s.tokens.reverse
  | .word read => (wordToken? read.reverse).map fun t => (t :: s.tokens).reverse
  | _ => none

end Scan

/-- The tokens of a text, or `none` if a token is misspelled or unfinished. -/
def tokens? (text : List Char) : Option (List Token) :=
  (text.foldlM Scan.step Scan.start).bind Scan.finish

end DocSchema.Json
