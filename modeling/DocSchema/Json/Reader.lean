import DocSchema.Json.Token
import DocSchema.Json.Tree

/-!
# Reading JSON text

The tokens of a text are put together one at a time. The reader keeps the containers that are still open,
innermost first, and what may come next; a text is accepted if it spells exactly one value.
-/

namespace DocSchema.Json

/-- An open container with its finished parts in reverse. The parts of an object are `none` once a name
could not be read. -/
inductive Frame where
  | array (items : List Tree)
  | object (members : Option (List (String × Tree))) (name : Option String)
deriving Repr

inductive Expectation where
  | value
  | firstItem
  | firstName
  | name
  | colon
  | separator
  | nothing (result : Tree)
deriving Repr

structure Reader where
  frames : List Frame
  expected : Expectation
deriving Repr

namespace Reader

def start : Reader :=
  ⟨[], .value⟩

/-- A value is finished: it becomes a part of the innermost container, or the result. -/
def finish (v : Tree) : List Frame → Reader
  | [] => ⟨[], .nothing v⟩
  | .array items :: outer => ⟨.array (v :: items) :: outer, .separator⟩
  | .object members name :: outer =>
    let members := members.bind fun ms => name.map fun n => (n, v) :: ms
    ⟨.object members none :: outer, .separator⟩

/-- A container at nesting depth `depth` is readable only within the limit. -/
def within (limit : Option Nat) (depth : Nat) (v : Tree) : Tree :=
  match limit with
  | none => v
  | some most => if depth ≤ most then v else .unreadable

def value (frames : List Frame) : Token → Option Reader
  | .null => some (finish .null frames)
  | .bool b => some (finish (.bool b) frames)
  | .number (some n) => some (finish (.num n) frames)
  | .string (some s) => some (finish (.str s) frames)
  | .number none | .string none => some (finish .unreadable frames)
  | .beginArray => some ⟨.array [] :: frames, .firstItem⟩
  | .beginObject => some ⟨.object (some []) none :: frames, .firstName⟩
  | _ => none

def close (limit : Option Nat) (frames : List Frame) (t : Token) : Option Reader :=
  match frames, t with
  | .array items :: outer, .endArray =>
    some (finish (within limit frames.length (.arr items.reverse)) outer)
  | .object (some members) _ :: outer, .endObject =>
    some (finish (within limit frames.length (.obj members.reverse)) outer)
  | .object none _ :: outer, .endObject => some (finish .unreadable outer)
  | _, _ => none

def name (frames : List Frame) (t : Token) : Option Reader :=
  match frames, t with
  | .object members _ :: outer, .string s =>
    let members := if s.isSome then members else none
    some ⟨.object members s :: outer, .colon⟩
  | _, _ => none

def separator (limit : Option Nat) (frames : List Frame) (t : Token) : Option Reader :=
  match frames, t with
  | .array _ :: _, .comma => some ⟨frames, .value⟩
  | .object _ _ :: _, .comma => some ⟨frames, .name⟩
  | _, _ => close limit frames t

def step (limit : Option Nat) (r : Reader) (t : Token) : Option Reader :=
  match r.expected with
  | .value => value r.frames t
  | .firstItem => if t = .endArray then close limit r.frames t else value r.frames t
  | .firstName => if t = .endObject then close limit r.frames t else name r.frames t
  | .name => name r.frames t
  | .colon => if t = .colon then some ⟨r.frames, .value⟩ else none
  | .separator => separator limit r.frames t
  | .nothing _ => none

def result? (r : Reader) : Option Tree :=
  match r.expected with
  | .nothing v => some v
  | _ => none

end Reader

namespace Tree

def ofTokens? (limit : Option Nat) (tokens : List Token) : Option Tree :=
  (tokens.foldlM (Reader.step limit) Reader.start).bind Reader.result?

/-- The tree of a text. Containers nested more deeply than `limit` are unreadable. -/
def ofText? (limit : Option Nat) (text : String) : Option Tree :=
  (tokens? text.toList).bind (ofTokens? limit)

end Tree

/-- The deepest nesting that a text form of a declared type may have. -/
def nestingLimit : Nat := 127

/-- The value of a text of any depth. -/
def ofText? (text : String) : Option Json :=
  (Tree.ofText? none text).bind Tree.value?

end DocSchema.Json
