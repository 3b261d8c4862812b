/-!
# Key names

A key name is the variable that supplies the keys of a collection. A name with the marker `{i}` belongs to
an indexed collection, whose levels take the name with every marker replaced by the number of the level.

Section 4.2 of the specification, rules 3 and 4: the index marker and `check_key_name`; the default name is
the one of section 11. `check_field_name` refuses the same reserved characters.
-/

namespace DocSchema

/-- Characters that path texts need for themselves. -/
def reservedCharacters : List Char :=
  ['[', ']', '{', '}']

/-- What is wrong with a field name or a key name. -/
inductive NameFault where
  | empty
  | reserved (c : Char)
deriving DecidableEq, Repr

namespace NameFault

def reason : NameFault → String
  | .empty => "name is empty"
  | .reserved c => s!"contains reserved character '{c}'"

def ofName? (name : List Char) : Option NameFault :=
  if name.isEmpty then some .empty
  else (name.find? reservedCharacters.contains).map .reserved

end NameFault

namespace KeyName

/-- Replace every marker, from left to right. -/
def substitute (replacement : List Char) : List Char → List Char
  | [] => []
  | '{' :: 'i' :: '}' :: rest => replacement ++ substitute replacement rest
  | c :: rest => c :: substitute replacement rest

def hasMarker : List Char → Bool
  | [] => false
  | '{' :: 'i' :: '}' :: _ => true
  | _ :: rest => hasMarker rest

def isIndexed (name : String) : Bool :=
  hasMarker name.toList

/-- The variable of one level of an indexed collection. -/
def level (name : String) (index : Nat) : String :=
  String.ofList (substitute (Nat.toDigits 10 index) name.toList)

/-- What remains without the markers follows the rules of field names. -/
def fault? (name : String) : Option NameFault :=
  NameFault.ofName? (substitute [] name.toList)

/-- The key name of a collection that declares none. -/
def ofField (field : String) : String :=
  field ++ "Key"

end KeyName

end DocSchema
