import DocSchema.Assoc

/-!
# File trees

A file has bytes, a folder has entries under names. A place is told by the names on the way from the root; a
path text is followed from a folder, may leave that folder again, and may end where nothing is yet.
-/

namespace DocSchema

inductive FileTree where
  | file (content : ByteArray)
  | folder (entries : List (String × FileTree))

/-- The names on the way from the root. -/
abbrev Place := List String

namespace Place

def text (place : Place) : String :=
  "/".intercalate place

end Place

namespace FileTree

def find? : Place → FileTree → Option FileTree
  | [], t => some t
  | name :: rest, .folder entries => (Assoc.get? name entries).bind (find? rest)
  | _ :: _, .file _ => none

def isFolder (t : FileTree) (place : Place) : Bool :=
  match t.find? place with
  | some (.folder _) => true
  | _ => false

/-- The names that a file can have: at most 255 bytes, none of them zero. -/
def isFileName (name : String) : Bool :=
  name.utf8ByteSize ≤ 255 && !name.toList.contains '\x00'

/-- Write a file, in a folder that is there already. -/
def write? (content : ByteArray) : Place → FileTree → Option FileTree
  | [name], .folder entries =>
    match Assoc.get? name entries with
    | some (.folder _) => none
    | _ => if isFileName name then some (.folder (Assoc.insert name (.file content) entries)) else none
  | name :: rest, .folder entries => do
    let inner ← Assoc.get? name entries
    let inner ← write? content rest inner
    return .folder (Assoc.insert name inner entries)
  | _, _ => none

/-- Make the folders on the way that are not there. -/
def makeFolder? : Place → FileTree → Option FileTree
  | [], .folder entries => some (.folder entries)
  | name :: rest, .folder entries => do
    let inner ← makeFolder? rest ((Assoc.get? name entries).getD (.folder []))
    return .folder (Assoc.insert name inner entries)
  | _, .file _ => none

/-- Delete a file. -/
def delete? : Place → FileTree → Option FileTree
  | [name], .folder entries =>
    match Assoc.get? name entries with
    | some (.file _) => some (.folder (Assoc.erase name entries))
    | _ => none
  | name :: rest, .folder entries => do
    let inner ← Assoc.get? name entries
    let inner ← delete? rest inner
    return .folder (Assoc.insert name inner entries)
  | _, _ => none

/-- The text of a file, if its bytes are UTF-8. -/
def text? : FileTree → Option String
  | .file content => String.fromUTF8? content
  | .folder _ => none

/-- The parts of a path text between its slashes. -/
def parts : List Char → List (List Char)
  | [] => [[]]
  | '/' :: rest => [] :: parts rest
  | c :: rest =>
    match parts rest with
    | [] => [[c]]
    | part :: others => (c :: part) :: others

def names (path : String) : List String :=
  (parts path.toList).map String.ofList

def isAbsolute (path : String) : Bool :=
  path.toList.head? = some '/'

/-- No part, or a single dot: stay in the folder. -/
def isStay (name : String) : Bool :=
  name = "" || name = "."

/-- One name further. Only a folder leads on, and two dots lead to the folder above. -/
def follow (t : FileTree) (here : Place) (name : String) : Option Place :=
  if !t.isFolder here then none
  else if isStay name then some here
  else if name = ".." then some here.dropLast
  else some (here ++ [name])

/-- The number of bytes that a path text may have. -/
def maxPathSize : Nat := 4095

/-- The place that a path text names, seen from the folder `here`, or from the root if the text starts with
a slash. -/
def locate? (t : FileTree) (here : Place) (path : String) : Option Place :=
  if maxPathSize < path.utf8ByteSize then none
  else (names path).foldlM t.follow (if isAbsolute path then [] else here)

/-- What a path text names, if it is there. -/
def lookup? (t : FileTree) (here : Place) (path : String) : Option FileTree :=
  (t.locate? here path).bind fun place => t.find? place

/-- Write a file at a path text. -/
def writeAt? (t : FileTree) (here : Place) (path : String) (content : ByteArray) : Option FileTree :=
  (t.locate? here path).bind fun place => t.write? content place

end FileTree

end DocSchema
