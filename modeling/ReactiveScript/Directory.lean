import ReactiveScript.Text.Basic

/-!
# Files

`Files` is what a command needs of the system to read and to write files. `Directory.system` does it
in memory, with files by the names of their paths. A path is a list of names between slashes; `.` and
empty names stay where they are, `..` goes up, and all names but the last must be folders. Paths that
leave the directory lead nowhere.
-/

namespace ReactiveScript

/-- What a system lets a command do with files. An open file goes by a handle. -/
structure Files (m : Type → Type) (φ : Type) where
  /-- Open a file to read it, if that can be done. -/
  openIn? (path : Text) : m (Option φ)
  /-- Read all there is. -/
  read (file : φ) : m Text
  /-- Open a file to write it, if that can be done. What was in it is lost. -/
  openOut? (path : Text) : m (Option φ)
  /-- Write a text at the end. Nothing tells whether all of it got there. -/
  write (file : φ) (text : Text) : m Unit

/-- Files with their texts. Names of files in folders hold slashes. -/
structure Directory where
  files : List (Text × Text) := []
  deriving DecidableEq, Repr, Inhabited

namespace Directory

/-! ## 1. Paths -/

/-- The names of a path. -/
def names (path : Text) : List Text := path.splitOn Byte.slash

/-- The path of names. -/
def path (parts : List Text) : Text := Text.join [Byte.slash] parts

/-- Is there a folder under these names? The directory itself is one. -/
def isFolder (d : Directory) (parts : List Text) : Bool :=
  parts.isEmpty || d.files.any fun (name, _) =>
    parts.isPrefixOf (names name) && parts.length < (names name).length

/-- Follow the names of a path from a folder. -/
def follow (d : Directory) (here : List Text) : List Text → Option (List Text)
  | [] => some here
  | name :: rest =>
    if name.isEmpty || name = txt "." then follow d here rest
    else if name = txt ".." then if here.isEmpty then none else follow d here.dropLast rest
    else if rest.isEmpty || d.isFolder (here ++ [name]) then follow d (here ++ [name]) rest
    else none

/-- What a path leads to. -/
inductive Place where
  | folder
  /-- A file that is there, or could be. -/
  | file (name : Text)
  | nowhere
  deriving DecidableEq, Repr

/-- What a path leads to. -/
def place (d : Directory) (p : Text) : Place :=
  if p.isEmpty || p.head? = some Byte.slash then .nowhere
  else
    match d.follow [] (names p) with
    | none => .nowhere
    | some parts => if d.isFolder parts then .folder else .file (path parts)

/-! ## 2. Reading and writing -/

/-- The text of a file. -/
def get? (d : Directory) (name : Text) : Option Text :=
  (d.files.find? (·.1 = name)).map (·.2)

/-- What can be read at a place. A folder can be opened, but nothing is read from it. -/
def text? (d : Directory) : Place → Option Text
  | .folder => some []
  | .file name => d.get? name
  | .nowhere => none

/-- The directory in which a file has a text. -/
def put (d : Directory) (name content : Text) : Directory :=
  ⟨d.files.filter (·.1 ≠ name) ++ [(name, content)]⟩

/-- A directory as the system. -/
def system : Files (StateM Directory) Place where
  openIn? p := do
    let d ← get
    return if (d.text? (d.place p)).isSome then some (d.place p) else none
  read f := return ((← get).text? f).getD []
  openOut? p := do
    match (← get).place p with
    | .file name =>
      modify (·.put name [])
      return some (.file name)
    | _ => return none
  write f text :=
    match f with
    | .file name => modify fun d => d.put name ((d.get? name).getD [] ++ text)
    | _ => pure ()

/-- The files that are new, or have another text, compared with an earlier state. -/
def changed (before after : Directory) : List (Text × Text) :=
  after.files.filter fun (name, content) => before.get? name ≠ some content

end Directory

end ReactiveScript
