/-
# Files

A store is a file system: the files and directories below its root, and the directory in which the
paths without a slash at the front start.  There are no links, so every file has one location.

Looking a path up walks from name to name.  Each step asks for a directory, so a path that goes
on behind a file fails in another way than one that goes on behind nothing.  A step up from the
root stays there.
-/
import BlockDoc.Bytes
import BlockDoc.Error
import BlockDoc.Files.Path

namespace BlockDoc

/-- What a name in a store stands for. -/
inductive Node where
  /-- A file with its content. -/
  | file (content : Bytes)
  /-- A directory. -/
  | directory
  deriving DecidableEq

/-- A place in a file system: the names that lead to it from the root. -/
abbrev Location := List String

/-- A file system as a process sees it. -/
structure Store where
  /-- The files and directories below the root; the latest entry of a location counts. -/
  nodes : List (Location × Node)
  /-- The working directory. -/
  directory : Location

namespace Store

/-- The store without files. -/
def empty : Store := ⟨[], []⟩

/-- What is at a location. -/
def node? (s : Store) : Location → Option Node
  | [] => some .directory
  | names => (s.nodes.find? fun entry => entry.1 == names).map Prod.snd

/-- Take the step `name` from a location, which must be a directory. -/
def step (s : Store) (here : Location) (name : String) : Except IoFailure Location :=
  match s.node? here with
  | none => .error .notFound
  | some (.file _) => .error .notADirectory
  | some .directory =>
    if name = "." then .ok here
    else if name = ".." then .ok here.dropLast
    else if name.utf8ByteSize > 255 then .error .nameTooLong
    else .ok (here ++ [name])

/-- Take several steps. -/
def walk (s : Store) (here : Location) : List String → Except IoFailure Location
  | [] => .ok here
  | name :: rest => do
    let next ← s.step here name
    s.walk next rest

/-- The steps of a path, and whether it ends in a slash. -/
def stepsOf (path : String) : List String × Bool :=
  let texts := path.toList.splitOn '/'
  ((texts.filter (· ≠ [])).map String.ofList, texts.getLast? == some [])

/-- Refuse texts that cannot be paths at all. -/
def checkPath (path : String) : Except IoFailure Unit :=
  if path.toList.contains '\x00' then .error .nullInName
  else if path = "" then .error .notFound
  else if path.utf8ByteSize ≥ 4096 then .error .nameTooLong
  else .ok ()

/-- Where a path starts. -/
def startOf (s : Store) (path : String) : Location :=
  if Path.isAbsolute path then [] else s.directory

/-- The location that a path leads to.  A slash at the end asks for a directory there. -/
def locate (s : Store) (path : String) : Except IoFailure Location := do
  checkPath path
  let (steps, slash) := stepsOf path
  s.walk (s.startOf path) (if slash then steps ++ ["."] else steps)

/-- Whether a path leads to a file or a directory. -/
def isPresent (s : Store) (path : String) : Bool :=
  match s.locate path with
  | .ok l => (s.node? l).isSome
  | .error _ => false

/-- The content of the file at a path. -/
def read (s : Store) (path : String) : Except IoFailure Bytes := do
  let l ← s.locate path
  match s.node? l with
  | some (.file content) => .ok content
  | some .directory => .error .isADirectory
  | none => .error .notFound

/-- Put a node at a location. -/
def put (s : Store) (l : Location) (n : Node) : Store :=
  { s with nodes := (l, n) :: s.nodes.filter fun entry => entry.1 != l }

/-- The location of a file that is to be written.  All but the last name must lead to a
directory; the last name may be new, and must be a name of its own with no slash behind it. -/
def target (s : Store) (path : String) : Except IoFailure Location := do
  checkPath path
  let (steps, slash) := stepsOf path
  match steps.getLast? with
  | none => .error .isADirectory
  | some last =>
    let dir ← s.walk (s.startOf path) steps.dropLast
    if slash || last = "." || last = ".." then
      match s.node? dir with
      | none => .error .notFound
      | some (.file _) => .error .notADirectory
      | some .directory => .error .isADirectory
    else
      let l ← s.step dir last
      if s.node? l = some .directory then .error .isADirectory else .ok l

/-- Write a file, which is made if it is missing and replaced if it is there. -/
def write (s : Store) (path : String) (content : Bytes) : Except IoFailure Store := do
  let l ← s.target path
  .ok (s.put l (.file content))

end Store

end BlockDoc
