/-
# Lookup

A dotted path such as `a.b.c` names an entry: each segment but the last must lead to a block,
and where a name is repeated the oldest entry is followed.  A path that cannot be followed
says how far it got: it is then cut behind the segment that is missing, at a byte that is counted
along the way.
-/
import BlockDoc.Document.Basic
import BlockDoc.Text.Blank
import BlockDoc.Text.Split
import BlockDoc.Error

namespace BlockDoc.Document

/-- The entries called `name`, of which there must be one. -/
def get (d : Document) (name : String) : Except Error (List Entry) :=
  match d.named name with
  | [] => .error (.keyNotFound name)
  | es => .ok es

/-- Entries are never removed. -/
def remove (_ : Document) (_ : String) : Except Error Entry := .error .removal

/-- The segments of a path joined by dots. -/
def joinPath (segments : List String) : String := ".".intercalate segments

/-- What following a path never runs into. -/
inductive Slip where
  /-- The part of a path up to some byte ends inside a character, or behind the path. -/
  | insideCharacter
  /-- There is no segment to go on with. -/
  | noSegment
  deriving DecidableEq

/-- Follow segments from a document.  `path` is the whole path and `start` the number of its bytes
in front of the segments: a segment that is missing is reported with all of the path up to its
end. -/
def follow (path : String) (start : Nat) (d : Document) :
    List String → Except Slip (Except Error Entry)
  | [] => .error .noSegment
  | segment :: rest =>
    let stop := start + segment.utf8ByteSize
    match d.first? segment with
    | none => match Text.takeBytes? stop path.toList with
      | none => .error .insideCharacter
      | some passed => .ok (.error (.keyNotFound (String.ofList passed)))
    | some e =>
      if rest.isEmpty then .ok (.ok e)
      else match e.value with
        | .block inner => follow path (stop + 1) inner rest
        | _ => .ok (.error (.pathNotFound path segment))

/-- The segments of a path. -/
def segments (path : String) : List String := (path.toList.splitOn '.').map String.ofList

/-- The entry at a path, or a `Slip`. -/
def resolveChecked (d : Document) (path : String) : Except Slip (Except Error Entry) :=
  let path := Text.trimmed path
  d.follow path 0 (segments path)

/-- The entry at a path. -/
def resolve (d : Document) (path : String) : Except Error Entry :=
  match d.resolveChecked path with
  | .ok outcome => outcome
  | .error _ => .error (.keyNotFound (Text.trimmed path))

/-- The text of the parameter at a path. -/
def getParam (d : Document) (path : String) : Except Error String := do
  let e ← d.resolve path
  match e.value with
  | .param text => .ok text
  | _ => .error (.notAParameter (Text.trimmed path))

/-- The document of the block at a path. -/
def getBlock (d : Document) (path : String) : Except Error Document := do
  let e ← d.resolve path
  match e.value with
  | .block inner => .ok inner
  | _ => .error (.notABlock (Text.trimmed path))

end BlockDoc.Document
