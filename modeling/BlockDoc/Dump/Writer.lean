/-
# Writing a text dump

Every entry goes on a line of its own, indented by four spaces for each block around it, and
every line ends in carriage return and line feed.  A value that would not be read back from
the line of its name goes on lines of its own, between `<<<` and `>>>`.

One kind of value has no form at all: one with a line that reads `>>>` itself, among those that
need lines of their own.  Writing names the first such entry and fails; what is shown to people
is written all the same.
-/
import BlockDoc.Charset.Basic
import BlockDoc.Document.Outline
import BlockDoc.Dump.Line
import BlockDoc.Error

namespace BlockDoc.Dump

/-- Whether a text contains another. -/
def occurs (mark text : List Char) : Bool := (Text.before? mark text).isSome

/-- Whether a value would not be read back from the line of its name: it holds a line end or
what looks like a comment, begins like a value on lines of its own, ends like the start of a
block, or has blanks around it. -/
def needsHeredoc (value : List Char) : Bool :=
  value.contains '\r' || value.contains '\n' || occurs ['/', '/'] value ||
    ['<', '<', '<'].isPrefixOf value || value.getLast? == some '{' ||
    (Text.trim Text.isBlank value).length != value.length

/-- Whether a value has a line that would end it early. -/
def hasTerminator (value : List Char) : Bool := (value.splitOn '\n').any isTerminator

/-- The indentation at a level of nesting. -/
def indent (level : Nat) : List Char := List.replicate (indentWidth level) ' '

/-- The end of a line. -/
def lineEnd : List Char := ['\r', '\n']

/-- The lines of a parameter. -/
def renderParam (level : Nat) (name value : List Char) : List Char :=
  if needsHeredoc value then
    indent level ++ (name ++ (['=', '<', '<', '<'] ++ (lineEnd ++
      ((Text.lines value).flatMap (fun line => indent level ++ line) ++ (lineEnd ++
        (indent level ++ (['>', '>', '>'] ++ lineEnd)))))))
  else indent level ++ (name ++ ('=' :: (value ++ lineEnd)))

mutual

/-- The lines of an item. -/
def renderItem (level : Nat) : Item → List Char
  | .undef _ _ => indent level ++ lineEnd
  | .param name value _ => renderParam level name.toList value.toList
  | .block name sorted items _ =>
    indent level ++ (name.toList ++ ([if sorted then '^' else '~', '{'] ++ (lineEnd ++
      (renderItems (level + 1) items ++ (indent level ++ ('}' :: lineEnd))))))

/-- The lines of several items. -/
def renderItems (level : Nat) : List Item → List Char
  | [] => []
  | it :: rest => renderItem level it ++ renderItems level rest

end

mutual

/-- The name of the first entry in an item whose value has no form. -/
def Item.unwritable? : Item → Option String
  | .undef _ _ => none
  | .param name value _ =>
    if needsHeredoc value.toList && hasTerminator value.toList then some name else none
  | .block _ _ items _ => unwritableIn? items

/-- The name of the first entry in several items whose value has no form. -/
def unwritableIn? : List Item → Option String
  | [] => none
  | it :: rest => (Item.unwritable? it).or (unwritableIn? rest)

end

mutual

/-- The lines of an item in front of a text, which is not copied for every block around it. -/
def Item.linesBefore (level : Nat) : Item → List Char → List Char
  | .undef _ _, text => indent level ++ (lineEnd ++ text)
  | .param name value _, text => renderParam level name.toList value.toList ++ text
  | .block name sorted items _, text =>
    indent level ++ (name.toList ++ ([if sorted then '^' else '~', '{'] ++ (lineEnd ++
      linesBefore (level + 1) items (indent level ++ ('}' :: (lineEnd ++ text))))))

/-- The lines of several items in front of a text. -/
def linesBefore (level : Nat) : List Item → List Char → List Char
  | [], text => text
  | it :: rest, text => Item.linesBefore level it (linesBefore level rest text)

end

mutual

theorem Item.linesBefore_eq (level : Nat) (it : Item) (text : List Char) :
    Item.linesBefore level it text = renderItem level it ++ text := by
  match it with
  | .undef _ _ => simp [Item.linesBefore, renderItem]
  | .param _ _ _ => simp [Item.linesBefore, renderItem]
  | .block _ _ items _ =>
    simp [Item.linesBefore, renderItem, linesBefore_eq (level + 1) items]

theorem linesBefore_eq (level : Nat) (items : List Item) (text : List Char) :
    linesBefore level items text = renderItems level items ++ text := by
  match items with
  | [] => rfl
  | it :: rest =>
    rw [linesBefore, renderItems, Item.linesBefore_eq level it, linesBefore_eq level rest,
      List.append_assoc]

end

/-- The text of a document, whether it can be read back or not. -/
def render (d : Document) : List Char := linesBefore 0 (d.items .chosen) []

/-- The text of a document is the lines of its items. -/
theorem render_eq (d : Document) : render d = renderItems 0 (d.items .chosen) := by
  rw [render, linesBefore_eq, List.append_nil]

/-- The text of a document. -/
def format (d : Document) : Except Error (List Char) :=
  match unwritableIn? (d.items .chosen) with
  | some name => .error (.unrepresentableValue name)
  | none => .ok (render d)

/-- The bytes of a document in a character set. -/
def encode (c : Charset) (d : Document) : Except Error Bytes := do
  let text ← format d
  match c.encode? text with
  | none => .error (.charset (.unrepresentable c.name))
  | some bytes => .ok bytes

end BlockDoc.Dump
