import HeyVL.Json.Decimal
import HeyVL.Json.Token

/-!
Reading JSON. A text is read token by token; the containers that are not complete are kept on a
stack, the innermost first. The values at some keys of the outermost object can be ignored: they
are skipped, which asks for their form alone.
-/

namespace HeyVL

namespace Json

/-- A container that waits for a value, with what it holds before that value. -/
inductive Frame
  | array (done : List Json)
  | object (done : List (String × Json)) (key : String)
deriving Repr

/-- What has just been read of the innermost container. -/
inductive Progress
  /-- A value is next. -/
  | value
  /-- An array has begun: a value or its end is next. -/
  | arrayStart
  /-- An object has begun: a key or its end is next. -/
  | objectStart
  /-- A key is next. -/
  | key (done : List (String × Json))
  /-- A colon is next. -/
  | colon (done : List (String × Json)) (key : String)
  /-- The value is complete. -/
  | complete (value : Json)
deriving Repr

structure Reader where
  frames : List Frame
  progress : Progress
deriving Repr

namespace Reader

/-- So many containers may be nested. -/
def maxDepth : Nat := 127

/-- Whether the innermost container is a part of an ignored value, or waits for one. -/
def isSkipping (ignored : String → Bool) (frames : List Frame) : Bool :=
  match frames.getLast? with
  | some (.object _ key) => ignored key
  | _ => false

/-- The text of a string. It does not matter where the string is skipped. -/
def textOf? (skipping : Bool) (text : Option String) : Option String :=
  if skipping then some (text.getD "") else text

/-- Whether a value is small enough, if it is a number. -/
def isInRange : Json → Bool
  | .number literal => (Decimal.ofLiteral literal).isFinite
  | _ => true

/-- Begins a value. The containers around it are the frames. What is skipped may be of any size
and depth. -/
def startValue (skipping : Bool) (frames : List Frame) : Token → Option Reader
  | .scalar v => if skipping || isInRange v then some ⟨frames, .complete v⟩ else none
  | .string text => (textOf? skipping text).map fun s => ⟨frames, .complete (.string s)⟩
  | .bracketOpen =>
    if skipping || frames.length < maxDepth then some ⟨frames, .arrayStart⟩ else none
  | .braceOpen =>
    if skipping || frames.length < maxDepth then some ⟨frames, .objectStart⟩ else none
  | _ => none

/-- The list with one more at its end, which is left out if it is skipped. -/
def add {α : Type} (skipping : Bool) (done : List α) (a : α) : List α :=
  if skipping then done else done ++ [a]

/-- Reads the token behind a complete value. -/
def afterValue (skipping : Bool) (frames : List Frame) (v : Json) (t : Token) : Option Reader :=
  match frames, t with
  | .array done :: outer, .comma => some ⟨.array (add skipping done v) :: outer, .value⟩
  | .array done :: outer, .bracketClose =>
    some ⟨outer, .complete (.array (add skipping done v))⟩
  | .object done key :: outer, .comma => some ⟨outer, .key (add skipping done (key, v))⟩
  | .object done key :: outer, .braceClose =>
    some ⟨outer, .complete (.object (add skipping done (key, v)))⟩
  | _, _ => none

/-- Reads one token. -/
def step (ignored : String → Bool) (r : Reader) (t : Token) : Option Reader :=
  let skipping := isSkipping ignored r.frames
  match r.progress, t with
  | .value, t => startValue skipping r.frames t
  | .arrayStart, .bracketClose => some ⟨r.frames, .complete (.array [])⟩
  | .arrayStart, t => startValue skipping (.array [] :: r.frames) t
  | .objectStart, .braceClose => some ⟨r.frames, .complete (.object [])⟩
  | .objectStart, .string text =>
    (textOf? skipping text).map fun key => ⟨r.frames, .colon [] key⟩
  | .key done, .string text =>
    (textOf? skipping text).map fun key => ⟨r.frames, .colon done key⟩
  | .colon done key, .colon => some ⟨.object done key :: r.frames, .value⟩
  | .complete v, t => afterValue skipping r.frames v t
  | _, _ => none

/-- The value that has been read, if it is complete. -/
def result? (r : Reader) : Option Json :=
  match r.frames, r.progress with
  | [], .complete v => some v
  | _, _ => none

end Reader

/-- The value of a text that is one JSON value. If it is an object, the entries with ignored keys
are left out. -/
def ofText? (ignored : String → Bool) (text : List Char) : Option Json :=
  (Token.ofText? text).bind fun tokens =>
    (tokens.foldlM (Reader.step ignored) ⟨[], .value⟩).bind Reader.result?

end Json

end HeyVL
