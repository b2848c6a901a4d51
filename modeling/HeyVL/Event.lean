import HeyVL.Expectation.Advance
import HeyVL.Token.Pattern

/-!
A source as a list of events: its tokens and comments in order, and between them the steps that
build the nodes of its tree. What is expected decides how the bytes are cut into tokens, and the
tokens decide what is expected.
-/

namespace HeyVL

/-- A token or comment at its place in the source. -/
structure Lexeme where
  token : Token
  start : Nat
  stop : Nat
deriving DecidableEq, Repr

/-- What reading a source reports. -/
inductive Event
  | action (a : Action)
  | token (role : Option Field) (lexeme : Lexeme)
  | comment (lexeme : Lexeme)
deriving DecidableEq, Repr

/-- The source is not in the language. The offset is the end of the last token or comment that
could be read, or 0 if there is none. -/
structure SyntaxError where
  offset : Nat
deriving DecidableEq, Repr

namespace Event

/-- The events of a token: the steps before it and the token itself. -/
def ofMove (m : Move) (lexeme : Lexeme) : List Event :=
  m.before.map action ++ [token m.role lexeme]

/-- Reads the bytes from `offset` on, where `last` is the end of what was read before. -/
def scan (todo : Expectation) (offset last : Nat) (bytes : Bytes) :
    Except SyntaxError (List Event) :=
  match bytes with
  | [] =>
    match todo.finish? with
    | some actions => .ok (actions.map action)
    | none => .error ⟨last⟩
  | b :: rest =>
    if Bytes.isSpace b then scan todo (offset + 1) last rest
    else
      match Token.next? todo.expects (b :: rest) with
      | none => .error ⟨last⟩
      | some (t, n) =>
        let stop := offset + n
        if t = .comment then
          (scan todo stop stop (rest.drop (n - 1))).map (comment ⟨t, offset, stop⟩ :: ·)
        else
          match todo.advance t with
          | none => .error ⟨last⟩
          | some m =>
            (scan m.after stop stop (rest.drop (n - 1))).map (ofMove m ⟨t, offset, stop⟩ ++ ·)
termination_by bytes.length

/-- Reads a source. A byte order mark at its beginning is passed over. -/
def read (source : Bytes) : Except SyntaxError (List Event) :=
  if Bytes.byteOrderMark.isPrefixOf source then
    scan .source Bytes.byteOrderMark.length 0 (source.drop Bytes.byteOrderMark.length)
  else scan .source 0 0 source

def comments (events : List Event) : List Lexeme :=
  events.filterMap fun
    | comment lexeme => some lexeme
    | _ => none

end Event

end HeyVL
