import HeyVL.Document.Basic
import HeyVL.Tree.SExpression

namespace HeyVL

/-- The replacement of the bytes from `start` up to `stop`. -/
structure Edit where
  start : Nat
  stop : Nat
  inserted : Bytes
deriving DecidableEq, Repr

namespace Edit

/-- The edited source, if the range lies within the source. -/
def result? (e : Edit) (source : Bytes) : Option Bytes :=
  if e.start ≤ e.stop ∧ e.stop ≤ source.length then
    some (source.splice e.start e.stop e.inserted)
  else none

/-- How a source stands after an edit. -/
inductive State
  | accepted (stop : Nat) (sexp : String)
  | rejected (error : SyntaxError)
  | outOfRange
deriving DecidableEq, Repr

def State.ofSource (source : Bytes) : State :=
  match Document.parse source with
  | .ok d => .accepted (d.stopOf d.root) d.root.sexp
  | .error e => .rejected e

/-- The states after each of the edits. An edit out of range is not done. -/
def statesAfter (source : Bytes) : List Edit → List State
  | [] => []
  | e :: rest =>
    match e.result? source with
    | some edited => State.ofSource edited :: statesAfter edited rest
    | none => .outOfRange :: statesAfter source rest

def states (source : Bytes) (edits : List Edit) : List State :=
  State.ofSource source :: statesAfter source edits

end Edit

end HeyVL
