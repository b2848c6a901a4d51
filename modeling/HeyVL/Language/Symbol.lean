import HeyVL.Grammar.Nonterminal
import HeyVL.Token.Basic

namespace HeyVL

/-- The symbols that a parser of the language works with. -/
inductive Symbol
  | endOfSource
  | token (t : Token)
  | nonterminal (n : Nonterminal)
  /-- A repetition within the production of a category. -/
  | repetition (c : Category) (number : Nat)
  | error
  | errorRepeat
deriving DecidableEq, Repr

namespace Symbol

def name : Symbol → String
  | endOfSource => "end"
  | token t => t.name
  | nonterminal n => n.name
  | repetition c number => c.name ++ "_repeat" ++ toString number
  | error => "ERROR"
  | errorRepeat => "_ERROR"

def named : Symbol → Bool
  | token t => t.named
  | nonterminal (.visible _) => true
  | error => true
  | _ => false

def visible : Symbol → Bool
  | token _ => true
  | nonterminal (.visible _) => true
  | error => true
  | _ => false

/-- The repetitions of the grammar that are told apart by what they repeat. -/
def repetitions : List Symbol :=
  [repetition .sourceFile 1, repetition .domainDeclaration 1, repetition .procDeclaration 1,
    repetition .parameterList 1, repetition .block 1, repetition .assignmentStatement 1,
    repetition .annotationInputs 1, repetition .quantifierExpression 1,
    repetition .quantifierExpression 2]

def table : List Symbol :=
  endOfSource :: Token.all.map token ++ Nonterminal.all.map nonterminal ++ repetitions

def errorId : Nat := 65535

/-- The number of the symbol for a run of errors. -/
def errorRepeatId : Nat := 65534

/-- The symbol with the given number. -/
def ofId? (id : Nat) : Option Symbol :=
  if id = errorId then some error
  else if id = errorRepeatId then some errorRepeat
  else table[id]?

/-- The number of the symbol that makes nodes with the given name and namedness, and 0 if there
is none. Every beginning of the name of the error symbol finds that symbol. -/
def idOf (name : String) (named : Bool) : Nat :=
  if name.toList.isPrefixOf error.name.toList then errorId
  else
    (table.findIdx? fun s => s.visible && s.named == named && s.name == name).getD 0

end Symbol

namespace Field

/-- The field with the given number; numbers start at 1. -/
def ofId? : Nat → Option Field
  | 0 => none
  | n + 1 => all[n]?

def ofText? (name : String) : Option Field := all.find? fun f => f.text == name

def id (f : Field) : Nat := all.idxOf f + 1

end Field

end HeyVL
