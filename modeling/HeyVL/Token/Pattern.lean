import HeyVL.Token.Basic

/-!
What a token looks like in the source. `Token.matchLength` gives the length of the longest text of
the token at the head of the bytes, and `Token.next?` picks the token that stands there among
those that are viable.
-/

namespace HeyVL

namespace Bytes

def isDigit (b : UInt8) : Bool := 48 ≤ b && b ≤ 57

/-- The first byte of an identifier: an ASCII letter or an underscore. -/
def isWordStart (b : UInt8) : Bool := (65 ≤ b && b ≤ 90) || (97 ≤ b && b ≤ 122) || b == 95

/-- A later byte of an identifier: also a digit or a prime. -/
def isWordByte (b : UInt8) : Bool := isWordStart b || isDigit b || b == 39

/-- The length of the identifier-shaped run at the head. -/
def wordLength : Bytes → Option Nat
  | [] => none
  | b :: rest => if isWordStart b then some ((rest.takeWhile isWordByte).length + 1) else none

/-- The length of the run of digits at the head. -/
def integerLength (bytes : Bytes) : Option Nat :=
  match (bytes.takeWhile isDigit).length with
  | 0 => none
  | n + 1 => some (n + 1)

/-- The length of a decimal fraction at the head: digits, a point and digits. -/
def decimalLength (bytes : Bytes) : Option Nat :=
  (integerLength bytes).bind fun whole =>
    match bytes.drop whole with
    | 46 :: rest => (integerLength rest).map fun fraction => whole + 1 + fraction
    | _ => none

/-- The length of a string up to and including its closing quote. Nothing is escaped, and a NUL
cannot stand in a string. -/
def closingQuote : Bytes → Option Nat
  | [] => none
  | b :: rest =>
    if b = 0 then none else if b = 34 then some 1 else (closingQuote rest).map (· + 1)

/-- The length of the text up to and including the first `*/`, if no NUL comes before it. -/
def commentEnd : Bytes → Option Nat
  | [] => none
  | b :: rest =>
    if b = 0 then none
    else if b = 42 && rest.head? == some 47 then some 2
    else (commentEnd rest).map (· + 1)

/-- The length of a comment at the head: from two slashes up to the end of the line, a NUL or the
end of the source, or between `/*` and `*/`. -/
def commentLength : Bytes → Option Nat
  | 47 :: 47 :: rest => some ((rest.takeWhile fun b => b != 10 && b != 0).length + 2)
  | 47 :: 42 :: rest => (commentEnd rest).map (· + 2)
  | _ => none

/-- The length of a fixed text, if the bytes begin with it. -/
def fixedLength (text : String) (bytes : Bytes) : Option Nat :=
  if (ofText text).isPrefixOf bytes then some (ofText text).length else none

end Bytes

namespace Token

/-- The length of the longest text of the token at the head of the bytes. -/
def matchLength (t : Token) (bytes : Bytes) : Option Nat :=
  match t with
  | identifier => bytes.wordLength
  | decimal => bytes.decimalLength
  | integer => bytes.integerLength
  | string => match bytes with
    | 34 :: rest => (Bytes.closingQuote rest).map (· + 1)
    | _ => none
  | infinity => (Bytes.fixedLength "∞" bytes).or (Bytes.fixedLength "\\infty" bytes)
  | boolean => (Bytes.fixedLength "true" bytes).or (Bytes.fixedLength "false" bytes)
  | comment => bytes.commentLength
  | keyword k => Bytes.fixedLength k.text bytes
  | command c => Bytes.fixedLength c.text bytes
  | quantifier q => Bytes.fixedLength q.text bytes
  | binary o => Bytes.fixedLength o.text bytes
  | unary o => Bytes.fixedLength o.text bytes
  | punctuation p => Bytes.fixedLength p.text bytes

/-- The tokens that are spelled like an identifier. -/
def isReserved : Token → Bool
  | keyword _ | command _ | quantifier _ | boolean => true
  | _ => false

/-- The token that an identifier-shaped run is when `viable` tells which tokens may stand here: a
reserved word if the whole run spells a viable one, else an identifier. -/
def ofWord? (viable : Token → Bool) (word : Bytes) : Option Token :=
  match all.find? fun t => t.isReserved && t.matchLength word == some word.length && viable t with
  | some t => some t
  | none => if viable identifier then some identifier else none

/-- The viable tokens at the head of the bytes with their lengths. A comment may stand
anywhere. -/
def candidates (viable : Token → Bool) (bytes : Bytes) : List (Token × Nat) :=
  all.filterMap fun t =>
    match t.matchLength bytes with
    | some n => if t = comment || viable t then some (t, n) else none
    | none => none

/-- The token at the head of the bytes with its length. An identifier-shaped run is taken whole;
elsewhere the longest match among the viable tokens and comments is taken. -/
def next? (viable : Token → Bool) (bytes : Bytes) : Option (Token × Nat) :=
  match bytes.wordLength with
  | some n => (ofWord? viable (bytes.take n)).map fun t => (t, n)
  | none => (candidates viable bytes).maxOn? Prod.snd

end Token

end HeyVL
