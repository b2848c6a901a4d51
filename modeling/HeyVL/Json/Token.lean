import HeyVL.Json.Basic

namespace HeyVL

namespace Json

/-- A token of a JSON text. A string has no text if an escape in it is no character. -/
inductive Token
  | braceOpen | braceClose | bracketOpen | bracketClose | colon | comma
  | string (text : Option String)
  | scalar (value : Json)
deriving Repr

namespace Token

/-- A character of a string: itself, or a UTF-16 code unit that is written by its number. -/
inductive Part
  | char (c : Char)
  | unit (n : Nat)
deriving Repr

def hexDigit? (c : Char) : Option Nat :=
  if c.isDigit then some (digit c)
  else if 'a' ≤ c ∧ c ≤ 'f' then some (c.toNat - 'a'.toNat + 10)
  else if 'A' ≤ c ∧ c ≤ 'F' then some (c.toNat - 'A'.toNat + 10)
  else none

def hex4? (a b c d : Char) : Option Nat := do
  return (((← hexDigit? a) * 16 + (← hexDigit? b)) * 16 + (← hexDigit? c)) * 16 + (← hexDigit? d)

/-- The character that is escaped by one letter. -/
def escape? : Char → Option Char
  | '"' => some '"'
  | '\\' => some '\\'
  | '/' => some '/'
  | 'b' => some '\x08'
  | 'f' => some '\x0c'
  | 'n' => some '\n'
  | 'r' => some '\r'
  | 't' => some '\t'
  | _ => none

/-- The parts of a string up to its closing quote, and the text behind it. Control characters
have to be escaped. -/
def parts? : List Char → Option (List Part × List Char)
  | [] => none
  | '"' :: rest => some ([], rest)
  | '\\' :: 'u' :: a :: b :: c :: d :: rest => do
    let n ← hex4? a b c d
    let (parts, after) ← parts? rest
    return (.unit n :: parts, after)
  | '\\' :: c :: rest => do
    let e ← escape? c
    let (parts, after) ← parts? rest
    return (.char e :: parts, after)
  | c :: rest =>
    if c < ' ' ∨ c = '\\' then none
    else do
      let (parts, after) ← parts? rest
      return (.char c :: parts, after)

theorem length_of_parts? {cs after : List Char} {parts : List Part}
    (h : parts? cs = some (parts, after)) : after.length < cs.length := by
  fun_induction parts? cs generalizing parts after <;>
    simp_all [Option.bind_eq_some_iff] <;> grind

/-- The characters of the parts. A character beyond 16 bits is written as two units, the high one
first, and neither can stand alone. -/
def join? : List Part → Option (List Char)
  | [] => some []
  | .char c :: rest => (join? rest).map (c :: ·)
  | .unit n :: rest =>
    if n < 0xD800 ∨ 0xE000 ≤ n then (join? rest).map (Char.ofNat n :: ·)
    else if 0xDC00 ≤ n then none
    else
      match rest with
      | .unit m :: rest =>
        if 0xDC00 ≤ m ∧ m < 0xE000 then
          (join? rest).map (Char.ofNat (0x10000 + (n - 0xD800) * 0x400 + (m - 0xDC00)) :: ·)
        else none
      | _ => none

/-- Whether the digits may begin a number: the first is not a zero, or it is the only one. -/
def isWhole (cs : List Char) : Bool :=
  cs.all Char.isDigit && (cs.length == 1 || cs.length > 1 && cs.head? != some '0')

/-- Whether the text is nothing, or an exponent. -/
def isExponent : List Char → Bool
  | [] => true
  | e :: cs =>
    (e == 'e' || e == 'E') &&
      match cs with
      | '+' :: cs | '-' :: cs => !cs.isEmpty && cs.all Char.isDigit
      | cs => !cs.isEmpty && cs.all Char.isDigit

def isNumber (cs : List Char) : Bool :=
  let cs := match cs with
    | '-' :: cs => cs
    | cs => cs
  isWhole (cs.takeWhile Char.isDigit) &&
    match cs.dropWhile Char.isDigit with
    | '.' :: cs => cs.head?.any Char.isDigit && isExponent (cs.dropWhile Char.isDigit)
    | cs => isExponent cs

/-- The characters of numbers and of the words `null`, `true` and `false`. -/
def isBare (c : Char) : Bool := c.isAlphanum || c == '-' || c == '+' || c == '.'

/-- The value of a run of bare characters. -/
def bare? (cs : List Char) : Option Json :=
  match String.ofList cs with
  | "null" => some .null
  | "true" => some (.bool true)
  | "false" => some (.bool false)
  | s => if isNumber cs then some (.number s) else none

def punctuation? : Char → Option Token
  | '\x7b' => some .braceOpen
  | '\x7d' => some .braceClose
  | '[' => some .bracketOpen
  | ']' => some .bracketClose
  | ':' => some .colon
  | ',' => some .comma
  | _ => none

def isBlank (c : Char) : Bool := c == ' ' || c == '\t' || c == '\n' || c == '\r'

/-- The tokens of a text, if it consists of nothing else but white space. -/
def ofText? (cs : List Char) : Option (List Token) :=
  match cs with
  | [] => some []
  | c :: rest =>
    if isBlank c then ofText? rest
    else if c = '"' then
      match h : parts? rest with
      | none => none
      | some (parts, after) =>
        have := length_of_parts? h
        (ofText? after).map (.string ((join? parts).map String.ofList) :: ·)
    else if isBare c then
      have : (rest.dropWhile isBare).length < rest.length + 1 :=
        Nat.lt_succ_of_le (List.dropWhile_suffix isBare).length_le
      (bare? (c :: rest.takeWhile isBare)).bind fun value =>
        (ofText? (rest.dropWhile isBare)).map (.scalar value :: ·)
    else
      (punctuation? c).bind fun t => (ofText? rest).map (t :: ·)
termination_by cs.length

end Token

end Json

end HeyVL
