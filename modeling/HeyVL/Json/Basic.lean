namespace HeyVL

/-- A JSON value. A number is kept as it is written, and an object keeps its entries in order. -/
inductive Json
  | null
  | bool (b : Bool)
  | number (literal : String)
  | string (s : String)
  | array (items : List Json)
  | object (entries : List (String × Json))
deriving Repr

namespace Json

/-- The entries with one more: a key that is already there keeps its place and gets the new
value. -/
def insert {α : Type} (entries : List (String × α)) (key : String) (value : α) :
    List (String × α) :=
  match entries with
  | [] => [(key, value)]
  | (k, v) :: rest => if k == key then (k, value) :: rest else (k, v) :: insert rest key value

/-- The entries with each key once, the last value of a key at the place of its first. -/
def distinct {α : Type} (entries : List (String × α)) : List (String × α) :=
  entries.foldl (fun done (key, value) => insert done key value) []

/-- The last value of a key. -/
def find? {α : Type} (entries : List (String × α)) (key : String) : Option α :=
  (distinct entries).lookup key

def isRepeated {α : Type} (entries : List (String × α)) (key : String) : Bool :=
  1 < entries.countP fun e => e.1 == key

def asString? : Json → Option String
  | string s => some s
  | _ => none

def asArray? : Json → Option (List Json)
  | array items => some items
  | _ => none

def digit (c : Char) : Nat := c.toNat - '0'.toNat

def natural (cs : List Char) : Nat := cs.foldl (fun n c => n * 10 + digit c) 0

/-- The number that decimal digits denote, if there are any and nothing else. -/
def digits? (cs : List Char) : Option Nat :=
  if cs ≠ [] ∧ cs.all Char.isDigit then some (natural cs) else none

/-- The integer of a number that is written without a fraction and an exponent. -/
def asInt? : Json → Option Int
  | number literal =>
    match literal.toList with
    | '-' :: cs => (digits? cs).bind fun n => if n = 0 then none else some (-n)
    | cs => (digits? cs).map Int.ofNat
  | _ => none

end Json

end HeyVL
