import HeyVL.Grammar.Rule.Basic
import HeyVL.Json.Reader

namespace HeyVL

namespace Grammar

namespace Rule

/-- The keys that have a meaning in a rule of a type, in the order of their values in an array. -/
def keysOf : String → List String
  | "STRING" => ["value"]
  | "PATTERN" => ["value", "flags"]
  | "SYMBOL" => ["name"]
  | "CHOICE" | "SEQ" => ["members"]
  | "REPEAT" | "REPEAT1" | "TOKEN" | "IMMEDIATE_TOKEN" => ["content"]
  | "FIELD" => ["name", "content"]
  | "ALIAS" => ["content", "named", "value"]
  | "PREC_DYNAMIC" | "PREC" | "PREC_LEFT" | "PREC_RIGHT" => ["value", "content"]
  | _ => []

/-- The entries of a rule. In an array no value can be left out. -/
def entries? : Json → Option (List (String × Json))
  | .object entries => some entries
  | .array (.string type :: values) =>
    let keys := keysOf type
    if values.length = keys.length then some (("type", .string type) :: keys.zip values)
    else none
  | _ => none

def stringAt? (entries : List (String × Json)) (key : String) : Option String :=
  (Json.find? entries key).bind Json.asString?

/-- The value of a key, read as a string. It may be missing or null. -/
def optionalStringAt? (entries : List (String × Json)) (key : String) : Option (Option String) :=
  match Json.find? entries key with
  | none | some .null => some none
  | some v => v.asString?.map some

def asBool? : Json → Option Bool
  | .bool b => some b
  | _ => none

/-- A value as a level of precedence, which is an integer of 32 bits. -/
def asLevel? (v : Json) : Option Int :=
  v.asInt?.bind fun n => if -2147483648 ≤ n ∧ n ≤ 2147483647 then some n else none

/-- The mark of a precedence, which is a level or the name of one. -/
def precedenceAt? (entries : List (String × Json)) (side : Option Associativity) : Option Mark :=
  (Json.find? entries "value").bind fun v =>
    match asLevel? v with
    | some n => some (.level side n)
    | none => v.asString?.map (.precedence side)

/-- The rule of a value whose containers are nested at most so deep. A key with a meaning that
occurs again either replaces the entry before it, or is refused. -/
def ofJson? (replaces : Bool) : Nat → Json → Option Rule
  | 0, _ => none
  | depth + 1, v => do
    let entries ← entries? v
    let content : Option Rule := (Json.find? entries "content").bind (ofJson? replaces depth)
    let members : Option (List Rule) :=
      ((Json.find? entries "members").bind Json.asArray?).bind fun items =>
        items.mapM (ofJson? replaces depth)
    let type ← stringAt? entries "type"
    if !replaces && ("type" :: keysOf type).any (Json.isRepeated entries) then none
    match type with
    | "BLANK" => return blank
    | "STRING" => return text (← stringAt? entries "value")
    | "PATTERN" =>
      let flags ← optionalStringAt? entries "flags"
      return pattern (← stringAt? entries "value")
        (String.ofList ((flags.getD "").toList.filter (· == 'i')))
    | "SYMBOL" => return mention (← stringAt? entries "name")
    | "CHOICE" => return (← members).foldr choice never
    | "SEQ" => return (← members).foldr seq blank
    | "REPEAT" => return choice (repeated (← content)) blank
    | "REPEAT1" => return repeated (← content)
    | "TOKEN" => return token false (← content)
    | "IMMEDIATE_TOKEN" => return token true (← content)
    | "FIELD" => return marked (.field (← stringAt? entries "name")) (← content)
    | "ALIAS" =>
      let named ← (Json.find? entries "named").bind asBool?
      return marked (.alias (← stringAt? entries "value") named) (← content)
    | "PREC_DYNAMIC" =>
      let level ← (Json.find? entries "value").bind asLevel?
      return marked (.dynamic level) (← content)
    | "PREC" => return marked (← precedenceAt? entries none) (← content)
    | "PREC_LEFT" => return marked (← precedenceAt? entries (some .left)) (← content)
    | "PREC_RIGHT" => return marked (← precedenceAt? entries (some .right)) (← content)
    | _ => none

def read? (replaces : Bool) (v : Json) : Option Rule := ofJson? replaces Json.Reader.maxDepth v

end Rule

end Grammar

end HeyVL
