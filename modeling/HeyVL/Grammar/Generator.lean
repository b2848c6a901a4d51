import HeyVL.Grammar.Rule.Json
import HeyVL.Grammar.Validity

namespace HeyVL

namespace Grammar

/-- White space before a comment: the characters with the Unicode property White_Space. -/
def isWhite (c : Char) : Bool :=
  ('\t' ≤ c && c ≤ '\r') || c == ' ' || c == '\u0085' || c == '\u00A0' || c == '\u1680' ||
    ('\u2000' ≤ c && c ≤ '\u200A') || c == '\u2028' || c == '\u2029' || c == '\u202F' ||
    c == '\u205F' || c == '\u3000'

/-- What follows a comment at the head of the text, which is white space, two slashes and the
rest of the line. -/
def afterComment? (cs : List Char) : Option (List Char) :=
  match cs.dropWhile isWhite with
  | '/' :: '/' :: rest => some (rest.dropWhile (· != '\n'))
  | _ => none

theorem length_of_afterComment? {cs rest : List Char} (h : afterComment? cs = some rest) :
    rest.length < cs.length := by
  unfold afterComment? at h
  split at h
  · next tail htail =>
    obtain rfl := Option.some.inj h
    have h₁ := (List.dropWhile_suffix isWhite (l := cs)).length_le
    have h₂ := (List.dropWhile_suffix (fun c : Char => c != '\n') (l := tail)).length_le
    rw [htail] at h₁
    simp at h₁
    omega
  · simp at h

/-- The text without the comments that begin a line; each leaves a newline. -/
def withoutComments (lineStart : Bool) (cs : List Char) : List Char :=
  if lineStart then
    match h : afterComment? cs with
    | some rest =>
      have := length_of_afterComment? h
      '\n' :: withoutComments false rest
    | none =>
      match cs with
      | [] => []
      | c :: rest => c :: withoutComments (c == '\n') rest
  else
    match cs with
    | [] => []
    | c :: rest => c :: withoutComments (c == '\n') rest
termination_by cs.length

/-- The keys of a description that have a meaning. -/
def knownKeys : List String :=
  ["name", "rules", "precedences", "conflicts", "externals", "extras", "inline", "supertypes",
    "word"]

namespace Description

/-- The list at a key, which may be missing. -/
def listAt? (entries : List (String × Json)) (key : String) : Option (List Json) :=
  match Json.find? entries key with
  | none => some []
  | some v => v.asArray?

def strings? (items : List Json) : Option (List String) := items.mapM Json.asString?

/-- The description in a value, if it has a name and rules, and every entry with a meaning is well
formed and occurs once. Only within the rules themselves does a later entry replace an earlier
one. -/
def ofJson? : Json → Option Description
  | .object entries => do
    if knownKeys.any (Json.isRepeated entries) then none
    let name ← Rule.stringAt? entries "name"
    let rules ← match ← Json.find? entries "rules" with
      | .object rules =>
        (Json.distinct rules).mapM fun (name, v) =>
          (Rule.read? true v).map fun rule => (name, rule)
      | _ => none
    let lists ← (← listAt? entries "precedences").mapM Json.asArray?
    let precedences ← lists.mapM fun items => items.mapM (Rule.read? false)
    let extras ← (← listAt? entries "extras").mapM (Rule.read? false)
    let externals ← (← listAt? entries "externals").mapM (Rule.read? false)
    let groups ← (← listAt? entries "conflicts").mapM Json.asArray?
    let conflicts ← groups.mapM strings?
    let inline ← strings? (← listAt? entries "inline")
    let supertypes ← strings? (← listAt? entries "supertypes")
    let word ← Rule.optionalStringAt? entries "word"
    return { name, rules, extras, externals, precedences, conflicts, inline, supertypes, word }
  | _ => none

end Description

/-- The name of the grammar that a text describes, if a parser can be generated from it. What is left
out of a generator is that it makes the parse table, in which it may find conflicts that the description
does not allow for, and that it compiles the patterns, which may be no regular expressions; nor is the
shape of supertypes looked at. A description that fails for one of these reasons only is taken. -/
def generate? (text : String) : Option String := do
  let v ← Json.ofText? (!knownKeys.contains ·) (withoutComments true text.toList)
  let d ← Description.ofJson? v
  if d.isValid then some d.name else none

end Grammar

end HeyVL
