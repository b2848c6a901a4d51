import HeyVL.Expectation.Item

namespace HeyVL

/-- The phrases that are still expected, the next one first. -/
abbrev Expectation := List Item

namespace Expectation

/-- A whole source is a list of declarations. -/
def source : Expectation := [.many .declaration]

/-- The move of a token against all that is expected: phrases that it does not begin are left
out, which completes nodes, until one begins with it. -/
def advance : Expectation → Token → Option Move
  | [], _ => none
  | item :: rest, t =>
    match item.start t with
    | some m => some (m.followedBy rest)
    | none =>
      if item.optional then
        (advance rest t).map fun m => { m with before := item.skipped ++ m.before }
      else none

/-- Whether the token may come next. -/
def expects (todo : Expectation) (t : Token) : Bool := (advance todo t).isSome

/-- The last steps, if the source may end here. -/
def finish? : Expectation → Option (List Action)
  | [] => some []
  | item :: rest => if item.optional then (finish? rest).map (item.skipped ++ ·) else none

end Expectation

end HeyVL
