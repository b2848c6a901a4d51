import HeyVL.Tree.Basic

namespace HeyVL

/-- The children of the nodes that are not complete, innermost first; the last entry belongs to
the source file. -/
abbrev Builder := List (List Tree)

namespace Builder

/-- Adds a child to the innermost node. -/
def add (t : Tree) : Builder → Builder
  | [] => [[t]]
  | children :: outer => (children ++ [t]) :: outer

/-- One step of building. A step that the stack has nothing for changes nothing. -/
def act (b : Builder) : Action → Builder
  | .enter => [] :: b
  | .adopt role =>
    match b with
    | [] => b
    | children :: outer =>
      match children.getLast? with
      | none => b
      | some t => [t.withRole role] :: children.dropLast :: outer
  | .leave role category =>
    match b with
    | [] => b
    | children :: outer => add (.node role category children) outer

/-- The effect of an event. Comments are placed when the tree is complete. -/
def apply (b : Builder) : Event → Builder
  | .action a => b.act a
  | .token role lexeme => b.add (.leaf role lexeme)
  | .comment _ => b

/-- The nodes of a list of events, without the comments. -/
def forest (events : List Event) : List Tree :=
  (events.foldl apply [[]]).flatten

end Builder

end HeyVL
