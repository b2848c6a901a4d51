import HeyVL.Grammar.Production

namespace HeyVL

namespace Grammar

/-- What is said about a part of a rule, without a change to what it matches. -/
inductive Mark
  | field (name : String)
  | alias (value : String) (named : Bool)
  | dynamic (level : Int)
  | level (side : Option Associativity) (level : Int)
  | precedence (side : Option Associativity) (name : String)
deriving DecidableEq, Repr

/-- A rule. Choices and sequences of any length end in `never` and `blank`, and a repetition
repeats at least once. -/
inductive Rule
  | blank
  | never
  | text (s : String)
  | pattern (s : String) (flags : String)
  | mention (name : String)
  | seq (first rest : Rule)
  | choice (this other : Rule)
  | repeated (content : Rule)
  | marked (mark : Mark) (content : Rule)
  | token (immediate : Bool) (content : Rule)
deriving DecidableEq, Repr

namespace Rule

def mentions : Rule → List String
  | mention name => [name]
  | seq p q | choice p q => p.mentions ++ q.mentions
  | repeated p | marked _ p | token _ p => p.mentions
  | _ => []

def isMention : Rule → Bool
  | mention _ => true
  | _ => false

def isText : Rule → Bool
  | text _ => true
  | _ => false

def unmarked : Rule → Rule
  | marked _ p => p.unmarked
  | p => p

/-- The tokens that a rule is made of. There are none inside of a token. -/
def tokens : Rule → List Rule
  | text s => [text s]
  | pattern s flags => [pattern s flags]
  | token immediate p => [token immediate p]
  | seq p q | choice p q => p.tokens ++ q.tokens
  | repeated p | marked _ p => p.tokens
  | _ => []

/-- Whether a rule is a token as a whole. -/
def isToken : Rule → Bool
  | text _ | pattern _ _ | token _ _ => true
  | _ => false

/-- A token as it is compared with others: nothing but a mark makes a difference between a token
and the rule that it is made of. -/
def essence : Rule → Rule
  | token false (marked mark p) => token false (marked mark p)
  | token false p => p
  | p => p

/-- The text that a token consists of, if it is no other rule. -/
def spelling? : Rule → Option String
  | text s => some s
  | token _ p =>
    match p.unmarked with
    | text s => some s
    | _ => none
  | _ => none

/-- Whether a rule has no production at all, since a choice in it is empty. -/
def isVoid : Rule → Bool
  | never => true
  | seq p q => p.isVoid || q.isVoid
  | choice p q => p.isVoid && q.isVoid
  | marked _ p => p.isVoid
  | _ => false

/-- Whether a rule has a production without steps. Mentions, tokens and repetitions are steps,
whatever they match. -/
def hasEmpty : Rule → Bool
  | blank => true
  | seq p q => p.hasEmpty && q.hasEmpty
  | choice p q => p.hasEmpty || q.hasEmpty
  | marked _ p => p.hasEmpty
  | _ => false

/-- The names that are steps of productions. A repetition has productions of its own, and so its
names are steps also where the rule around it has no production. -/
def stepNames : Bool → Rule → List String
  | produced, mention name => if produced then [name] else []
  | produced, seq p q =>
    let produced := produced && !p.isVoid && !q.isVoid
    stepNames produced p ++ stepNames produced q
  | produced, choice p q => stepNames produced p ++ stepNames produced q
  | produced, marked _ p => stepNames produced p
  | _, repeated p => stepNames true p
  | _, _ => []

/-- Whether each repetition repeats what has no production without steps. -/
def repeatsSteps : Rule → Bool
  | repeated p => !p.hasEmpty && p.repeatsSteps
  | seq p q | choice p q => p.repeatsSteps && q.repeatsSteps
  | marked _ p => p.repeatsSteps
  | _ => true

/-- The named precedences that a rule has. Of marks around marks, the outermost precedence
counts; whether there is one already is given. -/
def precedences : Bool → Rule → List String
  | covered, marked (.precedence _ name) p =>
    if covered then precedences true p else name :: precedences true p
  | _, marked (.level _ _) p => precedences true p
  | covered, marked _ p => precedences covered p
  | _, seq p q | _, choice p q => precedences false p ++ precedences false q
  | _, repeated p => precedences false p
  | _, token _ p => precedences false p
  | _, _ => []

end Rule

end Grammar

end HeyVL
