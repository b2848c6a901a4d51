import HeyVL.Grammar.Rule.Basic

namespace HeyVL

namespace Grammar

structure Description where
  name : String
  rules : List (String × Rule)
  extras : List Rule
  externals : List Rule
  precedences : List (List Rule)
  conflicts : List (List String)
  inline : List String
  supertypes : List String
  word : Option String
deriving DecidableEq, Repr

namespace Description

/-- The name of the rule that every source is made of, which is the first. -/
def start? (d : Description) : Option String := d.rules.head?.map Prod.fst

/-- The names of the rules that are found in the given number of rounds: the first rule, those
that the extras and the external tokens mention, and those that a rule mentions that was found
before. Each round that finds anything finds at least one rule, so there need be no more rounds
than rules. -/
def reached (d : Description) : Nat → List String
  | 0 => (d.rules.map Prod.fst).filter fun name =>
    d.start? == some name || (d.extras ++ d.externals).any (·.mentions.contains name)
  | rounds + 1 =>
    let known := d.reached rounds
    let mentioned := (d.rules.filter fun (name, _) => known.contains name).flatMap
      fun (_, rule) => rule.mentions
    (d.rules.map Prod.fst).filter fun name => known.contains name || mentioned.contains name

/-- The names of the rules that are kept: those that can be reached, and the word. -/
def kept (d : Description) : List String :=
  let reached := d.reached d.rules.length
  (d.rules.map Prod.fst).filter fun name => reached.contains name || d.word == some name

/-- The description without the rules that are not kept, and without what lists them. -/
def withoutUnused (d : Description) : Description :=
  let kept := d.kept
  let removed := (d.rules.map Prod.fst).filter (!kept.contains ·)
  { d with
    rules := d.rules.filter fun (name, _) => kept.contains name
    precedences := d.precedences.filter fun list =>
      list.all fun entry => entry.mentions.all (!removed.contains ·)
    conflicts := d.conflicts.filter fun names => names.all (!removed.contains ·)
    inline := d.inline.filter (!removed.contains ·)
    supertypes := d.supertypes.filter (!removed.contains ·) }

def externalNames (d : Description) : List String :=
  d.externals.filterMap fun
    | .mention name => some name
    | _ => none

def defined (d : Description) : List String := d.rules.map Prod.fst ++ d.externalNames

def required (d : Description) : List String :=
  (d.rules.map Prod.snd ++ d.extras ++ d.externals).flatMap Rule.mentions ++
    d.conflicts.flatten ++ d.supertypes ++ d.word.toList

/-- The tokens of all rules, and the external ones, in order. -/
def tokens (d : Description) : List Rule :=
  (d.rules.map Prod.snd ++ d.externals).flatMap Rule.tokens

/-- Whether a name belongs to a token: to a rule that is a token that occurs nowhere else, other
than the first rule; or else to an external token. A hidden rule gives its name to no fixed
text. -/
def namesToken (d : Description) (name : String) : Bool :=
  match d.rules.lookup name with
  | some rule =>
    d.start? != some name && rule.isToken &&
      (d.tokens.map Rule.essence).count rule.essence == 1 &&
      !(name.toList.head? == some '_' && rule.spelling?.isSome)
  | none => d.externalNames.contains name

def startIsVisible (d : Description) : Bool :=
  d.start?.any fun name => name.toList.head? != some '_'

/-- Whether there is no empty text but in the first rule. Tokens that occur there may occur
elsewhere, too. -/
def textsAreNonempty (d : Description) : Bool :=
  let allowed := match d.rules with
    | [] => []
    | (_, start) :: _ => start.tokens.map Rule.essence
  d.extras.all (· != .text "") &&
    d.tokens.all fun t => t.spelling? != some "" || allowed.contains t.essence

/-- Whether no rule that is a step of another production, or of its own, has a production without
steps. -/
def stepsAreNonempty (d : Description) : Bool :=
  let steps := d.rules.flatMap fun (_, rule) => rule.stepNames true
  d.rules.all fun (name, rule) =>
    rule.repeatsSteps && !(rule.hasEmpty && steps.contains name)

/-- Whether tokens mention no rules, and external tokens are tokens. -/
def tokensAreLexical (d : Description) : Bool :=
  (d.tokens.all fun t => t.mentions.isEmpty) &&
    (d.extras.all fun rule => rule.isMention || rule.mentions.isEmpty) &&
    d.externals.all fun
      | .mention name => d.namesToken name
      | rule => rule.isToken

/-- The pairs of an earlier and a later element. -/
def inOrder {α : Type} : List α → List (α × α)
  | [] => []
  | a :: rest => rest.map (a, ·) ++ inOrder rest

/-- Whether every named precedence is listed, and the lists agree on the order. -/
def precedencesAreOrdered (d : Description) : Bool :=
  let pairs := d.precedences.flatMap inOrder
  (pairs.all fun (a, b) => a == b || !pairs.contains (b, a)) &&
    d.rules.all fun (_, rule) =>
      (rule.precedences false).all fun name => d.precedences.flatten.contains (.text name)

/-- Whether a parser can be generated from a description in which every rule can be reached. -/
def isConsistent (d : Description) : Bool :=
  d.startIsVisible && d.required.all d.defined.contains && d.textsAreNonempty &&
    d.stepsAreNonempty && d.tokensAreLexical && d.precedencesAreOrdered &&
    d.word.all d.namesToken &&
    d.inline.all fun name =>
      !d.defined.contains name || (d.start? != some name && !d.namesToken name)

/-- Whether a parser can be generated. The lists of precedences hold names of precedences, which
are written as texts, and rules. -/
def isValid (d : Description) : Bool :=
  d.precedences.flatten.all (fun entry => entry.isText || entry.isMention) &&
    d.withoutUnused.isConsistent

end Description

end Grammar

end HeyVL
