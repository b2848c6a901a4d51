import HeyVL.Grammar.Production
import HeyVL.Json.Printer

namespace HeyVL

namespace Json

/-- A rule of a grammar description: an object with its type and the other entries. -/
def rule (type : String) (entries : List (String × Json)) : Json :=
  object (("type", string type) :: entries)

def ruleOfText (s : String) : Json := rule "STRING" [("value", string s)]

def ruleOfPattern (s : String) : Json := rule "PATTERN" [("value", string s)]

def ruleOfName (s : String) : Json := rule "SYMBOL" [("name", string s)]

def ruleOfSeq (members : List Json) : Json := rule "SEQ" [("members", array members)]

def ruleOfChoice (members : List Json) : Json := rule "CHOICE" [("members", array members)]

def ruleOfToken (content : Json) : Json := rule "TOKEN" [("content", content)]

end Json

/-- The rule of a token where it occurs: its text, or the name of its class. -/
def Token.reference (t : Token) : Json :=
  match t.fixedText? with
  | some s => Json.ruleOfText s
  | none => Json.ruleOfName t.name

/-- The type of rule that resolves a precedence to a side. -/
def Associativity.ruleType : Associativity → String
  | left => "PREC_LEFT"
  | right => "PREC_RIGHT"

def Production.toJson : Production → Json
  | empty => .rule "BLANK" []
  | token t => t.reference
  | symbol n => .ruleOfName n.name
  | seq p q => .ruleOfSeq [p.toJson, q.toJson]
  | choice p q => .ruleOfChoice [p.toJson, q.toJson]
  | many p => .rule "REPEAT" [("content", p.toJson)]
  | field f p => .rule "FIELD" [("name", .string f.text), ("content", p.toJson)]
  | prec side level p =>
    .rule side.ruleType [("value", .number (toString level)), ("content", p.toJson)]

/-- The token classes with their rules. -/
def Token.classes : List (String × Json) :=
  [(Token.name .decimal, .ruleOfToken (.ruleOfPattern "[0-9]+\\.[0-9]+")),
    (Token.name .integer, .ruleOfToken (.ruleOfPattern "[0-9]+")),
    (Token.name .string, .ruleOfToken (.ruleOfPattern "\"[^\"]*\"")),
    (Token.name .infinity,
      .ruleOfToken (.ruleOfChoice [.ruleOfText "∞", .ruleOfText "\\infty"])),
    (Token.name .boolean,
      .ruleOfToken (.ruleOfChoice [.ruleOfText "true", .ruleOfText "false"])),
    (Token.name .identifier, .ruleOfToken (.ruleOfPattern "[_a-zA-Z][_a-zA-Z0-9']*")),
    (Token.name .comment,
      .ruleOfToken (.ruleOfChoice
        [.ruleOfSeq [.ruleOfText "//", .ruleOfPattern ".*"],
          .ruleOfSeq [.ruleOfText "/*", .ruleOfPattern "[^*]*\\*+([^/*][^*]*\\*+)*",
            .ruleOfText "/"]]))]

namespace Grammar

def languageName : String := "heyvl"

/-- The grammar description of HeyVL. -/
def description : Json :=
  .object
    [("name", .string languageName),
      ("word", .string (Token.name .identifier)),
      ("rules", .object
        (Nonterminal.all.map (fun n => (n.name, n.production.toJson)) ++ Token.classes)),
      ("extras", .array [.ruleOfName (Token.name .comment), .ruleOfPattern "\\s"]),
      ("conflicts", .array []),
      ("precedences", .array []),
      ("externals", .array []),
      ("inline", .array []),
      ("supertypes", .array [])]

def text : String := description.write

end Grammar

end HeyVL
