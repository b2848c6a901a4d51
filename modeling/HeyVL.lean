import HeyVL.Document.Outline
import HeyVL.Document.Walk
import HeyVL.Document.Edit
import HeyVL.Highlight.Capture
import HeyVL.Language.Loader
import HeyVL.Grammar.Generator
import HeyVL.Grammar.Derivation
import HeyVL.Tree.Grouping
import HeyVL.Build.Run
import HeyVL.Proofs.Grammar.Expansion
import HeyVL.Proofs.Expectation.Phrase
import HeyVL.Proofs.Expectation.Soundness
import HeyVL.Proofs.Tree.Syntax
import HeyVL.Proofs.Expectation.Run
import HeyVL.Proofs.Expectation.Follow
import HeyVL.Proofs.Expectation.Parts
import HeyVL.Proofs.Expectation.Nodes
import HeyVL.Proofs.Expectation.Operands
import HeyVL.Proofs.Tree.Operators
import HeyVL.Proofs.Expectation.Statements
import HeyVL.Proofs.Expectation.Completeness
import HeyVL.Proofs.Tree.Regrouping
import HeyVL.Proofs.Tree.Existence
import HeyVL.Proofs.Expectation.Language
import HeyVL.Proofs.Token.Language
import HeyVL.Proofs.Token.Longest
import HeyVL.Proofs.Token.Taking
import HeyVL.Proofs.Event.Lexing
import HeyVL.Proofs.Event.Scanning
import HeyVL.Proofs.Tree.Placing
import HeyVL.Proofs.Event.Spelling
import HeyVL.Proofs.Document.Acceptance
import HeyVL.Proofs.Document.Derivation
import HeyVL.Proofs.Document.Errors
import HeyVL.Proofs.Document.Grouping
import HeyVL.Proofs.Event.Extents
import HeyVL.Proofs.Tree.Extents
import HeyVL.Proofs.Document.Extents
import HeyVL.Proofs.Tree.Surrounding
import HeyVL.Proofs.Expectation.Reachable
import HeyVL.Proofs.Token.Gaps
import HeyVL.Proofs.Event.Places
import HeyVL.Proofs.Document.Rewriting
import HeyVL.Proofs.Document.Comments
import HeyVL.Proofs.Highlight.Captures
import HeyVL.Proofs.Document.Captures
import HeyVL.Proofs.Event.Respacing
import HeyVL.Proofs.Document.Trivia
import HeyVL.Proofs.Token.Respelling
import HeyVL.Proofs.Expectation.Reserved
import HeyVL.Proofs.Expectation.Splitting
import HeyVL.Proofs.Expectation.Positions
import HeyVL.Proofs.Document.Respelling
import HeyVL.Proofs.Document.Roles
import HeyVL.Proofs.Grammar.Exchange
import HeyVL.Proofs.Grammar.Adjacent
import HeyVL.Proofs.Document.Expressions
import HeyVL.Proofs.Document.Elements
import HeyVL.Proofs.Document.Lists
import HeyVL.Proofs.Json.Tokens
import HeyVL.Proofs.Json.Reading
import HeyVL.Proofs.Grammar.Reached
import HeyVL.Proofs.Grammar.Generating
import HeyVL.Proofs.Build.Steps
import HeyVL.Proofs.Grammar.Brackets
import HeyVL.Proofs.Document.Brackets
import HeyVL.Proofs.Bytes.Characters
import HeyVL.Proofs.Token.Characters
import HeyVL.Proofs.Document.Text
import HeyVL.Proofs.Grammar.Semicolons
import HeyVL.Proofs.Tree.Deleting
import HeyVL.Proofs.Document.Semicolons
import HeyVL.Proofs.Language.Loading
import HeyVL.Proofs.Language.Symbols
import HeyVL.Proofs.Document.Kinds
import HeyVL.Proofs.Document.Outline
import HeyVL.Proofs.Tree.SExpression
import HeyVL.Proofs.Document.SExpression
import HeyVL.Proofs.Tree.Walking
import HeyVL.Proofs.Document.Walking
import HeyVL.Proofs.Document.Lexing
