import HeyVL.Bytes
import HeyVL.Grammar.Description

namespace HeyVL

namespace Build

/-- The output directory before a build. -/
inductive OutDir
  /-- An empty directory. -/
  | directory
  /-- Nothing yet; it is made when it is needed. -/
  | missing
  /-- It is not told which directory it is. -/
  | unset
  /-- A file stands in its place. -/
  | file
  /-- A directory with a file in the place of the header directory. -/
  | headerFile
  /-- A directory with a directory in the place of the parser. -/
  | parserDirectory
deriving DecidableEq, Repr

/-- What a build starts from: the bytes of the grammar description, if there is one, whether a
parser is committed beside it, and the output directory. -/
structure Site where
  grammar : Option Bytes
  committedParser : Bool
  outDir : OutDir
deriving DecidableEq, Repr

/-- The files that a build makes in the output directory. -/
inductive Artifact
  | library
  | parser
  | header
deriving DecidableEq, Repr

def Artifact.path : Artifact → String
  | library => "libtree-sitter-heyvl.a"
  | parser => "parser.c"
  | header => "tree_sitter/parser.h"

def Artifact.all : List Artifact := [library, parser, header]

/-- Why a build fails. -/
inductive Failure
  | outDirUnset
  | grammarMissing
  | grammarUndecodable
  | notGenerated
  | wrongName (declared : String)
  | outDirIsFile
  | headerDirIsFile
  | parserIsDirectory
deriving DecidableEq, Repr

def grammarPath : String := "src/grammar.json"

def parserPath : String := "src/parser.c"

namespace Failure

/-- The message of a failure. What a generator finds wrong with a grammar is its own affair. -/
def message? : Failure → Option String
  | outDirUnset => some "environment variable not found"
  | grammarMissing => some "No such file or directory (os error 2)"
  | grammarUndecodable => some "stream did not contain valid UTF-8"
  | notGenerated => none
  | wrongName declared =>
    some (grammarPath ++ " declares grammar `" ++ declared ++ "`, expected `" ++
      Grammar.languageName ++ "`")
  | outDirIsFile => some "Not a directory (os error 20)"
  | headerDirIsFile => some "File exists (os error 17)"
  | parserIsDirectory => some "Is a directory (os error 21)"

end Failure

end Build

end HeyVL
