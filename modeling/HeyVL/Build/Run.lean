import HeyVL.Build.Site

/-!
Building the parser library. A committed parser is compiled as it is; without one, the parser is
generated from the grammar description into the output directory. The generator is a parameter: it
gives the name of the grammar that a text describes, if it can generate a parser from it.
-/

namespace HeyVL

namespace Build

/-- A part of a build: it may make files and may fail, and the files made before a failure
stay. -/
abbrev Task := ExceptT Failure (StateM (List Artifact))

namespace Task

def failIf (condition : Bool) (f : Failure) : Task Unit :=
  if condition then throw f else pure ()

def require {α : Type} (value : Option α) (f : Failure) : Task α :=
  match value with
  | some a => pure a
  | none => throw f

def make (a : Artifact) : Task Unit := modify (a :: ·)

end Task

def generateParser (generate : String → Option String) (site : Site) : Task Unit := do
  Task.failIf (site.outDir == .unset) .outDirUnset
  let bytes ← Task.require site.grammar .grammarMissing
  let text ← Task.require bytes.text? .grammarUndecodable
  let name ← Task.require (generate text) .notGenerated
  Task.failIf (name != Grammar.languageName) (.wrongName name)
  Task.failIf (site.outDir == .file) .outDirIsFile
  Task.failIf (site.outDir == .headerFile) .headerDirIsFile
  Task.make .header
  Task.failIf (site.outDir == .parserDirectory) .parserIsDirectory
  Task.make .parser

def task (generate : String → Option String) (site : Site) : Task Unit := do
  if !site.committedParser then generateParser generate site
  Task.make .library

/-- What a build comes to: its result, the lines that it prints, and the files that are in the
output directory afterwards. -/
structure Outcome where
  result : Except Failure Unit
  printed : List String
  files : List Artifact

def dependencyLines : List String :=
  ["cargo:rerun-if-changed=" ++ grammarPath, "cargo:rerun-if-changed=" ++ parserPath]

/-- The line that tells to link the library. -/
def linkLine : String := "cargo:rustc-link-lib=static=tree-sitter-heyvl"

def run (generate : String → Option String) (site : Site) : Outcome :=
  let (result, made) := ((task generate site).run).run []
  { result
    printed := dependencyLines ++ match result with
      | .ok _ => [linkLine]
      | .error _ => []
    files := Artifact.all.filter made.contains }

end Build

end HeyVL
