import HeyVL.Language.Symbol

namespace HeyVL

/-- What a descriptor tells about a language. -/
structure Descriptor where
  version : UInt32
  symbols : UInt32
  aliases : UInt32
deriving DecidableEq, Repr

/-- A language that can be used: its version and its number of node kinds. -/
structure Language where
  version : UInt32
  kinds : UInt32
deriving DecidableEq, Repr

/-- A version that no parser accepts. -/
structure VersionError where
  version : UInt32
deriving DecidableEq, Repr

inductive LoadError
  | nullDescriptor
  | incompatible (cause : VersionError)
deriving DecidableEq, Repr

namespace Descriptor

def heyvl : Descriptor := ⟨14, Symbol.table.length.toUInt32, 0⟩

def oldestVersion : UInt32 := 13

def newestVersion : UInt32 := 14

def check (d : Descriptor) : Except VersionError Unit :=
  if oldestVersion ≤ d.version ∧ d.version ≤ newestVersion then .ok () else .error ⟨d.version⟩

/-- The language of a descriptor. The kinds of aliases are counted with those of symbols, in 32
bits. -/
def language (d : Descriptor) : Language := ⟨d.version, d.symbols + d.aliases⟩

end Descriptor

def VersionError.text (e : VersionError) : String :=
  "Incompatible language version " ++ toString e.version.toNat ++ ". Expected minimum " ++
    toString Descriptor.oldestVersion.toNat ++ ", maximum " ++
    toString Descriptor.newestVersion.toNat

namespace LoadError

def message : LoadError → String
  | nullDescriptor => "Error loading HeyVL grammar"
  | incompatible _ => "Error loading HeyVL grammar"

def source? : LoadError → Option String
  | nullDescriptor => none
  | incompatible cause => some cause.text

end LoadError

/-- How urgent a line of the log is. -/
inductive Level
  | debug
  | error
deriving DecidableEq, Repr

def Level.name : Level → String
  | debug => "debug"
  | error => "error"

structure LogLine where
  level : Level
  text : String
deriving DecidableEq, Repr

/-- The lines of the log, the latest last. -/
abbrev Log := List LogLine

namespace Language

/-- A part of an attempt to load: it may add to the log and may fail. -/
abbrev Attempt := ExceptT LoadError (StateM Log)

def log (level : Level) (text : String) : Attempt Unit := modify (· ++ [⟨level, text⟩])

/-- What the log says first of every failure. -/
def failureMessage : String := "Error loading HeyVL grammar"

/-- What the log says of a language that is loaded. -/
def report (l : Language) : String :=
  "loaded HeyVL grammar (abi " ++ toString l.version.toNat ++ ", " ++ toString l.kinds.toNat ++
    " node kinds)"

/-- The language of a descriptor, if there is one and its version is accepted. -/
def load (descriptor : Option Descriptor) : Attempt Language := do
  match descriptor with
  | none =>
    log .error (failureMessage ++ ": grammar accessor returned null")
    throw .nullDescriptor
  | some d =>
    match d.check with
    | .error cause =>
      log .error (failureMessage ++ ": " ++ cause.text)
      throw (.incompatible cause)
    | .ok _ => pure ()
    let l := d.language
    log .debug l.report
    return l

/-- The results of repeated attempts to load. -/
def loads (descriptor : Option Descriptor) :
    Nat → StateM Log (List (Except LoadError Language))
  | 0 => return []
  | n + 1 => do
    let result ← (load descriptor).run
    return result :: (← loads descriptor n)

/-- The results of repeated attempts to load, and the log that they leave. -/
def loadTimes (descriptor : Option Descriptor) (times : Nat) :
    List (Except LoadError Language) × Log :=
  (loads descriptor times).run []

end Language

end HeyVL
