import Codegen.A64.Register

/-!
Compile configuration, and how it is read from environment variables.
-/
namespace Codegen

inductive BlockOrder where
  /-- In the order in which they were built. -/
  | identity
  /-- So that, where possible, control falls through to the next block. -/
  | fallthrough
  | undeclared (code : UInt8)
  deriving DecidableEq, Repr

namespace BlockOrder

def ofCode (code : UInt8) : BlockOrder :=
  if code = 0 then .identity else if code = 1 then .fallthrough else .undeclared code

def name : BlockOrder → String
  | identity => "identity"
  | fallthrough => "fallthrough"
  | undeclared _ => "invalid"

end BlockOrder

/-- What to compile for and what to report. -/
structure Config where
  /-- The name of the target; none is set at first. -/
  isa : String := ""
  /-- Report the listing after branch lowering. -/
  listing : Bool := false
  /-- Report the listing with offsets and the side records. -/
  disassembly : Bool := false
  /-- Report the passes. -/
  passes : Bool := false
  order : BlockOrder := .fallthrough
  /-- Map the code into executable memory. -/
  executable : Bool := false
  deriving DecidableEq, Repr, Inhabited

namespace Config

/-- The upper case words for true that may also be in lower case or capitalized. -/
def trueWords : List String :=
  ["TRUE", "YES", "ENABLE", "ENABLED", "POSITIVE", "ABSOLUTELY", "AFFIRMATIVE"]

/-- The spellings of a word: upper case, lower case, capitalized. -/
def spellings (word : String) : List String :=
  [word, word.toLower, word.toLower.capitalize]

/-- A variable that is set to a spelling of true. -/
def isTrue (value : String) : Bool :=
  ["1", "T", "t", "Y", "y"].contains value || (trueWords.flatMap spellings).contains value

/-- The configuration of environment variables. An empty variable is not set; the target defaults to
A64. -/
def ofEnv (get : String → Option String) : Config :=
  let flag (name : String) : Bool := isTrue ((get name).getD "")
  let isa := (get "MACHINST_ISA").getD ""
  { isa := if isa.isEmpty then A64.targetName else isa
    listing := flag "MACHINST_PRINT"
    disassembly := flag "MACHINST_DISASM"
    passes := flag "MACHINST_REPORT_TIMES"
    executable := flag "MACHINST_EXEC" }

end Config

end Codegen
