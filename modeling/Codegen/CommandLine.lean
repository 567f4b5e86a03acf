import Codegen.Compile

/-!
The command line: `list` shows the catalogue, `compile` compiles functions of it.

Flags and names may be mixed; an argument of two dashes makes the rest names. What was printed
before an error stays printed.
-/
namespace Codegen.CommandLine

inductive Error where
  | noSuchFlag (arg : String)
  | notBool (arg : String)
  | valueRequired (arg : String)
  | unexpectedArg (arg : String)
  | nothingToCompile
  | failed (cause : Failure)
  | command (name : String) (cause : Error)
  deriving DecidableEq, Repr

def Error.message : Error → String
  | noSuchFlag arg => "parse flag: " ++ arg ++ ": no such flag"
  | notBool arg => "parse flag: " ++ arg ++ ": not a bool value"
  | valueRequired arg => "parse flag: " ++ arg ++ ": flag value is required"
  | unexpectedArg arg => "no args expected, got " ++ arg
  | nothingToCompile => "no functions to compile, see `machinst list`"
  | failed f => f.message
  | command name e => name ++ ": " ++ e.message

/-- What was printed, and the error that ended it. -/
structure Outcome where
  stdout : String := ""
  error : Option Error := none
  deriving DecidableEq, Repr, Inhabited

inductive Arg where
  | name
  /-- Two dashes: only names follow. -/
  | endOfFlags
  /-- A flag, by its name, and the value in the same argument. -/
  | flag (name : String) (value : Option String)
  deriving DecidableEq, Repr

/-- The text after at most `n` dashes. -/
def dropDashes : Nat → List Char → List Char
  | n + 1, '-' :: rest => dropDashes n rest
  | _, cs => cs

/-- Reads an argument: a flag begins with one or two dashes, its name ends before the first equals
sign or blank, and what follows that sign or blank is its value. -/
def Arg.ofString (s : String) : Arg :=
  if s = "--" then .endOfFlags
  else match s.toList with
    | '-' :: rest =>
      if rest.isEmpty then .name
      else
        let cs := dropDashes 2 s.toList
        let isNameChar (c : Char) : Bool := c ≠ '=' && c ≠ ' '
        let value := match cs.dropWhile isNameChar with
          | _ :: v => some (String.ofList v)
          | [] => none
        .flag (String.ofList (cs.takeWhile isNameChar)) value
    | _ => .name

/-- The value of a boolean flag, in any case; a flag without a value is on. -/
def boolValue? (value : String) : Option Bool :=
  let v := value.toLower
  if ["", "true", "t", "yes", "y", "1"].contains v then some true
  else if ["false", "f", "no", "n", "0"].contains v then some false
  else none

structure CompileArgs where
  isa : String := A64.targetName
  listing : Bool := false
  disassembly : Bool := false
  passes : Bool := false
  identityOrder : Bool := false
  executable : Bool := false
  names : List String := []
  deriving DecidableEq, Repr, Inhabited

namespace CompileArgs

def setBool? (a : CompileArgs) (name : String) (b : Bool) : Option CompileArgs :=
  match name with
  | "print" => some { a with listing := b }
  | "disasm" => some { a with disassembly := b }
  | "report-times" => some { a with passes := b }
  | "identity-order" => some { a with identityOrder := b }
  | "exec" => some { a with executable := b }
  | _ => none

/-- Reads a boolean flag, whose argument is repeated in complaints. -/
def readBool (a : CompileArgs) (arg name : String) (value : Option String) :
    Except Error CompileArgs :=
  match a.setBool? name true with
  | none => .error (.noSuchFlag arg)
  | some on =>
    match value with
    | none => .ok on
    | some v =>
      match boolValue? v with
      | some b => .ok ((a.setBool? name b).getD on)
      | none => .error (.notBool arg)

def parse (a : CompileArgs) : List String → Except Error CompileArgs
  | [] => .ok a
  | arg :: rest =>
    match Arg.ofString arg with
    | .name => parse { a with names := a.names ++ [arg] } rest
    | .endOfFlags => .ok { a with names := a.names ++ rest }
    | .flag "isa" (some v) => parse { a with isa := v } rest
    | .flag "isa" none =>
      match rest with
      | [] => .error (.valueRequired arg)
      | v :: rest => parse { a with isa := v } rest
    | .flag name value =>
      match a.readBool arg name value with
      | .ok a => parse a rest
      | .error e => .error e

def config (a : CompileArgs) : Config where
  isa := a.isa
  listing := a.listing
  disassembly := a.disassembly
  passes := a.passes
  order := if a.identityOrder then .identity else .fallthrough
  executable := a.executable

end CompileArgs

def report (a : CompileArgs) (c : Compiled) : String :=
  "function " ++ c.name ++ ":\n" ++
  (if a.listing then c.listing ++ "Machine code:\n" ++ c.words ++ "\n" else "") ++
  (if a.disassembly then c.disassembly else "") ++
  String.join (c.passes.map fun pass => Text.padRight 16 pass ++ " 0s\n") ++
  (if a.listing || a.disassembly then ""
    else s!"{c.codeSize.toNat} bytes of code, {c.code.length} bytes total\n")

/-- Compiles the functions in order, until one fails. -/
def compileAll (a : CompileArgs) : List String → Outcome
  | [] => {}
  | name :: rest =>
    match (do compile a.config (← Catalogue.find name) : Checked Compiled) with
    | .error f => { error := some (.failed f) }
    | .ok c =>
      let others := compileAll a rest
      { others with stdout := report a c ++ others.stdout }

def runCompile (args : List String) : Outcome :=
  match CompileArgs.parse {} args with
  | .error e => { error := some e }
  | .ok a => if a.names.isEmpty then { error := some .nothingToCompile } else compileAll a a.names

/-- The complaint about the arguments of a command that takes no names and has no flags: the first
one is refused, also if it only ends the flags. -/
def refuseArgs : List String → Option Error
  | [] => none
  | arg :: _ =>
    match Arg.ofString arg with
    | .flag _ _ => some (.noSuchFlag arg)
    | .name | .endOfFlags => some (.unexpectedArg arg)

def runList (args : List String) : Outcome :=
  match refuseArgs args with
  | some e => { error := some e }
  | none =>
    let line (name : String) : String :=
      match Catalogue.find name with
      | .ok f => Text.padRight 14 f.name ++ " " ++ f.doc ++ "\n"
      | .error _ => ""
    { stdout := String.join (Catalogue.names.map line) }

/-- Says which command an error belongs to. -/
def Outcome.ofCommand (name : String) (o : Outcome) : Outcome :=
  { o with error := o.error.map (.command name) }

/-- Carries out a command line, given without the name of the program. -/
def run (args : List String) : Outcome :=
  match args with
  | "compile" :: rest => (runCompile rest).ofCommand "compile"
  | "list" :: rest => (runList rest).ofCommand "list"
  | args => { error := refuseArgs args }

end Codegen.CommandLine
