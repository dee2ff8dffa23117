import Pebble.Decimal.Read

/-!
# Arguments of the command line

Arguments are read from left to right: flags, settings with a number, and one file. The first
argument that makes no sense ends the reading, and so does a request for the version or for help.
-/

namespace Pebble

inductive Flag where
  | tokens | noColor | pretty | ast | bytecode | json | noOpt | debug
deriving DecidableEq, Repr

/-- Settings that take a number. -/
inductive Setting where
  | maxSteps | maxCallDepth
deriving DecidableEq, Repr

def Flag.ofName? : String → Option Flag
  | "tokens" => some tokens
  | "no-color" => some noColor
  | "pretty" => some pretty
  | "ast" => some ast
  | "bc" | "bytecode" => some bytecode
  | "json" => some json
  | "no-opt" => some noOpt
  | "debug" => some debug
  | _ => none

def Setting.ofName? : String → Option Setting
  | "max-steps" => some maxSteps
  | "max-call-depth" => some maxCallDepth
  | _ => none

/-- What the arguments ask for. -/
structure Invocation where
  flags : List Flag
  settings : List (Setting × Nat)
  /-- The program to work on. -/
  file : String
deriving DecidableEq, Repr

namespace Invocation

def has (i : Invocation) (f : Flag) : Bool :=
  i.flags.contains f

def setting? (i : Invocation) (s : Setting) : Option Nat :=
  i.settings.lookup s

end Invocation

inductive Request where
  | invoke (i : Invocation)
  | version
  | help
  /-- The arguments make no sense. -/
  | refuse
deriving DecidableEq, Repr

/-- What has been read of the arguments. -/
structure Draft where
  flags : List Flag
  settings : List (Setting × Nat)
  file : Option String

namespace Draft

def empty : Draft := ⟨[], [], none⟩

/-- A flag can be given once. -/
def addFlag? (d : Draft) (f : Flag) : Option Draft :=
  if d.flags.contains f then none else some { d with flags := f :: d.flags }

/-- The number of a setting: digits, perhaps after a plus sign, below `2 ^ 64`. -/
def number? (cs : List Char) : Option Nat :=
  let digits := match cs with
    | '+' :: cs => cs
    | cs => cs
  (Decimal.readNat? digits).filter (· < 1 <<< 64)

/-- A setting can be given once. -/
def addSetting? (d : Draft) (s : Setting) (value : String) : Option Draft :=
  if (d.settings.lookup s).isSome then none
  else (number? value.toList).map fun n ↦ { d with settings := (s, n) :: d.settings }

/-- There is one file, and its name is not empty. -/
def addFile? (d : Draft) (file : String) : Option Draft :=
  if d.file.isSome || file.isEmpty then none else some { d with file := some file }

def finish (d : Draft) : Request :=
  match d.file with
  | none => .refuse
  | some file => .invoke ⟨d.flags, d.settings, file⟩

end Draft

/-- An argument by its form. -/
inductive Argument where
  /-- `--` -/
  | endOfFlags
  /-- `--name` or `--name=value` -/
  | long (name : String) (value : Option String)
  /-- `-letters` -/
  | short (letters : List Char)
  | plain (s : String)
deriving DecidableEq, Repr

namespace Argument

def ofString (s : String) : Argument :=
  match s.toList with
  | ['-', '-'] => endOfFlags
  | '-' :: '-' :: cs =>
    match cs.span (· != '=') with
    | (name, []) => long (String.ofList name) none
    | (name, _ :: value) => long (String.ofList name) (some (String.ofList value))
  | '-' :: c :: cs => short (c :: cs)
  | _ => plain s

/-- Whether an argument can be the value of the setting before it. -/
def isPlain (s : String) : Bool :=
  match ofString s with
  | plain _ => true
  | _ => false

end Argument

/-- Reads files only. -/
def readFiles (d : Draft) : List String → Request
  | [] => d.finish
  | s :: rest =>
    match d.addFile? s with
    | none => .refuse
    | some d => readFiles d rest

/-- Reads arguments after those of a draft. -/
def readArguments (d : Draft) : List String → Request
  | [] => d.finish
  | s :: rest =>
    match Argument.ofString s with
    | .endOfFlags => readFiles d rest
    | .plain s =>
      match d.addFile? s with
      | none => .refuse
      | some d => readArguments d rest
    | .short ('V' :: _) => .version
    | .short ('h' :: _) => .help
    | .short _ => .refuse
    | .long "version" none => .version
    | .long "help" none => .help
    | .long name value =>
      match Flag.ofName? name, Setting.ofName? name, value, rest with
      | some f, _, none, rest =>
        match d.addFlag? f with
        | none => .refuse
        | some d => readArguments d rest
      | _, some s, some value, rest =>
        match d.addSetting? s value with
        | none => .refuse
        | some d => readArguments d rest
      | _, some s, none, value :: rest =>
        if Argument.isPlain value then
          match d.addSetting? s value with
          | none => .refuse
          | some d => readArguments d rest
        else .refuse
      | _, _, _, _ => .refuse
termination_by args => args.length

/-- What a command line asks for. -/
def Request.ofArguments (args : List String) : Request :=
  readArguments .empty args

end Pebble
