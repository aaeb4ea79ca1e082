import Stencil.Text.Cut

/-!
# Command line arguments

An argument is an option, a group of short options, or a library file. An option with a
value takes what is attached to it, or else the next argument, unless that one looks like
an option. Behind a lone `--` every argument is a file. No option may be given twice,
except the class to give distinct colours.
-/

namespace Stencil

namespace CommandLine

inductive Flag where
  /-- Write two loops in the older style. -/
  | legacyLoops
  | check
  | grammar
  | verbose
  | help
  deriving DecidableEq, Repr, Inhabited

inductive Setting where
  | scene
  | messages
  | separator
  /-- A class to give distinct colours. -/
  | distinctColors
  deriving DecidableEq, Repr, Inhabited

inductive Choice where
  | flag (flag : Flag)
  | setting (setting : Setting)
  deriving DecidableEq, Repr, Inhabited

def Choice.ofName? : String → Option Choice
  | "scene" => some (.setting .scene)
  | "messages" => some (.setting .messages)
  | "separator" => some (.setting .separator)
  | "distinct-colors" => some (.setting .distinctColors)
  | "legacy-loops" => some (.flag .legacyLoops)
  | "check" => some (.flag .check)
  | "grammar" => some (.flag .grammar)
  | "verbose" => some (.flag .verbose)
  | "help" => some (.flag .help)
  | _ => none

def Choice.ofLetter? : Char → Option Choice
  | 's' => some (.setting .scene)
  | 'm' => some (.setting .messages)
  | 'c' => some (.flag .check)
  | 'g' => some (.flag .grammar)
  | 'v' => some (.flag .verbose)
  | 'h' => some (.flag .help)
  | _ => none

structure Arguments where
  libraries : List String
  scene? : Option String
  messages? : Option String
  separator? : Option Char
  distinctColors : List String
  flags : List Flag
  deriving DecidableEq, Repr, Inhabited

def Arguments.none : Arguments := ⟨[], .none, .none, .none, [], []⟩

def Arguments.has (a : Arguments) (flag : Flag) : Bool := a.flags.contains flag

inductive Misuse where
  | unknown (argument : String)
  | repeated (argument : String)
  | missingValue (argument : String)
  /-- The option has no value, or not this one. -/
  | invalidValue (argument value : String)
  deriving DecidableEq, Repr, Inhabited

def Misuse.message : Misuse → String
  | unknown argument => "unexpected argument '" ++ argument ++ "' found"
  | repeated argument => "the argument '" ++ argument ++ "' cannot be used multiple times"
  | missingValue argument => "a value is required for '" ++ argument ++ "'"
  | invalidValue argument value => "invalid value '" ++ value ++ "' for '" ++ argument ++ "'"

namespace Arguments

def setFlag (a : Arguments) (written : String) (flag : Flag) : Except Misuse Arguments :=
  if a.has flag then .error (.repeated written)
  else .ok { a with flags := a.flags ++ [flag] }

def checkFile (written file : String) : Except Misuse Unit :=
  if file.isEmpty then .error (.invalidValue written file) else .ok ()

def setValue (a : Arguments) (written : String) (setting : Setting) (value : String) :
    Except Misuse Arguments :=
  match setting with
  | .scene => do
      checkFile written value
      if a.scene?.isSome then throw (.repeated written)
      return { a with scene? := some value }
  | .messages => do
      checkFile written value
      if a.messages?.isSome then throw (.repeated written)
      return { a with messages? := some value }
  | .separator =>
      match value.toList with
      | [c] => do
          if a.separator?.isSome then throw (.repeated written)
          return { a with separator? := some c }
      | _ => throw (.invalidValue written value)
  | .distinctColors => return { a with distinctColors := a.distinctColors ++ [value] }

def addLibrary (a : Arguments) (file : String) : Except Misuse Arguments := do
  checkFile "LIBRARY" file
  return { a with libraries := a.libraries ++ [file] }

/-- Takes a group of short options, up to the one that asks for help. If the last one still
needs a value, it is returned too. -/
def takeGroup (a : Arguments) (written : String) :
    List Char → Except Misuse (Arguments × Option Setting)
  | [] => return (a, .none)
  | c :: rest =>
      match Choice.ofLetter? c with
      | .none => throw (.unknown written)
      | some (.flag flag) => do
          let a ← a.setFlag written flag
          if flag = .help then return (a, .none) else takeGroup a written rest
      | some (.setting setting) =>
          match rest with
          | [] => return (a, some setting)
          | '=' :: value => do
              return (← a.setValue written setting (String.ofList value), .none)
          | value => do return (← a.setValue written setting (String.ofList value), .none)

/-- Takes a long option. If it still needs a value, it is returned too. -/
def takeLong (a : Arguments) (written : String) (option : List Char) :
    Except Misuse (Arguments × Option Setting) :=
  let (name, value?) :=
    match Text.cutAt? '=' option with
    | some (name, value) => (name, some (String.ofList value))
    | .none => (option, .none)
  match Choice.ofName? (String.ofList name), value? with
  | .none, _ => throw (.unknown written)
  | some (.flag flag), .none => do return (← a.setFlag written flag, .none)
  | some (.flag _), some value => throw (.invalidValue written value)
  | some (.setting setting), .none => return (a, some setting)
  | some (.setting setting), some value => do
      return (← a.setValue written setting value, .none)

/-- Whether an argument looks like an option. A lone dash does not. -/
def looksLikeOption (argument : String) : Bool :=
  match argument.toList with
  | '-' :: _ :: _ => true
  | _ => false

/-- Takes the arguments one after the other. Once help is asked for, the others do not
count. -/
def takeAll (a : Arguments) : List String → Except Misuse Arguments
  | [] => return a
  | argument :: rest =>
      if a.has .help then return a
      else if argument = "--" then rest.foldlM addLibrary a
      else
        let taken : Except Misuse (Arguments × Option Setting) :=
          match argument.toList with
          | '-' :: '-' :: option => a.takeLong argument option
          | '-' :: c :: group => a.takeGroup argument (c :: group)
          | _ => do return (← a.addLibrary argument, .none)
        match taken with
        | .error e => throw e
        | .ok (a, .none) => takeAll a rest
        | .ok (a, some setting) =>
            match rest with
            | [] => throw (.missingValue argument)
            | value :: rest =>
                if looksLikeOption value then throw (.missingValue argument)
                else
                  match a.setValue argument setting value with
                  | .error e => throw e
                  | .ok a => takeAll a rest

def parse (arguments : List String) : Except Misuse Arguments := none.takeAll arguments

end Arguments

end CommandLine

end Stencil
