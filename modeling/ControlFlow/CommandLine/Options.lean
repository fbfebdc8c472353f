/-! # Options of the command line

Arguments are read from left to right, and the first of them that is wrong or asks for the
version or for help decides. An option takes the rest of its own argument or the next argument
for its value; arguments after `--` are never options.
-/

namespace ControlFlow.CommandLine

/-- What is written about a module. -/
inductive Stage where
  /-- The drawing of the graph. -/
  | drawing
  /-- The statements that are not reached or not used. -/
  | unreachable
  /-- The pruned module. -/
  | prune
  /-- The size of the graph and the digest of its drawing. -/
  | statistics
deriving DecidableEq

namespace Stage

/-- The stage that a value of `--emit` names. -/
def ofName? : String → Option Stage
  | "dot" => some drawing
  | "unreachable" => some unreachable
  | "prune" => some prune
  | "stats" => some statistics
  | _ => none

def title : Stage → String
  | drawing => "Dot"
  | unreachable => "Unreachable"
  | prune => "Prune"
  | statistics => "Stats"

end Stage

/-- What the user asked for. -/
structure Options where
  path : String
  stage : Stage
  function : Option String
  output : Option String
  verbose : Bool

/-- What a list of arguments amounts to. -/
inductive Invocation where
  | run (options : Options)
  | version
  | help
  | misuse

/-- The options that have been given so far. -/
structure Given where
  path : Option String
  stage : Option Stage
  function : Option String
  output : Option String
  verbose : Bool

/-- The options that take a value. -/
inductive Valued where
  | emit
  | function
  | output

namespace Given

def nothing : Given := ⟨none, none, none, none, false⟩

/-- Take the value of an option, which may be given once and has to be fit. -/
def take (g : Given) (option : Valued) (value : String) : Option Given :=
  match option with
  | .emit =>
      match g.stage, Stage.ofName? value with
      | none, some stage => some { g with stage := some stage }
      | _, _ => none
  | .function => if g.function.isNone then some { g with function := some value } else none
  | .output =>
      if g.output.isNone && value ≠ "" then some { g with output := some value } else none

def takePath (g : Given) (path : String) : Option Given :=
  if g.path.isNone && path ≠ "" then some { g with path := some path } else none

/-- All that was given, if there is a module among it. -/
def finish (g : Given) : Invocation :=
  match g.path with
  | some path => .run ⟨path, g.stage.getD .drawing, g.function, g.output, g.verbose⟩
  | none => .misuse

end Given

/-- What one argument turns out to be. -/
inductive Argument where
  | path (path : String)
  | version
  | help
  | verbose
  /-- An option with its value in the same argument, if it is there. -/
  | option (option : Valued) (value : Option String)
  /-- No option follows any more. -/
  | separator
  | unknown

/-- An option by its long name, with what follows an equals sign. -/
def longOption (name : String) (value : Option String) : Argument :=
  match name, value with
  | "emit", value => .option .emit value
  | "function", value => .option .function value
  | "output", value => .option .output value
  | "verbose", none => .verbose
  | "version", none => .version
  | "help", none => .help
  | _, _ => .unknown

/-- The value that stands in the same argument as a short option: an equals sign before it does
not belong to it. -/
def attached : List Char → Option String
  | [] => none
  | '=' :: value => some (String.ofList value)
  | value => some (String.ofList value)

/-- What an argument is, by its first characters. -/
def Argument.ofChars : List Char → Argument
  | ['-', '-'] => .separator
  | '-' :: '-' :: rest =>
      let name := String.ofList (rest.takeWhile fun c => c ≠ '=')
      match rest.dropWhile fun c => c ≠ '=' with
      | _ :: value => longOption name (some (String.ofList value))
      | [] => longOption name none
  | '-' :: 'f' :: rest => .option .function (attached rest)
  | '-' :: 'o' :: rest => .option .output (attached rest)
  | '-' :: 'V' :: _ => .version
  | '-' :: 'h' :: _ => .help
  | '-' :: _ :: _ => .unknown
  | cs => .path (String.ofList cs)

/-- Whether an argument can be the value of the option before it. -/
def isValue (argument : String) : Bool :=
  match Argument.ofChars argument.toList with
  | .path _ => true
  | _ => false

def takePaths : List String → Given → Invocation
  | [], g => g.finish
  | argument :: rest, g =>
      match g.takePath argument with
      | some g => takePaths rest g
      | none => .misuse

/-- Take arguments one after the other; an option whose value is still to come waits. -/
def takeArguments : List String → Option Valued → Given → Invocation
  | [], none, g => g.finish
  | [], some _, _ => .misuse
  | argument :: rest, some option, g =>
      if isValue argument then
        match g.take option argument with
        | some g => takeArguments rest none g
        | none => .misuse
      else .misuse
  | argument :: rest, none, g =>
      match Argument.ofChars argument.toList with
      | .path path =>
          match g.takePath path with
          | some g => takeArguments rest none g
          | none => .misuse
      | .version => .version
      | .help => .help
      | .verbose =>
          if g.verbose then .misuse else takeArguments rest none { g with verbose := true }
      | .option option (some value) =>
          match g.take option value with
          | some g => takeArguments rest none g
          | none => .misuse
      | .option option none => takeArguments rest (some option) g
      | .separator => takePaths rest g
      | .unknown => .misuse

/-- What a list of arguments amounts to. -/
def Invocation.ofArguments (arguments : List String) : Invocation :=
  takeArguments arguments none .nothing

end ControlFlow.CommandLine
