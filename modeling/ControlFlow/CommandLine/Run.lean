import ControlFlow.CommandLine.FileTree
import ControlFlow.CommandLine.Options
import ControlFlow.Graph.Drawing
import ControlFlow.Pruning
import ControlFlow.Tree.Format

/-! # Running a command

A command reads a module, writes one text about it, and ends with a code: 0 for success, 1 for a
module that cannot be read or has not the function asked for, 2 for files and arguments, and 101
where an analysis gives up.
-/

namespace ControlFlow.CommandLine

def versionText : String := "qcc 0.3.1\n"

def helpText : String :=
  "Usage: qcc [OPTIONS] <MODULE>\n\n" ++
  "  --emit <EMIT>          dot, unreachable, prune or stats [default: dot]\n" ++
  "  -f, --function <NAME>  analyse this function instead of the module body\n" ++
  "  -o, --output <PATH>    output file (default: standard output)\n" ++
  "  --verbose              print progress\n"

/-- What a command leaves behind. -/
structure Outcome where
  code : UInt32
  stdout : String
  stderr : String
  /-- A text that is still to be written, with its path. -/
  file : Option (String × String)

namespace Outcome

/-- A command that only writes to its standard output. -/
def printed (text : String) : Outcome := ⟨0, text, "", none⟩

/-- A line on the error output. -/
def note (text : String) : String := "qcc: " ++ text ++ "\n"

/-- The command fails after some progress. -/
def failed (code : UInt32) (progress reason : String) : Outcome :=
  ⟨code, "", progress ++ note ("error: " ++ reason), none⟩

def fileFailed (progress path : String) (fault : FileFault) : Outcome :=
  failed 2 progress ("cannot read " ++ path ++ ": " ++ fault.message)

/-- An analysis gave up. What it says, if anything, is logged and then said as the last words. -/
def gaveUp (progress : String) (why : AnalysisFault) : Outcome :=
  let words (how : String) : String := (why.message.map fun m => how ++ m ++ "\n").getD ""
  ⟨101, "", progress ++ words "ERROR " ++ words "gave up: ", none⟩

def scopeFailed (progress : String) (fault : ScopeFault) : Outcome :=
  match fault with
  | .unknownFunction m f =>
      failed 1 progress ((ScopeFault.unknownFunction m f).message.getD "")
  | .analysis why => gaveUp progress why

end Outcome

/-- The lines about nodes that no edge enters and nodes that are not used. -/
def unreachableText (a : Analysis) (unused : List NodeId) : String :=
  let line (title : String) (n : NodeId) : String :=
    title ++ "\t" ++ (a.graph.nodes[n]?.map Point.label).getD ""
  "\n".intercalate (a.graph.unreachable.map (line "unreachable") ++ unused.map (line "unused"))

def statisticsText (a : Analysis) (fingerprint : String) : String :=
  "nodes: " ++ Text.decimal a.graph.nodes.length ++ "\nedges: " ++
    Text.decimal a.graph.edges.length ++ "\nfingerprint: " ++ fingerprint

def stageText (m : Module) (function : Option String) : Stage → Except ScopeFault String
  | .prune => return (← m.prune function).1.indented
  | .drawing => do inScope (← m.graph function) Analysis.draw
  | .statistics => do
      inScope (← m.graph function) fun a => return statisticsText a (← a.fingerprint)
  | .unreachable => do
      inScope (← m.graph function) fun a => return unreachableText a (← a.unused)
where
  /-- Analyse a graph and write about it. -/
  inScope (g : Graph) (write : Analysis → Except AnalysisFault String) :
      Except ScopeFault String :=
    match Analysis.ofSolved g with
    | .error why => .error (.analysis why)
    | .ok a =>
        match write a with
        | .error why => .error (.analysis why)
        | .ok text => .ok text

/-- What is said about the progress of a command. -/
def progressText (options : Options) (m : Module) : String :=
  if options.verbose then
    Outcome.note ("module = " ++ m.name) ++ Outcome.note ("emit   = " ++ options.stage.title)
  else ""

/-- The outcome of a command on the text that its path leads to. -/
def outcome (options : Options) (source : Except FileFault String) : Outcome :=
  match source with
  | .error fault => .fileFailed "" options.path fault
  | .ok source =>
      match Module.parse source with
      | .error _ => .failed 1 "" "malformed module"
      | .ok m =>
          let progress := progressText options m
          match stageText m options.function options.stage with
          | .error fault => .scopeFailed progress fault
          | .ok text =>
              match options.output with
              | none => ⟨0, text ++ "\n", progress, none⟩
              | some path => ⟨0, "", progress, some (path, text ++ "\n")⟩

/-- Run a command in a tree of files. -/
def run (arguments : List String) (tree : FileTree) : Outcome × FileTree :=
  match Invocation.ofArguments arguments with
  | .version => (.printed versionText, tree)
  | .help => (.printed helpText, tree)
  | .misuse => (⟨2, "", "", none⟩, tree)
  | .run options =>
      let done := outcome options (tree.read options.path)
      match done.file with
      | none => (done, tree)
      | some (path, text) =>
          match tree.write path text with
          | .ok tree => ({ done with file := none }, tree)
          | .error fault => (.fileFailed done.stderr path fault, tree)

end ControlFlow.CommandLine
