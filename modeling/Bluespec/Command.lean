import Bluespec.Folder
import Bluespec.Parse
import Bluespec.Tree.Outline

/-!
# The command

The command parses the files that it is given and reports what is wrong with them.

* **`Command`** — what the command is asked to do; `Command.ofArgs` reads it off the arguments.
* **`Report`** — what is written, and how it went.
* **`Command.check`** — the report on one file.
* **`Command.run`** — the report on a list of arguments.
-/

namespace Bluespec

/-! ## Arguments -/

/-- What the command is asked to do. -/
structure Command where
  /-- How many diagnostics a file gets. -/
  recovery : Recovery
  /-- Whether the outline of each file is written. -/
  dump : Bool
  /-- The paths of the files. -/
  files : List String
deriving DecidableEq, Repr

/-- What can be wrong with the arguments. -/
inductive UsageError
  /-- An option that there is not. -/
  | unknownOption (option : String)
  | noFiles
deriving DecidableEq, Repr

/-- What is said about wrong arguments. -/
def UsageError.message : UsageError → String
  | unknownOption option => "unknown option `" ++ option ++ "`"
  | noFiles => "no input files"

/-- The role of an argument: everything that starts with two dashes is an option. -/
inductive Arg
  | firstError
  | dump
  | unknown (option : String)
  | file (path : String)
deriving DecidableEq, Repr

/-- The role of an argument. -/
def Arg.ofText (text : String) : Arg :=
  if text = "--first-error" then firstError
  else if text = "--dump" then dump
  else if text.startsWith "--" then unknown text
  else file text

namespace Command

/-- The command that no argument has changed yet. -/
def empty : Command := ⟨.collectAll, false, []⟩

/-- Adds arguments to a command, in order; the first unknown option is at fault. -/
def addArgs (c : Command) : List String → Except UsageError Command
  | [] => .ok c
  | text :: texts =>
    match Arg.ofText text with
    | .firstError => { c with recovery := .firstError }.addArgs texts
    | .dump => { c with dump := true }.addArgs texts
    | .file path => { c with files := c.files ++ [path] }.addArgs texts
    | .unknown option => .error (.unknownOption option)

/-- The command that the arguments ask for; it names at least one file. -/
def ofArgs (args : List String) : Except UsageError Command := do
  let c ← empty.addArgs args
  if c.files.isEmpty then .error .noFiles else .ok c

end Command

/-! ## Reports -/

/-- How it went. -/
inductive Outcome
  /-- Every file was read and parsed without a diagnostic. -/
  | clean
  /-- A file could not be read, or has a diagnostic. -/
  | faulty
  /-- The arguments are wrong. -/
  | misused
deriving DecidableEq, Repr

/-- The exit code of an outcome. -/
def Outcome.code : Outcome → Nat
  | clean => 0
  | faulty => 1
  | misused => 2

/-- What is written, and how it went. -/
structure Report where
  /-- The text for the standard output. -/
  output : String
  /-- The text for the standard error. -/
  errors : String
  /-- How it went. -/
  outcome : Outcome
deriving DecidableEq, Repr

namespace Report

/-- The report on no file. -/
def empty : Report := ⟨"", "", .clean⟩

/-- Two reports on files, one after the other. -/
def append (a b : Report) : Report :=
  ⟨a.output ++ b.output, a.errors ++ b.errors, if a.outcome = .clean then b.outcome else a.outcome⟩

/-- The report on wrong arguments. -/
def ofUsageError (e : UsageError) : Report :=
  ⟨"", "bsvparse: " ++ e.message ++ "\nusage: bsvparse [--first-error] [--dump] FILE...\n", .misused⟩

end Report

/-- The line of a diagnostic: path, line, column, severity and message. -/
def Diagnostic.line (path : String) (lines : LineIndex) (d : Diagnostic) : String :=
  let p := d.position lines
  path ++ ":" ++ p.line.repr ++ ":" ++ p.column.repr ++ ": " ++ d.severity ++ ": " ++ d.message ++ "\n"

namespace Command

/-- The report on a source. -/
def checkSource (c : Command) (path source : String) : Report :=
  let parsed := parse source c.recovery
  { output := if c.dump then parsed.root.outline.render ++ "\n" else ""
    errors := String.join (parsed.diagnostics.map (Diagnostic.line path (LineIndex.ofText source.toList)))
    outcome := if parsed.isOk then .clean else .faulty }

/-- The report on one file, of which either the text or the reason why there is none is given. -/
def check (c : Command) (path : String) : Except ReadError String → Report
  | .ok source => c.checkSource path source
  | .error e => ⟨"", path ++ ": " ++ e.message ++ "\n", .faulty⟩

/-- Runs the command on its arguments, with a way to read a file. -/
def run [Monad m] (read : String → m (Except ReadError String)) (args : List String) : m Report :=
  match ofArgs args with
  | .error e => pure (.ofUsageError e)
  | .ok c => do
    let reports ← c.files.mapM fun path => do return c.check path (← read path)
    return reports.foldl Report.append .empty

/-- Runs the command in a folder. -/
def runIn (f : Folder) (args : List String) : Report := Id.run (run (fun path => pure (f.read path)) args)

end Command

end Bluespec
