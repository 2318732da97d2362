import Kotlinize.Convert

namespace Kotlinize

/-!
# The command line

* `Request`, `Request.ofArgs` — what the arguments ask for.
* `ReadFault` — why a file cannot be read.
* `Response` — exit code and what is written to either stream.
* `Request.answer` — the response, given what reading each file yields.
-/

/-! ### Requests -/

/-- What is done with each file. -/
inductive Command where
  /-- Print the converted text. -/
  | convert
  /-- Print how many edits each stage made. -/
  | report
deriving DecidableEq, Repr

namespace Command

/-- The command's written name. -/
def name : Command → String
  | convert => "transpile"
  | report => "report"

/-- The command of a written name. -/
def named? (text : String) : Option Command :=
  [convert, report].find? fun command => command.name == text

end Command

/-- What the arguments ask for. -/
inductive Request where
  /-- How the program is used. -/
  | usage
  /-- A command that does not exist. -/
  | unknown (command : String)
  /-- A command without files. -/
  | nothing
  /-- A command on files. -/
  | files (command : Command) (paths : List String)
deriving DecidableEq, Repr

namespace Request

/-- The request of a list of arguments. Help is given only if it is the first of them. -/
def ofArgs : List String → Request
  | [] => usage
  | arg :: paths =>
    if arg == "--help" || arg == "-h" then usage
    else match Command.named? arg with
    | none => unknown arg
    | some command => if paths.isEmpty then nothing else files command paths

/-- The files that a request needs. -/
def paths : Request → List String
  | files _ paths => paths
  | _ => []

end Request

/-! ### Files -/

/-- Why a file cannot be read. -/
inductive ReadFault where
  /-- The system refused, for a reason with a number. -/
  | refused (reason : String) (code : Nat)
  /-- The file is not UTF-8 text. -/
  | notText
deriving DecidableEq, Repr

namespace ReadFault

/-- There is no such file. -/
def missing : ReadFault := refused "No such file or directory" 2

/-- The fault in words. -/
def message : ReadFault → String
  | refused reason code => s!"{reason} (os error {code})"
  | notText => "stream did not contain valid UTF-8"

end ReadFault

/-- The text of a file's bytes. -/
def decodeFile (bytes : ByteArray) : Except ReadFault String :=
  match String.fromUTF8? bytes with
  | some text => .ok text
  | none => .error .notText

/-! ### Responses -/

/-- What the program leaves behind: its exit code and the texts of the two streams. -/
structure Response where
  exitCode : Nat
  out : String
  err : String
deriving DecidableEq, Repr

/-- How the program is used. -/
def usageText : String :=
  "Usage: swiftkotlin <command> [files...]\n" ++
  "\n" ++
  "Commands:\n" ++
  "  transpile  Rewrite Swift file(s) and print Kotlin to stdout\n" ++
  "  report     Print the rewrites each stage applied\n" ++
  "\n" ++
  "Examples:\n" ++
  "  swiftkotlin transpile Model.swift\n" ++
  "  swiftkotlin report Sources/*.swift\n"

/-- A text filled with spaces up to a width. -/
def padded (width : Nat) (text : String) : String :=
  text ++ String.ofList (List.replicate (width - text.length) ' ')

/-- A report in words: the total, and a line for each stage. -/
def Report.lines (path : String) (r : Report) : String :=
  s!"{path}: {r.total} rewrite(s)\n" ++
    String.join (r.entries.map fun c => s!"  {padded 26 c.stage.name} {c.count}\n")

/-- What one file adds to the response: text for either stream, and whether it failed. -/
structure FileResponse where
  out : String
  err : String
  failed : Bool
deriving DecidableEq, Repr

/-- The response to a command on one file, given what reading it yields. -/
def Command.onFile (command : Command) (path : String) :
    Except ReadFault String → FileResponse
  | .error fault => ⟨"", s!"{path}: {fault.message}\n", true⟩
  | .ok source =>
    match convertWithReport .default source, command with
    | .error failure, _ => ⟨"", s!"{path}: {failure.message}\n", true⟩
    | .ok c, .convert => ⟨c.text, "", false⟩
    | .ok c, .report => ⟨"", c.report.lines path, false⟩

/-- The response to a request, given what reading each file yields. A file that fails does not
keep the later ones from being handled. -/
def Request.answer (read : String → Except ReadFault String) : Request → Response
  | usage => ⟨2, "", usageText⟩
  | unknown command => ⟨2, "", s!"Unknown command: {command}\n"⟩
  | nothing => ⟨2, "", "Error: no files specified\n"⟩
  | files command paths =>
    let responses := paths.map fun path => command.onFile path (read path)
    { exitCode := if responses.any FileResponse.failed then 1 else 0
      out := String.join (responses.map FileResponse.out)
      err := String.join (responses.map FileResponse.err) }

/-- A request for a command on files never ends as one that asks for nothing does. -/
theorem Request.exitCode_answer_files (read : String → Except ReadFault String)
    (command : Command) (paths : List String) :
    ((files command paths).answer read).exitCode ≤ 1 := by
  simp only [Request.answer]
  split <;> decide

end Kotlinize
