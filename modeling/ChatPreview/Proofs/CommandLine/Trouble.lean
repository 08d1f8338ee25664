import ChatPreview.Proofs.CommandLine.Flags
/-!
Files that cannot be opened, decoded or written: which of them a run reports, and which stop it.
-/
namespace ChatPreview.CommandLine
open Template (Catalog)

inductive Trouble where
  /-- The configuration cannot be looked up or opened. -/
  | config (e : FileError)
  | configCode
  | configText (message : String)
  /-- The decoder of the configuration gives up. -/
  | configHalt (why : Halt)
  /-- The input cannot be opened. -/
  | input (e : FileError)
  | inputCode
  /-- The report cannot be put into its file. -/
  | output (e : FileError) (name : FileName)
  /-- The report has no code in its file. -/
  | outputCode (name : FileName)
  /-- The console does not take the report. -/
  | console

/-- How trouble ends a run: with what is said of it, or with what stops the run and the file that it
leaves. -/
inductive Outcome where
  | reported (message : String)
  | stopped (reason : Escape) (left : Option (FileName × List Char))

/-- Only a malformed configuration and an input that cannot be opened are reported. A report without
a code leaves its file empty. -/
def Trouble.outcome (a : Arguments) : Trouble → Outcome
  | .configText message => .reported message
  | .input e =>
    if e = .nullInName then .stopped (.file e (inputName a)) none
    else .reported (e.message (inputName a))
  | .config e => .stopped (.file e (configFile a)) none
  | .output e name => .stopped (.file e name) none
  | .configCode => .stopped .undecodable none
  | .configHalt why => .stopped (.halt why) none
  | .inputCode => .stopped .undecodable none
  | .outputCode name => .stopped .unencodable (some (name, []))
  | .console => .stopped .unprinted none

/-- Code 2 and a line of what is said are all that a reported trouble leaves; a run that is stopped
prints no report. -/
def Ends (r : Report) : Outcome → Prop
  | .reported message => r = ⟨.exit 2, [], s!"error: {message}\n", none⟩
  | .stopped reason left => r.ending = .escape reason ∧ r.stdout = [] ∧ r.written = left

section
variable {system : System} {a : Arguments}

end

end ChatPreview.CommandLine
