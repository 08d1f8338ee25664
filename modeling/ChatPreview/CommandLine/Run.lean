import ChatPreview.Command.Outline
import ChatPreview.CommandLine.Arguments
import ChatPreview.CommandLine.Disk
import ChatPreview.Preview
import ChatPreview.Settings.Basic
import ChatPreview.Text.Position
/-!
A run of the command line: what it writes, and how it ends.
-/
namespace ChatPreview.CommandLine
open Template (Catalog)

structure System extends Host where
  disk : Disk
  /-- Whether the console takes a text. -/
  prints : Text → Bool

/-- What stops a run without an exit code. -/
inductive Escape where
  | undecodable
  /-- The report has no code in its file. -/
  | unencodable
  /-- The console refuses the report. -/
  | unprinted
  | file (error : FileError) (name : FileName)
  | halt (why : Halt)
  /-- A template setting without its value. -/
  | noTemplate
  deriving DecidableEq, Repr

inductive Ending where
  | exit (code : Nat)
  | escape (reason : Escape)
  deriving DecidableEq, Repr

/-- What a run leaves: its output, and the file that it put its report into. -/
structure Report where
  ending : Ending
  stdout : Text
  stderr : String
  written : Option (FileName × List Char)
  deriving DecidableEq, Repr

namespace Report

def silent (ending : Ending) : Report := ⟨ending, [], "", none⟩

def failed (message : String) : Report := ⟨.exit 2, [], s!"error: {message}\n", none⟩

end Report

def help : String :=
  "usage: tellraw-preview [-h] [-o OUTPUT] [--config FILE] [--prefix PREFIX]\n" ++
  "                       [--template TEMPLATE] [--no-errors] [--debug] input\n"

/-- Text in files: line ends are read as single line feeds. -/
def joinReturns : List Char → List Char
  | '\r' :: '\n' :: s => '\n' :: joinReturns s
  | '\r' :: s => '\n' :: joinReturns s
  | c :: s => c :: joinReturns s
  | [] => []

inductive Unsettled where
  | config (message : String)
  | template (fault : Template.Fault)
  | escape (reason : Escape)
  deriving Repr

def Unsettled.ofToml : Toml.Error → Unsettled
  | .malformed message => .config message
  | .halt why => .escape (.halt why)

structure Options where
  input : FileName
  output : Option FileName
  settings : Settings
  debug : Bool

def inputName (a : Arguments) : FileName := .ofChars a.input

def configFile (a : Arguments) : FileName :=
  match a.file? .config with
  | some name => .ofChars name
  | none => (inputName a).sibling configName

def decodeConfig (host : Host) (bytes : ByteArray) : Except Unsettled Toml.Table :=
  match String.fromUTF8? bytes with
  | none => .error (.escape .undecodable)
  | some text => (host.toml text.toList).mapError .ofToml

/-- The configuration in a file; there is none where there is no file. -/
def readConfig (system : System) (name : FileName) : Except Unsettled Toml.Table := do
  let failed (e : FileError) : Unsettled := .escape (.file e name)
  if ← (system.disk.isFile name).mapError failed then
    decodeConfig system.toHost (← (system.disk.read name).mapError failed)
  else return []

def templateOf : Option (List Char) → Except Unsettled Template
  | some text => (Template.parse text).mapError .template
  | none => .error (.escape .noTemplate)

def catalogOf (host : Host) (config : Toml.Table) (a : Arguments) : Except Unsettled Catalog := do
  let texts ← (Settings.templates host.templateLevels config).mapError fun why =>
    .escape (.halt why)
  let known ← (Settings.extended texts).mapError .template
  return known ++ (← a.templates.mapM templateOf)

/-- The command line goes before the configuration. -/
def resolve (system : System) (a : Arguments) : Except Unsettled Options := do
  let config ← readConfig system (configFile a)
  let lead := (a.lead?.or (Settings.lead? config)).getD Settings.standard.lead
  let showErrors := if a.has .noErrors then false
    else (Settings.showErrors? config).getD Settings.standard.showErrors
  let catalog ← catalogOf system.toHost config a
  return { input := inputName a, output := (a.file? .output).map .ofChars,
           settings := ⟨lead, showErrors, catalog⟩, debug := a.has .debug }

structure Entry where
  line : Nat
  column : Nat
  preview : Preview

def Entry.shown (s : Settings) (e : Entry) : Option Text :=
  match e.preview with
  | .text t => some (Text.ofString s!"{e.line}:{e.column}:" ++ Text.ofChars s.lead ++ t)
  | .failure why =>
    if s.showErrors then some (Text.ofString s!"{e.line}:{e.column}: error: {why.text}") else none

def entries (source : List Char) (previews : List (Command × Preview)) : List Entry :=
  previews.map fun (c, p) =>
    let place := locate source c.position
    ⟨place.line, place.column, p⟩

def reportText (s : Settings) (es : List Entry) : Text :=
  Text.unlines (es.filterMap (·.shown s))

def exitCode (es : List Entry) : Nat := if es.all (·.preview.ok) then 0 else 1

/-! ## The log -/

def readingLog (cs : List Command) : List String :=
  cs.filterMap fun c => c.error.map fun e =>
    s!"tellraw_preview.lexer: command at offset {c.start} stopped early: {e.message}"

def previewLine? : Preview.Subject → Preview → Option String
  | .message raw, .failure why =>
    some s!"message {Text.quotedChars raw} rejected: {why.text}"
  | .trailing e, _ => some s!"trailing text after message at offset {e.offset}"
  | _, _ => none

/-- What is logged of each preview, up to one that stops the run. -/
def previewLog (host : Host) (catalog : Catalog) : List Command → List String
  | [] => []
  | c :: rest =>
    match Preview.subject catalog c with
    | none => previewLog host catalog rest
    | some s =>
      match Preview.ofSubject host s with
      | .error _ => []
      | .ok p =>
        ((previewLine? s p).map ("tellraw_preview.preview: " ++ ·)).toList ++
          previewLog host catalog rest

def debugLog (host : Host) (catalog : Catalog) (cs : List Command) : String :=
  unlines (readingLog cs) ++ outline cs ++ unlines (readingLog cs) ++
    unlines (previewLog host catalog cs)

/-! ## The run -/

def print (system : System) (log : String) (text : Text) (code : Nat) : Report :=
  if system.prints text then ⟨.exit code, text, log, none⟩ else ⟨.escape .unprinted, [], log, none⟩

/-- Puts a report into a file. The file is empty when it turns out that the report has no code. -/
def save (disk : Disk) (name : FileName) (log : String) (text : Text) (code : Nat) : Report :=
  let chars := (Text.chars? text).getD []
  match disk.write name chars with
  | some e => ⟨.escape (.file e name), [], log, none⟩
  | none =>
    let ending := if (Text.chars? text).isSome then .exit code else .escape .unencodable
    ⟨ending, [], log, some (name, chars)⟩

def deliver (system : System) (o : Options) (log : String) (report : Text) (code : Nat) : Report :=
  match o.output with
  | none => print system log report code
  | some name => save system.disk name log report code

def preview (system : System) (o : Options) (source : List Char) : Report :=
  let cs := commands source
  let log := if o.debug then debugLog system.toHost o.settings.catalog cs else ""
  match Preview.ofCommands system.toHost o.settings.catalog cs with
  | .error why => ⟨.escape (.halt why), [], log, none⟩
  | .ok previews =>
    let es := entries source previews
    deliver system o log (reportText o.settings es) (exitCode es)

def runWith (system : System) (a : Arguments) : Report :=
  match resolve system a with
  | .error (.config message) => .failed message
  | .error (.template e) => .failed e.message
  | .error (.escape reason) => .silent (.escape reason)
  | .ok o =>
    match system.disk.read o.input with
    | .error .nullInName => .silent (.escape (.file .nullInName o.input))
    | .error e => .failed (e.message o.input)
    | .ok bytes =>
      match String.fromUTF8? bytes with
      | none => .silent (.escape .undecodable)
      | some text => preview system o (joinReturns text.toList)

def run (system : System) (words : List (List Char)) : Report :=
  match parse words with
  | .error .help => print system "" (Text.ofString help) 0
  | .error (.usage e) => .failed e.message
  | .ok a => runWith system a

end ChatPreview.CommandLine
