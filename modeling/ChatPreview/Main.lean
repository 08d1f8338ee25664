import ChatPreview.CommandLine.Run
/-!
The program: a run of the command line on the real files.
-/
namespace ChatPreview.CommandLine

/-- What the system's refusal to open a file says of its name. It gives its numbers as they are or
negated. -/
def targetOf : IO.Error → Target
  | .noFileOrDirectory _ _ _ => .vacant
  | .inappropriateType _ number _ =>
    if number = 20 ∨ number = 0 - 20 then .lost .notFolder else .folder
  | .permissionDenied _ _ _ => .locked .denied
  | .invalidArgument _ number e =>
    if number = 36 ∨ number = 0 - 36 then .lost .tooLong
    else if number = 40 ∨ number = 0 - 40 then .lost .loop
    else .locked (.other e)
  | e => .locked (.other (toString e))

abbrev Found := FileName × Target

def findFile (name : FileName) : IO Found := do
  if name.chars.contains '\x00' then return (name, .lost .nullInName)
  match ← (IO.FS.readBinFile name.text).toBaseIO with
  | .ok bytes => return (name, .file bytes)
  | .error e => return (name, targetOf e)

def diskOf (found : List Found) : Disk :=
  let target (name : FileName) := (found.lookup name).getD .vacant
  { Disk.ofTargets target with write := fun _ _ => none }

def filesRead (words : List (List Char)) : List FileName :=
  match parse words with
  | .ok a => [inputName a, configFile a]
  | .error _ => []

def conclude : Ending → IO UInt32
  | .exit code => return UInt32.ofNat code
  | .escape .undecodable => throw (.userError "a file is not UTF-8")
  | .escape .unencodable => throw (.userError "the report has half a surrogate pair in it")
  | .escape .unprinted => throw (.userError "the console does not take the report")
  | .escape (.file e name) => throw (.userError (e.message name))
  | .escape (.halt why) => throw (.userError why.message)
  | .escape .noTemplate => throw (.userError "a template has no text")

end ChatPreview.CommandLine

open ChatPreview CommandLine in
def main (args : List String) : IO UInt32 := do
  let words := args.map String.toList
  let found ← (filesRead words).mapM findFile
  let system : System :=
    { Host.standard with disk := diskOf found, prints := fun t => (Text.chars? t).isSome }
  let report := run system words
  (← IO.getStderr).putStr report.stderr
  (← IO.getStdout).putStr (String.ofList ((Text.chars? report.stdout).getD []))
  if let some (name, text) := report.written then
    IO.FS.writeFile name.text (String.ofList text)
  conclude report.ending
