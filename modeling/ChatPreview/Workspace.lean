import ChatPreview.Preview
import ChatPreview.Settings.Basic
import ChatPreview.Text.Position
/-!
An editor's workspace: open documents, whose failed previews are diagnostics and whose other
previews are hints at the end of their commands.
-/
namespace ChatPreview

structure Place where
  line : Nat
  column : Nat
  deriving DecidableEq, Repr

structure Diagnostic where
  first : Place
  last : Place
  message : String
  deriving Repr

structure Hint where
  place : Place
  label : Text
  deriving Repr

/-- The configuration is missing when the workspace has no folder. -/
structure Workspace where
  config : Option (List Char)
  documents : List (String × List Char)

namespace Workspace

def placeAt (source : List Char) (offset : Nat) : Place :=
  let p := locate source offset
  ⟨p.line - 1, p.column - 1⟩

/-- A configuration that cannot be read leaves the standard settings, unless what stops the reading
is no fault of it. -/
def settings (host : Host) (w : Workspace) : Except Halt Settings :=
  match w.config.map host.toml with
  | none => .ok .standard
  | some (.error (.halt why)) => .error why
  | some (.error (.malformed _)) => .ok .standard
  | some (.ok config) =>
    match Settings.ofConfig host.templateLevels config with
    | .error why => .error why
    | .ok (.error _) => .ok .standard
    | .ok (.ok s) => .ok s

def source (w : Workspace) (document : String) : List Char :=
  (w.documents.lookup document).getD []

def put (w : Workspace) (document : String) (text : List Char) : Workspace :=
  { w with documents := (document, text) :: w.documents.filter (·.1 != document) }

def configure (w : Workspace) (text : List Char) : Workspace :=
  { w with config := w.config.map fun _ => text }

def diagnostic? (source : List Char) : Command × Preview → Option Diagnostic
  | (c, .failure why) => some ⟨placeAt source c.position, placeAt source c.stop, why.text⟩
  | _ => none

def diagnostics (host : Host) (w : Workspace) (document : String) :
    Except Halt (List Diagnostic) := do
  let settings ← w.settings host
  let source := w.source document
  let previews ← Preview.ofDocument host settings.catalog source
  return if settings.showErrors then previews.filterMap (diagnostic? source) else []

def label (mark : List Char) (text : Text) : Text :=
  if mark.isEmpty then text else Text.ofChars mark ++ .scalar ' ' :: text

def hint? (source mark : List Char) : Command × Preview → Option Hint
  | (c, .text t) => some ⟨placeAt source c.stop, label mark t⟩
  | _ => none

def hints (host : Host) (w : Workspace) (document : String) (range : Option (Nat × Nat)) :
    Except Halt (List Hint) := do
  let settings ← w.settings host
  let source := w.source document
  let previews ← Preview.ofDocument host settings.catalog source
  let hints := previews.filterMap (hint? source (Text.trim settings.lead))
  return match range with
    | none => hints
    | some (first, last) => hints.filter fun h => first ≤ h.place.line && h.place.line ≤ last

end Workspace
end ChatPreview
