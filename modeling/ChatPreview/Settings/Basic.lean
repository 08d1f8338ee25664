import ChatPreview.Template.Parse
import ChatPreview.Toml.Item

namespace ChatPreview
open Template (Catalog)

/-- `lead` stands before each preview. -/
structure Settings where
  lead : List Char
  showErrors : Bool
  catalog : Catalog

def configName : String := "tellraw_preview.toml"

namespace Settings

def standard : Settings := ⟨" => ".toList, true, Template.standard⟩

def entry? (config : Toml.Table) (table key : String) : Option Toml.Item :=
  match config.lookup table.toList with
  | some (.table members) => members.lookup key.toList
  | _ => none

def lead? (config : Toml.Table) : Option (List Char) :=
  match entry? config "preview" "prefix" with
  | some (.string s) => some s
  | _ => none

def showErrors? (config : Toml.Table) : Option Bool :=
  match entry? config "preview" "show_errors" with
  | some (.boolean b) => some b
  | _ => none

/-- The texts of the templates; an item that is no text stands for what it is shown as. -/
def templates (levels : Nat) (config : Toml.Table) : Except Halt (List (List Char)) :=
  match entry? config "catalog" "templates" with
  | some (.array items) => items.mapM (·.text levels)
  | _ => .ok []

def extended (texts : List (List Char)) : Except Template.Fault Catalog :=
  (Template.standard ++ ·) <$> Template.parseAll texts

def ofConfig (levels : Nat) (config : Toml.Table) :
    Except Halt (Except Template.Fault Settings) := do
  let texts ← templates levels config
  return do
    let catalog ← extended texts
    return ⟨(lead? config).getD standard.lead, (showErrors? config).getD standard.showErrors,
      catalog⟩

end Settings
end ChatPreview
