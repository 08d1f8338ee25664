import ChatPreview.Value.Shown

namespace ChatPreview

namespace Component

inductive Source where
  | block
  | entity
  | storage
  deriving DecidableEq, Repr

def Source.all : List Source := [block, entity, storage]

def Source.name : Source → String
  | block => "block"
  | entity => "entity"
  | storage => "storage"

inductive Form where
  | text
  | selector
  | keybind
  | translate
  | score
  | nbt
  deriving DecidableEq, Repr

def Form.all : List Form := [text, selector, keybind, translate, score, nbt]

def Form.key : Form → String
  | text => "text"
  | selector => "selector"
  | keybind => "keybind"
  | translate => "translate"
  | score => "score"
  | nbt => "nbt"

def Form.typeName : Form → String
  | translate => "translatable"
  | form => form.key

end Component

mutual

inductive Component where
  | plain (text : Text)
  | sequence (items : List Component)
  | content (body : Body) (extra : Option (List Component))

inductive Body where
  | text (text : Text)
  | selector (selector : Text) (separator : Option Component)
  | keybind (key : Text)
  | translatable (format : Text) (args : Option (List Component)) (fallback : Option Component)
  | scoreboard (name objective : Text)
  | nbt (path : Text) (source : Component.Source) (target : Text) (interpret : Option Bool)
      (separator : Option Component)

end

instance : Inhabited Component := ⟨.plain []⟩

inductive Step where
  | key (name : String)
  | index (index : Int)
  deriving DecidableEq, Repr

abbrev Path := List Step

def Step.text : Step → String
  | key name => s!".{name}"
  | index n => s!"[{n}]"

def Path.text (path : Path) : String := "$" ++ String.join (path.map Step.text)

/-- A component may stand no further from the root than this many keys and indexes. -/
def maxPathLength : Nat := 128

inductive Shape.Fault where
  | tooDeep
  | notComponent (found : Value)
  | noForm
  | severalForms (forms : List Component.Form)
  | wrongType (declared : Value) (form : Component.Form)
  | notArray (found : Value)
  | notObject (found : Value)
  | notOneSource
  | wrongSource (declared : Value) (source : Component.Source)
  | notString (message : String)
  | notBoolean (message : String)
  | missing (message : String)
  deriving Repr

def quotedNames (names : List String) : String :=
  String.intercalate ", " (names.map fun name => Text.quoted (Text.ofString name))

def Shape.Fault.message : Shape.Fault → String
  | tooDeep => s!"component nested deeper than {maxPathLength} levels"
  | notComponent found => s!"expected a string, array or object, got {found.type}"
  | noForm => "object needs one of " ++ quotedNames (Component.Form.all.map (·.key))
  | severalForms forms => "object has more than one kind: " ++ quotedNames (forms.map (·.key))
  | wrongType declared form =>
    s!"type {declared.shown} does not match {quotedNames [form.key]} component"
  | notArray found => s!"expected an array, got {found.type}"
  | notObject found => s!"expected an object, got {found.type}"
  | notOneSource =>
    "nbt component needs exactly one of " ++ quotedNames (Component.Source.all.map (·.name))
  | wrongSource declared source =>
    s!"source {declared.shown} does not match {quotedNames [source.name]}"
  | notString message | notBoolean message | missing message => message

/-- The value that a message shows as a whole. -/
def Shape.Fault.shown? : Shape.Fault → Option Value
  | wrongType declared _ | wrongSource declared _ => some declared
  | _ => none

structure Shape.Error where
  fault : Shape.Fault
  path : Path
  deriving Repr

end ChatPreview
