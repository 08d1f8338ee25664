import ChatPreview.Component.Basic
/-!
Components built from decoded values. A path grows from the fault to the root, so what is wrong
inside a value is found without knowing where the value stands.
-/
namespace ChatPreview.Component

abbrev Build (α : Type) := Except Shape.Error α

def reject {α : Type} (fault : Shape.Fault) (path : Path) : Build α := .error ⟨fault, path⟩

def under {α : Type} (step : Step) (b : Build α) : Build α :=
  b.mapError fun e => { e with path := step :: e.path }

def get? (members : Members) (key : String) : Option Value := members.get? (Text.ofString key)

def given? (members : Members) (key : String) : Option Value :=
  (get? members key).filter fun
    | .null => false
    | _ => true

def isString (v : Value) (name : String) : Bool :=
  match v with
  | .string t => t == Text.ofString name
  | _ => false

/-- How the fields of a component are validated. A field takes values of its own type alone; what
is said of a value that is refused, or of one that is not there, is up to the validator. -/
structure Checks where
  text : Value → Except String Text
  flag : Value → Except String Bool
  missing : String
  text_eq_ok : ∀ v t, text v = .ok t ↔ v = .string t
  flag_eq_ok : ∀ v b, flag v = .ok b ↔ v = .boolean b

def Checks.standard : Checks where
  text
    | .string t => .ok t
    | _ => .error "Input should be a valid string"
  flag
    | .boolean b => .ok b
    | _ => .error "Input should be a valid boolean"
  missing := "Field required"
  text_eq_ok v t := by cases v <;> simp
  flag_eq_ok v b := by cases v <;> simp

def each (build : Value → Build Component) (i : Nat) : List Value → Build (List Component)
  | [] => .ok []
  | v :: rest => do
    let c ← under (.index i) (build v)
    let cs ← each build (i + 1) rest
    return c :: cs

def list (build : Value → Build Component) : Value → Build (List Component)
  | .array items => each build 0 items
  | v => reject (.notArray v) []

def list? (build : Value → Build Component) (members : Members) (key : String) :
    Build (Option (List Component)) :=
  match get? members key with
  | none => .ok none
  | some v => some <$> under (.key key) (list build v)

def one? (build : Value → Build Component) (members : Members) (key : String) :
    Build (Option Component) :=
  match get? members key with
  | none => .ok none
  | some v => some <$> under (.key key) (build v)

variable (checks : Checks)

def field (members : Members) (key name : String) : Build Text :=
  match given? members key with
  | none => reject (.missing checks.missing) [.key name]
  | some v =>
    match checks.text v with
    | .ok t => .ok t
    | .error message => reject (.notString message) [.key name]

def string (members : Members) (key : String) : Build Text := field checks members key key

def boolean? (members : Members) (key : String) : Build (Option Bool) :=
  match given? members key with
  | none => .ok none
  | some v =>
    match checks.flag v with
    | .ok b => .ok (some b)
    | .error message => reject (.notBoolean message) [.key key]

def scoreboard (members : Members) : Build Body :=
  under (.key "score") <|
    match get? members "score" with
    | some (.object score) => do
      let name ← string checks score "name"
      let objective ← string checks score "objective"
      return .scoreboard name objective
    | v => reject (.notObject (v.getD .null)) []

def nbt (build : Value → Build Component) (members : Members) : Build Body :=
  match Source.all.filter fun s => (get? members s.name).isSome with
  | [source] => do
    if let some declared := given? members "source" then
      unless isString declared source.name do
        reject (.wrongSource declared source) [.key "source"]
    let separator ← one? build members "separator"
    let path ← string checks members "nbt"
    let target ← field checks members source.name "source"
    let interpret ← boolean? checks members "interpret"
    return .nbt path source target interpret separator
  | _ => reject .notOneSource []

/-- The part of a component that its form decides. Components inside it come before its own
fields. `build` builds what is one step away, `buildItem` what is two steps away. -/
def body (build buildItem : Value → Build Component) (members : Members) : Form → Build Body
  | .text => return .text (← string checks members "text")
  | .selector => do
    let separator ← one? build members "separator"
    return .selector (← string checks members "selector") separator
  | .keybind => return .keybind (← string checks members "keybind")
  | .translate => do
    let args ← list? buildItem members "with"
    let fallback ← one? build members "fallback"
    return .translatable (← string checks members "translate") args fallback
  | .score => scoreboard checks members
  | .nbt => nbt checks build members

def forms (members : Members) : List Form := Form.all.filter fun f => (get? members f.key).isSome

def ofMembers (build buildItem : Value → Build Component) (members : Members) :
    Build Component :=
  match forms members with
  | [] => reject .noForm []
  | [form] => do
    if let some declared := given? members "type" then
      unless isString declared form.typeName do
        reject (.wrongType declared form) [.key "type"]
    let extra ← list? buildItem members "extra"
    return .content (← body checks build buildItem members form) extra
  | several => reject (.severalForms several) []

def ofShape (build buildItem : Value → Build Component) : Value → Build Component
  | .string t => .ok (.plain t)
  | .array items => .sequence <$> each build 0 items
  | .object members => ofMembers checks build buildItem members
  | v => reject (.notComponent v) []

/-- A component from a value that may reach this many steps down, counting itself. -/
def buildWithin : Nat → Value → Build Component
  | 0, _ => reject .tooDeep []
  | 1, v => ofShape checks (buildWithin 0) (buildWithin 0) v
  | steps + 2, v => ofShape checks (buildWithin (steps + 1)) (buildWithin steps) v

def build (v : Value) : Build Component := buildWithin checks (maxPathLength + 1) v

end ChatPreview.Component
