import ChatPreview.Proofs.Component.Equations
/-!
Components built where they stand: the path from the root is carried down to each value, and every
error is given the whole of it. What a value is built into, or what is wrong with it, does not
depend on that path.
-/
namespace ChatPreview.Component

def located {α : Type} (path : Path) (b : Build α) : Build α :=
  b.mapError fun e => { e with path := path ++ e.path }

/-! ## Building along a path

A builder is told the steps that it is to take from the path. -/

def eachAt (build : Step → Value → Build Component) (i : Nat) : List Value → Build (List Component)
  | [] => .ok []
  | v :: rest => do
    let c ← build (.index i) v
    let cs ← eachAt build (i + 1) rest
    return c :: cs

def listAt (build : Step → Value → Build Component) (path : Path) : Value → Build (List Component)
  | .array items => eachAt build 0 items
  | v => reject (.notArray v) path

def listAt? (build : Step → Step → Value → Build Component) (path : Path) (members : Members)
    (key : String) : Build (Option (List Component)) :=
  match get? members key with
  | none => .ok none
  | some v => some <$> listAt (build (.key key)) (path ++ [.key key]) v

def oneAt? (build : Step → Value → Build Component) (members : Members) (key : String) :
    Build (Option Component) :=
  match get? members key with
  | none => .ok none
  | some v => some <$> build (.key key) v

def nbtAt (checks : Checks) (build : Step → Value → Build Component) (path : Path)
    (members : Members) : Build Body :=
  match Source.all.filter fun s => (get? members s.name).isSome with
  | [source] => do
    located path (agree members "source" source.name (.wrongSource · source))
    let separator ← oneAt? build members "separator"
    let nbt ← located path (string checks members "nbt")
    let target ← located path (field checks members source.name "source")
    let interpret ← located path (boolean? checks members "interpret")
    return .nbt nbt source target interpret separator
  | _ => reject .notOneSource path

def bodyAt (checks : Checks) (build : Step → Value → Build Component)
    (buildItem : Step → Step → Value → Build Component) (path : Path) (members : Members) :
    Form → Build Body
  | .text => return .text (← located path (string checks members "text"))
  | .selector => do
    let separator ← oneAt? build members "separator"
    return .selector (← located path (string checks members "selector")) separator
  | .keybind => return .keybind (← located path (string checks members "keybind"))
  | .translate => do
    let args ← listAt? buildItem path members "with"
    let fallback ← oneAt? build members "fallback"
    return .translatable (← located path (string checks members "translate")) args fallback
  | .score => located path (scoreboard checks members)
  | .nbt => nbtAt checks build path members

def ofMembersAt (checks : Checks) (build : Step → Value → Build Component)
    (buildItem : Step → Step → Value → Build Component) (path : Path) (members : Members) :
    Build Component :=
  match forms members with
  | [] => reject .noForm path
  | [form] => do
    located path (agree members "type" form.typeName (.wrongType · form))
    let extra ← listAt? buildItem path members "extra"
    return .content (← bodyAt checks build buildItem path members form) extra
  | several => reject (.severalForms several) path

def ofShapeAt (checks : Checks) (build : Step → Value → Build Component)
    (buildItem : Step → Step → Value → Build Component) (path : Path) : Value → Build Component
  | .string t => .ok (.plain t)
  | .array items => .sequence <$> eachAt build 0 items
  | .object members => ofMembersAt checks build buildItem path members
  | v => reject (.notComponent v) path

/-- A component from a value at the end of a path. -/
def buildAt (checks : Checks) (path : Path) (v : Value) : Build Component :=
  if maxPathLength < path.length then reject .tooDeep path
  else ofShapeAt checks (fun step w => buildAt checks (path ++ [step]) w)
    (fun first second w => buildAt checks (path ++ [first, second]) w) path v
termination_by maxPathLength + 1 - path.length
decreasing_by
  · simp only [List.length_append, List.length_singleton]
    omega
  · simp only [List.length_append, List.length_cons, List.length_nil]
    omega

/-! ## Paths are put before what is built -/

section
variable {α β : Type} {b : Build α} {path own : Path}

@[simp] theorem located_nil : located [] b = b := by
  cases b <;> rfl

theorem located_reject {fault : Shape.Fault} :
    located path (reject fault own : Build α) = reject fault (path ++ own) := rfl

theorem located_bind {f : α → Build β} :
    located path (b >>= f) = located path b >>= fun x => located path (f x) := by
  cases b <;> rfl

theorem located_map {f : α → β} : located path (f <$> b) = f <$> located path b := by
  cases b <;> rfl

theorem located_under {step : Step} : located path (under step b) = located (path ++ [step]) b := by
  cases b with
  | error e => simp [located, under, Except.mapError]
  | ok x => rfl

theorem located_eq_ok {x : α} : located path b = .ok x ↔ b = .ok x := by
  cases b <;> simp [located, Except.mapError]

theorem exists_located_map {f : α → β} :
    (∃ y, located path (f <$> b) = .ok y) ↔ ∃ x, b = .ok x := by
  simp only [located_eq_ok, map_eq_ok, exists_comm (α := β), exists_and_left, exists_eq', and_true]

theorem located_eq_error {e : Shape.Error} :
    located path b = .error e ↔
      ∃ inner, b = .error inner ∧ e = ⟨inner.fault, path ++ inner.path⟩ := by
  cases b <;> simp [located, Except.mapError, eq_comm]

end

section
variable {path : Path} {near : Step → Value → Build Component}
  {far : Step → Step → Value → Build Component} {build buildItem : Value → Build Component}
  {members : Members} {key : String} {v : Value}

theorem eachAt_eq (step : ∀ step v, near step v = located (path ++ [step]) (build v)) {i : Nat}
    {items : List Value} : eachAt near i items = located path (each build i items) := by
  induction items generalizing i with
  | nil => rfl
  | cons v rest ih =>
      rw [eachAt, each, located_bind, located_under, step]
      simp only [located_bind, ih]
      rfl

theorem listAt_eq (step : ∀ step v, near step v = located (path ++ [step]) (build v)) :
    listAt near path v = located path (list build v) := by
  cases v with
  | array items => exact eachAt_eq step
  | null | boolean | integer | real | string | object =>
      rw [list, located_reject, List.append_nil]
      · rfl
      · simp

theorem listAt?_eq (steps : ∀ first second v,
    far first second v = located (path ++ [first, second]) (buildItem v)) :
    listAt? far path members key = located path (list? buildItem members key) := by
  rw [listAt?, list?]
  cases get? members key with
  | none => rfl
  | some v =>
      have step (step : Step) (v : Value) :
          far (.key key) step v = located ((path ++ [.key key]) ++ [step]) (buildItem v) := by
        rw [List.append_assoc]
        exact steps _ step v
      simp only [located_map, located_under, listAt_eq step]

theorem oneAt?_eq (step : ∀ step v, near step v = located (path ++ [step]) (build v)) :
    oneAt? near members key = located path (one? build members key) := by
  rw [oneAt?, one?]
  cases get? members key with
  | none => rfl
  | some v => simp only [located_map, located_under, step]

theorem nbtAt_eq (step : ∀ step v, near step v = located (path ++ [step]) (build v)) :
    nbtAt checks near path members = located path (nbt checks build members) := by
  cases found : Source.all.filter fun s => (get? members s.name).isSome with
  | nil =>
      rw [nbtAt, nbt, found]
      simp only [located_reject, List.append_nil]
  | cons source rest =>
      cases rest with
      | nil =>
          rw [nbtAt, found, nbt_of_only (sources_eq_singleton.1 found)]
          simp only [located_bind, oneAt?_eq step]
          rfl
      | cons second rest =>
          rw [nbtAt, nbt, found]
          simp only [located_reject, List.append_nil]

theorem bodyAt_eq (step : ∀ step v, near step v = located (path ++ [step]) (build v))
    (steps : ∀ first second v,
      far first second v = located (path ++ [first, second]) (buildItem v))
    (form : Form) :
    bodyAt checks near far path members form =
      located path (body checks build buildItem members form) := by
  cases form with
  | text | keybind =>
      simp only [bodyAt, body, located_bind]
      rfl
  | selector =>
      simp only [bodyAt, body, located_bind, oneAt?_eq step]
      rfl
  | translate =>
      simp only [bodyAt, body, located_bind, oneAt?_eq step, listAt?_eq steps]
      rfl
  | score => rfl
  | nbt => exact nbtAt_eq step

theorem ofMembersAt_eq (step : ∀ step v, near step v = located (path ++ [step]) (build v))
    (steps : ∀ first second v,
      far first second v = located (path ++ [first, second]) (buildItem v)) :
    ofMembersAt checks near far path members =
      located path (ofMembers checks build buildItem members) := by
  cases found : forms members with
  | nil =>
      rw [ofMembersAt, ofMembers, found]
      simp only [located_reject, List.append_nil]
  | cons form rest =>
      cases rest with
      | nil =>
          rw [ofMembersAt, found, ofMembers_of_only (forms_eq_singleton.1 found)]
          simp only [located_bind, listAt?_eq steps, bodyAt_eq step steps]
          rfl
      | cons second rest =>
          rw [ofMembersAt, ofMembers, found]
          simp only [located_reject, List.append_nil]

theorem ofShapeAt_eq (step : ∀ step v, near step v = located (path ++ [step]) (build v))
    (steps : ∀ first second v,
      far first second v = located (path ++ [first, second]) (buildItem v)) :
    ofShapeAt checks near far path v = located path (ofShape checks build buildItem v) := by
  cases v with
  | string t => rfl
  | array items => rw [ofShapeAt, ofShape, located_map, eachAt_eq step]
  | object members => exact ofMembersAt_eq step steps
  | null | boolean | integer | real =>
      rw [ofShape, located_reject, List.append_nil]
      · rfl
      all_goals simp

end

/-- A value is built at the end of a path as it is with the steps that the path leaves, and the path
stands before that of each error. -/
theorem buildAt_eq (checks : Checks) (path : Path) (v : Value) : buildAt checks path v =
    located path (buildWithin checks (maxPathLength + 1 - path.length) v) := by
  induction path, v using buildAt.induct with
  | case1 path v deep =>
      have none : maxPathLength + 1 - path.length = 0 := by omega
      rw [buildAt, if_pos deep, none, buildWithin, located_reject, List.append_nil]
  | case2 path v within near far =>
      have left : maxPathLength + 1 - path.length = (maxPathLength - path.length) + 1 := by omega
      rw [buildAt, if_neg within, left, buildWithin_succ]
      refine ofShapeAt_eq (fun step w => ?_) (fun first second w => ?_)
      · rw [near, List.length_append, List.length_singleton, Nat.add_sub_add_right]
      · have two : maxPathLength + 1 - (path ++ [first, second]).length =
            maxPathLength - path.length - 1 := by
          simp only [List.length_append, List.length_cons, List.length_nil]
          omega
        rw [far, two]

theorem buildAt_nil (checks : Checks) : buildAt checks [] = build checks := by
  funext v
  rw [buildAt_eq, located_nil]
  rfl

end ChatPreview.Component
