import ChatPreview.Proofs.Component.Equations

namespace ChatPreview.Component

def Optionally (members : Members) (key : String) (p : Value → Prop) : Prop :=
  ∀ v, get? members key = some v → p v

def ListOf (p : Value → Prop) (v : Value) : Prop := ∃ items, v = .array items ∧ ∀ item ∈ items, p item

def HasString (members : Members) (key : String) : Prop := ∃ t, get? members key = some (.string t)

def IsFlag (v : Value) : Prop := v = .null ∨ ∃ b, v = .boolean b

/-- What each form asks of its object; `near` is asked of a value one step away, `far` of one two
steps away. -/
def Fits (near far : Value → Prop) (members : Members) : Form → Prop
  | .text => HasString members "text"
  | .selector => HasString members "selector" ∧ Optionally members "separator" near
  | .keybind => HasString members "keybind"
  | .translate => HasString members "translate" ∧ Optionally members "with" (ListOf far) ∧
      Optionally members "fallback" near
  | .score => ∃ score, get? members "score" = some (.object score) ∧
      HasString score "name" ∧ HasString score "objective"
  | .nbt => HasString members "nbt" ∧
      (∃ source, Only Source.name members source ∧ HasString members source.name ∧
        Agrees members "source" source.name) ∧
      Optionally members "interpret" IsFlag ∧ Optionally members "separator" near

def Shaped (near far : Value → Prop) : Value → Prop
  | .string _ => True
  | .array items => ∀ item ∈ items, near item
  | .object members => ∃ form, Only Form.key members form ∧
      Agrees members "type" form.typeName ∧ Optionally members "extra" (ListOf far) ∧
      Fits near far members form
  | _ => False

/-- Whether a value is a component where it stands so many steps from the root. -/
def Valid (steps : Nat) (v : Value) : Prop :=
  ∃ _within : steps ≤ 128, Shaped (Valid (steps + 1)) (Valid (steps + 2)) v
termination_by 129 - steps

def Builds (build : Value → Build Component) (v : Value) : Prop := ∃ c, build v = .ok c

section
variable {checks : Checks} {build buildItem : Value → Build Component} {members : Members}
  {key : String}

theorem exists_each {items : List Value} :
    (∃ cs, each build 0 items = .ok cs) ↔ ∀ item ∈ items, Builds build item := by
  simp only [each_eq_ok]
  induction items with
  | nil => simp
  | cons v rest ih =>
      rw [List.forall_mem_cons, ← ih]
      constructor
      · rintro ⟨_, built⟩
        cases built with
        | cons first rest => exact ⟨⟨_, first⟩, _, rest⟩
      · rintro ⟨⟨c, first⟩, cs, rest⟩
        exact ⟨c :: cs, .cons first rest⟩

theorem exists_list {v : Value} :
    (∃ cs, list build v = .ok cs) ↔ ListOf (Builds build) v := by
  simp only [list_eq_ok, ListOf, ← exists_each, each_eq_ok]
  exact ⟨fun ⟨cs, items, same, built⟩ => ⟨items, same, cs, built⟩,
    fun ⟨items, same, cs, built⟩ => ⟨cs, items, same, built⟩⟩

theorem exists_rel {α : Type} {r : Value → α → Prop} :
    (∃ a, Option.Rel r (get? members key) a) ↔ Optionally members key fun v => ∃ a, r v a := by
  rw [Optionally]
  cases get? members key with
  | none => exact ⟨fun _ v found => (nomatch found), fun _ => ⟨none, .none⟩⟩
  | some v =>
      constructor
      · rintro ⟨_, ⟨related⟩⟩ w ⟨⟩
        exact ⟨_, related⟩
      · intro given
        obtain ⟨a, related⟩ := given v rfl
        exact ⟨some a, .some related⟩

theorem exists_list? :
    (∃ cs, list? build members key = .ok cs) ↔
      Optionally members key (ListOf (Builds build)) := by
  simp only [list?_eq_ok, exists_rel, exists_list]

theorem exists_one? :
    (∃ c, one? build members key = .ok c) ↔ Optionally members key (Builds build) := by
  simp only [one?_eq_ok, exists_rel]
  rfl

theorem exists_boolean? :
    (∃ b, boolean? checks members key = .ok b) ↔ Optionally members key IsFlag := by
  simp only [boolean?_eq_ok]
  constructor
  · rintro ⟨b, given⟩ v found
    cases b with
    | none => exact .inl (given?_eq_none.1 given v found)
    | some b =>
        rw [Option.map_some, given?_eq_some, found] at given
        obtain ⟨⟨⟩, _⟩ := given
        exact .inr ⟨b, rfl⟩
  · intro flag
    cases given : given? members key with
    | none => exact ⟨none, rfl⟩
    | some v =>
        obtain ⟨found, present⟩ := given?_eq_some.1 given
        obtain ⟨b, rfl⟩ := (flag v found).resolve_left present
        exact ⟨some b, rfl⟩

theorem exists_scoreboard :
    (∃ own, scoreboard checks members = .ok own) ↔
      ∃ score, get? members "score" = some (.object score) ∧
        HasString score "name" ∧ HasString score "objective" := by
  constructor
  · rintro ⟨own, built⟩
    obtain ⟨score, name, objective, found, first, second, _⟩ := scoreboard_eq_ok.1 built
    exact ⟨score, found, ⟨name, first⟩, objective, second⟩
  · rintro ⟨score, found, ⟨name, first⟩, objective, second⟩
    exact ⟨_, scoreboard_eq_ok.2 ⟨score, name, objective, found, first, second, rfl⟩⟩

theorem exists_nbt :
    (∃ own, nbt checks build members = .ok own) ↔
      Fits (Builds build) (Builds buildItem) members .nbt := by
  constructor
  · rintro ⟨own, built⟩
    obtain ⟨source, separator, path, target, interpret, only, agrees, first, second, third, fourth,
      _⟩ := nbt_eq_ok.1 built
    exact ⟨⟨path, second⟩, ⟨source, only, ⟨target, third⟩, agrees⟩,
      exists_boolean?.1 ⟨interpret, fourth⟩, exists_one?.1 ⟨separator, first⟩⟩
  · rintro ⟨⟨path, second⟩, ⟨source, only, ⟨target, third⟩, agrees⟩, flag, part⟩
    obtain ⟨separator, first⟩ := exists_one?.2 part
    obtain ⟨interpret, fourth⟩ := exists_boolean?.2 flag
    exact ⟨_, nbt_eq_ok.2 ⟨source, separator, path, target, interpret, only, agrees, first, second,
      third, fourth, rfl⟩⟩

theorem exists_body {form : Form} :
    (∃ own, body checks build buildItem members form = .ok own) ↔
      Fits (Builds build) (Builds buildItem) members form := by
  cases form with
  | score => exact exists_scoreboard
  | nbt => exact exists_nbt
  | text =>
      simp only [text_eq_ok]
      exact ⟨fun ⟨_, t, found, _⟩ => ⟨t, found⟩, fun ⟨t, found⟩ => ⟨_, t, found, rfl⟩⟩
  | keybind =>
      simp only [keybind_eq_ok]
      exact ⟨fun ⟨_, t, found, _⟩ => ⟨t, found⟩, fun ⟨t, found⟩ => ⟨_, t, found, rfl⟩⟩
  | selector =>
      simp only [selector_eq_ok]
      constructor
      · rintro ⟨_, separator, t, first, found, _⟩
        exact ⟨⟨t, found⟩, exists_one?.1 ⟨separator, first⟩⟩
      · rintro ⟨⟨t, found⟩, part⟩
        obtain ⟨separator, first⟩ := exists_one?.2 part
        exact ⟨_, separator, t, first, found, rfl⟩
  | translate =>
      simp only [translate_eq_ok]
      constructor
      · rintro ⟨_, args, fallback, t, first, second, found, _⟩
        exact ⟨⟨t, found⟩, exists_list?.1 ⟨args, first⟩, exists_one?.1 ⟨fallback, second⟩⟩
      · rintro ⟨⟨t, found⟩, items, part⟩
        obtain ⟨args, first⟩ := exists_list?.2 items
        obtain ⟨fallback, second⟩ := exists_one?.2 part
        exact ⟨_, args, fallback, t, first, second, found, rfl⟩

theorem exists_ofMembers : Builds (ofShape checks build buildItem) (.object members) ↔
    Shaped (Builds build) (Builds buildItem) (.object members) := by
  constructor
  · rintro ⟨c, built⟩
    obtain ⟨form, extra, own, only, agrees, first, second, _⟩ := ofMembers_eq_ok.1 built
    exact ⟨form, only, agrees, exists_list?.1 ⟨extra, first⟩, exists_body.1 ⟨own, second⟩⟩
  · rintro ⟨form, only, agrees, items, fits⟩
    obtain ⟨extra, first⟩ := exists_list?.2 items
    obtain ⟨own, second⟩ := exists_body.2 fits
    exact ⟨_, ofMembers_eq_ok.2 ⟨form, extra, own, only, agrees, first, second, rfl⟩⟩

theorem builds_ofShape {v : Value} : Builds (ofShape checks build buildItem) v ↔
    Shaped (Builds build) (Builds buildItem) v := by
  cases v with
  | string t => exact ⟨fun _ => trivial, fun _ => ⟨_, rfl⟩⟩
  | array items =>
      rw [Shaped, ← exists_each]
      simp only [Builds, ofShape, map_eq_ok]
      constructor
      · intro built
        obtain ⟨_, cs, built, _⟩ := built
        exact ⟨cs, built⟩
      · intro built
        obtain ⟨cs, built⟩ := built
        exact ⟨_, cs, built, rfl⟩
  | object members => exact exists_ofMembers
  | null | boolean | integer | real => simp [Builds, ofShape, reject, Shaped]

end

theorem valid_of_le {steps : Nat} (within : steps ≤ 128) :
    Valid steps = Shaped (Valid (steps + 1)) (Valid (steps + 2)) := by
  funext v
  rw [Valid, exists_prop, and_iff_right within]

theorem builds_past (checks : Checks) {steps : Nat} (past : 128 < steps) :
    Builds (buildWithin checks 0) = Valid steps := by
  funext v
  rw [Valid]
  simp [Builds, buildWithin, reject, Nat.not_le.2 past]

theorem builds_buildWithin {checks : Checks} : ∀ left steps, steps + left = 129 →
    Builds (buildWithin checks left) = Valid steps
  -- The induction is on the steps left, two at a time where an array lies between.
  | 0, steps, whole => builds_past checks (by omega)
  | 1, steps, whole => by
      funext v
      rw [valid_of_le (by omega), ← builds_past checks (by omega : 128 < steps + 1),
        ← builds_past checks (by omega : 128 < steps + 2)]
      exact propext builds_ofShape
  | left + 2, steps, whole => by
      funext v
      rw [valid_of_le (by omega), ← builds_buildWithin (left + 1) (steps + 1) (by omega),
        ← builds_buildWithin left (steps + 2) (by omega)]
      exact propext builds_ofShape

/-- A value is built into a component just if it is valid where it stands, at the root. -/
theorem build_iff_valid (checks : Checks) (v : Value) :
    (∃ c, build checks v = .ok c) ↔ Valid 0 v := by
  rw [← builds_buildWithin (maxPathLength + 1) 0 rfl]
  rfl

end ChatPreview.Component
