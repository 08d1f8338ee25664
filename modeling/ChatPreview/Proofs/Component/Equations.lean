import Mathlib.Data.List.Forall2
import Mathlib.Data.Option.Basic
import ChatPreview.Component.Build

namespace ChatPreview.Component

section
variable {α β : Type} {b : Build α} {f : α → Build β}

theorem pure_eq_ok {x y : α} : (pure x : Build α) = .ok y ↔ y = x :=
  Except.ok.injEq x y ▸ eq_comm

theorem bind_eq_ok {y : β} : (b >>= f) = .ok y ↔ ∃ x, b = .ok x ∧ f x = .ok y := by
  cases b with
  | error e => simp [bind, Except.bind]
  | ok x => simp [bind, Except.bind]

theorem map_eq_ok {g : α → β} {y : β} : g <$> b = .ok y ↔ ∃ x, b = .ok x ∧ g x = y := by
  cases b with
  | error e => simp [Functor.map, Except.map]
  | ok x => simp [Functor.map, Except.map]

theorem map_eq_error {g : α → β} {e : Shape.Error} : g <$> b = .error e ↔ b = .error e := by
  cases b with
  | error own => simp [Functor.map, Except.map]
  | ok x => simp [Functor.map, Except.map]

theorem under_eq_ok {step : Step} {x : α} : under step b = .ok x ↔ b = .ok x := by
  cases b with
  | error e => simp [under, Except.mapError]
  | ok x => simp [under, Except.mapError]

end

variable {checks : Checks} {build buildItem : Value → Build Component} {members : Members}
  {key name : String}

theorem each_eq_ok {i : Nat} {items : List Value} {cs : List Component} :
    each build i items = .ok cs ↔ List.Forall₂ (fun v c => build v = .ok c) items cs := by
  induction items generalizing i cs with
  | nil => cases cs <;> simp [each]
  | cons v rest ih =>
      simp only [each, bind_eq_ok, under_eq_ok, ih]
      cases cs with
      | nil => simp [pure_eq_ok]
      | cons c cs => simp [pure_eq_ok]

theorem list_eq_ok {v : Value} {cs : List Component} : list build v = .ok cs ↔
    ∃ items, v = .array items ∧ List.Forall₂ (fun v c => build v = .ok c) items cs := by
  cases v <;> simp [list, reject, each_eq_ok]

theorem list?_eq_ok {cs : Option (List Component)} : list? build members key = .ok cs ↔
    Option.Rel (fun v cs => list build v = .ok cs) (get? members key) cs := by
  rw [list?]
  cases get? members key with
  | none => cases cs <;> simp
  | some v => cases cs <;> simp [map_eq_ok, under_eq_ok]

theorem one?_eq_ok {c : Option Component} : one? build members key = .ok c ↔
    Option.Rel (fun v c => build v = .ok c) (get? members key) c := by
  rw [one?]
  cases get? members key with
  | none => cases c <;> simp
  | some v => cases c <;> simp [map_eq_ok, under_eq_ok]

theorem given?_eq_some {v : Value} :
    given? members key = some v ↔ get? members key = some v ∧ v ≠ .null := by
  rw [given?, Option.filter_eq_some_iff]
  cases v <;> simp

theorem given?_eq_none :
    given? members key = none ↔ ∀ v, get? members key = some v → v = .null := by
  rw [given?, Option.filter_eq_none_iff]
  refine forall_congr' fun v => imp_congr_right fun _ => ?_
  cases v <;> simp

theorem isString_iff {v : Value} : isString v name ↔ v = .string (Text.ofString name) := by
  cases v <;> simp [isString]

theorem field_eq_ok {t : Text} : field checks members key name = .ok t ↔
    get? members key = some (.string t) := by
  rw [field]
  split
  · rename_i absent
    have := given?_eq_none.1 absent
    constructor
    · simp [reject]
    · intro found
      cases this _ found
  · rename_i v given
    obtain ⟨held, _⟩ := given?_eq_some.1 given
    rw [held, Option.some.injEq, ← checks.text_eq_ok]
    cases checks.text v with
    | ok u => simp only [Except.ok.injEq]
    | error message => simp [reject]

theorem boolean?_eq_ok {b : Option Bool} : boolean? checks members key = .ok b ↔
    given? members key = b.map .boolean := by
  rw [boolean?]
  cases given? members key with
  | none => cases b <;> simp
  | some v =>
      cases b with
      | none => cases told : checks.flag v <;> simp [told, reject]
      | some b =>
          rw [Option.map_some, Option.some.injEq, ← checks.flag_eq_ok]
          cases told : checks.flag v <;> simp [told, reject]

def Agrees (members : Members) (key name : String) : Prop :=
  ∀ v, get? members key = some v → v = .null ∨ v = .string (Text.ofString name)

def agree (members : Members) (key name : String) (fault : Value → Shape.Fault) : Build Unit :=
  match given? members key with
  | none => .ok ()
  | some declared =>
    if isString declared name then .ok () else reject (fault declared) [.key key]

theorem agree_eq_ok {fault : Value → Shape.Fault} {u : Unit} :
    agree members key name fault = .ok u ↔ Agrees members key name := by
  rw [agree]
  split
  · rename_i absent
    have null := given?_eq_none.1 absent
    simp only [true_iff]
    exact fun v found => .inl (null v found)
  · rename_i declared given
    obtain ⟨found, present⟩ := given?_eq_some.1 given
    rw [Agrees, found]
    by_cases same : isString declared name
    · rw [if_pos same]
      simp [isString_iff.1 same]
    · rw [if_neg same]
      simp [reject, present, mt isString_iff.2 same]

def Only {α : Type} (key : α → String) (members : Members) (a : α) : Prop :=
  ∀ b, (get? members (key b)).isSome ↔ b = a

theorem filter_eq_singleton {α : Type} [DecidableEq α] {key : α → String} {all : List α}
    (complete : ∀ a, a ∈ all) (distinct : all.Nodup) {a : α} :
    all.filter (fun b => (get? members (key b)).isSome) = [a] ↔ Only key members a := by
  constructor
  · intro picked b
    have mem : b ∈ all.filter (fun b => (get? members (key b)).isSome) ↔ b = a := by
      rw [picked, List.mem_singleton]
    simpa [complete] using mem
  · intro only
    have same : (fun b => (get? members (key b)).isSome) = (· == a) := by
      funext b
      rw [Bool.eq_iff_iff, only b, beq_iff_eq]
    rw [same, List.filter_beq, distinct.count, if_pos (complete a), List.replicate_one]

theorem forms_eq_singleton {form : Form} : forms members = [form] ↔ Only Form.key members form :=
  filter_eq_singleton (fun form => by cases form <;> decide) (by decide)

theorem sources_eq_singleton {source : Source} :
    (Source.all.filter fun s => (get? members s.name).isSome) = [source] ↔
      Only Source.name members source :=
  filter_eq_singleton (fun source => by cases source <;> decide) (by decide)

/-! ## The bodies of the forms -/

variable {own : Body}

theorem string_eq_ok {t : Text} : string checks members key = .ok t ↔
    get? members key = some (.string t) :=
  field_eq_ok

theorem text_eq_ok : body checks build buildItem members .text = .ok own ↔
    ∃ t, get? members "text" = some (.string t) ∧ own = .text t := by
  simp only [body, bind_eq_ok, string_eq_ok, pure_eq_ok]

theorem keybind_eq_ok : body checks build buildItem members .keybind = .ok own ↔
    ∃ t, get? members "keybind" = some (.string t) ∧ own = .keybind t := by
  simp only [body, bind_eq_ok, string_eq_ok, pure_eq_ok]

theorem selector_eq_ok : body checks build buildItem members .selector = .ok own ↔
    ∃ separator t, one? build members "separator" = .ok separator ∧
      get? members "selector" = some (.string t) ∧ own = .selector t separator := by
  simp only [body, bind_eq_ok, string_eq_ok, pure_eq_ok, exists_and_left]

theorem translate_eq_ok : body checks build buildItem members .translate = .ok own ↔
    ∃ args fallback t, list? buildItem members "with" = .ok args ∧
      one? build members "fallback" = .ok fallback ∧
      get? members "translate" = some (.string t) ∧ own = .translatable t args fallback := by
  simp only [body, bind_eq_ok, string_eq_ok, pure_eq_ok, exists_and_left]

theorem scoreboard_eq_ok {body : Body} : scoreboard checks members = .ok body ↔
    ∃ score name objective, get? members "score" = some (.object score) ∧
      get? score "name" = some (.string name) ∧
      get? score "objective" = some (.string objective) ∧ body = .scoreboard name objective := by
  rw [scoreboard, under_eq_ok]
  split
  · rename_i score found
    rw [found]
    simp only [bind_eq_ok, string_eq_ok, pure_eq_ok]
    constructor
    · rintro ⟨name, first, objective, second, rfl⟩
      exact ⟨score, name, objective, rfl, first, second, rfl⟩
    · rintro ⟨_, name, objective, ⟨⟩, first, second, rfl⟩
      exact ⟨name, first, objective, second, rfl⟩
  · rename_i v other
    constructor
    · simp [reject]
    · rintro ⟨score, _, _, found, _⟩
      cases other score found

theorem nbt_of_only {source : Source} (only : Only Source.name members source) :
    nbt checks build members = (do
      agree members "source" source.name (.wrongSource · source)
      let separator ← one? build members "separator"
      let path ← string checks members "nbt"
      let target ← field checks members source.name "source"
      let interpret ← boolean? checks members "interpret"
      return .nbt path source target interpret separator) := by
  rw [nbt, sources_eq_singleton.2 only, agree]
  cases given? members "source" with
  | none => rfl
  | some declared =>
      by_cases same : isString declared source.name
      · simp only [same, if_true]
        rfl
      · simp only [same]
        rfl

theorem nbt_of_none (none : ¬∃ source, Only Source.name members source) :
    nbt checks build members = reject .notOneSource [] := by
  rw [nbt]
  split
  · rename_i source found
    exact absurd ⟨source, sources_eq_singleton.1 found⟩ none
  · rfl

theorem nbt_eq_ok : nbt checks build members = .ok own ↔
    ∃ source separator path target interpret, Only Source.name members source ∧
      Agrees members "source" source.name ∧ one? build members "separator" = .ok separator ∧
      get? members "nbt" = some (.string path) ∧
      get? members source.name = some (.string target) ∧
      boolean? checks members "interpret" = .ok interpret ∧
      own = .nbt path source target interpret separator := by
  constructor
  · intro built
    obtain ⟨source, only⟩ : ∃ source, Only Source.name members source := by
      refine Classical.byContradiction fun none => ?_
      rw [nbt_of_none none] at built
      cases built
    rw [nbt_of_only only] at built
    simp only [bind_eq_ok, string_eq_ok, field_eq_ok, agree_eq_ok, pure_eq_ok] at built
    obtain ⟨_, agrees, separator, first, path, second, target, third, interpret, fourth, rfl⟩ :=
      built
    exact ⟨source, separator, path, target, interpret, only, agrees, first, second, third, fourth,
      rfl⟩
  · rintro ⟨source, separator, path, target, interpret, only, agrees, first, second, third, fourth,
      rfl⟩
    rw [nbt_of_only only]
    simp only [bind_eq_ok, string_eq_ok, field_eq_ok, agree_eq_ok, pure_eq_ok]
    exact ⟨(), agrees, separator, first, path, second, target, third, interpret, fourth, rfl⟩

theorem ofMembers_of_only {form : Form} (only : Only Form.key members form) :
    ofMembers checks build buildItem members = (do
      agree members "type" form.typeName (.wrongType · form)
      let extra ← list? buildItem members "extra"
      let own ← body checks build buildItem members form
      return .content own extra) := by
  rw [ofMembers, forms_eq_singleton.2 only, agree]
  cases given? members "type" with
  | none => rfl
  | some declared =>
      by_cases same : isString declared form.typeName
      · simp only [same, if_true]
        rfl
      · simp only [same]
        rfl

theorem ofMembers_of_none (none : ¬∃ form, Only Form.key members form) :
    ∃ fault, (fault = .noForm ∨ fault = .severalForms (forms members)) ∧
      ∀ build buildItem, ofMembers checks build buildItem members = reject fault [] := by
  cases found : forms members with
  | nil => exact ⟨.noForm, .inl rfl, fun build buildItem => by rw [ofMembers, found]⟩
  | cons form rest =>
      cases rest with
      | nil => exact absurd ⟨form, forms_eq_singleton.1 found⟩ none
      | cons second rest =>
          exact ⟨.severalForms (form :: second :: rest), .inr rfl, fun build buildItem => by
            rw [ofMembers, found]⟩

theorem ofMembers_eq_ok {c : Component} : ofMembers checks build buildItem members = .ok c ↔
    ∃ form extra own, Only Form.key members form ∧ Agrees members "type" form.typeName ∧
      list? buildItem members "extra" = .ok extra ∧
      body checks build buildItem members form = .ok own ∧ c = .content own extra := by
  constructor
  · intro built
    obtain ⟨form, only⟩ : ∃ form, Only Form.key members form := by
      refine Classical.byContradiction fun none => ?_
      obtain ⟨fault, _, rejected⟩ := ofMembers_of_none none
      rw [rejected] at built
      cases built
    rw [ofMembers_of_only only] at built
    simp only [bind_eq_ok, agree_eq_ok, pure_eq_ok] at built
    obtain ⟨_, agrees, extra, first, own, second, rfl⟩ := built
    exact ⟨form, extra, own, only, agrees, first, second, rfl⟩
  · rintro ⟨form, extra, own, only, agrees, first, second, rfl⟩
    rw [ofMembers_of_only only]
    simp only [bind_eq_ok, agree_eq_ok, pure_eq_ok]
    exact ⟨(), agrees, extra, first, own, second, rfl⟩

theorem buildWithin_succ (steps : Nat) (v : Value) :
    buildWithin checks (steps + 1) v =
      ofShape checks (buildWithin checks steps) (buildWithin checks (steps - 1)) v := by
  cases steps <;> rfl

end ChatPreview.Component
