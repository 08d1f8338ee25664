import ChatPreview.Proofs.Component.Schema
/-!
Where the path of a rejected value leads, and what stands there.
-/
namespace ChatPreview

namespace Value

def step? : Value → Step → Option Value
  | .object members, .key name => Component.get? members name
  | .array items, .index i => if i < 0 then none else items[i.toNat]?
  | _, _ => none

def at? : Value → Path → Option Value
  | v, [] => some v
  | v, step :: path => (v.step? step).bind fun w => w.at? path

theorem at?_append (v : Value) (first second : Path) :
    v.at? (first ++ second) = (v.at? first).bind fun w => w.at? second := by
  induction first generalizing v with
  | nil => rfl
  | cons step path ih =>
      simp only [List.cons_append, at?, Option.bind_assoc]
      congr
      funext w
      exact ih w

end Value

namespace Component

/-- The keys under which an object of a form holds a list of components. -/
def Form.lists : Form → List String
  | .translate => ["extra", "with"]
  | _ => ["extra"]

def Form.parts : Form → List String
  | .selector => ["separator"]
  | .nbt => ["separator"]
  | .translate => ["fallback"]
  | _ => []

/-- Whether a path leads from a component to itself or to one inside it. -/
inductive Leads : Value → Path → Value → Prop where
  | here (v : Value) : Leads v [] v
  | item {items : List Value} {i : Nat} {v w : Value} {path : Path} (found : items[i]? = some v)
      (rest : Leads v path w) : Leads (.array items) (.index i :: path) w
  | listed {members : Members} {form : Form} {key : String} {items : List Value} {i : Nat}
      {v w : Value} {path : Path} (only : Only Form.key members form) (lists : key ∈ form.lists)
      (held : get? members key = some (.array items)) (found : items[i]? = some v)
      (rest : Leads v path w) : Leads (.object members) (.key key :: .index i :: path) w
  | part {members : Members} {form : Form} {key : String} {v w : Value} {path : Path}
      (only : Only Form.key members form) (parts : key ∈ form.parts)
      (held : get? members key = some v) (rest : Leads v path w) :
      Leads (.object members) (.key key :: path) w

@[simp] theorem step?_index {items : List Value} {i : Nat} :
    (Value.array items).step? (.index i) = items[i]? := by
  simp [Value.step?]

@[simp] theorem step?_key {members : Members} {key : String} :
    (Value.object members).step? (.key key) = get? members key := rfl

theorem Leads.at? {v w : Value} {path : Path} (leads : Leads v path w) : v.at? path = some w := by
  induction leads with
  | here v => rfl
  | item found rest ih => simp [Value.at?, found, ih]
  | listed only lists held found rest ih => simp [Value.at?, held, found, ih]
  | part only parts held rest ih => simp [Value.at?, held, ih]

inductive Requires (members : Members) : Path → Prop where
  | own {form : Form} (only : Only Form.key members form) (other : form ≠ .score) :
      Requires members [.key form.key]
  | target {source : Source} (only : Only Form.key members .nbt)
      (one : Only Source.name members source) : Requires members [.key source.name]
  | score {score : Members} {key : String} (only : Only Form.key members .score)
      (held : get? members "score" = some (.object score)) (field : key = "name" ∨ key = "objective") :
      Requires members [.key "score", .key key]

/-- What is wrong with a component so many steps from the root, the path from there to the value at
fault, and that value. -/
inductive Blames (checks : Checks) (steps : Nat) : Value → Path → Option Value → Shape.Fault → Prop where
  | tooDeep {v : Value} (deep : 128 < steps) : Blames checks steps v [] (some v) .tooDeep
  | notComponent {v : Value} (text : ∀ t, v ≠ .string t) (list : ∀ items, v ≠ .array items)
      (object : ∀ members, v ≠ .object members) : Blames checks steps v [] (some v) (.notComponent v)
  | noForm {members : Members} (none : ∀ form : Form, get? members form.key = none) :
      Blames checks steps (.object members) [] (some (.object members)) .noForm
  | severalForms {members : Members} {found : List Form}
      (all : ∀ form, form ∈ found ↔ (get? members form.key).isSome) (distinct : found.Nodup)
      (several : 1 < found.length) :
      Blames checks steps (.object members) [] (some (.object members)) (.severalForms found)
  | wrongType {members : Members} {form : Form} {declared : Value}
      (only : Only Form.key members form) (present : declared ≠ .null)
      (other : declared ≠ .string (Text.ofString form.typeName)) :
      Blames checks steps (.object members) [.key "type"] (some declared) (.wrongType declared form)
  | notArray {members : Members} {form : Form} {key : String} {v : Value}
      (only : Only Form.key members form) (lists : key ∈ form.lists)
      (other : ∀ items, v ≠ .array items) :
      Blames checks steps (.object members) [.key key] (some v) (.notArray v)
  | notObject {members : Members} {v : Value} (only : Only Form.key members .score)
      (other : ∀ score, v ≠ .object score) :
      Blames checks steps (.object members) [.key "score"] (some v) (.notObject v)
  | notOneSource {members : Members} (only : Only Form.key members .nbt)
      (other : ∀ source, ¬Only Source.name members source) :
      Blames checks steps (.object members) [] (some (.object members)) .notOneSource
  | wrongSource {members : Members} {source : Source} {declared : Value}
      (only : Only Form.key members .nbt) (one : Only Source.name members source)
      (present : declared ≠ .null) (other : declared ≠ .string (Text.ofString source.name)) :
      Blames checks steps (.object members) [.key "source"]
        (some declared) (.wrongSource declared source)
  | notString {members : Members} {path : Path} {v : Value} {message : String}
      (required : Requires members path) (present : v ≠ .null) (other : ∀ t, v ≠ .string t)
      (told : checks.text v = .error message) :
      Blames checks steps (.object members) path (some v) (.notString message)
  | missing {members : Members} {path : Path} {reached : Option Value}
      (required : Requires members path) (absent : ∀ v ∈ reached, v = .null) :
      Blames checks steps (.object members) path reached (.missing checks.missing)
  | notBoolean {members : Members} {v : Value} {message : String}
      (only : Only Form.key members .nbt) (other : ¬IsFlag v)
      (told : checks.flag v = .error message) :
      Blames checks steps (.object members) [.key "interpret"] (some v) (.notBoolean message)

/-- Whether the string that an `nbt` component's source names is at fault, but is reported under the
key `source`, which is not its own. -/
def Misnamed (checks : Checks) (steps : Nat) (v : Value) (path : Path) (fault : Shape.Fault) : Prop :=
  ∃ members source, v = .object members ∧ Only Form.key members .nbt ∧
    Only Source.name members source ∧
    Blames checks steps v [.key source.name] (v.at? [.key source.name]) fault ∧ path = [.key "source"]

/-- Whether an error is about a component inside a component that stands so many steps down. -/
def Explained (checks : Checks) (steps : Nat) (v : Value) (e : Shape.Error) : Prop :=
  ∃ place w own, e.path = place ++ own ∧ Leads v place w ∧
    (Blames checks (steps + place.length) w own (w.at? own) e.fault ∨
      Misnamed checks (steps + place.length) w own e.fault)

theorem Explained.of_blames {checks : Checks} {steps : Nat} {v : Value} {path : Path}
    {fault : Shape.Fault}
    {reached : Option Value} (blames : Blames checks steps v path reached fault)
    (held : v.at? path = reached) : Explained checks steps v ⟨fault, path⟩ :=
  ⟨[], v, path, rfl, .here v, .inl (held ▸ blames)⟩

theorem Explained.around {checks : Checks} {steps : Nat} {v w : Value} {e : Shape.Error} (path : Path)
    (h : Explained checks (steps + path.length) w e)
    (leads : ∀ {place x}, Leads w place x → Leads v (path ++ place) x) :
    Explained checks steps v ⟨e.fault, path ++ e.path⟩ := by
  obtain ⟨place, x, own, split, inside, wrong⟩ := h
  refine ⟨path ++ place, x, own, by simp [split], leads inside, ?_⟩
  rwa [List.length_append, ← Nat.add_assoc]

def Rejects {α : Type} (p : Shape.Error → Prop) (b : Build α) : Prop := ∀ e, b = .error e → p e

section
variable {α β : Type} {p : Shape.Error → Prop} {b : Build α} {f : α → Build β}

theorem rejects_ok (x : α) : Rejects p (.ok x : Build α) := by
  rintro e ⟨⟩

theorem rejects_reject {fault : Shape.Fault} {path : Path} (h : p ⟨fault, path⟩) :
    Rejects p (reject fault path : Build α) := by
  rintro e ⟨⟩
  exact h

theorem rejects_bind (first : Rejects p b) (next : ∀ x, b = .ok x → Rejects p (f x)) :
    Rejects p (b >>= f) := by
  cases b with
  | error e =>
      rintro e ⟨⟩
      exact first e rfl
  | ok x => exact next x rfl

theorem rejects_map {g : α → β} (h : Rejects p b) : Rejects p (g <$> b) := by
  cases b with
  | error e =>
      rintro e ⟨⟩
      exact h e rfl
  | ok x => exact rejects_ok (g x)

theorem rejects_under {step : Step} (h : Rejects (fun e => p ⟨e.fault, step :: e.path⟩) b) :
    Rejects p (under step b) := by
  cases b with
  | error e =>
      rintro e ⟨⟩
      exact h _ rfl
  | ok x => exact rejects_ok x

end

section
variable {p : Shape.Error → Prop} {checks : Checks} {build buildItem : Value → Build Component}
  {members : Members} {key name : String}

theorem rejects_each {items : List Value} {i : Nat}
    (h : ∀ k v, items[k]? = some v → (∀ u ∈ items.take k, Builds build u) →
      Rejects (fun e => p ⟨e.fault, .index (i + k : Nat) :: e.path⟩) (build v)) :
    Rejects p (each build i items) := by
  induction items generalizing i with
  | nil => exact rejects_ok []
  | cons v rest ih =>
      refine rejects_bind (rejects_under (h 0 v rfl (by simp))) fun c built => ?_
      refine rejects_bind (ih fun k w found before => ?_) fun cs _ => rejects_ok _
      have later := h (k + 1) w found (List.forall_mem_cons.2 ⟨⟨c, under_eq_ok.1 built⟩, before⟩)
      rwa [← Nat.add_assoc, Nat.add_right_comm] at later

theorem rejects_list? (wrong : ∀ v, get? members key = some v → (∀ items, v ≠ .array items) →
      p ⟨.notArray v, [.key key]⟩)
    (inside : ∀ items (k : Nat) v, get? members key = some (.array items) → items[k]? = some v →
      (∀ u ∈ items.take k, Builds build u) →
      Rejects (fun e => p ⟨e.fault, .key key :: .index k :: e.path⟩) (build v)) :
    Rejects p (list? build members key) := by
  rw [list?]
  cases held : get? members key with
  | none => exact rejects_ok none
  | some v =>
      refine rejects_map (rejects_under ?_)
      cases v with
      | array items =>
          refine rejects_each fun k v found before => ?_
          rw [Nat.zero_add]
          exact inside items k v held found before
      | null | boolean | integer | real | string | object =>
          exact rejects_reject (wrong _ held (by simp))

theorem rejects_one? (inside : ∀ v, get? members key = some v →
      Rejects (fun e => p ⟨e.fault, .key key :: e.path⟩) (build v)) :
    Rejects p (one? build members key) := by
  rw [one?]
  cases held : get? members key with
  | none => exact rejects_ok none
  | some v => exact rejects_map (rejects_under (inside v held))

theorem rejects_field
    (missing : (∀ v, get? members key = some v → v = .null) →
      p ⟨.missing checks.missing, [.key name]⟩)
    (wrong : ∀ v message, get? members key = some v → v ≠ .null → (∀ t, v ≠ .string t) →
      checks.text v = .error message → p ⟨.notString message, [.key name]⟩) :
    Rejects p (field checks members key name) := by
  rw [field]
  split
  · exact rejects_reject (missing (given?_eq_none.1 ‹_›))
  · rename_i v given
    obtain ⟨held, present⟩ := given?_eq_some.1 given
    split
    · exact rejects_ok _
    · rename_i message told
      refine rejects_reject (wrong v message held present (fun t same => ?_) told)
      rw [(checks.text_eq_ok v t).mpr same] at told
      cases told

theorem rejects_boolean? (wrong : ∀ v message, get? members key = some v → ¬IsFlag v →
      checks.flag v = .error message → p ⟨.notBoolean message, [.key key]⟩) :
    Rejects p (boolean? checks members key) := by
  rw [boolean?]
  split
  · exact rejects_ok none
  · rename_i v given
    obtain ⟨held, present⟩ := given?_eq_some.1 given
    split
    · exact rejects_ok _
    · rename_i message told
      refine rejects_reject (wrong v message held ?_ told)
      rintro (null | ⟨b, same⟩)
      · exact present null
      · rw [(checks.flag_eq_ok v b).mpr same] at told
        cases told

theorem rejects_agree {fault : Value → Shape.Fault}
    (wrong : ∀ v, get? members key = some v → v ≠ .null → v ≠ .string (Text.ofString name) →
      p ⟨fault v, [.key key]⟩) : Rejects p (agree members key name fault) := by
  rw [agree]
  split
  · exact rejects_ok ()
  · rename_i declared given
    obtain ⟨held, present⟩ := given?_eq_some.1 given
    split
    · exact rejects_ok ()
    · rename_i other
      exact rejects_reject (wrong declared held present fun same => other (isString_iff.2 same))

end

section
variable {checks : Checks} {steps : Nat} {build buildItem : Value → Build Component}
  {members : Members} {form : Form} {key : String}

theorem at?_key {v : Value} {path : Path} {holder : Members}
    (reached : v.at? path = some (.object holder)) : v.at? (path ++ [.key key]) = get? holder key := by
  simp [Value.at?_append, reached, Value.at?]

theorem at?_member : (Value.object members).at? [.key key] = get? members key := by
  simp [Value.at?]

def Explains (checks : Checks) (steps : Nat) (build : Value → Build Component) : Prop :=
  ∀ v, Rejects (Explained checks steps v) (build v)

theorem explained_list? (items : Explains checks (steps + 2) buildItem)
    (only : Only Form.key members form) (lists : key ∈ form.lists) :
    Rejects (Explained checks steps (.object members)) (list? buildItem members key) := by
  refine rejects_list?
    (fun v held other => .of_blames (.notArray only lists other) (at?_member.trans held)) ?_
  intro list k v held found _ e rejected
  exact (items v e rejected).around [.key key, .index k]
    fun inside => .listed only lists held found inside

theorem explained_one? (near : Explains checks (steps + 1) build) (only : Only Form.key members form)
    (parts : key ∈ form.parts) :
    Rejects (Explained checks steps (.object members)) (one? build members key) := by
  refine rejects_one? fun v held e rejected => ?_
  exact (near v e rejected).around [.key key] fun inside => .part only parts held inside

theorem explained_string {holder : Members} (path : Path)
    (required : Requires members (path ++ [.key key]))
    (reached : (Value.object members).at? path = some (.object holder)) :
    Rejects (fun e => Explained checks steps (.object members) ⟨e.fault, path ++ e.path⟩)
      (string checks holder key) := by
  refine rejects_field (fun absent => .of_blames (.missing required absent) (at?_key reached)) ?_
  intro v message held present other told
  exact .of_blames (.notString required present other told) ((at?_key reached).trans held)

theorem explained_target {source : Source} (only : Only Form.key members .nbt)
    (one : Only Source.name members source) :
    Rejects (Explained checks steps (.object members)) (field checks members source.name "source") := by
  have misnamed {fault : Shape.Fault}
      (blames : Blames checks steps (.object members) [.key source.name]
        (get? members source.name) fault) :
      Explained checks steps (.object members) ⟨fault, [.key "source"]⟩ :=
    ⟨[], _, [.key "source"], rfl, .here _,
      .inr ⟨members, source, rfl, only, one, at?_member ▸ blames, rfl⟩⟩
  refine rejects_field (fun absent => misnamed (.missing (.target only one) absent)) ?_
  intro v message held present other told
  exact misnamed (held ▸ .notString (.target only one) present other told)

theorem explained_scoreboard (only : Only Form.key members .score) :
    Rejects (Explained checks steps (.object members)) (scoreboard checks members) := by
  rw [scoreboard]
  refine rejects_under ?_
  split
  · rename_i score held
    have reached : (Value.object members).at? [.key "score"] = some (.object score) :=
      at?_member.trans held
    have inner {key : String} (field : key = "name" ∨ key = "objective") :
        Rejects (fun e => Explained checks steps (.object members) ⟨e.fault, .key "score" :: e.path⟩)
          (string checks score key) :=
      explained_string [.key "score"] (.score only held field) reached
    exact rejects_bind (inner (.inl rfl)) fun name _ =>
      rejects_bind (inner (.inr rfl)) fun objective _ => rejects_ok _
  · rename_i other
    obtain ⟨v, held⟩ := Option.isSome_iff_exists.1 ((only .score).2 rfl)
    rw [Form.key] at held
    rw [held] at other ⊢
    have unlike (score : Members) (same : v = .object score) : False :=
      other score (congrArg some same)
    exact rejects_reject (.of_blames (.notObject only unlike) (at?_member.trans held))

theorem explained_nbt (near : Explains checks (steps + 1) build) (only : Only Form.key members .nbt) :
    Rejects (Explained checks steps (.object members)) (nbt checks build members) := by
  by_cases one : ∃ source, Only Source.name members source
  · obtain ⟨source, one⟩ := one
    rw [nbt_of_only one]
    refine rejects_bind (rejects_agree fun v held present other => ?_) fun _ _ => ?_
    · exact .of_blames (.wrongSource only one present other) (at?_member.trans held)
    refine rejects_bind (explained_one? near only (by simp [Form.parts])) fun separator _ => ?_
    refine rejects_bind (explained_string [] (.own only (by simp)) rfl) fun path _ => ?_
    refine rejects_bind (explained_target only one) fun target _ => ?_
    refine rejects_bind (rejects_boolean? fun v message held other told => ?_) fun interpret _ =>
      rejects_ok _
    exact .of_blames (.notBoolean only other told) (at?_member.trans held)
  · rw [nbt_of_none one]
    exact rejects_reject (.of_blames (.notOneSource only fun source h => one ⟨source, h⟩) rfl)

theorem explained_body (near : Explains checks (steps + 1) build)
    (far : Explains checks (steps + 2) buildItem)
    (only : Only Form.key members form) :
    Rejects (Explained checks steps (.object members)) (body checks build buildItem members form) := by
  have own (other : form ≠ .score) :
      Rejects (Explained checks steps (.object members)) (string checks members form.key) :=
    explained_string [] (.own only other) rfl
  cases form with
  | text => exact rejects_bind (own (by simp)) fun t _ => rejects_ok _
  | keybind => exact rejects_bind (own (by simp)) fun t _ => rejects_ok _
  | selector =>
      refine rejects_bind (explained_one? near only (by simp [Form.parts])) fun separator _ => ?_
      exact rejects_bind (own (by simp)) fun t _ => rejects_ok _
  | translate =>
      refine rejects_bind (explained_list? far only (by simp [Form.lists])) fun args _ => ?_
      refine rejects_bind (explained_one? near only (by simp [Form.parts])) fun fallback _ => ?_
      exact rejects_bind (own (by simp)) fun t _ => rejects_ok _
  | score => exact explained_scoreboard only
  | nbt => exact explained_nbt near only

theorem mem_forms : form ∈ forms members ↔ (get? members form.key).isSome := by
  cases form <;> simp [forms, Form.all]

theorem extra_mem_lists : "extra" ∈ form.lists := by
  cases form <;> simp [Form.lists]

theorem explained_ofMembers (near : Explains checks (steps + 1) build)
    (far : Explains checks (steps + 2) buildItem) :
    Rejects (Explained checks steps (.object members)) (ofMembers checks build buildItem members) := by
  by_cases only : ∃ form, Only Form.key members form
  · obtain ⟨form, only⟩ := only
    rw [ofMembers_of_only only]
    refine rejects_bind (rejects_agree fun v held present other => ?_) fun _ _ => ?_
    · exact .of_blames (.wrongType only present other) (at?_member.trans held)
    refine rejects_bind (explained_list? far only extra_mem_lists) fun extra _ => ?_
    exact rejects_bind (explained_body near far only) fun own _ => rejects_ok _
  · rw [ofMembers]
    split
    · rename_i found
      refine rejects_reject (.of_blames (.noForm fun form => ?_) rfl)
      rw [← Option.not_isSome_iff_eq_none, ← mem_forms, found]
      exact List.not_mem_nil
    · rename_i form found
      exact absurd ⟨form, forms_eq_singleton.1 found⟩ only
    · rename_i none one
      refine rejects_reject (.of_blames (.severalForms (fun form => mem_forms) ?_ ?_) rfl)
      · exact List.Pairwise.filter _ (by decide : Form.all.Nodup)
      · cases found : forms members with
        | nil => exact absurd found none
        | cons form rest =>
            cases rest with
            | nil => exact absurd found (one form)
            | cons => simp

theorem explains_ofShape (near : Explains checks (steps + 1) build)
    (far : Explains checks (steps + 2) buildItem) :
    Explains checks steps (ofShape checks build buildItem) := by
  intro v
  cases v with
  | string t => exact rejects_ok _
  | array items =>
      refine rejects_map (rejects_each fun k w found _ e rejected => ?_)
      rw [Nat.zero_add]
      exact (near w e rejected).around [.index k] fun inside => .item found inside
  | object members => exact explained_ofMembers near far
  | null | boolean | integer | real =>
      exact rejects_reject (.of_blames (.notComponent (by simp) (by simp) (by simp)) rfl)

end

theorem explains_past (checks : Checks) {steps : Nat} (past : 128 < steps) :
    Explains checks steps (buildWithin checks 0) :=
  fun _ => rejects_reject (.of_blames (.tooDeep past) rfl)

theorem explains_buildWithin (checks : Checks) : ∀ left steps, steps + left = 129 →
    Explains checks steps (buildWithin checks left)
  | 0, steps, whole => explains_past checks (by omega)
  | 1, steps, whole =>
      explains_ofShape (explains_past checks (by omega)) (explains_past checks (by omega))
  | left + 2, steps, whole =>
      explains_ofShape (explains_buildWithin checks (left + 1) (steps + 1) (by omega))
        (explains_buildWithin checks left (steps + 2) (by omega))

/-- Whether a path can be followed to its end; where something is missing, but for a last key that the
object there does not have. -/
def Followed (v : Value) (e : Shape.Error) : Prop :=
  (∃ w, v.at? e.path = some w) ∨ (∃ message, e.fault = .missing message) ∧ ∃ path key holder,
    e.path = path ++ [.key key] ∧ v.at? path = some (.object holder) ∧ get? holder key = none

theorem Requires.split {members : Members} {path : Path} (required : Requires members path) :
    ∃ before key holder, path = before ++ [.key key] ∧
      (Value.object members).at? before = some (.object holder) := by
  cases required with
  | own only other => exact ⟨[], _, members, rfl, rfl⟩
  | target only one => exact ⟨[], _, members, rfl, rfl⟩
  | score only held field => exact ⟨[.key "score"], _, _, rfl, at?_member.trans held⟩

theorem Blames.of_none {checks : Checks} {steps : Nat} {v : Value} {path : Path} {fault : Shape.Fault}
    (blames : Blames checks steps v path none fault) :
    fault = .missing checks.missing ∧ ∃ members, v = .object members ∧ Requires members path := by
  cases blames with
  | missing required absent => exact ⟨rfl, _, rfl, required⟩

theorem Leads.followed {checks : Checks} {v w : Value} {e : Shape.Error} {place own : Path} {steps : Nat}
    (leads : Leads v place w) (split : e.path = place ++ own)
    (blames : Blames checks steps w own (v.at? e.path) e.fault) : Followed v e := by
  cases reached : v.at? e.path with
  | some x => exact .inl ⟨x, reached⟩
  | none =>
      rw [reached] at blames
      obtain ⟨missing, members, rfl, required⟩ := blames.of_none
      obtain ⟨before, key, holder, rfl, found⟩ := required.split
      have found : v.at? (place ++ before) = some (.object holder) := by
        rw [Value.at?_append, leads.at?]
        exact found
      have split : e.path = (place ++ before) ++ [.key key] := by rw [split, List.append_assoc]
      refine .inr ⟨⟨_, missing⟩, place ++ before, key, holder, split, found, ?_⟩
      rw [← at?_key found, ← split, reached]

/-- A path leads to the component at fault and on to the value in it that the error is about, unless
it is about the string that a source names. -/
theorem path_of_rejected {checks : Checks} {v : Value} {e : Shape.Error}
    (rejected : build checks v = .error e) :
    ∃ place w own, e.path = place ++ own ∧ Leads v place w ∧
      (Blames checks place.length w own (v.at? e.path) e.fault ∧ Followed v e ∨
        Misnamed checks place.length w own e.fault) := by
  obtain ⟨place, w, own, split, leads, wrong⟩ := explains_buildWithin checks 129 0 rfl v e rejected
  have reached : v.at? e.path = w.at? own := by
    rw [split, Value.at?_append, leads.at?]
    rfl
  rw [Nat.zero_add, ← reached] at wrong
  refine ⟨place, w, own, split, leads, wrong.imp_left fun blames => ⟨blames, ?_⟩⟩
  exact leads.followed split blames

/-- The second of two arguments is an object that is no component. -/
theorem path_of_rejected_argument :
    let v : Value := .array [.object [(Text.ofString "translate", .string (Text.ofString "%s")),
      (Text.ofString "with", .array [.string (Text.ofString "ok"),
        .object [(Text.ofString "bold", .boolean true)]])]]
    let e : Shape.Error := ⟨.noForm, [.index 0, .key "with", .index 1]⟩
    let checks := Checks.standard
    build checks v = .error e ∧ ∃ place w own, e.path = place ++ own ∧ Leads v place w ∧
      (Blames checks place.length w own (v.at? e.path) e.fault ∧ Followed v e ∨
        Misnamed checks place.length w own e.fault) :=
  ⟨rfl, path_of_rejected rfl⟩

/-- A number where a block's position belongs is reported under a key that the object lacks. -/
theorem not_followed : ¬∀ checks v e, build checks v = .error e → Followed v e := by
  intro followed
  let members : Members := [(Text.ofString "nbt", .string (Text.ofString "a")),
    (Text.ofString "block", .integer 5)]
  have rejected : build .standard (.object members) =
      .error ⟨.notString "Input should be a valid string", [.key "source"]⟩ := rfl
  obtain ⟨w, reached⟩ | ⟨⟨_, missing⟩, _⟩ := followed _ _ _ rejected
  · rw [at?_member] at reached
    cases reached
  · cases missing

end Component
end ChatPreview
