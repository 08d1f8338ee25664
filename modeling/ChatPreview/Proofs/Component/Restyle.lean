import Mathlib.Data.List.Nodup
import Mathlib.Logic.Relation
import ChatPreview.Proofs.Component.Formats
import ChatPreview.Proofs.Component.Schema
import ChatPreview.Proofs.Message.Distinct
/-!
Members that only style a component, and the order of members, do not show in its text.
-/
namespace ChatPreview.Component

/-- The keys that a component's text or shape rests on. -/
def firmKeys : List String :=
  ["text", "selector", "keybind", "translate", "score", "nbt", "extra", "with", "block", "entity",
    "storage", "name", "objective"]

/-- The keys of a component that may as well be absent. -/
def looseKeys : List String := ["type", "source", "separator", "fallback", "interpret"]

def Named (keys : List String) (key : Text) : Prop := ∃ name ∈ keys, key = Text.ofString name

instance (keys : List String) (key : Text) : Decidable (Named keys key) :=
  inferInstanceAs (Decidable (∃ name ∈ keys, key = Text.ofString name))

/-- One change to an object somewhere in a value: its members in another order, a member added whose
key has no meaning, or a member left out that has none or may be absent. -/
inductive Edit : Value → Value → Prop where
  | reorder {members members' : Members} (order : members.Perm members') :
      Edit (.object members) (.object members')
  | add {before after : Members} {key : Text} {v : Value}
      (free : ¬Named (firmKeys ++ looseKeys) key) (fresh : key ∉ (before ++ after).map Prod.fst)
      (distinct : v.Distinct) :
      Edit (.object (before ++ after)) (.object (before ++ (key, v) :: after))
  | drop {before after : Members} {key : Text} {v : Value} (free : ¬Named firmKeys key) :
      Edit (.object (before ++ (key, v) :: after)) (.object (before ++ after))
  | item {before after : List Value} {v w : Value} (inside : Edit v w) :
      Edit (.array (before ++ v :: after)) (.array (before ++ w :: after))
  | member {before after : Members} {key : Text} {v w : Value} (inside : Edit v w) :
      Edit (.object (before ++ (key, v) :: after)) (.object (before ++ (key, w) :: after))

/-! ## What a key holds after an edit -/

section
variable {members members' before after : Members} {key : Text} {name : String} {v w : Value}

theorem mem_of_get? (held : get? members name = some v) : (Text.ofString name, v) ∈ members := by
  obtain ⟨before, after, rfl, _⟩ := List.lookup_eq_some_iff.1 held
  simp

theorem get?_eq_none (absent : Text.ofString name ∉ members.map Prod.fst) :
    get? members name = none := by
  refine Option.eq_none_iff_forall_ne_some.2 fun v held => absent ?_
  exact List.mem_map.2 ⟨_, mem_of_get? held, rfl⟩

theorem get?_append : get? (before ++ after) name = (get? before name).or (get? after name) :=
  List.lookup_append

theorem get?_cons_of_ne (other : Text.ofString name ≠ key) :
    get? ((key, v) :: after) name = get? after name := by
  have no : (Text.ofString name == key) = false := beq_eq_false_iff_ne.2 other
  rw [get?, Members.get?, List.lookup_cons, no]
  rfl

theorem get?_cons_self : get? ((Text.ofString name, v) :: after) name = some v :=
  List.lookup_cons_self

theorem get?_insert_of_ne (other : Text.ofString name ≠ key) :
    get? (before ++ (key, v) :: after) name = get? (before ++ after) name := by
  rw [get?_append, get?_append, get?_cons_of_ne other]

theorem get?_insert_self
    (distinct : ((before ++ (Text.ofString name, v) :: after).map Prod.fst).Nodup) :
    get? (before ++ (Text.ofString name, w) :: after) name = some w ∧
      get? (before ++ after) name = none := by
  rw [List.map_append, List.map_cons, List.nodup_middle, List.nodup_cons, List.mem_append,
    not_or] at distinct
  obtain ⟨⟨first, second⟩, _⟩ := distinct
  rw [get?_append, get?_append, get?_eq_none first, get?_eq_none second, get?_cons_self]
  exact ⟨rfl, rfl⟩

theorem get?_eq_some (distinct : (members.map Prod.fst).Nodup) :
    get? members name = some v ↔ (Text.ofString name, v) ∈ members := by
  refine ⟨mem_of_get?, fun among => ?_⟩
  obtain ⟨before, after, rfl⟩ := List.append_of_mem among
  exact (get?_insert_self distinct).1

theorem get?_perm (order : members.Perm members') (distinct : (members.map Prod.fst).Nodup) :
    get? members name = get? members' name := by
  have distinct' := (order.map Prod.fst).nodup_iff.1 distinct
  ext v
  rw [get?_eq_some distinct, get?_eq_some distinct', order.mem_iff]

end

theorem Edit.distinct {v w : Value} (edit : Edit v w) (distinct : v.Distinct) : w.Distinct := by
  induction edit with
  | reorder order =>
      cases distinct with
      | object keys each =>
          exact .object ((order.map Prod.fst).nodup_iff.1 keys)
            fun m among => each m (order.mem_iff.2 among)
  | add free fresh value =>
      cases distinct with
      | object keys each =>
          rw [List.map_append] at fresh keys
          constructor
          · rw [List.map_append, List.map_cons, List.nodup_middle]
            exact List.nodup_cons.2 ⟨fresh, keys⟩
          · intro m among
            rcases List.mem_cons.1 (List.perm_middle.mem_iff.1 among) with rfl | other
            · exact value
            · exact each m other
  | drop free =>
      cases distinct with
      | object keys each =>
          constructor
          · rw [List.map_append, List.map_cons, List.nodup_middle] at keys
            rw [List.map_append]
            exact (List.nodup_cons.1 keys).2
          · exact fun m among => each m (List.perm_middle.mem_iff.2 (List.mem_cons_of_mem _ among))
  | item inside ih =>
      cases distinct with
      | array each =>
          refine .array fun u among => ?_
          rcases List.mem_cons.1 (List.perm_middle.mem_iff.1 among) with rfl | other
          · exact ih (each _ (List.perm_middle.mem_iff.2 List.mem_cons_self))
          · exact each u (List.perm_middle.mem_iff.2 (List.mem_cons_of_mem _ other))
  | member inside ih =>
      cases distinct with
      | object keys each =>
          constructor
          · simpa using keys
          · intro m among
            rcases List.mem_cons.1 (List.perm_middle.mem_iff.1 among) with rfl | other
            · exact ih (each _ (List.perm_middle.mem_iff.2 List.mem_cons_self))
            · exact each m (List.perm_middle.mem_iff.2 (List.mem_cons_of_mem _ other))

def Alike (v w : Value) : Prop := v.Distinct ∧ (v = w ∨ Edit v w)

/-- What the members of an object have in common after an edit somewhere in it. -/
structure Kept (members members' : Members) : Prop where
  firm : ∀ name ∈ firmKeys, Option.Rel Alike (get? members name) (get? members' name)
  loose : ∀ name ∈ looseKeys, get? members' name = none ∨
    Option.Rel Alike (get? members name) (get? members' name)

theorem rel_alike {members : Members} (distinct : (Value.object members).Distinct) (name : String) :
    Option.Rel Alike (get? members name) (get? members name) := by
  cases distinct with
  | object keys each =>
      cases held : get? members name with
      | none => exact .none
      | some v => exact .some ⟨each _ (mem_of_get? held), .inl rfl⟩

theorem kept_of_eq {members members' : Members} (distinct : (Value.object members).Distinct)
    (same : ∀ name ∈ firmKeys ++ looseKeys, get? members' name = get? members name) :
    Kept members members' where
  firm name among := same name (List.mem_append_left _ among) ▸ rel_alike distinct name
  loose name among := .inr (same name (List.mem_append_right _ among) ▸ rel_alike distinct name)

theorem kept_of_drop {before after : Members} {key : Text} {v : Value} (free : ¬Named firmKeys key)
    (distinct : (Value.object (before ++ (key, v) :: after)).Distinct) :
    Kept (before ++ (key, v) :: after) (before ++ after) := by
  have others {name : String} (other : Text.ofString name ≠ key) :
      Option.Rel Alike (get? (before ++ (key, v) :: after) name) (get? (before ++ after) name) := by
    have held := rel_alike distinct name
    rw [get?_insert_of_ne other] at held ⊢
    exact held
  constructor
  · exact fun name among => others fun same => free ⟨name, among, same.symm⟩
  · intro name _
    by_cases same : Text.ofString name = key
    · subst same
      cases distinct with
      | object keys each => exact .inl (get?_insert_self (w := v) keys).2
    · exact .inr (others same)

theorem kept_of_member {before after : Members} {key : Text} {v w : Value} (inside : Edit v w)
    (distinct : (Value.object (before ++ (key, v) :: after)).Distinct) :
    Kept (before ++ (key, v) :: after) (before ++ (key, w) :: after) := by
  have all (name : String) : Option.Rel Alike (get? (before ++ (key, v) :: after) name)
      (get? (before ++ (key, w) :: after) name) := by
    by_cases same : Text.ofString name = key
    · subst same
      cases distinct with
      | object keys each =>
          rw [(get?_insert_self (w := v) keys).1, (get?_insert_self (w := w) keys).1]
          exact .some ⟨each _ (List.perm_middle.mem_iff.2 List.mem_cons_self), .inr inside⟩
    · have held := rel_alike distinct name
      rw [get?_insert_of_ne same] at held
      rw [get?_insert_of_ne same, get?_insert_of_ne same]
      exact held
  exact ⟨fun name _ => all name, fun name _ => .inr (all name)⟩

theorem Alike.object {members : Members} {w : Value} (alike : Alike (.object members) w) :
    ∃ members', w = .object members' ∧ Kept members members' := by
  obtain ⟨distinct, rfl | edit⟩ := alike
  · exact ⟨members, rfl, kept_of_eq distinct fun _ _ => rfl⟩
  cases edit with
  | reorder order =>
      refine ⟨_, rfl, kept_of_eq distinct fun name _ => ?_⟩
      cases distinct with
      | object keys each => exact (get?_perm order keys).symm
  | add free fresh value =>
      refine ⟨_, rfl, kept_of_eq distinct fun name among => get?_insert_of_ne ?_⟩
      exact fun same => free ⟨name, among, same.symm⟩
  | drop free => exact ⟨_, rfl, kept_of_drop free distinct⟩
  | member inside => exact ⟨_, rfl, kept_of_member inside distinct⟩

theorem alike_refl {v : Value} (distinct : v.Distinct) : Alike v v := ⟨distinct, .inl rfl⟩

theorem Alike.array {items : List Value} {w : Value} (alike : Alike (.array items) w) :
    ∃ items', w = .array items' ∧ List.Forall₂ Alike items items' := by
  obtain ⟨distinct, edit⟩ := alike
  cases distinct with
  | array each =>
      have whole (items : List Value) (each : ∀ v ∈ items, v.Distinct) :
          List.Forall₂ Alike items items :=
        List.forall₂_same.2 fun v among => alike_refl (each v among)
      rcases edit with rfl | edit
      · exact ⟨items, rfl, whole items each⟩
      cases edit with
      | item inside =>
          rw [List.forall_mem_append, List.forall_mem_cons] at each
          obtain ⟨first, middle, last⟩ := each
          exact ⟨_, rfl, List.rel_append (whole _ first) (.cons ⟨middle, .inr inside⟩ (whole _ last))⟩

theorem Alike.eq_of_leaf {v w : Value} (alike : Alike v w) (list : ∀ items, v ≠ .array items)
    (object : ∀ members, v ≠ .object members) : w = v := by
  obtain ⟨_, rfl | edit⟩ := alike
  · rfl
  · cases edit with
    | item inside => exact absurd rfl (list _)
    | _ => exact absurd rfl (object _)

/-! ## The shape of an object after an edit -/

section
variable {members members' : Members} (kept : Kept members members') {name said : String} {t : Text}
include kept

theorem Kept.isSome (firm : name ∈ firmKeys) :
    (get? members' name).isSome = (get? members name).isSome := by
  have related := kept.firm name firm
  generalize get? members name = v, get? members' name = w at related
  cases related <;> rfl

theorem Kept.only {α : Type} {key : α → String} (firm : ∀ a, key a ∈ firmKeys) {a : α}
    (only : Only key members a) : Only key members' a := fun b => by
  rw [kept.isSome (firm b)]
  exact only b

theorem Kept.of_firm {v : Value} (firm : name ∈ firmKeys) (held : get? members name = some v) :
    ∃ w, get? members' name = some w ∧ Alike v w := by
  have related := kept.firm name firm
  rw [held] at related
  generalize get? members' name = found at related ⊢
  cases related with
  | some alike => exact ⟨_, rfl, alike⟩

theorem Kept.of_loose {w : Value} (loose : name ∈ looseKeys) (held : get? members' name = some w) :
    ∃ v, get? members name = some v ∧ Alike v w := by
  obtain absent | related := kept.loose name loose
  · rw [absent] at held
    cases held
  · rw [held] at related
    generalize get? members name = found at related ⊢
    cases related with
    | some alike => exact ⟨_, rfl, alike⟩

theorem Kept.string (firm : name ∈ firmKeys) (held : get? members name = some (.string t)) :
    get? members' name = some (.string t) := by
  obtain ⟨w, found, alike⟩ := kept.of_firm firm held
  rw [found, alike.eq_of_leaf (by simp) (by simp)]

theorem Kept.agrees (loose : name ∈ looseKeys) (agrees : Agrees members name said) :
    Agrees members' name said := by
  intro w held
  obtain ⟨v, before, alike⟩ := kept.of_loose loose held
  obtain rfl | rfl := agrees v before
  · exact .inl (alike.eq_of_leaf (by simp) (by simp))
  · exact .inr (alike.eq_of_leaf (by simp) (by simp))

end

/-! ## What is built after an edit -/

/-- Whether a builder that takes a value also takes one that is alike, to the same text. -/
def Preserves (build : Value → Build Component) : Prop :=
  ∀ ⦃v w c⦄, Alike v w → build v = .ok c → ∃ c', build w = .ok c' ∧ c'.interpret = c.interpret

def SameTexts (cs cs' : List Component) : Prop :=
  List.Forall₂ (fun c c' => c'.interpret = c.interpret) cs cs'

theorem rel_transport {α : Type} {r : Value → α → Prop} {t : α → α → Prop}
    (one : ∀ {v w x}, Alike v w → r v x → ∃ y, r w y ∧ t x y) {o o' : Option Value} {x : Option α}
    (alike : Option.Rel Alike o o') (related : Option.Rel r o x) :
    ∃ y, Option.Rel r o' y ∧ Option.Rel t x y := by
  cases alike with
  | none =>
      cases related
      exact ⟨none, .none, .none⟩
  | some alike =>
      cases related with
      | some held =>
          obtain ⟨y, found, same⟩ := one alike held
          exact ⟨some y, .some found, .some same⟩

theorem each_transport {build : Value → Build Component} (preserves : Preserves build)
    {items items' : List Value} {cs : List Component} (alike : List.Forall₂ Alike items items')
    (built : List.Forall₂ (fun v c => build v = .ok c) items cs) :
    ∃ cs', List.Forall₂ (fun v c => build v = .ok c) items' cs' ∧ SameTexts cs cs' := by
  induction alike generalizing cs with
  | nil =>
      cases built
      exact ⟨[], .nil, .nil⟩
  | cons first rest ih =>
      cases built with
      | cons found later =>
          obtain ⟨c', found', same⟩ := preserves first found
          obtain ⟨cs', later', shown⟩ := ih later
          exact ⟨c' :: cs', .cons found' later', .cons same shown⟩

theorem interpretAll_of_same {cs cs' : List Component} (same : SameTexts cs cs') :
    interpretAll cs' = interpretAll cs := by
  induction same with
  | nil => rfl
  | cons first rest ih => rw [interpretAll, interpretAll, first, ih]

theorem interpretEach_of_same {cs cs' : List Component} (same : SameTexts cs cs') :
    interpretEach cs' = interpretEach cs := by
  induction same with
  | nil => rfl
  | cons first rest ih => rw [interpretEach, interpretEach, first, ih]

theorem interpretExtra_of_same {cs cs' : Option (List Component)}
    (same : Option.Rel SameTexts cs cs') : interpretExtra cs' = interpretExtra cs := by
  cases same with
  | none => rfl
  | some same => rw [interpretExtra, interpretExtra, interpretAll_of_same same]

theorem interpretArgs_of_same {cs cs' : Option (List Component)}
    (same : Option.Rel SameTexts cs cs') : interpretArgs cs' = interpretArgs cs := by
  cases same with
  | none => rfl
  | some same => rw [interpretArgs, interpretArgs, interpretEach_of_same same]

section
variable {checks : Checks} {build buildItem : Value → Build Component} {members members' : Members}
  {name : String}

theorem list_transport (preserves : Preserves build) {v w : Value} {cs : List Component}
    (alike : Alike v w) (built : list build v = .ok cs) :
    ∃ cs', list build w = .ok cs' ∧ SameTexts cs cs' := by
  obtain ⟨items, rfl, each⟩ := list_eq_ok.1 built
  obtain ⟨items', rfl, alikes⟩ := alike.array
  obtain ⟨cs', each', same⟩ := each_transport preserves alikes each
  exact ⟨cs', list_eq_ok.2 ⟨items', rfl, each'⟩, same⟩

theorem list?_transport (preserves : Preserves build) (kept : Kept members members')
    (firm : name ∈ firmKeys) {cs : Option (List Component)}
    (built : list? build members name = .ok cs) :
    ∃ cs', list? build members' name = .ok cs' ∧ Option.Rel SameTexts cs cs' := by
  obtain ⟨cs', built', same⟩ := rel_transport (list_transport preserves) (kept.firm name firm)
    (list?_eq_ok.1 built)
  exact ⟨cs', list?_eq_ok.2 built', same⟩

theorem one?_transport (preserves : Preserves build) (kept : Kept members members')
    (loose : name ∈ looseKeys) {c : Option Component} (built : one? build members name = .ok c) :
    ∃ c', one? build members' name = .ok c' := by
  obtain absent | related := kept.loose name loose
  · refine ⟨none, one?_eq_ok.2 ?_⟩
    rw [absent]
    exact .none
  · obtain ⟨c', built', _⟩ := rel_transport (fun alike found => preserves alike found) related
      (one?_eq_ok.1 built)
    exact ⟨c', one?_eq_ok.2 built'⟩

theorem boolean?_transport (kept : Kept members members') (loose : name ∈ looseKeys)
    {b : Option Bool} (built : boolean? checks members name = .ok b) :
    ∃ b', boolean? checks members' name = .ok b' := by
  have flag := exists_boolean?.1 ⟨b, built⟩
  refine exists_boolean?.2 fun w held => ?_
  obtain ⟨v, before, alike⟩ := kept.of_loose loose held
  obtain rfl | ⟨b, rfl⟩ := flag v before
  · exact .inl (alike.eq_of_leaf (by simp) (by simp))
  · exact .inr ⟨b, alike.eq_of_leaf (by simp) (by simp)⟩

theorem scoreboard_transport (kept : Kept members members') {own : Body}
    (built : scoreboard checks members = .ok own) : scoreboard checks members' = .ok own := by
  obtain ⟨score, who, objective, held, first, second, rfl⟩ := scoreboard_eq_ok.1 built
  obtain ⟨w, found, alike⟩ := kept.of_firm (by decide) held
  obtain ⟨score', rfl, inside⟩ := alike.object
  exact scoreboard_eq_ok.2 ⟨score', who, objective, found, inside.string (by decide) first,
    inside.string (by decide) second, rfl⟩

theorem nbt_transport (preserves : Preserves build) (kept : Kept members members') {own : Body}
    (built : nbt checks build members = .ok own) :
    ∃ own', nbt checks build members' = .ok own' ∧ interpretBody own' = interpretBody own := by
  obtain ⟨source, separator, path, target, interpret, only, agrees, first, second, third, fourth,
    rfl⟩ := nbt_eq_ok.1 built
  obtain ⟨separator', first'⟩ := one?_transport preserves kept (by decide) first
  obtain ⟨interpret', fourth'⟩ := boolean?_transport kept (by decide) fourth
  have firm (s : Source) : s.name ∈ firmKeys := by cases s <;> decide
  exact ⟨_, nbt_eq_ok.2 ⟨source, separator', path, target, interpret', kept.only firm only,
    kept.agrees (by decide) agrees, first', kept.string (by decide) second,
    kept.string (firm source) third, fourth', rfl⟩, rfl⟩

theorem body_transport (preserves : Preserves build) (preservesItem : Preserves buildItem)
    (kept : Kept members members') {form : Form} {own : Body}
    (built : body checks build buildItem members form = .ok own) :
    ∃ own', body checks build buildItem members' form = .ok own' ∧
      interpretBody own' = interpretBody own := by
  cases form with
  | score => exact ⟨own, scoreboard_transport kept built, rfl⟩
  | nbt => exact nbt_transport preserves kept built
  | text =>
      obtain ⟨t, held, same⟩ := text_eq_ok.1 built
      exact ⟨own, text_eq_ok.2 ⟨t, kept.string (by decide) held, same⟩, rfl⟩
  | keybind =>
      obtain ⟨t, held, same⟩ := keybind_eq_ok.1 built
      exact ⟨own, keybind_eq_ok.2 ⟨t, kept.string (by decide) held, same⟩, rfl⟩
  | selector =>
      obtain ⟨separator, t, first, held, rfl⟩ := selector_eq_ok.1 built
      obtain ⟨separator', first'⟩ := one?_transport preserves kept (by decide) first
      have shown := kept.string (by decide) held
      exact ⟨_, selector_eq_ok.2 ⟨separator', t, first', shown, rfl⟩, rfl⟩
  | translate =>
      obtain ⟨args, fallback, t, first, second, held, rfl⟩ := translate_eq_ok.1 built
      obtain ⟨args', first', same⟩ := list?_transport preservesItem kept (by decide) first
      obtain ⟨fallback', second'⟩ := one?_transport preserves kept (by decide) second
      have shown := kept.string (by decide) held
      refine ⟨_, translate_eq_ok.2 ⟨args', fallback', t, first', second', shown, rfl⟩, ?_⟩
      rw [interpretBody, interpretBody, interpretArgs_of_same same]

theorem ofMembers_transport (preserves : Preserves build) (preservesItem : Preserves buildItem)
    (kept : Kept members members') {c : Component}
    (built : ofMembers checks build buildItem members = .ok c) :
    ∃ c', ofMembers checks build buildItem members' = .ok c' ∧ c'.interpret = c.interpret := by
  obtain ⟨form, extra, own, only, agrees, first, second, rfl⟩ := ofMembers_eq_ok.1 built
  obtain ⟨extra', first', texts⟩ := list?_transport preservesItem kept (by decide) first
  obtain ⟨own', second', text⟩ := body_transport preserves preservesItem kept second
  have firm (f : Form) : f.key ∈ firmKeys := by cases f <;> decide
  refine ⟨_, ofMembers_eq_ok.2 ⟨form, extra', own', kept.only firm only,
    kept.agrees (by decide) agrees, first', second', rfl⟩, ?_⟩
  rw [interpret, interpret, text, interpretExtra_of_same texts]

theorem preserves_ofShape (preserves : Preserves build) (preservesItem : Preserves buildItem) :
    Preserves (ofShape checks build buildItem) := by
  intro v w c alike built
  cases v with
  | array items =>
      obtain ⟨items', rfl, alikes⟩ := alike.array
      obtain ⟨cs, each, rfl⟩ := map_eq_ok.1 built
      obtain ⟨cs', each', same⟩ := each_transport preserves alikes (each_eq_ok.1 each)
      refine ⟨.sequence cs', map_eq_ok.2 ⟨cs', each_eq_ok.2 each', rfl⟩, ?_⟩
      rw [interpret, interpret, interpretAll_of_same same]
  | object members =>
      obtain ⟨members', rfl, kept⟩ := alike.object
      exact ofMembers_transport preserves preservesItem kept built
  | null | boolean | integer | real | string =>
      rw [alike.eq_of_leaf (by simp) (by simp)]
      exact ⟨c, built, rfl⟩

end

theorem preserves_buildWithin (checks : Checks) : ∀ steps, Preserves (buildWithin checks steps)
  | 0 => fun _ _ _ _ built => nomatch built
  | 1 => preserves_ofShape (preserves_buildWithin checks 0) (preserves_buildWithin checks 0)
  | steps + 2 =>
      preserves_ofShape (preserves_buildWithin checks (steps + 1)) (preserves_buildWithin checks steps)

theorem preserves_build (checks : Checks) : Preserves (build checks) :=
  preserves_buildWithin checks (maxPathLength + 1)

/-- A component is still one after any number of edits, and shows the same text, if it shows one: a
number in a marker may be too long to be read. -/
theorem interpret_of_edits {checks : Checks} {v w : Value} {c : Component} (distinct : v.Distinct)
    (built : build checks v = .ok c) (edits : Relation.ReflTransGen Edit v w) :
    ∃ c', build checks w = .ok c' ∧ c'.interpret = c.interpret ∧
      ((∃ text, c.interpret = .ok text) ∨ ∃ digits ∈ c.numbers, maxDigits < digits.length) := by
  have kept : w.Distinct ∧ ∃ c', build checks w = .ok c' ∧ c'.interpret = c.interpret := by
    induction edits with
    | refl => exact ⟨distinct, c, built, rfl⟩
    | tail _ edit ih =>
        obtain ⟨before, c', built', same⟩ := ih
        obtain ⟨c'', built'', same'⟩ := preserves_build checks ⟨before, .inr edit⟩ built'
        exact ⟨edit.distinct before, c'', built'', same'.trans same⟩
  obtain ⟨_, c', built', same⟩ := kept
  refine ⟨c', built', same, ?_⟩
  have rests := restsOn_interpret c
  cases shown : c.interpret with
  | ok text => exact .inl ⟨text, rfl⟩
  | error e =>
      rw [shown] at rests
      obtain ⟨digits, among, count, long⟩ := rests
      exact .inr ⟨digits, among, count ▸ long⟩

theorem interpret_of_edits_decoded :
    let checks := Checks.standard
    let member (key : String) (v : Value) : Text × Value := (Text.ofString key, v)
    let string (s : String) : Value := .string (Text.ofString s)
    let format := member "translate" (string "Hi %s")
    let who := member "text" (string "Bob")
    let v : Value := .object [format, member "fallback" (string "Hi"),
      member "with" (.array [.object [member "color" (string "red"), who]])]
    let w : Value := .object [member "with" (.array [.object [who]]),
      member "bold" (.boolean true), format]
    v.Distinct ∧ Relation.ReflTransGen Edit v w ∧ ∃ c c', build checks v = .ok c ∧
      build checks w = .ok c' ∧
      c'.interpret = c.interpret ∧
      ((∃ text, c.interpret = .ok text) ∨ ∃ digits ∈ c.numbers, maxDigits < digits.length) := by
  intro checks member string format who v w
  have decoded : Json.decode 990 ("\x7b\"translate\":\"Hi %s\",\"fallback\":\"Hi\"," ++
      "\"with\":[\x7b\"color\":\"red\",\"text\":\"Bob\"\x7d]\x7d").toList = .ok v := by cbv
  have distinct := Json.distinct_of_decode decoded
  let args := member "with" (.array [.object [who]])
  have plain : Edit v (.object [format, member "fallback" (string "Hi"), args]) :=
    @Edit.member [format, member "fallback" (string "Hi")] [] _ _ _ <|
      @Edit.item [] [] _ _ <| @Edit.drop [] [who] _ _ (by decide)
  have short : Edit (.object [format, member "fallback" (string "Hi"), args])
      (.object [format, args]) :=
    @Edit.drop [format] [args] _ _ (by decide)
  have bold : Edit (.object [format, args])
      (.object [format, member "bold" (.boolean true), args]) :=
    @Edit.add [format] [args] _ _ (by decide) (by decide) (.boolean true)
  have turned : Edit (.object [format, member "bold" (.boolean true), args]) w :=
    .reorder (List.reverse_perm [args, member "bold" (.boolean true), format])
  have edits : Relation.ReflTransGen Edit v w :=
    .tail (.tail (.tail (.single plain) short) bold) turned
  have first : build checks v = .ok _ := rfl
  obtain ⟨c', built, shown⟩ := interpret_of_edits distinct first edits
  exact ⟨distinct, edits, _, c', rfl, built, shown⟩

end ChatPreview.Component
