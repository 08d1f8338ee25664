import ChatPreview.Proofs.Component.Faults
/-!
The values that building reaches. Building is stopped for depth just where it reaches a value that
is too deep, and more steps change nothing where it is not stopped.
-/
namespace ChatPreview.Component

def Deep {α : Type} (b : Build α) : Prop := ∃ path, b = .error ⟨.tooDeep, path⟩

def Unspoilt {α : Type} (b : Build α) : Prop := Rejects (fun e => e.fault = .tooDeep) b

/-- Whether the second is what the first would be if it had not been stopped for depth. -/
def Settled {α : Type} (b b' : Build α) : Prop := b' = b ∨ Deep b

section
variable {α β : Type} {b b' : Build α} {f f' : α → Build β}

theorem Deep.bind (deep : Deep b) (f : α → Build β) : Deep (b >>= f) := by
  obtain ⟨path, rfl⟩ := deep
  exact ⟨path, rfl⟩

theorem Deep.map (deep : Deep b) (f : α → β) : Deep (f <$> b) := by
  obtain ⟨path, rfl⟩ := deep
  exact ⟨path, rfl⟩

theorem Deep.under (deep : Deep b) (step : Step) : Deep (under step b) := by
  obtain ⟨path, rfl⟩ := deep
  exact ⟨step :: path, rfl⟩

theorem deep_bind (first : Unspoilt b) (next : ∀ x, b = .ok x → Deep (f x)) : Deep (b >>= f) := by
  cases b with
  | error e =>
      obtain ⟨fault, path⟩ := e
      have stopped : fault = .tooDeep := first _ rfl
      exact ⟨path, stopped ▸ rfl⟩
  | ok x => exact next x rfl

theorem Deep.unspoilt (deep : Deep b) : Unspoilt b := by
  obtain ⟨path, rfl⟩ := deep
  rintro e ⟨⟩
  rfl

theorem Settled.refl (b : Build α) : Settled b b := .inl rfl

theorem Settled.bind (first : Settled b b') (next : ∀ x, Settled (f x) (f' x)) :
    Settled (b >>= f) (b' >>= f') := by
  rcases first with rfl | deep
  · cases b' with
    | error e => exact .refl _
    | ok x => exact next x
  · exact .inr (deep.bind f)

theorem Settled.map (settled : Settled b b') (f : α → β) : Settled (f <$> b) (f <$> b') := by
  rcases settled with rfl | deep
  · exact .refl _
  · exact .inr (deep.map f)

theorem Settled.under (settled : Settled b b') (step : Step) :
    Settled (under step b) (under step b') := by
  rcases settled with rfl | deep
  · exact .refl _
  · exact .inr (deep.under step)

end

/-! ## More steps -/

section
variable {checks : Checks} {build build' buildItem buildItem' : Value → Build Component}
  {members : Members} {key : String}

theorem settled_each (settled : ∀ v, Settled (build v) (build' v)) {i : Nat} {items : List Value} :
    Settled (each build i items) (each build' i items) := by
  induction items generalizing i with
  | nil => exact .refl _
  | cons v rest ih => exact ((settled v).under _).bind fun c => ih.bind fun cs => .refl _

theorem settled_list? (settled : ∀ v, Settled (build v) (build' v)) :
    Settled (list? build members key) (list? build' members key) := by
  rw [list?, list?]
  cases get? members key with
  | none => exact .refl _
  | some v =>
      refine .map (.under ?_ _) _
      cases v with
      | array items => exact settled_each settled
      | null | boolean | integer | real | string | object => exact .refl _

theorem settled_one? (settled : ∀ v, Settled (build v) (build' v)) :
    Settled (one? build members key) (one? build' members key) := by
  rw [one?, one?]
  cases get? members key with
  | none => exact .refl _
  | some v => exact ((settled v).under _).map _

theorem settled_nbt (settled : ∀ v, Settled (build v) (build' v)) :
    Settled (nbt checks build members) (nbt checks build' members) := by
  by_cases one : ∃ source, Only Source.name members source
  · obtain ⟨source, only⟩ := one
    rw [nbt_of_only only, nbt_of_only only]
    exact .bind (.refl _) fun _ => (settled_one? settled).bind fun separator => .refl _
  · rw [nbt_of_none one, nbt_of_none one]
    exact .refl _

theorem settled_body (near : ∀ v, Settled (build v) (build' v))
    (far : ∀ v, Settled (buildItem v) (buildItem' v)) (form : Form) :
    Settled (body checks build buildItem members form)
      (body checks build' buildItem' members form) := by
  cases form with
  | text | keybind | score => exact .refl _
  | selector => exact (settled_one? near).bind fun separator => .refl _
  | translate =>
      exact (settled_list? far).bind fun args => (settled_one? near).bind fun fallback => .refl _
  | nbt => exact settled_nbt near

theorem settled_ofMembers (near : ∀ v, Settled (build v) (build' v))
    (far : ∀ v, Settled (buildItem v) (buildItem' v)) :
    Settled (ofMembers checks build buildItem members)
      (ofMembers checks build' buildItem' members) := by
  by_cases one : ∃ form, Only Form.key members form
  · obtain ⟨form, only⟩ := one
    rw [ofMembers_of_only only, ofMembers_of_only only]
    exact .bind (.refl _) fun _ => (settled_list? far).bind fun extra =>
      (settled_body near far form).bind fun own => .refl _
  · obtain ⟨fault, _, rejected⟩ := ofMembers_of_none one
    rw [rejected, rejected]
    exact .refl _

theorem settled_ofShape (near : ∀ v, Settled (build v) (build' v))
    (far : ∀ v, Settled (buildItem v) (buildItem' v)) (v : Value) :
    Settled (ofShape checks build buildItem v) (ofShape checks build' buildItem' v) := by
  cases v with
  | array items => exact (settled_each near).map _
  | object members => exact settled_ofMembers near far
  | null | boolean | integer | real | string => exact .refl _

end

/-- More steps change what is built only where depth stopped it. -/
theorem settled_buildWithin {checks : Checks} {few many : Nat} (more : few ≤ many) (v : Value) :
    Settled (buildWithin checks few v) (buildWithin checks many v) := by
  induction few using Nat.strongRecOn generalizing many v with
  | ind few ih =>
      cases few with
      | zero => exact .inr ⟨[], rfl⟩
      | succ few =>
          cases many with
          | zero => exact absurd more (Nat.not_succ_le_zero few)
          | succ many =>
              rw [buildWithin_succ, buildWithin_succ]
              exact settled_ofShape (ih few (by omega) (by omega))
                (ih (few - 1) (by omega) (by omega)) v

theorem built_of_le {checks : Checks} {few many : Nat} (more : few ≤ many) {v : Value} {c : Component}
    (built : buildWithin checks few v = .ok c) : buildWithin checks many v = .ok c := by
  rcases settled_buildWithin more v with same | ⟨path, stopped⟩
  · rw [same, built]
  · rw [stopped] at built
    cases built

/-! ## The values that are reached -/

def Whole (checks : Checks) (v : Value) : Prop := ∃ steps, Builds (buildWithin checks steps) v

/-- Whether building a value comes, at the end of a path, to build another. What is built before
that one must not have been rejected, but however deep it is it does not count as too deep. -/
inductive Visits (checks : Checks) : Value → Path → Value → Prop where
  | here (v : Value) : Visits checks v [] v
  | item {items : List Value} {i : Nat} {v w : Value} {path : Path} (found : items[i]? = some v)
      (before : ∀ u ∈ items.take i, Whole checks u) (rest : Visits checks v path w) :
      Visits checks (.array items) (.index i :: path) w
  | listed {members : Members} {form : Form} {key : String} {items : List Value} {i j : Nat}
      {v w : Value} {path : Path} (only : Only Form.key members form)
      (agrees : Agrees members "type" form.typeName) (lists : form.lists[j]? = some key)
      (earlier : ∀ other ∈ form.lists.take j, Optionally members other (ListOf (Whole checks)))
      (held : get? members key = some (.array items)) (found : items[i]? = some v)
      (before : ∀ u ∈ items.take i, Whole checks u) (rest : Visits checks v path w) :
      Visits checks (.object members) (.key key :: .index i :: path) w
  | part {members : Members} {form : Form} {key : String} {v w : Value} {path : Path}
      (only : Only Form.key members form) (agrees : Agrees members "type" form.typeName)
      (lists : ∀ other ∈ form.lists, Optionally members other (ListOf (Whole checks)))
      (source : form = .nbt →
        ∃ source, Only Source.name members source ∧ Agrees members "source" source.name)
      (parts : key ∈ form.parts) (held : get? members key = some v) (rest : Visits checks v path w) :
      Visits checks (.object members) (.key key :: path) w

theorem Visits.leads {checks : Checks} {v w : Value} {path : Path}
    (visits : Visits checks v path w) : Leads v path w := by
  induction visits with
  | here v => exact .here v
  | item found _ _ ih => exact .item found ih
  | listed only _ lists _ held found _ _ ih =>
      exact .listed only (List.mem_of_getElem? lists) held found ih
  | part only _ _ _ parts held _ ih => exact .part only parts held ih

theorem lists_zero {form : Form} : form.lists[0]? = some "extra" := by
  cases form <;> rfl

theorem lists_succ {form : Form} {key : String} {j : Nat} (lists : form.lists[j + 1]? = some key) :
    form = .translate ∧ key = "with" := by
  cases form with
  | translate =>
      cases j with
      | zero => exact ⟨rfl, (Option.some.inj lists).symm⟩
      | succ j => cases lists
  | text | selector | keybind | score | nbt => cases lists

/-! ## Building that is stopped has come to a value that is too deep -/

def Reaches (checks : Checks) (steps : Nat) (v : Value) (e : Shape.Error) : Prop :=
  e.fault = .tooDeep → ∃ w, Visits checks v e.path w ∧ steps ≤ e.path.length

/-- Whether every error for depth that is met with so many steps is at a value that is reached. -/
def Traced (checks : Checks) (steps : Nat) : Prop :=
  ∀ v, Rejects (Reaches checks steps v) (buildWithin checks steps v)

section
variable {checks : Checks} {steps : Nat} {members : Members} {form : Form} {key : String} {v : Value}

theorem reaches_of_ne {fault : Shape.Fault} {path : Path} (other : fault ≠ .tooDeep) :
    Reaches checks steps v ⟨fault, path⟩ :=
  fun same => absurd same other

theorem reaches_list? {j : Nat} (far : Traced checks (steps - 1)) (only : Only Form.key members form)
    (agrees : Agrees members "type" form.typeName) (lists : form.lists[j]? = some key)
    (earlier : ∀ other ∈ form.lists.take j, Optionally members other (ListOf (Whole checks))) :
    Rejects (Reaches checks (steps + 1) (.object members))
      (list? (buildWithin checks (steps - 1)) members key) := by
  refine rejects_list? (fun v held other => reaches_of_ne (by simp)) ?_
  intro items i v held found before e rejected deep
  obtain ⟨w, visits, below⟩ := far v e rejected deep
  have before : ∀ u ∈ items.take i, Whole checks u := fun u member => ⟨_, before u member⟩
  refine ⟨w, .listed only agrees lists earlier held found before visits, ?_⟩
  simp only [List.length_cons]
  omega

theorem reaches_one? (near : Traced checks steps) (only : Only Form.key members form)
    (agrees : Agrees members "type" form.typeName)
    (lists : ∀ other ∈ form.lists, Optionally members other (ListOf (Whole checks)))
    (source : form = .nbt →
      ∃ source, Only Source.name members source ∧ Agrees members "source" source.name)
    (parts : key ∈ form.parts) :
    Rejects (Reaches checks (steps + 1) (.object members))
      (one? (buildWithin checks steps) members key) := by
  refine rejects_one? fun v held e rejected deep => ?_
  obtain ⟨w, visits, below⟩ := near v e rejected deep
  exact ⟨w, .part only agrees lists source parts held visits, Nat.succ_le_succ below⟩

theorem reaches_agree {name : String} {fault : Value → Shape.Fault}
    (other : ∀ declared, fault declared ≠ .tooDeep) :
    Rejects (Reaches checks steps v) (agree members key name fault) :=
  rejects_agree fun declared _ _ _ => reaches_of_ne (other declared)

theorem reaches_field {name : String} :
    Rejects (Reaches checks steps v) (field checks members key name) :=
  rejects_field (fun _ => reaches_of_ne (by simp)) fun _ _ _ _ _ _ => reaches_of_ne (by simp)

theorem reaches_scoreboard : Rejects (Reaches checks steps v) (scoreboard checks members) := by
  rw [scoreboard]
  refine rejects_under ?_
  have own (score : Members) (key : String) :
      Rejects (fun e => Reaches checks steps v ⟨e.fault, .key "score" :: e.path⟩)
        (string checks score key) :=
    rejects_field (fun _ => reaches_of_ne (by simp)) fun _ _ _ _ _ _ => reaches_of_ne (by simp)
  split
  · exact rejects_bind (own _ _) fun name _ =>
      rejects_bind (own _ _) fun objective _ => rejects_ok _
  · exact rejects_reject (reaches_of_ne (by simp))

theorem whole_of_list? (built : ∃ cs, list? (buildWithin checks steps) members key = .ok cs) :
    Optionally members key (ListOf (Whole checks)) := by
  intro v held
  obtain ⟨items, rfl, each⟩ := exists_list?.1 built v held
  exact ⟨items, rfl, fun item member => ⟨steps, each item member⟩⟩

theorem reaches_body (near : Traced checks steps) (far : Traced checks (steps - 1))
    (only : Only Form.key members form) (agrees : Agrees members "type" form.typeName)
    (extra : Optionally members "extra" (ListOf (Whole checks))) :
    Rejects (Reaches checks (steps + 1) (.object members))
      (body checks (buildWithin checks steps) (buildWithin checks (steps - 1)) members form) := by
  have extra : ∀ other ∈ ["extra"], Optionally members other (ListOf (Whole checks)) := by
    simpa using extra
  cases form with
  | text => exact rejects_bind reaches_field fun t _ => rejects_ok _
  | keybind => exact rejects_bind reaches_field fun t _ => rejects_ok _
  | selector =>
      have separator := reaches_one? near only agrees extra (by simp) List.mem_cons_self
      exact rejects_bind separator fun _ _ => rejects_bind reaches_field fun t _ => rejects_ok _
  | translate =>
      refine rejects_bind (reaches_list? (j := 1) far only agrees rfl extra) ?_
      intro args built
      have lists : ∀ other ∈ Form.translate.lists, Optionally members other (ListOf (Whole checks)) := by
        intro other member
        rcases List.mem_cons.1 member with rfl | later
        · exact extra _ List.mem_cons_self
        · rw [List.mem_singleton.1 later]
          exact whole_of_list? ⟨args, built⟩
      have fallback := reaches_one? near only agrees lists (by simp) List.mem_cons_self
      exact rejects_bind fallback fun _ _ => rejects_bind reaches_field fun t _ => rejects_ok _
  | score => exact reaches_scoreboard
  | nbt =>
      rw [body]
      by_cases one : ∃ source, Only Source.name members source
      · obtain ⟨source, single⟩ := one
        rw [nbt_of_only single]
        refine rejects_bind (reaches_agree (by simp)) fun _ agreed => ?_
        have sourced := And.intro single (agree_eq_ok.1 agreed)
        have separator := reaches_one? near only agrees extra (fun _ => ⟨source, sourced⟩)
          List.mem_cons_self
        refine rejects_bind separator fun _ _ => rejects_bind reaches_field fun path _ => ?_
        refine rejects_bind reaches_field fun target _ => ?_
        refine rejects_bind ?_ fun flag _ => rejects_ok _
        exact rejects_boolean? fun _ _ _ _ _ => reaches_of_ne (by simp)
      · rw [nbt_of_none one]
        exact rejects_reject (reaches_of_ne (by simp))

theorem reaches_ofMembers (near : Traced checks steps) (far : Traced checks (steps - 1)) :
    Rejects (Reaches checks (steps + 1) (.object members))
      (ofMembers checks (buildWithin checks steps) (buildWithin checks (steps - 1)) members) := by
  by_cases one : ∃ form, Only Form.key members form
  · obtain ⟨form, only⟩ := one
    rw [ofMembers_of_only only]
    refine rejects_bind (reaches_agree (by simp)) fun _ agreed => ?_
    have agrees := agree_eq_ok.1 agreed
    refine rejects_bind (reaches_list? far only agrees lists_zero (by simp)) ?_
    intro extra built
    have whole := whole_of_list? ⟨extra, built⟩
    exact rejects_bind (reaches_body near far only agrees whole) fun own _ => rejects_ok _
  · obtain ⟨fault, rfl | rfl, rejected⟩ := ofMembers_of_none one
    · rw [rejected]
      exact rejects_reject (reaches_of_ne (by simp))
    · rw [rejected]
      exact rejects_reject (reaches_of_ne (by simp))

end

theorem traced (checks : Checks) (steps : Nat) : Traced checks steps := by
  induction steps using Nat.strongRecOn with
  | ind steps ih =>
      intro v
      cases steps with
      | zero => exact rejects_reject fun _ => ⟨v, .here v, Nat.le_refl 0⟩
      | succ steps =>
          have near := ih steps (by omega)
          have far := ih (steps - 1) (by omega)
          rw [buildWithin_succ]
          cases v with
          | string t => exact rejects_ok _
          | array items =>
              refine rejects_map (rejects_each fun i u found before e rejected deep => ?_)
              obtain ⟨w, visits, below⟩ := near u e rejected deep
              have before : ∀ u ∈ items.take i, Whole checks u :=
                fun u member => ⟨steps, before u member⟩
              rw [Nat.zero_add]
              exact ⟨w, .item found before visits, Nat.succ_le_succ below⟩
          | object members => exact reaches_ofMembers near far
          | null | boolean | integer | real => exact rejects_reject (reaches_of_ne (by simp))

/-! ## Building is stopped where it comes to a value that is too deep -/

theorem unspoilt_buildWithin {checks : Checks} {v : Value} (whole : Whole checks v) (steps : Nat) :
    Unspoilt (buildWithin checks steps v) := by
  obtain ⟨enough, c, built⟩ := whole
  rcases Nat.le_total steps enough with fewer | more
  · rcases settled_buildWithin fewer v with same | deep
    · rw [← same, built]
      exact rejects_ok c
    · exact deep.unspoilt
  · rw [built_of_le more built]
    exact rejects_ok c

section
variable {checks : Checks} {build buildItem : Value → Build Component} {members : Members}
  {form : Form} {key : String} {steps : Nat} {v : Value} {items : List Value} {i : Nat}

theorem unspoilt_list? (whole : Optionally members key (ListOf (Whole checks))) (steps : Nat) :
    Unspoilt (list? (buildWithin checks steps) members key) := by
  refine rejects_list? ?_ ?_
  · intro v held other
    obtain ⟨items, rfl, _⟩ := whole v held
    exact absurd rfl (other items)
  · intro items i v held found _ e rejected
    obtain ⟨_, ⟨⟩, each⟩ := whole _ held
    exact unspoilt_buildWithin (each v (List.mem_of_getElem? found)) steps e rejected

theorem rejects_agreed {name : String} {fault : Value → Shape.Fault} {p : Shape.Error → Prop}
    (agrees : Agrees members key name) : Rejects p (agree members key name fault) := by
  rw [(agree_eq_ok (u := ())).2 agrees]
  exact rejects_ok ()

theorem deep_each (found : items[i]? = some v) (before : ∀ u ∈ items.take i, Unspoilt (build u))
    (deep : Deep (build v)) {j : Nat} : Deep (each build j items) := by
  induction items generalizing i j with
  | nil => cases found
  | cons u rest ih =>
      cases i with
      | zero =>
          cases found
          exact (deep.under _).bind _
      | succ i =>
          obtain ⟨first, before⟩ := List.forall_mem_cons.1 before
          exact deep_bind (rejects_under first) fun c _ => (ih found before).bind _

theorem deep_list? (held : get? members key = some (.array items)) (found : items[i]? = some v)
    (before : ∀ u ∈ items.take i, Unspoilt (build u)) (deep : Deep (build v)) :
    Deep (list? build members key) := by
  rw [list?, held]
  exact ((deep_each found before deep).under _).map _

theorem deep_one? (held : get? members key = some v) (deep : Deep (build v)) :
    Deep (one? build members key) := by
  rw [one?, held]
  exact (deep.under _).map _

theorem deep_body (lists : ∀ other ∈ form.lists, Optionally members other (ListOf (Whole checks)))
    (source : form = .nbt →
      ∃ source, Only Source.name members source ∧ Agrees members "source" source.name)
    (parts : key ∈ form.parts) (deep : Deep (one? build members key)) :
    Deep (body checks build (buildWithin checks steps) members form) := by
  cases form with
  | text | keybind | score => cases parts
  | selector =>
      rw [Form.parts, List.mem_singleton] at parts
      exact (parts ▸ deep).bind _
  | translate =>
      rw [Form.parts, List.mem_singleton] at parts
      have args := unspoilt_list? (lists "with" (List.mem_cons_of_mem _ List.mem_cons_self)) steps
      exact deep_bind args fun _ _ => (parts ▸ deep).bind _
  | nbt =>
      rw [Form.parts, List.mem_singleton] at parts
      obtain ⟨source, single, agrees⟩ := source rfl
      rw [body, nbt_of_only single]
      exact deep_bind (rejects_agreed agrees) fun _ _ => (parts ▸ deep).bind _

theorem deep_extra (only : Only Form.key members form)
    (agrees : Agrees members "type" form.typeName) (deep : Deep (list? buildItem members "extra")) :
    Deep (ofMembers checks build buildItem members) := by
  rw [ofMembers_of_only only]
  exact deep_bind (rejects_agreed agrees) fun _ _ => deep.bind _

theorem deep_own (only : Only Form.key members form)
    (agrees : Agrees members "type" form.typeName)
    (extra : Unspoilt (list? buildItem members "extra"))
    (deep : Deep (body checks build buildItem members form)) :
    Deep (ofMembers checks build buildItem members) := by
  rw [ofMembers_of_only only]
  exact deep_bind (rejects_agreed agrees) fun _ _ => deep_bind extra fun _ _ => deep.bind _

end

theorem deep_of_visits {checks : Checks} {v w : Value} {path : Path}
    (visits : Visits checks v path w) {steps : Nat}
    (below : steps ≤ path.length) : Deep (buildWithin checks steps v) := by
  induction visits generalizing steps with
  | here v =>
      rw [Nat.le_zero.1 below]
      exact ⟨[], rfl⟩
  | item found before _ ih =>
      cases steps with
      | zero => exact ⟨[], rfl⟩
      | succ steps =>
          rw [buildWithin_succ]
          have before := fun u member => unspoilt_buildWithin (before u member) steps
          exact (deep_each found before (ih (Nat.le_of_succ_le_succ below))).map _
  | @listed members form key items i j v w path only agrees lists earlier held found before _ ih =>
      cases steps with
      | zero => exact ⟨[], rfl⟩
      | succ steps =>
          have below : steps - 1 ≤ path.length := by
            simp only [List.length_cons] at below
            omega
          have before := fun u member => unspoilt_buildWithin (before u member) (steps - 1)
          have deep := deep_list? held found before (ih below)
          rw [buildWithin_succ]
          cases j with
          | zero =>
              obtain rfl : "extra" = key := Option.some.inj (lists_zero.symm.trans lists)
              exact deep_extra only agrees deep
          | succ j =>
              obtain ⟨rfl, rfl⟩ := lists_succ lists
              have extra := unspoilt_list? (earlier "extra" List.mem_cons_self) (steps - 1)
              exact deep_own only agrees extra (deep.bind _)
  | part only agrees lists source parts held _ ih =>
      cases steps with
      | zero => exact ⟨[], rfl⟩
      | succ steps =>
          rw [buildWithin_succ]
          have extra := unspoilt_list? (lists "extra" extra_mem_lists) (steps - 1)
          have deep := deep_one? held (ih (Nat.le_of_succ_le_succ below))
          exact deep_own only agrees extra (deep_body lists source parts deep)

/-- Building is stopped for depth just where it reaches a value that is so many steps down. -/
theorem deep_iff {checks : Checks} {steps : Nat} {v : Value} :
    Deep (buildWithin checks steps v) ↔ ∃ path w, Visits checks v path w ∧ steps ≤ path.length := by
  constructor
  · intro deep
    obtain ⟨path, stopped⟩ := deep
    obtain ⟨w, visits, below⟩ := traced checks steps v _ stopped rfl
    exact ⟨path, w, visits, below⟩
  · intro reached
    obtain ⟨path, w, visits, below⟩ := reached
    exact deep_of_visits visits below

end ChatPreview.Component
