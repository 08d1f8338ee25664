import ChatPreview.Component.Interpret
import ChatPreview.Proofs.Component.Placed
import ChatPreview.Proofs.Component.Reach
import Mathlib.Data.List.Permutation

namespace ChatPreview.Component

/-! ## Text -/

def joined (cs : List Component) : Except DigitLimit Text := List.flatten <$> cs.mapM interpret

section
variable {cs ds : List Component}

theorem interpretAll_eq_joined : interpretAll cs = joined cs := by
  induction cs with
  | nil => rfl
  | cons c cs ih =>
      rw [interpretAll, ih, joined, joined, List.mapM_cons]
      simp only [map_bind, bind_map_left, map_pure, List.flatten_cons]

theorem interpretAll_append :
    interpretAll (cs ++ ds) = do return (← interpretAll cs) ++ (← interpretAll ds) := by
  induction cs with
  | nil =>
      rw [List.nil_append, interpretAll]
      cases interpretAll ds <;> rfl
  | cons c cs ih =>
      simp only [List.cons_append, interpretAll, ih, bind_assoc, pure_bind, List.append_assoc]

theorem interpretAll_sequence {inner : List Component} :
    interpretAll (cs ++ sequence inner :: ds) = interpretAll (cs ++ inner ++ ds) := by
  simp [interpretAll_append, interpretAll, interpret]

end

/-! ## Values that do not reach too deep -/

/-- Whether every value that is reached from the end of a path, that at its end included, has a path
shorter than the longest that there may be. -/
def Short (checks : Checks) (path : Path) (v : Value) : Prop :=
  ∀ below w, Visits checks v below w → (path ++ below).length < maxPathLength

section
variable {checks : Checks} {path : Path} {v : Value} {vs : List Value} {c : Component} {steps : Nat}

theorem short_iff :
    Short checks path v ↔ ¬Deep (buildWithin checks (maxPathLength - path.length) v) := by
  rw [deep_iff, Short]
  push Not
  refine forall_congr' fun below => forall_congr' fun w => imp_congr_right fun _ => ?_
  rw [List.length_append]
  omega

theorem short_of_builds (built : Builds (buildWithin checks (maxPathLength - path.length)) v) :
    Short checks path v := by
  obtain ⟨c, built⟩ := built
  rw [short_iff, built]
  rintro ⟨path, stopped⟩
  cases stopped

theorem array_eq_ok : buildWithin checks (steps + 1) (.array vs) = .ok c ↔
    ∃ cs, List.Forall₂ (fun v c => buildWithin checks steps v = .ok c) vs cs ∧ .sequence cs = c := by
  rw [buildWithin_succ, ofShape, map_eq_ok]
  simp only [each_eq_ok]

/-- Whether an error is that of the first item that is rejected, where indexes start from `i`. -/
def FirstAtFault (build : Value → Build Component) (i : Nat) (items : List Value)
    (e : Shape.Error) : Prop :=
  ∃ k v own, items[k]? = some v ∧ (∀ u ∈ items.take k, Builds build u) ∧ build v = .error own ∧
    e = ⟨own.fault, .index (i + k : Nat) :: own.path⟩

theorem each_eq_error {build : Value → Build Component} {i : Nat} {e : Shape.Error} :
    each build i vs = .error e ↔ FirstAtFault build i vs e := by
  constructor
  · refine rejects_each (p := FirstAtFault build i vs) (fun k v found before own rejected => ?_) e
    exact ⟨k, v, own, found, before, rejected, rfl⟩
  · rintro ⟨k, v, own, found, before, rejected, rfl⟩
    induction vs generalizing i k with
    | nil => cases found
    | cons u rest ih =>
        cases k with
        | zero =>
            cases found
            rw [each, rejected]
            rfl
        | succ k =>
            obtain ⟨⟨c, built⟩, before⟩ := List.forall_mem_cons.1 before
            have later := ih (i := i + 1) k found before
            rw [Nat.add_right_comm, Nat.add_assoc] at later
            rw [each, built, later]
            rfl

/-! ## Sequences where they stand -/

theorem length_lt_of_short (short : Short checks path v) : path.length < maxPathLength := by
  simpa using short [] v (.here v)

theorem each_of_short (short : Short checks path (.array vs))
    (left : maxPathLength - path.length ≤ steps + 1) :
    each (buildWithin checks steps) 0 vs = each (build checks) 0 vs := by
  have within := length_lt_of_short short
  obtain ⟨few, last⟩ : ∃ few, maxPathLength - path.length = few + 1 :=
    ⟨_, (Nat.succ_pred_eq_of_pos (by omega)).symm⟩
  -- Depth stops none of the items, so more steps change nothing.
  have enough (many : Nat) (more : few ≤ many) :
      each (buildWithin checks many) 0 vs = each (buildWithin checks few) 0 vs := by
    refine (settled_each (settled_buildWithin more)).resolve_right fun deep => ?_
    have stops := short_iff.1 short
    rw [last, buildWithin_succ] at stops
    exact stops (deep.map _)
  have all : few ≤ maxPathLength + 1 := by omega
  rw [enough steps (by omega)]
  exact (enough _ all).symm

theorem buildAt_array (short : Short checks path (.array vs)) :
    buildAt checks path (.array vs) = located path (.sequence <$> each (build checks) 0 vs) := by
  have within := length_lt_of_short short
  rw [buildAt_eq, Nat.sub_add_comm (Nat.le_of_lt within), buildWithin_succ, ofShape,
    each_of_short short (Nat.le_succ _)]

theorem buildAt_extra {members : Members} {t : Text} (short : Short checks path (.array vs))
    (only : Only Form.key members .text) (agrees : Agrees members "type" "text")
    (text : get? members "text" = some (.string t))
    (extra : get? members "extra" = some (.array vs)) :
    buildAt checks path (.object members) = located path
      ((fun cs => .content (.text t) (some cs)) <$>
        under (.key "extra") (each (build checks) 0 vs)) := by
  have within := length_lt_of_short short
  have own : body checks (buildWithin checks (maxPathLength - path.length))
      (buildWithin checks (maxPathLength - path.length - 1)) members .text = .ok (.text t) :=
    text_eq_ok.2 ⟨t, text, rfl⟩
  have agreed : agree members "type" Form.text.typeName (.wrongType · .text) = .ok () :=
    agree_eq_ok.2 agrees
  rw [buildAt_eq, Nat.sub_add_comm (Nat.le_of_lt within), buildWithin_succ, ofShape,
    ofMembers_of_only only, agreed, list?, extra, own]
  simp only [list, each_of_short short (by omega : _ ≤ maxPathLength - path.length - 1 + 1)]
  cases each (build checks) 0 vs <;> rfl

/-! ## Arrays within arrays -/

theorem buildAt_array_eq_ok (within : path.length < maxPathLength) :
    buildAt checks path (.array vs) = .ok c ↔ ∃ cs,
      List.Forall₂ (fun v c => buildWithin checks (maxPathLength - path.length) v = .ok c) vs cs ∧
        .sequence cs = c := by
  rw [buildAt_eq, located_eq_ok, Nat.sub_add_comm (Nat.le_of_lt within), array_eq_ok]

def shownAt (checks : Checks) (path : Path) (v : Value) : Option (Except DigitLimit Text) :=
  (buildAt checks path v).toOption.map interpret

variable {before inner after : List Value}

theorem forall₂_append_left {α β : Type} {r : α → β → Prop} {as bs : List α} {cs : List β}
    (related : List.Forall₂ r (as ++ bs) cs) :
    ∃ first last, cs = first ++ last ∧ List.Forall₂ r as first ∧ List.Forall₂ r bs last := by
  induction as generalizing cs with
  | nil => exact ⟨[], cs, rfl, .nil, related⟩
  | cons a as ih =>
      cases related with
      | @cons _ c _ _ here related =>
          obtain ⟨first, last, rfl, left, right⟩ := ih related
          exact ⟨c :: first, last, rfl, .cons here left, right⟩

theorem built_spliced (within : path.length < maxPathLength)
    (built : buildAt checks path (.array (before ++ .array inner :: after)) = .ok c) :
    ∃ d, buildAt checks path (.array (before ++ inner ++ after)) = .ok d ∧
      interpret d = interpret c := by
  obtain ⟨cs, every, rfl⟩ := (buildAt_array_eq_ok within).1 built
  obtain ⟨first, _, rfl, near, rest⟩ := forall₂_append_left every
  obtain ⟨few, left⟩ : ∃ few, maxPathLength - path.length = few + 1 :=
    ⟨_, (Nat.succ_pred_eq_of_pos (by omega)).symm⟩
  cases rest with
  | @cons _ nested _ last array later =>
      rw [left] at array
      obtain ⟨items, inside, rfl⟩ := array_eq_ok.1 array
      have fewer : few ≤ maxPathLength - path.length := by omega
      have inside := inside.imp fun v c => built_of_le fewer
      have spliced := List.rel_append (List.rel_append near inside) later
      refine ⟨.sequence (first ++ items ++ last), ?_, interpretAll_sequence.symm⟩
      exact (buildAt_array_eq_ok within).2 ⟨_, spliced, rfl⟩

/-- An array may take the place of items that are built, if depth does not stop it. -/
theorem built_of_spliced (short : Short checks path (.array (before ++ .array inner :: after)))
    (built : buildAt checks path (.array (before ++ inner ++ after)) = .ok c) :
    ∃ d, buildAt checks path (.array (before ++ .array inner :: after)) = .ok d := by
  obtain ⟨cs, every, _⟩ := (buildAt_array_eq_ok (length_lt_of_short short)).1 built
  have each : ∀ v ∈ before ++ inner ++ after, Builds (buildWithin checks maxPathLength) v := by
    intro v member
    obtain ⟨c, built⟩ := exists_each.1 ⟨cs, each_eq_ok.2 every⟩ v member
    exact ⟨c, built_of_le (Nat.sub_le _ _) built⟩
  have root {v : Value} (member : v ∈ before ++ inner ++ after) : Builds (build checks) v :=
    (each v member).imp fun c => built_of_le (Nat.le_succ _)
  obtain ⟨items, nested⟩ := exists_each.2 fun v (member : v ∈ inner) => each v (by simp [member])
  have array : Builds (build checks) (.array inner) :=
    ⟨.sequence items, array_eq_ok.2 ⟨items, each_eq_ok.1 nested, rfl⟩⟩
  have all : ∀ v ∈ before ++ .array inner :: after, Builds (build checks) v := by
    intro v member
    rcases List.mem_append.1 member with first | rest
    · exact root (by simp [first])
    · rcases List.mem_cons.1 rest with rfl | last
      · exact array
      · exact root (by simp [last])
  obtain ⟨ds, built⟩ := exists_each.2 all
  refine ⟨.sequence ds, ?_⟩
  rw [buildAt_array short, built]
  rfl

theorem shownAt_spliced (short : Short checks path (.array (before ++ .array inner :: after))) :
    shownAt checks path (.array (before ++ inner ++ after)) =
      shownAt checks path (.array (before ++ .array inner :: after)) := by
  rw [shownAt, shownAt]
  cases nested : buildAt checks path (.array (before ++ .array inner :: after)) with
  | ok c =>
      obtain ⟨d, built, same⟩ := built_spliced (length_lt_of_short short) nested
      rw [built]
      exact congrArg some same
  | error e =>
      cases spliced : buildAt checks path (.array (before ++ inner ++ after)) with
      | ok d =>
          obtain ⟨c, built⟩ := built_of_spliced short spliced
          rw [nested] at built
          cases built
      | error e => rfl

end

theorem text_of_perm {members : Members} {t : Text} {vs : List Value}
    (order : List.Perm members
      [(Text.ofString "text", .string t), (Text.ofString "extra", .array vs)]) :
    Only Form.key members .text ∧ Agrees members "type" "text" ∧
      get? members "text" = some (.string t) ∧ get? members "extra" = some (.array vs) := by
  suffices held : (∀ form : Form, get? members form.key =
      if form = .text then some (.string t) else none) ∧ get? members "type" = none ∧
        get? members "extra" = some (.array vs) by
    obtain ⟨forms, type, extra⟩ := held
    refine ⟨fun form => ?_, fun v typed => ?_, forms .text, extra⟩
    · rw [forms]
      split <;> simp [*]
    · rw [type] at typed
      cases typed
  rcases List.mem_cons.1 (List.mem_permutations'.2 order) with rfl | other
  · exact ⟨fun form => by cases form <;> rfl, rfl, rfl⟩
  · rw [List.mem_singleton.1 other]
    exact ⟨fun form => by cases form <;> rfl, rfl, rfl⟩

/-- Whether values in turn, in an array at the end of a path, are built as each is at the root. -/
structure Elementwise (checks : Checks) (path : Path) (vs : List Value) : Prop where
  accepted : (∃ c, buildAt checks path (.array vs) = .ok c) ↔ ∀ v ∈ vs, ∃ c, build checks v = .ok c
  shown : ∀ c, buildAt checks path (.array vs) = .ok c →
    ∃ cs, List.Forall₂ (fun v c => build checks v = .ok c) vs cs ∧ interpret c = joined cs
  /-- The error is that of the first of the values that is rejected. -/
  rejected : ∀ e, buildAt checks path (.array vs) = .error e ↔ ∃ i v own, vs[i]? = some v ∧
    (∀ u ∈ vs.take i, ∃ c, build checks u = .ok c) ∧ build checks v = .error own ∧
    e = ⟨own.fault, path ++ .index i :: own.path⟩
  spliced : ∀ before inner after, vs = before ++ .array inner :: after →
    shownAt checks path (.array (before ++ inner ++ after)) = shownAt checks path (.array vs)
  /-- After a text, the values are built and shown alike. -/
  extra : ∀ t members,
    List.Perm members [(Text.ofString "text", .string t), (Text.ofString "extra", .array vs)] →
    ((∃ c, buildAt checks path (.object members) = .ok c) ↔ ∀ v ∈ vs, ∃ c, build checks v = .ok c) ∧
    ∀ c, buildAt checks path (.object members) = .ok c →
      ∃ cs, List.Forall₂ (fun v c => build checks v = .ok c) vs cs ∧
        interpret c = (t ++ ·) <$> joined cs

/-- Sequences are built elementwise where no value is reached that is too deep. -/
theorem elementwise_of_short {checks : Checks} {path : Path} {vs : List Value}
    (short : Short checks path (.array vs)) :
    Elementwise checks path vs := by
  have whole := buildAt_array short
  refine ⟨?_, ?_, ?_, ?_, ?_⟩
  · rw [whole, exists_located_map]
    exact exists_each
  · intro c built
    rw [whole, located_eq_ok, map_eq_ok] at built
    obtain ⟨cs, built, rfl⟩ := built
    exact ⟨cs, each_eq_ok.1 built, interpretAll_eq_joined⟩
  · intro e
    rw [whole, located_eq_error]
    simp only [map_eq_error, each_eq_error, FirstAtFault, Nat.zero_add]
    constructor
    · rintro ⟨_, ⟨i, v, own, found, before, rejected, rfl⟩, rfl⟩
      exact ⟨i, v, own, found, before, rejected, rfl⟩
    · rintro ⟨i, v, own, found, before, rejected, rfl⟩
      exact ⟨_, ⟨i, v, own, found, before, rejected, rfl⟩, rfl⟩
  · rintro before inner after rfl
    exact shownAt_spliced short
  · intro t members order
    obtain ⟨only, agrees, text, list⟩ := text_of_perm order
    have whole := buildAt_extra short only agrees text list
    rw [whole, exists_located_map]
    simp only [under_eq_ok]
    refine ⟨exists_each, fun c built => ?_⟩
    rw [located_eq_ok, map_eq_ok] at built
    obtain ⟨cs, built, rfl⟩ := built
    refine ⟨cs, each_eq_ok.1 (under_eq_ok.1 built), ?_⟩
    rw [← interpretAll_eq_joined, interpret, interpretBody, interpretExtra]
    cases interpretAll cs <;> rfl

/-- An array in an array after a string, at the end of a path. -/
theorem elementwise_of_short_nested :
    let checks := Checks.standard
    let path : Path := [.key "extra", .index 3]
    let vs : List Value := [.string (Text.ofString "a"), .array [.string (Text.ofString "b"),
      .object [(Text.ofString "text", .string (Text.ofString "c"))]]]
    Short checks path (.array vs) ∧ Elementwise checks path vs := by
  intro checks path vs
  have short : Short checks path (.array vs) := short_of_builds ⟨_, rfl⟩
  exact ⟨short, elementwise_of_short short⟩

end ChatPreview.Component
