import ChatPreview.Template.Match
import Mathlib.Data.List.Basic
import Mathlib.Data.List.Forall2
import Mathlib.Data.Option.Basic

namespace ChatPreview.Template

theorem afterRun_suffix {nodes candidate : List Node} (member : candidate ∈ afterRun nodes) :
    candidate <:+ nodes := by
  induction nodes with
  | nil => cases member
  | cons n rest ih =>
      rw [afterRun] at member
      split at member
      · cases member with
        | head => exact List.suffix_cons n _
        | tail _ later => exact (ih later).trans (List.suffix_cons n rest)
      · exact (ih member).trans (List.suffix_cons n rest)

theorem candidates_suffix {unwrap : Bool} {nodes candidate : List Node}
    (member : candidate ∈ candidates unwrap nodes) : candidate <:+ nodes := by
  cases member with
  | head => exact List.suffix_rfl
  | tail _ later =>
      split at later
      · exact afterRun_suffix later
      · cases later

theorem Catalog.match?_spec {catalog : Catalog} {unwrap : Bool} {nodes : List Node} {m : Match}
    (found : catalog.match? unwrap nodes = some m) :
    m.template ∈ catalog ∧ m.nodes <:+ nodes ∧ fitsAll m.template.patterns m.nodes := by
  obtain ⟨candidate, among, inCatalog⟩ := List.exists_of_findSome?_eq_some found
  obtain ⟨t, listed, fits⟩ := List.exists_of_findSome?_eq_some inCatalog
  unfold Template.match? at fits
  split at fits
  · cases fits
    exact ⟨listed, candidates_suffix among, ‹_›⟩
  · cases fits

theorem length_of_fitsAll {patterns : List Pattern} {nodes : List Node}
    (fits : fitsAll patterns nodes) : patterns.length = nodes.length := by
  induction patterns generalizing nodes with
  | nil =>
      cases nodes with
      | nil => rfl
      | cons n nodes => cases fits
  | cons p patterns ih =>
      cases nodes with
      | nil => cases fits
      | cons n nodes =>
          rw [fitsAll, Bool.and_eq_true] at fits
          rw [List.length_cons, List.length_cons, ih fits.2]

/-- A match of some nodes and one more ends with that one. -/
theorem Catalog.last_of_match? {catalog : Catalog} {unwrap : Bool} {nodes : List Node} {n : Node}
    {m : Match} (fits : catalog.match? unwrap (nodes ++ [n]) = some m) :
    m.nodes.getLast? = some n := by
  obtain ⟨_, ⟨before, split⟩, each⟩ := match?_spec fits
  have whole := congrArg List.getLast? split
  rw [List.getLast?_append, List.getLast?_concat] at whole
  cases last : m.nodes.getLast? with
  | some k =>
      rw [last] at whole
      exact whole
  | none =>
      have length := length_of_fitsAll each
      rw [List.getLast?_eq_none_iff.1 last] at length
      exact absurd (List.eq_nil_of_length_eq_zero length) m.template.nonempty

def MessageLast (t : Template) : Prop := ∀ p ∈ t.patterns.dropLast, p.name? ≠ some messageName

instance (t : Template) : Decidable t.MessageLast := inferInstanceAs (Decidable (∀ _ ∈ _, _))

theorem standard_messageLast : ∀ t ∈ standard, t.MessageLast := by decide

theorem lookup_captures_eq_none {patterns : List Pattern} {nodes : List Node}
    (others : ∀ p ∈ patterns, p.name? ≠ some messageName) :
    ((patterns.zip nodes).filterMap fun (p, n) => p.name?.map (·, n.content)).lookup messageName =
      none := by
  rw [List.lookup_eq_none_iff]
  intro capture member
  obtain ⟨⟨p, n⟩, among, named⟩ := List.mem_filterMap.1 member
  obtain ⟨name, given, rfl⟩ := Option.map_eq_some_iff.1 named
  have other := others p (List.of_mem_zip among).1
  rw [given] at other
  simpa using fun same => other (congrArg some same).symm

theorem message?_eq_last {m : Match} {raw : List Char} (fits : fitsAll m.template.patterns m.nodes)
    (last : m.template.MessageLast) (found : m.message? = some raw) :
    ∃ n, m.nodes.getLast? = some n ∧ n.content = raw := by
  have length := length_of_fitsAll fits
  rcases List.eq_nil_or_concat m.template.patterns with empty | ⟨init, p, patterns⟩
  · exact absurd empty m.template.nonempty
  rcases List.eq_nil_or_concat m.nodes with empty | ⟨init', n, nodes⟩
  · rw [patterns, empty] at length
    simp at length
  have same : init.length = init'.length := by simpa [patterns, nodes] using length
  have others : ∀ q ∈ init, q.name? ≠ some messageName := by
    simpa [MessageLast, patterns] using last
  rw [Match.message?, Match.captures, patterns, nodes, List.concat_eq_append,
    List.concat_eq_append, List.zip_append same, List.filterMap_append, List.lookup_append,
    lookup_captures_eq_none others, Option.none_or] at found
  refine ⟨n, by simp [nodes], ?_⟩
  cases named : p.name? with
  | none => simp [named] at found
  | some name =>
      simp only [List.zip_cons_cons, List.zip_nil_left, List.filterMap_cons, named,
        Option.map_some, List.filterMap_nil, List.lookup_cons, List.lookup_nil] at found
      split at found <;> cases found
      rfl

/-! ## Nodes that fit alike -/

/-- Whether two nodes fit the same patterns. -/
structure FitsAlike (n m : Node) : Prop where
  kind : m.kind = n.kind
  literal : n.kind = .literal → m.content = n.content

structure MatchesAlike (R : Node → Node → Prop) (m m' : Match) : Prop where
  template : m'.template = m.template
  nodes : List.Forall₂ R m.nodes m'.nodes

section
variable {R : Node → Node → Prop} {n n' : Node} {nodes nodes' : List Node}

theorem FitsAlike.isLiteral (h : FitsAlike n n') (text : List Char) :
    n'.isLiteral text = n.isLiteral text := by
  rw [Node.isLiteral, Node.isLiteral, h.kind]
  by_cases literal : n.kind = .literal
  · rw [h.literal literal]
  · rw [beq_eq_false_iff_ne.2 literal, Bool.false_and, Bool.false_and]

theorem FitsAlike.fits (h : FitsAlike n n') (p : Pattern) : p.fits n' = p.fits n := by
  cases p with
  | literal text => exact h.isLiteral text
  | argument name allowed => rw [Pattern.fits, Pattern.fits, h.kind]

theorem findSome?_alike {α β γ : Type} {A : α → β → Prop} {C : γ → γ → Prop} {f : α → Option γ}
    {g : β → Option γ} {as : List α} {bs : List β} (each : List.Forall₂ A as bs)
    (alike : ∀ {a b}, A a b → Option.Rel C (f a) (g b)) :
    Option.Rel C (as.findSome? f) (bs.findSome? g) := by
  induction each with
  | nil => exact .none
  | @cons a b as bs first _ ih =>
      have found := alike first
      rw [List.findSome?_cons, List.findSome?_cons]
      generalize f a = o at found
      generalize g b = o' at found
      cases found with
      | some related => exact .some related
      | none => exact ih

variable (alike : ∀ {n m}, R n m → FitsAlike n m)
include alike

theorem fitsAll_alike (each : List.Forall₂ R nodes nodes') (patterns : List Pattern) :
    fitsAll patterns nodes' = fitsAll patterns nodes := by
  induction each generalizing patterns with
  | nil => rfl
  | cons first _ ih =>
      cases patterns with
      | nil => rfl
      | cons p patterns => rw [fitsAll, fitsAll, (alike first).fits, ih]

theorem candidates_alike (unwrap : Bool) (each : List.Forall₂ R nodes nodes') :
    List.Forall₂ (List.Forall₂ R) (candidates unwrap nodes) (candidates unwrap nodes') := by
  have run : List.Forall₂ (List.Forall₂ R) (afterRun nodes) (afterRun nodes') := by
    induction each with
    | nil => exact .nil
    | cons first rest ih =>
        rw [afterRun, afterRun, (alike first).isLiteral]
        split
        · exact .cons rest ih
        · exact ih
  have head : nodes'.head?.any (·.isLiteral "execute".toList) =
      nodes.head?.any (·.isLiteral "execute".toList) := by
    cases each with
    | nil => rfl
    | cons first _ => exact (alike first).isLiteral _
  refine .cons each ?_
  rw [head]
  split
  · exact run
  · exact .nil

/-- Nodes that fit alike match alike. -/
theorem Catalog.match?_alike (catalog : Catalog) (unwrap : Bool)
    (each : List.Forall₂ R nodes nodes') :
    Option.Rel (MatchesAlike R) (catalog.match? unwrap nodes) (catalog.match? unwrap nodes') := by
  apply findSome?_alike (candidates_alike alike unwrap each)
  intro candidate candidate' related
  apply findSome?_alike (List.forall₂_same.2 fun t _ => rfl)
  rintro t _ rfl
  rw [Template.match?, Template.match?, fitsAll_alike alike related]
  split
  · exact .some ⟨rfl, related⟩
  · exact .none

omit alike

theorem MatchesAlike.message? {V : List Char → List Char → Prop} {m m' : Match}
    (h : MatchesAlike R m m') (content : ∀ {n n'}, R n n' → V n.content n'.content) :
    Option.Rel V m.message? m'.message? := by
  rcases h with ⟨template, each⟩
  rw [Match.message?, Match.message?, Match.captures, Match.captures, template]
  generalize m.template.patterns = patterns
  generalize m.nodes = nodes at each
  generalize m'.nodes = nodes' at each
  induction each generalizing patterns with
  | nil =>
      rw [List.zip_nil_right]
      exact .none
  | @cons n n' nodes nodes' first _ ih =>
      cases patterns with
      | nil => exact .none
      | cons p patterns =>
          rw [List.zip_cons_cons, List.zip_cons_cons, List.filterMap_cons, List.filterMap_cons]
          cases named : p.name? with
          | none =>
              simp only [named, Option.map_none]
              exact ih patterns
          | some name =>
              simp only [named, Option.map_some, List.lookup_cons]
              cases messageName == name with
              | true => exact .some (content first)
              | false => exact ih patterns

end

end ChatPreview.Template
