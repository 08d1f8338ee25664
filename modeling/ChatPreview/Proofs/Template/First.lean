import ChatPreview.Proofs.Template.Match
import ChatPreview.Proofs.Template.Execute

namespace ChatPreview

/-- Whether a node may stand where a pattern does. -/
def Pattern.Admits : Pattern → Node → Prop
  | .literal text, n => n.kind = .literal ∧ n.content = text
  | .argument _ allowed, n => n.kind ∈ allowed

theorem Pattern.fits_iff {p : Pattern} {n : Node} : p.fits n ↔ p.Admits n := by
  cases p with
  | literal text => rw [fits, Node.isLiteral, Bool.and_eq_true, beq_iff_eq, beq_iff_eq, Admits]
  | argument name allowed => rw [fits, List.contains_iff_mem, Admits]

namespace Template

structure Fits (patterns : List Pattern) (nodes : List Node) : Prop where
  length : nodes.length = patterns.length
  each {i : Nat} {p : Pattern} {n : Node} : patterns[i]? = some p → nodes[i]? = some n → p.Admits n

section
variable {p : Pattern} {n : Node} {patterns : List Pattern} {nodes : List Node}

theorem fits_cons : Fits (p :: patterns) (n :: nodes) ↔ p.Admits n ∧ Fits patterns nodes := by
  constructor
  · rintro ⟨length, each⟩
    exact ⟨each (i := 0) rfl rfl, Nat.succ.inj length, fun {i} => each (i := i + 1)⟩
  · rintro ⟨first, length, each⟩
    refine ⟨congrArg Nat.succ length, fun {i} q m pattern node => ?_⟩
    cases i with
    | zero =>
        cases pattern
        cases node
        exact first
    | succ i => exact each pattern node

theorem fitsAll_iff : fitsAll patterns nodes ↔ Fits patterns nodes := by
  induction patterns generalizing nodes with
  | nil =>
      cases nodes with
      | nil => exact iff_of_true rfl ⟨rfl, fun pattern => by simp at pattern⟩
      | cons n nodes => exact iff_of_false Bool.false_ne_true fun h => nomatch h.length
  | cons p patterns ih =>
      cases nodes with
      | nil => exact iff_of_false Bool.false_ne_true fun h => nomatch h.length
      | cons n nodes => rw [fitsAll, Bool.and_eq_true, Pattern.fits_iff, ih, fits_cons]

theorem match?_eq_some {t : Template} {m : Match} :
    t.match? nodes = some m ↔ Fits t.patterns nodes ∧ m = ⟨t, nodes⟩ := by
  rw [Template.match?, Option.ite_none_right_eq_some, fitsAll_iff, Option.some.injEq, eq_comm]

theorem match?_eq_none {t : Template} : t.match? nodes = none ↔ ¬Fits t.patterns nodes := by
  rw [Template.match?, ite_eq_right_iff, ← fitsAll_iff]
  simp

end

/-! ## Candidates -/

def runs (nodes : List Node) : List Nat :=
  (List.range nodes.length).filter fun i => nodes[i]?.any (·.isLiteral "run".toList)

/-- What a command is matched by: all its nodes, and those after each `run` of an `execute`. -/
def tried (unwrap : Bool) (nodes : List Node) : List (List Node) :=
  nodes :: if unwrap && nodes.head?.any (·.isLiteral "execute".toList) then
    (runs nodes).map fun i => nodes.drop (i + 1) else []

theorem runs_cons (n : Node) (nodes : List Node) : runs (n :: nodes) =
    (if n.isLiteral "run".toList then [0] else []) ++ (runs nodes).map Nat.succ := by
  rw [runs, List.length_cons, List.range_succ_eq_map, List.filter_cons, List.filter_map]
  have first : (n :: nodes)[0]?.any (·.isLiteral "run".toList) = n.isLiteral "run".toList := rfl
  rw [first]
  split <;> rfl

theorem afterRun_eq (nodes : List Node) :
    afterRun nodes = (runs nodes).map fun i => nodes.drop (i + 1) := by
  induction nodes with
  | nil => rfl
  | cons n nodes ih =>
      rw [afterRun, ih, runs_cons, List.map_append, List.map_map]
      split <;> rfl

theorem candidates_eq (unwrap : Bool) (nodes : List Node) :
    candidates unwrap nodes = tried unwrap nodes := by
  rw [candidates, tried, afterRun_eq]

/-! ## The first fit -/

structure FitsAt (catalog : Catalog) (tries : List (List Node)) (i j : Nat) (m : Match) : Prop where
  candidate : tries[i]? = some m.nodes
  template : catalog[j]? = some m.template
  fits : Fits m.template.patterns m.nodes

/-- A match before which none stands, where the candidate counts before the template. -/
def FirstFit (catalog : Catalog) (tries : List (List Node)) (m : Match) : Prop :=
  ∃ i j, FitsAt catalog tries i j m ∧
    ∀ i' j' m', FitsAt catalog tries i' j' m' → i < i' ∨ i = i' ∧ j ≤ j'

theorem findSome?_eq_some_iff_least {α β : Type} {l : List α} {f : α → Option β} {b : β} :
    l.findSome? f = some b ↔ ∃ (i : Nat) (a : α), l[i]? = some a ∧ f a = some b ∧
      ∀ (k : Nat) (x : α), k < i → l[k]? = some x → f x = none := by
  rw [List.findSome?_eq_some_iff]
  constructor
  · rintro ⟨before, a, after, rfl, found, none⟩
    refine ⟨before.length, a, by simp, found, fun k x earlier at_ => ?_⟩
    rw [List.getElem?_append_left earlier] at at_
    exact none x (List.mem_of_getElem? at_)
  · rintro ⟨i, a, place, found, none⟩
    obtain ⟨inside, rfl⟩ := List.getElem?_eq_some_iff.1 place
    refine ⟨l.take i, l[i], l.drop (i + 1), by simp, found, fun x member => ?_⟩
    obtain ⟨k, among⟩ := List.getElem?_of_mem member
    obtain ⟨earlier, same⟩ := List.getElem?_eq_some_iff.1 among
    rw [List.length_take] at earlier
    exact none k x (by omega) (by rw [← among, List.getElem?_take_of_lt (by omega)])

section
variable {catalog : Catalog} {tries : List (List Node)} {m : Match}

theorem Catalog.findSome?_eq_none {nodes : List Node} :
    (catalog.findSome? fun t => t.match? nodes) = none ↔ ∀ t ∈ catalog, ¬Fits t.patterns nodes := by
  rw [List.findSome?_eq_none_iff]
  exact forall₂_congr fun t _ => match?_eq_none

theorem Catalog.first?_eq_some : catalog.first? tries = some m ↔ FirstFit catalog tries m := by
  rw [Catalog.first?, findSome?_eq_some_iff_least]
  constructor
  · rintro ⟨i, nodes, place, inCatalog, earlier⟩
    obtain ⟨j, t, listed, found, others⟩ := findSome?_eq_some_iff_least.1 inCatalog
    obtain ⟨fits, rfl⟩ := match?_eq_some.1 found
    refine ⟨i, j, ⟨place, listed, fits⟩, fun i' j' m' other => ?_⟩
    rcases Nat.lt_trichotomy i i' with later | rfl | before
    · exact .inl later
    · refine .inr ⟨rfl, Nat.le_of_not_lt fun before => ?_⟩
      have same : nodes = m'.nodes := Option.some.inj (place.symm.trans other.candidate)
      exact match?_eq_none.1 (others j' _ before other.template) (same ▸ other.fits)
    · have misfits := findSome?_eq_none.1 (earlier i' _ before other.candidate)
      exact absurd other.fits (misfits _ (List.mem_of_getElem? other.template))
  · rintro ⟨i, j, here, least⟩
    refine ⟨i, m.nodes, here.candidate, ?_, fun i' nodes before place => ?_⟩
    · refine findSome?_eq_some_iff_least.2 ⟨j, m.template, here.template,
        match?_eq_some.2 ⟨here.fits, rfl⟩, fun j' t before listed => match?_eq_none.2 fun fits => ?_⟩
      rcases least i j' ⟨t, m.nodes⟩ ⟨here.candidate, listed, fits⟩ with later | ⟨_, later⟩
      · exact absurd later (Nat.lt_irrefl i)
      · exact absurd before (Nat.not_lt.2 later)
    · refine findSome?_eq_none.2 fun t listed fits => ?_
      obtain ⟨j', there⟩ := List.getElem?_of_mem listed
      rcases least i' j' ⟨t, nodes⟩ ⟨place, there, fits⟩ with later | ⟨same, _⟩
      · exact Nat.lt_asymm before later
      · exact absurd same.symm (Nat.ne_of_lt before)

theorem Catalog.match?_eq_first? (catalog : Catalog) (unwrap : Bool) (nodes : List Node) :
    catalog.match? unwrap nodes = catalog.first? (tried unwrap nodes) := by
  rw [Catalog.match?, candidates_eq]
  rfl

end

/-! ## Captures -/

def assign (name content : List Char) :
    List (List Char × List Char) → List (List Char × List Char)
  | [] => [(name, content)]
  | (other, held) :: rest =>
    if other = name then (other, content) :: rest else (other, held) :: assign name content rest

def assignAll (captures : List (List Char × List Char)) :
    List (Pattern × Node) → List (List Char × List Char)
  | [] => captures
  | (.literal _, _) :: rest => assignAll captures rest
  | (.argument name _, n) :: rest => assignAll (assign name n.content captures) rest

/-- One text for each argument, in their order: that of the node which stands in its place. -/
structure Captured (m : Match) : Prop where
  assigned : assignAll [] (m.template.patterns.zip m.nodes) = m.captures
  names : m.captures.map Prod.fst = m.template.patterns.filterMap Pattern.name?
  distinct : (m.captures.map Prod.fst).Nodup
  contents {i : Nat} {name : List Char} {allowed : List Kind} {n : Node} :
    m.template.patterns[i]? = some (.argument name allowed) → m.nodes[i]? = some n →
      m.captures.lookup name = some n.content

section
variable {captures : List (List Char × List Char)} {pairs : List (Pattern × Node)}
  {name content : List Char}

theorem assign_of_fresh (fresh : name ∉ captures.map Prod.fst) :
    assign name content captures = captures ++ [(name, content)] := by
  induction captures with
  | nil => rfl
  | cons first rest ih =>
      obtain ⟨other, held⟩ := first
      rw [List.map_cons, List.mem_cons, not_or] at fresh
      rw [assign, if_neg (Ne.symm fresh.1), ih fresh.2, List.cons_append]

def captured (pairs : List (Pattern × Node)) : List (List Char × List Char) :=
  pairs.filterMap fun (p, n) => p.name?.map (·, n.content)

theorem assignAll_of_distinct (distinct : ((captures ++ captured pairs).map Prod.fst).Nodup) :
    assignAll captures pairs = captures ++ captured pairs := by
  induction pairs generalizing captures with
  | nil => exact (List.append_nil captures).symm
  | cons pair rest ih =>
      obtain ⟨p, n⟩ := pair
      cases p with
      | literal text => exact ih distinct
      | argument name allowed =>
          have step : captures ++ captured ((.argument name allowed, n) :: rest) =
              captures ++ [(name, n.content)] ++ captured rest := by
            rw [List.append_assoc]
            rfl
          rw [step] at distinct ⊢
          have fresh : name ∉ captures.map Prod.fst := by
            rw [List.map_append, List.map_append, List.append_assoc, List.nodup_append] at distinct
            intro member
            exact distinct.2.2 name member name (by simp) rfl
          rw [assignAll, assign_of_fresh fresh, ih distinct]

theorem names_captured {patterns : List Pattern} {nodes : List Node}
    (length : nodes.length = patterns.length) :
    (captured (patterns.zip nodes)).map Prod.fst = patterns.filterMap Pattern.name? := by
  induction patterns generalizing nodes with
  | nil => rfl
  | cons p patterns ih =>
      cases nodes with
      | nil => cases length
      | cons n nodes =>
          have rest := ih (Nat.succ.inj length)
          cases p with
          | literal text => exact rest
          | argument name allowed => exact congrArg (name :: ·) rest

theorem lookup_of_mem (distinct : (captures.map Prod.fst).Nodup)
    (member : (name, content) ∈ captures) : captures.lookup name = some content := by
  obtain ⟨before, after, rfl⟩ := List.append_of_mem member
  rw [List.map_append, List.map_cons, List.nodup_append] at distinct
  refine List.lookup_eq_some_iff.2 ⟨before, after, rfl, fun other earlier => ?_⟩
  have apart := distinct.2.2 other.1 (List.mem_map_of_mem earlier) name List.mem_cons_self
  exact bne_iff_ne.2 (Ne.symm apart)

end

theorem captured_of_fits {m : Match} (fits : Fits m.template.patterns m.nodes) : Captured m := by
  have names : m.captures.map Prod.fst = m.template.patterns.filterMap Pattern.name? :=
    names_captured fits.length
  have distinct : (m.captures.map Prod.fst).Nodup := names ▸ m.template.distinct
  refine ⟨assignAll_of_distinct distinct, names, distinct, fun {i} name allowed n pattern node => ?_⟩
  have paired : (.argument name allowed, n) ∈ m.template.patterns.zip m.nodes :=
    List.mem_of_getElem? (List.getElem?_zip_eq_some.2 ⟨pattern, node⟩)
  exact lookup_of_mem distinct (List.mem_filterMap.2 ⟨_, paired, rfl⟩)

/-- A catalog matches the nodes of a command just if one of its templates fits them, or those after a
`run` of an `execute`; the match is that of the first of these that fits a template, with the first
template it fits, and it captures the text of one node for each argument. -/
theorem Catalog.match?_first (catalog : Catalog) (unwrap : Bool) (nodes : List Node) :
    ((∃ m, catalog.match? unwrap nodes = some m) ↔
      ∃ candidate ∈ tried unwrap nodes, ∃ t ∈ catalog, Fits t.patterns candidate) ∧
    ∀ m, catalog.match? unwrap nodes = some m ↔
      FirstFit catalog (tried unwrap nodes) m ∧ Captured m := by
  rw [catalog.match?_eq_first?]
  constructor
  · rw [← Option.isSome_iff_exists, Catalog.first?, List.findSome?_isSome_iff]
    refine exists_congr fun candidate => and_congr_right fun _ => ?_
    rw [← Option.ne_none_iff_isSome, Ne, findSome?_eq_none]
    simp only [not_forall, not_not, exists_prop]
  · intro m
    rw [first?_eq_some, iff_self_and]
    rintro ⟨i, j, here, _⟩
    exact captured_of_fits here.fits

end Template
end ChatPreview
