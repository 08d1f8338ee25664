import ChatPreview.Template.Match
import Mathlib.Data.List.Basic
/-!
The commands that an `execute` runs: a chain of them is matched as the command at its end is, and
where that fits no template, as the first of the nodes after a `run` in it.
-/
namespace ChatPreview

theorem Node.text_of_isLiteral {n : Node} {s t : List Char} (first : n.isLiteral s)
    (second : n.isLiteral t) : s = t := by
  rw [Node.isLiteral, Bool.and_eq_true, beq_iff_eq, beq_iff_eq] at first second
  exact first.2.symm.trans second.2

namespace Template

/-- What stands before the command that an `execute` runs. -/
structure Execute where
  word : Node
  conditions : List Node
  run : Node
  isExecute : word.isLiteral "execute".toList
  isRun : run.isLiteral "run".toList
  noRun : ∀ n ∈ conditions, ¬n.isLiteral "run".toList

namespace Execute

def before (e : Execute) (nodes : List Node) : List Node :=
  e.word :: e.conditions ++ e.run :: nodes

/-- One `execute` that runs the next, and the last of them the nodes. -/
def chain (es : List Execute) (nodes : List Node) : List Node := es.foldr before nodes

end Execute

def startsExecute (nodes : List Node) : Bool := nodes.head?.any (·.isLiteral "execute".toList)

def Catalog.first? (catalog : Catalog) (candidates : List (List Node)) : Option Match :=
  candidates.findSome? fun candidate => catalog.findSome? fun t => t.match? candidate

section
variable {catalog : Catalog} {nodes : List Node}

theorem Catalog.first?_cons (catalog : Catalog) (candidate : List Node)
    (candidates : List (List Node)) : catalog.first? (candidate :: candidates) =
      (catalog.first? [candidate]).or (catalog.first? candidates) := by
  rw [Catalog.first?, Catalog.first?, Catalog.first?, List.findSome?_cons, List.findSome?_cons]
  cases catalog.findSome? fun t => t.match? candidate with
  | none => simp only [List.findSome?_nil, Option.none_or]
  | some m => simp only [Option.some_or]

theorem afterRun_conditions {conditions : List Node}
    (noRun : ∀ n ∈ conditions, ¬n.isLiteral "run".toList) (nodes : List Node) :
    afterRun (conditions ++ nodes) = afterRun nodes := by
  induction conditions with
  | nil => rfl
  | cons n conditions ih =>
      have first := noRun n List.mem_cons_self
      rw [List.cons_append, afterRun, if_neg first]
      exact ih fun m member => noRun m (List.mem_cons_of_mem n member)

theorem Execute.afterRun_before (e : Execute) (nodes : List Node) :
    afterRun (e.before nodes) = nodes :: afterRun nodes := by
  have words : ∀ n ∈ e.word :: e.conditions, ¬n.isLiteral "run".toList := by
    intro n member
    rcases List.mem_cons.mp member with rfl | later
    · intro run
      exact absurd (Node.text_of_isLiteral e.isExecute run) (by decide)
    · exact e.noRun n later
  rw [Execute.before, afterRun_conditions words, afterRun, if_pos e.isRun]

theorem Execute.startsExecute_before (e : Execute) (nodes : List Node) :
    startsExecute (e.before nodes) := e.isExecute

def opening? (t : Template) : Option (List Char) :=
  match t.patterns.head? with
  | some (.literal text) => some text
  | _ => none

def Catalog.NoExecute (catalog : Catalog) : Prop :=
  ∀ t ∈ catalog, ∃ text ∈ t.opening?, text ≠ "execute".toList

theorem standard_noExecute : Catalog.NoExecute standard := by
  unfold Catalog.NoExecute
  decide

theorem match?_of_startsExecute {t : Template} {text : List Char} (opening : text ∈ t.opening?)
    (other : text ≠ "execute".toList) (starts : startsExecute nodes) : t.match? nodes = none := by
  have misfit : ¬fitsAll t.patterns nodes := by
    intro fits
    cases nodes with
    | nil => cases starts
    | cons n nodes =>
        cases patterns : t.patterns with
        | nil =>
            rw [patterns] at fits
            cases fits
        | cons p patterns' =>
            rw [opening?, patterns, List.head?_cons] at opening
            cases p with
            | argument name allowed => cases opening
            | literal text' =>
                cases opening
                rw [patterns, fitsAll, Bool.and_eq_true] at fits
                exact other (Node.text_of_isLiteral fits.1 starts)
  rw [Template.match?, if_neg misfit]

theorem Catalog.first?_of_startsExecute (free : catalog.NoExecute) (starts : startsExecute nodes) :
    catalog.first? [nodes] = none := by
  rw [Catalog.first?, List.findSome?_cons, List.findSome?_nil]
  have misfit : (catalog.findSome? fun t => t.match? nodes) = none := by
    rw [List.findSome?_eq_none_iff]
    intro t member
    obtain ⟨text, opening, other⟩ := free t member
    exact match?_of_startsExecute opening other starts
  rw [misfit]

theorem Catalog.match?_of_startsExecute (free : catalog.NoExecute)
    (starts : startsExecute nodes) :
    catalog.match? true nodes = catalog.first? (afterRun nodes) := by
  calc
    catalog.match? true nodes = catalog.first? (nodes :: afterRun nodes) := by
      rw [startsExecute] at starts
      rw [Catalog.match?, candidates, starts]
      rfl
    _ = (catalog.first? [nodes]).or (catalog.first? (afterRun nodes)) := catalog.first?_cons _ _
    _ = catalog.first? (afterRun nodes) := by
      rw [first?_of_startsExecute free starts, Option.none_or]

theorem Catalog.match?_of_not_startsExecute (catalog : Catalog)
    (starts : ¬startsExecute nodes) : catalog.match? true nodes = catalog.first? [nodes] := by
  rw [startsExecute, Bool.not_eq_true] at starts
  rw [Catalog.match?, candidates, starts]
  rfl

/-- One `execute`: the command that it runs comes before the nodes after a `run` in that command. -/
theorem Catalog.match?_before (free : catalog.NoExecute) (e : Execute) (nodes : List Node) :
    catalog.match? true (e.before nodes) =
      (catalog.match? true nodes).or (catalog.first? (afterRun nodes)) := by
  have whole : catalog.match? true (e.before nodes) =
      (catalog.first? [nodes]).or (catalog.first? (afterRun nodes)) := by
    rw [match?_of_startsExecute free (e.startsExecute_before nodes), e.afterRun_before, first?_cons]
  by_cases starts : startsExecute nodes
  · rw [whole, first?_of_startsExecute free starts, match?_of_startsExecute free starts,
      Option.none_or, Option.or_self]
  · rw [whole, match?_of_not_startsExecute catalog starts]

theorem Catalog.match?_before_of_startsExecute (free : catalog.NoExecute) (e : Execute)
    (starts : startsExecute nodes) :
    catalog.match? true (e.before nodes) = catalog.match? true nodes := by
  rw [match?_before free, match?_of_startsExecute free starts, Option.or_self]

theorem Catalog.match?_chain_before (free : catalog.NoExecute) (es : List Execute) (e : Execute)
    (nodes : List Node) :
    catalog.match? true (Execute.chain es (e.before nodes)) =
      catalog.match? true (e.before nodes) := by
  induction es with
  | nil => rfl
  | cons outer es ih =>
      -- What an outer `execute` runs is itself one, so the law of one step has no other case.
      have starts : startsExecute (Execute.chain es (e.before nodes)) := by
        cases es with
        | nil => exact e.startsExecute_before nodes
        | cons inner es => exact inner.startsExecute_before (Execute.chain es (e.before nodes))
      exact (match?_before_of_startsExecute free outer starts).trans ih

end

/-- However many times `execute` stands before a command, it is matched as it is alone; only where
it neither fits a template nor is an `execute` itself, the nodes after a `run` in it are tried. -/
theorem match?_chain (es : List Execute) (e : Execute) (nodes : List Node) :
    Catalog.match? standard true (Execute.chain es (e.before nodes)) =
        (Catalog.match? standard true nodes).or (Catalog.first? standard (afterRun nodes)) ∧
      (startsExecute nodes → Catalog.match? standard true (Execute.chain es (e.before nodes)) =
        Catalog.match? standard true nodes) := by
  have inner := Catalog.match?_chain_before standard_noExecute es e nodes
  constructor
  · exact inner.trans (Catalog.match?_before standard_noExecute e nodes)
  · intro starts
    exact inner.trans (Catalog.match?_before_of_startsExecute standard_noExecute e starts)

/-- In `execute run say run tellraw @s "hi"` the second `run` starts a command too. -/
theorem not_match?_before : ¬∀ (e : Execute) (nodes : List Node),
    Catalog.match? standard true (e.before nodes) = Catalog.match? standard true nodes := by
  intro same
  let e : Execute := {
    word := ⟨.literal, "execute".toList, 0, []⟩
    conditions := []
    run := ⟨.literal, "run".toList, 8, []⟩
    isExecute := by decide
    isRun := by decide
    noRun := by simp }
  let say : List Node := [⟨.literal, "say".toList, 12, []⟩, ⟨.literal, "run".toList, 16, []⟩,
    ⟨.literal, "tellraw".toList, 20, []⟩, ⟨.selector, "@s".toList, 28, []⟩,
    ⟨.string, "\"hi\"".toList, 31, []⟩]
  have alone : (Catalog.match? standard true say).isSome = false := by decide
  have after : (Catalog.match? standard true (e.before say)).isSome = true := by decide
  rw [same e say, alone] at after
  cases after

end Template
end ChatPreview
