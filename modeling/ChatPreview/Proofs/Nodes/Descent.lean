import ChatPreview.Proofs.Line.Tiles
import ChatPreview.Proofs.Nodes.Equations

namespace ChatPreview
open Text Scan Token

namespace Node

mutual

def subtrees : Node → List Node
  | ⟨kind, content, position, children⟩ =>
    ⟨kind, content, position, children⟩ :: subtreesAll children

def subtreesAll : List Node → List Node
  | [] => []
  | n :: rest => subtrees n ++ subtreesAll rest

end

theorem mem_subtreesAll {m : Node} {nodes : List Node} :
    m ∈ subtreesAll nodes ↔ ∃ n ∈ nodes, m ∈ n.subtrees := by
  induction nodes with
  | nil => simp [subtreesAll]
  | cons n rest ih => simp [subtreesAll, ih]

theorem mem_subtrees {m n : Node} : m ∈ n.subtrees ↔ m = n ∨ ∃ k ∈ n.children, m ∈ k.subtrees := by
  cases n
  rw [subtrees, List.mem_cons, mem_subtreesAll]

mutual

def nesting : Node → Nat
  | ⟨kind, _, _, children⟩ => nestingAll children + if kind = .object ∨ kind = .array then 1 else 0

def nestingAll : List Node → Nat
  | [] => 0
  | n :: rest => max (nesting n) (nestingAll rest)

end

theorem nesting_eq (n : Node) : n.nesting =
    nestingAll n.children + if n.kind = .object ∨ n.kind = .array then 1 else 0 := by
  cases n
  rw [nesting]

theorem nestingAll_le {k : Nat} {nodes : List Node} (each : ∀ n ∈ nodes, n.nesting ≤ k) :
    nestingAll nodes ≤ k := by
  induction nodes with
  | nil => exact Nat.zero_le k
  | cons n rest ih =>
      have first := each n List.mem_cons_self
      have others := ih fun m later => each m (List.mem_cons_of_mem n later)
      exact Nat.max_le.2 ⟨first, others⟩

end Node

/-- Whether a cursor stands further on in a text, and not inside a continuation. -/
def Cursor.Onward (c d : Cursor) : Prop := c.Reaches d ∧ (Joined c.rest → Joined d.rest)

namespace Cursor.Onward
variable {c d e : Cursor}

theorem refl (c : Cursor) : c.Onward c := ⟨.refl c, id⟩

theorem trans (first : c.Onward d) (second : d.Onward e) : c.Onward e :=
  ⟨first.1.trans second.1, second.2 ∘ first.2⟩

theorem skipSpace (c : Cursor) : c.Onward (skipSpace c) := by
  refine ⟨reaches_skipSpace c, fun joined => ?_⟩
  exact (Before.alone joined).skip.joined

theorem advance {x : Char} (head : c.rest.head? = some x) (solid : Solid x) :
    c.Onward (c.advance 1) := by
  rcases List.head?_eq_some_iff.1 head with ⟨s, split⟩
  refine ⟨c.reaches_advance (by simp [split]), fun joined => ?_⟩
  rw [Cursor.advance, split]
  exact (split ▸ joined).of_cons (starts_of_solid solid)

end Cursor.Onward

def Steady {α : Type} (s : Scan α) : Prop := ∀ ⦃c a d⦄, s c = .ok a d → c.Onward d

section
variable {α : Type} {c d : Cursor}

theorem steady_of_agree {V : α → α → Prop} {s : Scan α} (forward : Forward s)
    (agree : Agree (Before []) V s s) : Steady s := by
  intro c a d read
  refine ⟨forward read, fun joined => ?_⟩
  rcases agree.ok (.alone joined) read with ⟨_, _, _, _, after⟩
  exact after.joined

theorem steady_value (limit : Int) (levels : Nat) : Steady (value limit levels) :=
  steady_of_agree (consumes_value limit levels).forward ((Before.alignment []).value_agree limit levels)

theorem steady_key : Steady (firstOf [pathKey, plainKey]) := by
  apply steady_of_agree (forward_firstOf fun s member => ?_) (Before.alignment []).key_agree
  simp only [List.mem_cons, List.not_mem_nil, or_false] at member
  rcases member with rfl | rfl
  · exact forward_pathKey
  · exact forward_plainKey

theorem steady_element {v : Scan Node} (steady : Steady v) : Steady (element v) := by
  intro c n d read
  rcases element_eq_ok.1 read with ⟨e, first, rfl⟩
  exact ((Cursor.Onward.skipSpace c).trans (steady first)).trans (.skipSpace e)

theorem steady_entry {v : Scan Node} (steady : Steady v) : Steady (entry v) := by
  intro c ns d read
  rcases entry_eq_ok.1 read with ⟨key, e, m, f, name, value, rfl, _⟩
  have first := (Cursor.Onward.skipSpace c).trans (steady_key name)
  exact ((first.trans (.skipSpace e)).trans (steady value)).trans (.skipSpace f)

theorem part_of_separated {part : Scan α} {as : List α} {a : α} (steady : Steady part)
    (read : separated part comma c = .ok as d) (member : a ∈ as) :
    ∃ c' d', c.Onward c' ∧ part c' = .ok a d' := by
  fun_induction separated part comma c generalizing as d with
  | case1 => cases read; cases member
  | case2 => cases read; cases member
  | case3 c _ b c₁ first =>
      cases read
      cases List.mem_singleton.1 member
      exact ⟨c, c₁, .refl c, first⟩
  | case4 c _ b c₁ first _ c₂ apart _ bs c₃ tail ih =>
      cases read
      rcases List.mem_cons.1 member with rfl | later
      · exact ⟨c, c₁, .refl c, first⟩
      · rcases ih tail later with ⟨c', d', ahead, found⟩
        rcases expect_eq_ok.1 apart with ⟨head, _, rfl⟩
        have beyond := (steady first).trans (.advance head (by decide))
        exact ⟨c', d', beyond.trans ahead, found⟩
  | case5 => cases read
  | case6 c _ b c₁ first =>
      cases read
      cases List.mem_singleton.1 member
      exact ⟨c, c₁, .refl c, first⟩

end

/-! ## Children -/

section
variable {limit : Int} {levels : Nat} {stops : Char → Bool} {c d : Cursor} {n m : Node}

/-- A node that was read after a cursor as a child: a value with so many levels left, or a key. -/
inductive Child (limit : Int) (levels : Nat) (c : Cursor) : Node → Prop where
  | value {c' d' : Cursor} {m : Node} (ahead : c.Onward c') (read : value limit levels c' = .ok m d') :
      Child limit levels c m
  | quoted {c' d' : Cursor} {m : Node} (ahead : c.Onward c') (read : string c' = .ok m d') :
      Child limit levels c m
  | bare {c' d' : Cursor} (ahead : c.Onward c') : Child limit levels c (.between .literal c' d' [])

theorem Child.of_onward {c' : Cursor} (ahead : c.Onward c') (child : Child limit levels c' m) :
    Child limit levels c m := by
  cases child with
  | value further read => exact .value (ahead.trans further) read
  | quoted further read => exact .quoted (ahead.trans further) read
  | bare further => exact .bare (ahead.trans further)

theorem key_cases {e : Cursor} (read : firstOf [pathKey, plainKey] c = .ok n e) :
    ∃ d, (string c = .ok n d ∨ n = .between .literal c d []) ∧ c.pos < d.pos ∧ c.Reaches d ∧
      ∃ mark, IsMark mark ∧ (skipSpace d).rest.head? = some mark ∧
        e = (skipSpace d).advance 1 := by
  have bare {k : CharClass} {m : Node} {f : Cursor} (read : run k c = .ok m f) :
      c.pos < f.pos ∧ c.Reaches f ∧ m = .between .literal c f [] := by
    rcases run_eq_ok.1 read with ⟨some', rfl, same⟩
    have := List.length_pos_iff.2 some'
    refine ⟨?_, c.reaches_skipWhile k.has, same⟩
    simp only [Cursor.skipWhile, Cursor.advance]
    omega
  rcases firstOf_pair read with path | plain
  · rcases pathKey_eq_ok.1 path with ⟨f, name, head, rfl⟩
    rcases bare name with ⟨further, ahead, same⟩
    exact ⟨f, .inr same, further, ahead, '=', .inr rfl, head, rfl⟩
  · rcases plainKey_eq_ok.1 plain with ⟨f, either, mark, marks, head, rfl⟩
    rcases firstOf_pair either with name | quoted
    · rcases bare name with ⟨further, ahead, same⟩
      exact ⟨f, .inr same, further, ahead, mark, marks, head, rfl⟩
    · obtain ⟨ahead, further⟩ := consumes_string quoted
      exact ⟨f, .inl quoted, further, ahead, mark, marks, head, rfl⟩

theorem children_of_object (read : object (inside limit levels) c = .ok n d) :
    ∃ k, levels = k + 1 ∧ ∀ m ∈ n.children, Child limit k c m := by
  rcases object_eq_ok.1 read with ⟨v, left, entries, e, head, list, _, _, rfl⟩
  cases levels with
  | zero => cases left
  | succ k =>
      cases left
      refine ⟨k, rfl, fun m member => ?_⟩
      rcases List.mem_flatten.1 member with ⟨ns, listed, member⟩
      rcases part_of_separated (steady_entry (steady_value limit k)) list listed with
        ⟨c', _, ahead, part⟩
      rcases entry_eq_ok.1 part with ⟨key, f, item, g, name, value, _, rfl⟩
      have start := ((Cursor.Onward.advance head (by decide)).trans ahead).trans (.skipSpace c')
      apply Child.of_onward start
      simp only [List.mem_cons, List.not_mem_nil, or_false] at member
      rcases member with rfl | rfl
      · rcases key_cases name with ⟨d', quoted | rfl, _⟩
        · exact .quoted (.refl _) quoted
        · exact .bare (.refl _)
      · exact .value ((steady_key name).trans (.skipSpace f)) value

theorem children_of_array (read : array (inside limit levels) c = .ok n d) :
    ∃ k, levels = k + 1 ∧ ∀ m ∈ n.children, Child limit k c m := by
  rcases array_eq_ok.1 read with ⟨v, left, items, e, head, list, _, _, rfl⟩
  cases levels with
  | zero => cases left
  | succ k =>
      cases left
      refine ⟨k, rfl, fun m member => ?_⟩
      rcases part_of_separated (steady_element (steady_value limit k)) list member with
        ⟨c', _, ahead, part⟩
      rcases element_eq_ok.1 part with ⟨_, value, _⟩
      have start := (Cursor.Onward.advance head (by decide)).trans ahead
      exact .value (start.trans (.skipSpace c')) value

/-! ## Every depth -/

/-- How a node was read between two cursors; a literal may be a word or a key without quotes. -/
inductive Found (limit : Int) (levels : Nat) (c d : Cursor) : Node → Prop where
  | object {n : Node} (read : object (inside limit levels) c = .ok n d) : Found limit levels c d n
  | array {n : Node} (read : array (inside limit levels) c = .ok n d) : Found limit levels c d n
  | string {n : Node} (read : string c = .ok n d) : Found limit levels c d n
  | selector {n : Node} (read : selector (inside limit levels) c = .ok n d) : Found limit levels c d n
  | literal : Found limit levels c d (.between .literal c d [])

theorem found_of_item (read : item stops (inside limit levels) c = .ok n d) :
    Found limit levels c d n := by
  rcases item_cases read with object | array | string | selector | word
  · exact .object object
  · exact .array array
  · exact .string string
  · exact .selector selector
  · rw [(word_eq_ok.1 word).2.2.2]
    exact .literal

theorem Found.children (found : Found limit levels c d n) :
    (¬(n.kind = .object ∨ n.kind = .array) ∧ n.children = []) ∨
      ∃ k, levels = k + 1 ∧ ∀ m ∈ n.children, Child limit k c m := by
  cases found with
  | object read => exact .inr (children_of_object read)
  | array read => exact .inr (children_of_array read)
  | string read =>
      rcases string_eq_ok.1 read with ⟨_, _, _, _, _, _, rfl⟩
      exact .inl ⟨by simp [Node.between], rfl⟩
  | selector read =>
      rcases selector_eq_ok.1 read with ⟨_, _, _, _, _, _, rfl⟩
      exact .inl ⟨by simp [Node.between], rfl⟩
  | literal => exact .inl ⟨by simp [Node.between], rfl⟩

theorem Child.found (child : Child limit levels c m) :
    ∃ c' d', c.Onward c' ∧ Found limit levels c' d' m := by
  cases child with
  | value ahead read => exact ⟨_, _, ahead, found_of_item (value_eq limit levels ▸ read)⟩
  | quoted ahead read => exact ⟨_, _, ahead, .string read⟩
  | bare ahead => exact ⟨_, _, ahead, .literal⟩

theorem Found.of_le {levels' : Nat} (le : levels ≤ levels') (found : Found limit levels c d n) :
    Found limit levels' c d n := by
  have narrows : NarrowsInner (inside limit levels) (inside limit levels') :=
    narrowsInner_inside le
  cases found with
  | object read => exact .object (narrows.object read)
  | array read => exact .array (narrows.array read)
  | string read => exact .string read
  | selector read => exact .selector (narrows.selector read)
  | literal => exact .literal

theorem Found.subtrees (found : Found limit levels c d n) (member : m ∈ n.subtrees) :
    ∃ c' d', c.Onward c' ∧ Found limit levels c' d' m := by
  induction levels generalizing c d n with
  | zero =>
      rcases Node.mem_subtrees.1 member with rfl | ⟨child, listed, _⟩
      · exact ⟨c, d, .refl c, found⟩
      · rcases found.children with ⟨_, none⟩ | ⟨_, positive, _⟩
        · rw [none] at listed
          cases listed
        · cases positive
  | succ levels ih =>
      rcases Node.mem_subtrees.1 member with rfl | ⟨child, listed, below⟩
      · exact ⟨c, d, .refl c, found⟩
      · rcases found.children with ⟨_, none⟩ | ⟨_, more, each⟩
        · rw [none] at listed
          cases listed
        · cases more
          rcases (each child listed).found with ⟨c', d', ahead, found'⟩
          rcases ih found' below with ⟨c'', d'', further, deeper⟩
          exact ⟨c'', d'', ahead.trans further, deeper.of_le (Nat.le_succ levels)⟩

/-- Objects and arrays nest no deeper than the levels that were left. -/
theorem Found.nesting_le (found : Found limit levels c d n) : n.nesting ≤ levels := by
  induction levels generalizing c d n with
  | zero =>
      rcases found.children with ⟨other, none⟩ | ⟨_, positive, _⟩
      · rw [Node.nesting_eq, if_neg other, none]
        exact Nat.le_refl 0
      · cases positive
  | succ levels ih =>
      rw [Node.nesting_eq]
      rcases found.children with ⟨other, none⟩ | ⟨_, more, each⟩
      · rw [if_neg other, none]
        exact Nat.zero_le _
      · cases more
        have below : Node.nestingAll n.children ≤ levels := by
          apply Node.nestingAll_le
          intro m member
          rcases (each m member).found with ⟨_, _, _, found'⟩
          exact ih found'
        split <;> omega

end

/-! ## Commands -/

namespace Command
variable {limit : Int} {c : Cursor} {n : Node}

theorem onward_pastDollar (c : Cursor) : c.Onward (pastDollar c) := by
  rw [pastDollar]
  split
  · exact .advance ‹_› (by decide)
  · exact .refl c

theorem item_of_mem_readNodes (member : n ∈ (readNodes limit c).nodes) :
    ∃ c' d', c.Onward c' ∧ item endsWord (inside limit limit.toNat) c' = .ok n d' := by
  fun_induction readNodes limit c with
  | case1 => cases member
  | case2 => cases member
  | case3 c c₁ _ m c₂ read body ih =>
      have first := Cursor.Onward.skipSpace c
      rcases List.mem_cons.1 member with rfl | later
      · refine ⟨c₁, c₂, first, ?_⟩
        unfold top at read
        split at read <;> cases read
        assumption
      · have steady := steady_of_agree (consumes_top limit).forward
          ((Before.alignment []).top_agree limit)
        rcases ih later with ⟨c', d', ahead, found⟩
        exact ⟨c', d', (first.trans (steady read)).trans ahead, found⟩

theorem item_of_mem_readLine (member : n ∈ (readLine limit c).1.nodes) :
    ∃ c' d', c.Onward c' ∧ item endsWord (inside limit limit.toNat) c' = .ok n d' := by
  rcases item_of_mem_readNodes (c := pastDollar c) member with ⟨c', d', ahead, read⟩
  exact ⟨c', d', (onward_pastDollar c).trans ahead, read⟩

end Command

theorem item_of_mem_commandsWithin {limit : Int} {source : List Char} {c : Command} {n : Node}
    (among : c ∈ commandsWithin limit source) (member : n ∈ c.nodes) :
    (n.kind = .comment ∧ n.children = []) ∨ ∃ c' d', c'.Within source ∧ Joined c'.rest ∧
      item endsWord (inside limit limit.toNat) c' = .ok n d' := by
  rcases exists_lines source with ⟨ls, lines⟩
  have commands := (commandsFrom_lines limit lines 0).1
  change commandsWithin limit source = _ at commands
  rw [commands] at among
  rcases List.mem_map.1 among with ⟨line, listed, rfl⟩
  rcases exists_before lines 0 line listed with comment | ⟨tail, alone, before, code⟩
  · have hash : (line.skipWhile Text.isBlank).rest.head? = some '#' := by
      rwa [Cursor.skipWhile_rest]
    rw [Command.read, if_pos hash, Command.readComment, List.mem_singleton] at member
    exact .inl ⟨congrArg Node.kind member, congrArg Node.children member⟩
  · have other : (alone.skipWhile Text.isBlank).rest.head? ≠ some '#' := by
      rwa [Cursor.skipWhile_rest]
    rw [(Command.read_before limit before code).1, Command.read, if_neg other] at member
    rcases Command.item_of_mem_readLine member with ⟨c', d', ahead, read⟩
    have within : alone.Within source := by
      rcases placed_within lines listed with ⟨front, after, split, pos⟩
      refine ⟨front, tail ++ after, ?_, before.pos.symm.trans pos⟩
      rw [split, before.rest, List.append_assoc]
    have start := alone.reaches_skipWhile Text.isBlank
    have joined := before.blanks.joined
    exact .inr ⟨c', d', (within.reaches start).reaches ahead.1, ahead.2 joined, read⟩

theorem found_of_mem_subtrees {limit : Int} {source : List Char} {c : Command} {n m : Node}
    (among : c ∈ commandsWithin limit source) (member : n ∈ c.nodes) (below : m ∈ n.subtrees) :
    (m.kind = .comment ∧ m.children = []) ∨ ∃ c' d', c'.Within source ∧ Joined c'.rest ∧
      Found limit limit.toNat c' d' m := by
  rcases item_of_mem_commandsWithin among member with ⟨comment, none⟩ | ⟨c', d', within, joined, read⟩
  · rcases Node.mem_subtrees.1 below with rfl | ⟨child, listed, _⟩
    · exact .inl ⟨comment, none⟩
    · rw [none] at listed
      cases listed
  · rcases (found_of_item read).subtrees below with ⟨e, e', onward, found⟩
    exact .inr ⟨e, e', within.reaches onward.1, onward.2 joined, found⟩

end ChatPreview
