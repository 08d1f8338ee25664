import ChatPreview.Proofs.Nodes.Descent
/-!
The text of objects and arrays: brackets, and between them the children with their commas and marks,
so that nothing else is lost but blanks and continuations.
-/
namespace ChatPreview
open Text Scan Token

/-- Whether the text from the offset of a node up to `q` is the node's. -/
structure Node.Fills (source : List Char) (n : Node) (q : Nat) : Prop where
  nonempty : n.position < q
  inside : q ≤ source.length
  content : n.content = joinLines (source.extract n.position q)

def Apart (source : List Char) (p q : Nat) : Prop := p ≤ q ∧ Gap (source.extract p q)

inductive ElementText (source : List Char) (p : Nat) : List Node → Nat → Prop where
  | mk {n : Node} {q : Nat} (gap : Apart source p n.position) (fills : n.Fills source q)
      (value : n.kind ≠ .comment) : ElementText source p [n] q

inductive EntryText (source : List Char) (p : Nat) : List Node → Nat → Prop where
  | mk {key n : Node} {q m r : Nat} (gap : Apart source p key.position)
      (name : key.kind = .literal ∨ key.kind = .string) (named : key.Fills source q)
      (before : Apart source q m) (mark : source[m]? = some ':' ∨ source[m]? = some '=')
      (after : Apart source (m + 1) n.position) (fills : n.Fills source r)
      (value : n.kind ≠ .comment) : EntryText source p [key, n] r

/-- The text of a list up to its closing bracket, with one comma between two parts and maybe one
after the last. -/
inductive ListText (source : List Char) (part : Nat → List Node → Nat → Prop) (close : Char) :
    Nat → List Node → Nat → Prop where
  | none {p q : Nat} (gap : Apart source p q) (closed : source[q]? = some close) :
      ListText source part close p [] (q + 1)
  | last {p q r : Nat} {ns : List Node} (first : part p ns q) (gap : Apart source q r)
      (closed : source[r]? = some close) : ListText source part close p ns (r + 1)
  | more {p q r s : Nat} {ns ms : List Node} (first : part p ns q) (gap : Apart source q r)
      (comma : source[r]? = some ',') (rest : ListText source part close (r + 1) ms s) :
      ListText source part close p (ns ++ ms) s

/-! ## Texts and cursors -/

theorem Gap.append {s t : List Char} (first : Gap s) (second : Gap t) : Gap (s ++ t) := by
  induction first with
  | none => exact second
  | blank blank _ ih => exact .blank blank ih
  | carry trails _ ih =>
      rw [List.cons_append, List.append_assoc, List.cons_append]
      exact .carry trails ih

theorem Apart.trans {source : List Char} {p q r : Nat} (first : Apart source p q)
    (second : Apart source q r) : Apart source p r := by
  refine ⟨Nat.le_trans first.1 second.1, ?_⟩
  rw [← extract_append_extract source first.1 second.1]
  exact first.2.append second.2

section
variable {source : List Char} {c d : Cursor}

theorem apart_skipSpace (within : c.Within source) : Apart source c.pos (skipSpace c).pos := by
  have ahead := reaches_skipSpace c
  refine ⟨ahead.pos_le, ?_⟩
  rw [within.extract ahead]
  exact gap_skipSpace c

theorem Cursor.Within.getElem? (within : c.Within source) {x : Char}
    (head : c.rest.head? = some x) : source[c.pos]? = some x := by
  rcases within with ⟨before, after, split, pos⟩
  rcases List.head?_eq_some_iff.1 head with ⟨s, first⟩
  rw [split, pos, first, List.getElem?_append_right (Nat.le_refl _), Nat.sub_self]
  rfl

theorem fills_between (within : c.Within source) (ahead : c.Reaches d) (further : c.pos < d.pos)
    (kind : Kind) (children : List Node) : (Node.between kind c d children).Fills source d.pos := by
  refine ⟨further, (within.reaches ahead).pos_le, ?_⟩
  change joinLines (c.upTo d) = joinLines (source.extract c.pos d.pos)
  rw [within.extract ahead]

theorem fills_of_value {limit : Int} {levels : Nat} {n : Node} (within : c.Within source)
    (read : value limit levels c = .ok n d) : n.position = c.pos ∧ n.Fills source d.pos := by
  have ⟨ahead, further⟩ := consumes_value limit levels read
  rcases item_eq_between (value_eq limit levels ▸ read) with ⟨kind, children, rfl⟩
  exact ⟨rfl, fills_between within ahead further kind children⟩

theorem fills_of_key {n : Node} (within : c.Within source)
    (read : string c = .ok n d ∨ n = .between .literal c d []) (ahead : c.Reaches d)
    (further : c.pos < d.pos) :
    (n.kind = .literal ∨ n.kind = .string) ∧ n.position = c.pos ∧ n.Fills source d.pos := by
  rcases read with quoted | rfl
  · rcases string_eq_ok.1 quoted with ⟨_, _, _, _, _, _, rfl⟩
    exact ⟨.inr rfl, rfl, fills_between within ahead further .string []⟩
  · exact ⟨.inl rfl, rfl, fills_between within ahead further .literal []⟩

theorem Found.not_comment {limit : Int} {levels : Nat} {n : Node} (found : Found limit levels c d n) :
    n.kind ≠ .comment := by
  cases found with
  | object read =>
      rcases object_eq_ok.1 read with ⟨_, _, _, _, _, _, _, _, rfl⟩
      exact nofun
  | array read =>
      rcases array_eq_ok.1 read with ⟨_, _, _, _, _, _, _, _, rfl⟩
      exact nofun
  | string read =>
      rcases string_eq_ok.1 read with ⟨_, _, _, _, _, _, rfl⟩
      exact nofun
  | selector read =>
      rcases selector_eq_ok.1 read with ⟨_, _, _, _, _, _, rfl⟩
      exact nofun
  | literal => exact nofun

/-! ## Parts -/

variable {limit : Int} {levels : Nat}

theorem elementText_of_read {n : Node} (within : c.Within source)
    (read : element (value limit levels) c = .ok n d) :
    ∃ e, c.Reaches e ∧ d = skipSpace e ∧ ElementText source c.pos [n] e.pos := by
  rcases element_eq_ok.1 read with ⟨e, value, rfl⟩
  have ahead := reaches_skipSpace c
  rcases fills_of_value (within.reaches ahead) value with ⟨position, fills⟩
  have gap := apart_skipSpace within
  rw [← position] at gap
  have code := (found_of_item (value_eq limit levels ▸ value)).not_comment
  exact ⟨e, ahead.trans (consumes_value limit levels value).1, rfl, .mk gap fills code⟩

theorem entryText_of_read {ns : List Node} (within : c.Within source)
    (read : entry (value limit levels) c = .ok ns d) :
    ∃ e, c.Reaches e ∧ d = skipSpace e ∧ EntryText source c.pos ns e.pos := by
  rcases entry_eq_ok.1 read with ⟨key, f, n, e, name, value, rfl, rfl⟩
  rcases key_cases name with ⟨g, key_read, further, ahead, mark, marks, head, rfl⟩
  have start := reaches_skipSpace c
  have within₁ := within.reaches start
  have within₂ := within₁.reaches ahead
  have past := (Cursor.Onward.advance head marks.solid).1
  have within₃ := within₂.reaches (reaches_skipSpace g)
  have within₄ := within₃.reaches past
  have beyond := reaches_skipSpace ((skipSpace g).advance 1)
  rcases fills_of_key within₁ key_read ahead further with ⟨kind, keyed, named⟩
  rcases fills_of_value (within₄.reaches beyond) value with ⟨position, fills⟩
  have gap := apart_skipSpace within
  rw [← keyed] at gap
  have after := apart_skipSpace within₄
  rw [← position] at after
  have marked : source[(skipSpace g).pos]? = some ':' ∨ source[(skipSpace g).pos]? = some '=' := by
    rw [within₃.getElem? head]
    rcases marks with rfl | rfl
    · exact .inl rfl
    · exact .inr rfl
  have code := (found_of_item (value_eq limit levels ▸ value)).not_comment
  have reached := (((start.trans ahead).trans (reaches_skipSpace g)).trans past).trans beyond
  refine ⟨e, reached.trans (consumes_value limit levels value).1, rfl, ?_⟩
  exact .mk gap kind named (apart_skipSpace within₂) marked after fills code

/-! ## Lists -/

theorem listText_of_separated {α : Type} {part : Scan α} {nodes : α → List Node}
    {text : Nat → List Node → Nat → Prop}
    (parts : ∀ {c d : Cursor} {a : α}, c.Within source → part c = .ok a d →
      ∃ e, c.Reaches e ∧ d = skipSpace e ∧ text c.pos (nodes a) e.pos)
    {close : Char} {as : List α} (within : c.Within source)
    (read : separated part comma c = .ok as d) (closed : (skipSpace d).rest.head? = some close) :
    ListText source text close c.pos (as.flatMap nodes) ((skipSpace d).pos + 1) := by
  have ending {e : Cursor} (within : e.Within source)
      (closed : (skipSpace e).rest.head? = some close) : source[(skipSpace e).pos]? = some close :=
    (within.reaches (reaches_skipSpace e)).getElem? closed
  fun_induction separated part comma c generalizing as d with
  | case1 c =>
      cases read
      exact .none (apart_skipSpace within) (ending within closed)
  | case2 c =>
      cases read
      exact .none (apart_skipSpace within) (ending within closed)
  | case3 c _ a c₁ first =>
      cases read
      rcases parts within first with ⟨e, ahead, rfl, written⟩
      have within₁ := within.reaches ahead
      have within₂ := within₁.reaches (reaches_skipSpace e)
      rw [List.flatMap_singleton]
      have gap := (apart_skipSpace within₁).trans (apart_skipSpace within₂)
      exact .last written gap (ending within₂ closed)
  | case4 c _ a c₁ first _ c₂ apart _ as c₃ tail ih =>
      cases read
      rcases parts within first with ⟨e, ahead, rfl, written⟩
      rcases expect_eq_ok.1 apart with ⟨head, _, rfl⟩
      have within₁ := within.reaches ahead
      have within₂ := within₁.reaches (reaches_skipSpace e)
      have within₃ := within₂.reaches (Cursor.Onward.advance head (by decide)).1
      rw [List.flatMap_cons]
      exact .more written (apart_skipSpace within₁) (within₂.getElem? head) (ih within₃ tail closed)
  | case5 => cases read
  | case6 c _ a c₁ first _ c₂ apart =>
      cases read
      rcases parts within first with ⟨e, ahead, rfl, written⟩
      rcases expect_eq_ok.1 apart with ⟨head, _, rfl⟩
      have within₁ := within.reaches ahead
      have within₂ := within₁.reaches (reaches_skipSpace e)
      have within₃ := within₂.reaches (Cursor.Onward.advance head (by decide)).1
      rw [List.flatMap_cons]
      have rest : ListText source text close _ [] _ :=
        .none (apart_skipSpace within₃) (ending within₃ closed)
      exact .more written (apart_skipSpace within₁) (within₂.getElem? head) rest

/-! ## Nodes in their order -/

inductive InOrder (source : List Char) : Nat → List Node → Nat → Prop where
  | nil {p q : Nat} (ordered : p ≤ q) : InOrder source p [] q
  | cons {p q r : Nat} {n : Node} {ns : List Node} (ordered : p ≤ n.position)
      (fills : n.Fills source q) (rest : InOrder source q ns r) : InOrder source p (n :: ns) r

theorem InOrder.append {p q q' r : Nat} {ns ms : List Node} (first : InOrder source p ns q)
    (le : q ≤ q') (second : InOrder source q' ms r) : InOrder source p (ns ++ ms) r := by
  induction first with
  | nil ordered =>
      cases second with
      | nil ordered' => exact .nil (by omega)
      | cons ordered' fills rest => exact .cons (by omega) fills rest
  | cons ordered fills _ ih => exact .cons ordered fills (ih le)

theorem InOrder.widen {p q q' : Nat} {ns : List Node} (first : InOrder source p ns q)
    (le : q ≤ q') : InOrder source p ns q' := by
  rw [← List.append_nil ns]
  exact first.append (Nat.le_refl q) (.nil le)

theorem ElementText.inOrder {p q : Nat} {ns : List Node} (text : ElementText source p ns q) :
    InOrder source p ns q := by
  rcases text with ⟨gap, fills, _⟩
  exact .cons gap.1 fills (.nil (Nat.le_refl q))

theorem EntryText.inOrder {p q : Nat} {ns : List Node} (text : EntryText source p ns q) :
    InOrder source p ns q := by
  rcases text with ⟨gap, _, named, before, _, after, fills, _⟩
  have between := before.1
  have onward := after.1
  exact .cons gap.1 named (.cons (by omega) fills (.nil (Nat.le_refl q)))

theorem ListText.inOrder {part : Nat → List Node → Nat → Prop} {close : Char} {p q : Nat}
    {ns : List Node} (parts : ∀ {p ns q}, part p ns q → InOrder source p ns q)
    (text : ListText source part close p ns q) : ∃ r, q = r + 1 ∧ InOrder source p ns r := by
  induction text with
  | none gap => exact ⟨_, rfl, .nil gap.1⟩
  | last first gap => exact ⟨_, rfl, (parts first).widen gap.1⟩
  | more first gap _ _ ih =>
      rcases ih with ⟨r, rfl, rest⟩
      exact ⟨r, rfl, (parts first).append (Nat.le_succ_of_le gap.1) rest⟩

/-! ## Objects and arrays -/

def Keyed (children : List Node) : Prop :=
  children = (Node.pairs children).flatMap (fun entry => [entry.1, entry.2]) ∧
    ∀ entry ∈ Node.pairs children, entry.1.kind = .literal ∨ entry.1.kind = .string

theorem ListText.keyed {close : Char} {p q : Nat} {ns : List Node}
    (text : ListText source (EntryText source) close p ns q) : Keyed ns := by
  have entry {key n : Node} {ns : List Node} (name : key.kind = .literal ∨ key.kind = .string)
      (rest : Keyed ns) : Keyed (key :: n :: ns) := by
    constructor
    · rw [Node.pairs, List.flatMap_cons, ← rest.1]
      rfl
    · intro e member
      rw [Node.pairs, List.mem_cons] at member
      rcases member with rfl | later
      · exact name
      · exact rest.2 e later
  have nil : Keyed [] := ⟨rfl, by simp [Node.pairs]⟩
  induction text with
  | none => exact nil
  | last first =>
      rcases first with ⟨_, name, _⟩
      exact entry name nil
  | more first _ _ _ ih =>
      rcases first with ⟨_, name, _⟩
      exact entry name ih

/-- An object or array whose span ends at `q` and holds its children and nothing else but brackets,
commas, marks, blanks and continuations. -/
structure Node.Lossless (source : List Char) (n : Node) (q : Nat) : Prop where
  fills : n.Fills source q
  inside : ∃ r, q = r + 1 ∧ InOrder source (n.position + 1) n.children r
  object : n.kind = .object → Keyed n.children ∧ source[n.position]? = some '\x7b' ∧
    ListText source (EntryText source) '\x7d' (n.position + 1) n.children q
  array : n.kind = .array → source[n.position]? = some '[' ∧
    ListText source (ElementText source) ']' (n.position + 1) n.children q

theorem lossless_object {n : Node} (within : c.Within source)
    (read : object (inside limit levels) c = .ok n d) : n.Lossless source d.pos := by
  have ⟨ahead, further⟩ := consumes_object (forward_inside limit levels) read
  rcases object_eq_ok.1 read with ⟨v, left, entries, e, head, list, closed, rfl, rfl⟩
  cases levels with
  | zero => cases left
  | succ levels =>
      cases left
      have within₁ := within.reaches (Cursor.Onward.advance head (by decide)).1
      have text := listText_of_separated entryText_of_read within₁ list closed
      rw [List.flatMap_id'] at text
      exact ⟨fills_between within ahead further .object _, text.inOrder EntryText.inOrder,
        fun _ => ⟨text.keyed, within.getElem? head, text⟩, nofun⟩

theorem lossless_array {n : Node} (within : c.Within source)
    (read : array (inside limit levels) c = .ok n d) : n.Lossless source d.pos := by
  have ⟨ahead, further⟩ := consumes_array (forward_inside limit levels) read
  rcases array_eq_ok.1 read with ⟨v, left, items, e, head, list, closed, rfl, rfl⟩
  cases levels with
  | zero => cases left
  | succ levels =>
      cases left
      have within₁ := within.reaches (Cursor.Onward.advance head (by decide)).1
      have text := listText_of_separated elementText_of_read within₁ list closed
      rw [List.flatMap_singleton'] at text
      exact ⟨fills_between within ahead further .array _, text.inOrder ElementText.inOrder, nofun,
        fun _ => ⟨within.getElem? head, text⟩⟩

theorem lossless_of_found {n : Node} (within : c.Within source) (found : Found limit levels c d n)
    (nests : n.kind = .object ∨ n.kind = .array) : n.Lossless source d.pos := by
  cases found with
  | object read => exact lossless_object within read
  | array read => exact lossless_array within read
  | string read =>
      rcases string_eq_ok.1 read with ⟨_, _, _, _, _, _, rfl⟩
      simp [Node.between] at nests
  | selector read =>
      rcases selector_eq_ok.1 read with ⟨_, _, _, _, _, _, rfl⟩
      simp [Node.between] at nests
  | literal => simp [Node.between] at nests

end

/-- Objects and arrays nest no deeper than the limit, and each, at every depth, accounts for all of
its text. -/
theorem commandsWithin_lossless {limit : Int} {source : List Char} {c : Command} {n : Node}
    (among : c ∈ commandsWithin limit source) (member : n ∈ c.nodes) :
    n.nesting ≤ limit.toNat ∧ ∀ m ∈ n.subtrees, m.kind = .object ∨ m.kind = .array →
      ∃ q, m.Lossless source q := by
  constructor
  · have self : n ∈ n.subtrees := Node.mem_subtrees.2 (.inl rfl)
    rcases found_of_mem_subtrees among member self with ⟨comment, none⟩ | ⟨_, _, _, _, found⟩
    · rw [Node.nesting_eq, none, if_neg (by simp [comment])]
      exact Nat.zero_le _
    · exact found.nesting_le
  · intro m below nests
    rcases found_of_mem_subtrees among member below with ⟨comment, _⟩ | ⟨c', d', within, _, found⟩
    · simp [comment] at nests
    · exact ⟨d'.pos, lossless_of_found within found nests⟩

theorem commandsWithin_lossless_entry :
    ∃ c ∈ commandsWithin 2 "say \x7ba : [1,], \"b\"=2\x7d".toList, ∃ n ∈ c.nodes,
      n.nesting ≤ 2 ∧ ∃ m ∈ n.subtrees, m.kind = .array ∧
        ∃ q, m.Lossless "say \x7ba : [1,], \"b\"=2\x7d".toList q := by
  have found : ∃ c ∈ commandsWithin 2 "say \x7ba : [1,], \"b\"=2\x7d".toList, ∃ n ∈ c.nodes,
      ∃ m ∈ n.subtrees, m.kind = .array := by decide +kernel
  rcases found with ⟨c, among, n, member, m, below, array⟩
  have ⟨nests, lossless⟩ := commandsWithin_lossless among member
  exact ⟨c, among, n, member, nests, m, below, array, lossless m below (.inr array)⟩

end ChatPreview
