import ChatPreview.Command.Node
/-!
Scanners for the nodes of a command. Objects, arrays and the arguments of a selector open one level
of nesting each, and hold values; `inner` scans those, and is missing where no level is left.
-/
namespace ChatPreview
open Text Scan

def isQuote (c : Char) : Bool := c == '"' || c == '\''

def endsWord (c : Char) : Bool := [' ', '\t', '\r', '\n', '\x7b', '\x7d', '[', ']', '='].contains c

def endsValue (c : Char) : Bool := endsWord c || c == ','

def selectorClass : CharClass := ⟨"[aeprsn]", false, "aeprsn".toList.map fun c => (c, c)⟩

def keyRanges : List (Char × Char) :=
  [('A', 'Z'), ('a', 'z'), ('0', '9'), ('_', '_'), ('.', '.'), ('+', '+'), ('-', '-')]

def keyClass : CharClass := ⟨"[A-Za-z0-9_.+\\-]", false, keyRanges⟩

def pathClass : CharClass := ⟨"[A-Za-z0-9_.+\\-:/]", false, keyRanges ++ [(':', ':'), ('/', '/')]⟩

namespace Token

/-- Past blanks and continuations, for as long as an attempt at one answers a value. A continuation
has no value to answer, so the first attempt is the last. -/
def skipSpace (c : Cursor) : Cursor :=
  let c₁ := c.skipWhile isBlank
  match attempt continuation c₁ with
  | .fail _ c₂ => c₂
  | .ok read c₂ =>
    match read.bind continuationValue? with
    | none => c₂
    | some () => if c₂.rest.length < c.rest.length then skipSpace c₂ else c₂
termination_by c.rest.length

theorem skipSpace_eq (c : Cursor) : skipSpace c =
    match Continuation.rest? (c.skipWhile isBlank).rest with
    | some rest => (c.skipWhile isBlank).leave rest
    | none => c.skipWhile isBlank := by
  have noValue (read : Option Unit) : read.bind continuationValue? = none := by
    cases read <;> rfl
  rw [skipSpace, attempt]
  cases found : Continuation.rest? (c.skipWhile isBlank).rest with
  | some rest =>
      rw [continuation_of_some found]
      simp only [noValue]
  | none =>
      obtain ⟨e, d, failed⟩ := continuation_of_none found
      rw [failed]
      simp only [noValue]

theorem reaches_skipSpace (c : Cursor) : c.Reaches (skipSpace c) := by
  have blanks := c.reaches_skipWhile isBlank
  rw [skipSpace_eq]
  split
  · exact blanks.trans (Cursor.reaches_leave (Continuation.rest?_suffix ‹_›))
  · exact blanks

def space : Scan Unit := fun c => .ok () (skipSpace c)

theorem forward_space : Forward space := by
  intro c u d read
  cases read
  exact reaches_skipSpace c

def node (kind : Kind) (s : Scan (List Node)) : Scan Node := fun c =>
  match s c with
  | .ok children c' => .ok (.between kind c c' children) c'
  | .fail e c' => .fail e c'

theorem node_of_ok {kind : Kind} {s : Scan (List Node)} {c d : Cursor} {children : List Node}
    (read : s c = .ok children d) : node kind s c = .ok (.between kind c d children) d := by
  simp only [node, read]

theorem node_eq_ok {kind : Kind} {s : Scan (List Node)} {c d : Cursor} {n : Node} :
    node kind s c = .ok n d ↔
      ∃ children, s c = .ok children d ∧ n = .between kind c d children := by
  unfold node
  cases s c with
  | ok children e => constructor <;> (rintro h; grind)
  | fail e d => simp

theorem consumes_node {kind : Kind} {s : Scan (List Node)} (h : Consumes s) :
    Consumes (node kind s) := by
  intro c n d read
  obtain ⟨children, inner, _⟩ := node_eq_ok.1 read
  exact h inner

def wordChars (stops : Char → Bool) : List Char → List Char
  | [] => []
  | c :: s => if stops c || Continuation.starts (c :: s) then [] else c :: wordChars stops s

def word (stops : Char → Bool) : Scan Node := fun c =>
  if c.peek.any isQuote then .fail ⟨.unterminated, c.pos⟩ c
  else
    let chars := wordChars stops c.rest
    if chars.isEmpty then .fail ⟨.expectedWord c.peek, c.pos⟩ c
    else
      let c' := c.advance chars.length
      .ok (.between .literal c c' []) c'

theorem wordChars_isPrefix (stops : Char → Bool) (s : List Char) : wordChars stops s <+: s := by
  fun_induction wordChars stops s with
  | case1 => exact List.prefix_rfl
  | case2 c s => exact List.nil_prefix
  | case3 c s _ ih => exact List.cons_prefix_cons.2 ⟨rfl, ih⟩

theorem consumes_word (stops : Char → Bool) : Consumes (word stops) := by
  intro c n d read
  unfold word at read
  split at read
  · cases read
  · simp only at read
    split at read
    · cases read
    · rename_i nonempty
      cases read
      have := List.length_pos_iff.2 (List.isEmpty_eq_false_iff.1 (Bool.eq_false_iff.2 nonempty))
      refine ⟨c.reaches_advance (wordChars_isPrefix stops c.rest).length_le, ?_⟩
      simp only [Cursor.advance]
      omega

/-- The text after the quote that closes a string. A backslash takes the next character into the
string; a line end that is not part of a continuation leaves the string open. -/
def afterString? (quote : Char) (s : List Char) : Option (List Char) :=
  match _h : Continuation.rest? s with
  | some rest => afterString? quote rest
  | none =>
    if atNewline s then none
    else match s with
      | [] => none
      | c :: s =>
        if c = '\\' then afterString? quote (s.drop 1)
        else if c = quote then some s
        else afterString? quote s
termination_by s.length
decreasing_by
  · exact Continuation.rest?_length _h
  · simp only [List.length_drop, List.length_cons]
    omega
  · simp only [List.length_cons]
    omega

section
variable {quote c : Char} {s rest : List Char}

theorem afterString?_of_some (found : Continuation.rest? s = some rest) :
    afterString? quote s = afterString? quote rest := by
  rw [afterString?]
  split
  · rename_i other
    rw [found] at other
    cases other
    rfl
  · rename_i other
    rw [found] at other
    cases other

theorem afterString?_of_newline (free : Continuation.rest? s = none) (ended : atNewline s) :
    afterString? quote s = none := by
  rw [afterString?]
  split
  · rename_i other
    rw [free] at other
    cases other
  · rw [if_pos ended]

theorem afterString?_nil : afterString? quote [] = none := by
  rw [afterString?]
  rfl

theorem afterString?_cons (free : Continuation.rest? (c :: s) = none)
    (inside : ¬atNewline (c :: s)) : afterString? quote (c :: s) =
      if c = '\\' then afterString? quote (s.drop 1)
      else if c = quote then some s else afterString? quote s := by
  rw [afterString?]
  split
  · rename_i other
    rw [free] at other
    cases other
  · rw [if_neg inside]

end

theorem afterString?_suffix {quote : Char} {s rest : List Char}
    (h : afterString? quote s = some rest) : rest <:+ s := by
  fun_induction afterString? quote s with
  | case1 s t found ih => exact (ih h).trans (Continuation.rest?_suffix found)
  | case2 => cases h
  | case3 => cases h
  | case4 s _ _ ih => exact ((ih h).trans (List.drop_suffix 1 s)).trans (List.suffix_cons _ _)
  | case5 s => cases h; exact List.suffix_cons _ _
  | case6 c s _ _ _ _ ih => exact (ih h).trans (List.suffix_cons _ _)

def string : Scan Node := fun c =>
  match c.rest with
  | [] => .fail ⟨.expectedOneOf [['"'], ['\'']] [], c.pos⟩ c
  | quote :: s =>
    if isQuote quote then
      match afterString? quote s with
      | some rest => .ok (.between .string c (c.leave rest) []) (c.leave rest)
      | none => .fail ⟨.unterminated, c.pos⟩ c
    else .fail ⟨.expectedOneOf [['"'], ['\'']] [quote], c.pos⟩ c

theorem consumes_string : Consumes string := by
  intro c n d read
  unfold string at read
  split at read
  · cases read
  · rename_i quote s opening
    split at read
    · split at read
      · rename_i rest closed
        cases read
        have tail := afterString?_suffix closed
        have inside : rest <:+ c.rest := opening ▸ tail.trans (List.suffix_cons _ _)
        refine ⟨c.reaches_leave inside, ?_⟩
        have := tail.length_le
        simp only [Cursor.leave, opening, List.length_cons]
        omega
      · cases read
    · cases read

/-- The scanner for what is one level further in, or the limit that leaves no level for it. -/
abbrev Deeper := Except Int (Scan Node)

instance : Membership (Scan Node) Deeper := ⟨fun inner value => inner = .ok value⟩

@[simp] theorem mem_ok {v w : Scan Node} : w ∈ (.ok v : Deeper) ↔ w = v :=
  ⟨fun member => (Except.ok.inj member).symm, fun same => congrArg Except.ok same.symm⟩

def nested {α : Type} (inner : Deeper) (body : Scan Node → Scan α) : Scan α :=
  match inner with
  | .ok value => body value
  | .error limit => fail (.tooDeep limit)

theorem forward_nested {α : Type} {inner : Deeper} {body : Scan Node → Scan α}
    (h : ∀ value ∈ inner, Forward (body value)) : Forward (nested inner body) := by
  cases inner with
  | error limit => exact forward_fail _
  | ok value => exact h value rfl

def comma : Scan (List Char) := expect [',']

theorem forward_comma : Forward comma := (consumes_expect (List.cons_ne_nil _ _)).forward

theorem forward_expect (x : Char) : Forward (expect [x]) :=
  (consumes_expect (List.cons_ne_nil x [])).forward

def argument (value : Scan Node) : Scan Unit := do
  space
  let _ ← word endsValue
  space
  let _ ← expect ['=']
  space
  let _ ← attempt value
  space

theorem forward_argument {value : Scan Node} (h : Forward value) : Forward (argument value) := by
  refine forward_bind forward_space fun _ => ?_
  refine forward_bind (consumes_word endsValue).forward fun _ => ?_
  refine forward_bind forward_space fun _ => ?_
  refine forward_bind (forward_expect '=') fun _ => ?_
  refine forward_bind forward_space fun _ => ?_
  exact forward_bind (forward_attempt h) fun _ => forward_space

def arguments (inner : Deeper) : Scan Unit := do
  let _ ← expect ['[']
  space
  let _ ← nested inner fun value => separated (argument value) comma
  space
  let _ ← expect [']']

theorem forward_arguments {inner : Deeper} (h : ∀ value ∈ inner, Forward value) :
    Forward (arguments inner) := by
  refine forward_bind (forward_expect '[') fun _ => ?_
  refine forward_bind forward_space fun _ => ?_
  refine forward_bind (forward_nested fun value left =>
    forward_separated (forward_argument (h value left)) forward_comma) fun _ => ?_
  refine forward_bind forward_space fun _ => ?_
  exact forward_bind (forward_expect ']') fun _ => forward_pure ()

def optionalArguments (inner : Deeper) : Scan Unit := fun c =>
  if c.rest.head? = some '[' then arguments inner c else .ok () c

theorem forward_optionalArguments {inner : Deeper}
    (h : ∀ value ∈ inner, Forward value) : Forward (optionalArguments inner) := by
  intro c u d read
  unfold optionalArguments at read
  split at read
  · exact forward_arguments h read
  · cases read
    exact .refl c

def selectorEnds (s : List Char) : Bool := s.head?.all endsValue || Continuation.starts s

def selectorEnd : Scan (List Node) := fun c =>
  if selectorEnds c.rest then .ok [] c else .fail ⟨.afterSelector, c.pos⟩ c

theorem forward_selectorEnd : Forward selectorEnd := by
  intro c ns d read
  unfold selectorEnd at read
  split at read <;> cases read
  exact .refl c

def selector (inner : Deeper) : Scan Node :=
  node .selector do
    let _ ← expect ['@']
    let _ ← member selectorClass
    optionalArguments inner
    selectorEnd

theorem consumes_selector {inner : Deeper} (h : ∀ value ∈ inner, Forward value) :
    Consumes (selector inner) := by
  refine consumes_node (consumes_bind (consumes_expect (List.cons_ne_nil _ _)) fun _ => ?_)
  refine forward_bind (forward_member _) fun _ => ?_
  exact forward_bind (forward_optionalArguments h) fun _ => forward_selectorEnd

def element (value : Scan Node) : Scan Node := do
  space
  let item ← value
  space
  return item

theorem forward_element {value : Scan Node} (h : Forward value) : Forward (element value) := by
  refine forward_bind forward_space fun _ => forward_bind h fun item => ?_
  exact forward_bind forward_space fun _ => forward_pure item

def array (inner : Deeper) : Scan Node :=
  node .array do
    let _ ← expect ['[']
    let items ← nested inner fun value => separated (element value) comma
    space
    let _ ← expect [']']
    return items

theorem consumes_array {inner : Deeper} (h : ∀ value ∈ inner, Forward value) :
    Consumes (array inner) := by
  refine consumes_node (consumes_bind (consumes_expect (List.cons_ne_nil _ _)) fun _ => ?_)
  refine forward_bind (forward_nested fun value left =>
    forward_separated (forward_element (h value left)) forward_comma) fun items => ?_
  refine forward_bind forward_space fun _ => ?_
  exact forward_bind (forward_expect ']') fun _ => forward_pure items

def keyWord : Scan Node :=
  node .literal do
    let _ ← atLeast 1 keyClass
    return []

def pathKey : Scan Node := do
  let key ← node .literal do
    let _ ← atLeast 1 pathClass
    return []
  space
  let _ ← expect ['=']
  return key

theorem forward_node {kind : Kind} {s : Scan (List Node)} (h : Forward s) :
    Forward (node kind s) := by
  intro c n d read
  obtain ⟨children, inner, _⟩ := node_eq_ok.1 read
  exact h inner

theorem forward_run (k : CharClass) :
    Forward (node .literal (atLeast 1 k >>= fun _ => pure [])) :=
  forward_node (forward_bind (forward_atLeast 1 k) fun _ => forward_pure [])

theorem forward_pathKey : Forward pathKey := by
  refine forward_bind (forward_run pathClass) fun key => ?_
  refine forward_bind forward_space fun _ => ?_
  exact forward_bind (forward_expect '=') fun _ => forward_pure key

def plainKey : Scan Node := do
  let key ← firstOf [keyWord, string]
  space
  let _ ← oneOf [[':'], ['=']]
  return key

theorem forward_plainKey : Forward plainKey := by
  refine forward_bind (forward_firstOf ?_) fun key => ?_
  · intro s member
    simp only [List.mem_cons, List.not_mem_nil, or_false] at member
    rcases member with rfl | rfl
    · exact forward_run keyClass
    · exact consumes_string.forward
  · refine forward_bind forward_space fun _ => ?_
    exact forward_bind (forward_oneOf _) fun _ => forward_pure key

def entry (value : Scan Node) : Scan (List Node) := do
  space
  let key ← firstOf [pathKey, plainKey]
  space
  let item ← value
  space
  return [key, item]

theorem forward_entry {value : Scan Node} (h : Forward value) : Forward (entry value) := by
  refine forward_bind forward_space fun _ => ?_
  refine forward_bind (forward_firstOf ?_) fun key => ?_
  · intro s member
    simp only [List.mem_cons, List.not_mem_nil, or_false] at member
    rcases member with rfl | rfl
    · exact forward_pathKey
    · exact forward_plainKey
  · refine forward_bind forward_space fun _ => forward_bind h fun item => ?_
    exact forward_bind forward_space fun _ => forward_pure [key, item]

def object (inner : Deeper) : Scan Node :=
  node .object do
    let _ ← expect ['\x7b']
    let entries ← nested inner fun value => separated (entry value) comma
    space
    let _ ← expect ['\x7d']
    return entries.flatten

theorem consumes_object {inner : Deeper} (h : ∀ value ∈ inner, Forward value) :
    Consumes (object inner) := by
  refine consumes_node (consumes_bind (consumes_expect (List.cons_ne_nil _ _)) fun _ => ?_)
  refine forward_bind (forward_nested fun value left =>
    forward_separated (forward_entry (h value left)) forward_comma) fun entries => ?_
  refine forward_bind forward_space fun _ => ?_
  exact forward_bind (forward_expect '\x7d') fun _ => forward_pure entries.flatten

def item (stops : Char → Bool) (inner : Deeper) : Scan Node :=
  firstOf [object inner, array inner, string, selector inner, word stops]

theorem consumes_item {stops : Char → Bool} {inner : Deeper}
    (h : ∀ value ∈ inner, Forward value) : Consumes (item stops inner) := by
  refine consumes_firstOf fun s member => ?_
  simp only [List.mem_cons, List.not_mem_nil, or_false] at member
  rcases member with rfl | rfl | rfl | rfl | rfl
  · exact consumes_object h
  · exact consumes_array h
  · exact consumes_string
  · exact consumes_selector h
  · exact consumes_word stops

theorem item_eq_between {stops : Char → Bool} {inner : Deeper} {c d : Cursor}
    {n : Node} (read : item stops inner c = .ok n d) :
    ∃ kind children, n = .between kind c d children := by
  obtain ⟨s, member, read⟩ := exists_of_firstOf read
  simp only [List.mem_cons, List.not_mem_nil, or_false] at member
  rcases member with rfl | rfl | rfl | rfl | rfl
  · obtain ⟨children, _, rfl⟩ := node_eq_ok.1 read
    exact ⟨.object, children, rfl⟩
  · obtain ⟨children, _, rfl⟩ := node_eq_ok.1 read
    exact ⟨.array, children, rfl⟩
  · unfold string at read
    split at read
    · cases read
    · split at read
      · split at read <;> cases read
        exact ⟨.string, [], rfl⟩
      · cases read
  · obtain ⟨children, _, rfl⟩ := node_eq_ok.1 read
    exact ⟨.selector, children, rfl⟩
  · unfold word at read
    split at read
    · cases read
    · simp only at read
      split at read <;> cases read
      exact ⟨.literal, [], rfl⟩

/-- A value with so many levels of nesting left below it, of those that the limit allows. -/
def value (limit : Int) : Nat → Cursor → Outcome Node
  | 0, c => item endsValue (.error limit) c
  | levels + 1, c => item endsValue (.ok (value limit levels)) c

def inside (limit : Int) : Nat → Deeper
  | 0 => .error limit
  | levels + 1 => .ok (value limit levels)

theorem value_eq (limit : Int) (levels : Nat) :
    value limit levels = item endsValue (inside limit levels) := by
  funext c
  cases levels <;> simp [value, inside]

theorem consumes_value (limit : Int) (levels : Nat) : Consumes (value limit levels) := by
  induction levels with
  | zero => exact value_eq limit 0 ▸ consumes_item fun value left => by cases left
  | succ levels ih =>
      refine value_eq limit (levels + 1) ▸ consumes_item fun value left => ?_
      cases left
      exact ih.forward

theorem forward_inside (limit : Int) (levels : Nat) :
    ∀ value ∈ inside limit levels, Forward value := by
  intro value left
  cases levels with
  | zero => cases left
  | succ levels =>
      cases left
      exact (consumes_value limit levels).forward

def top (limit : Int) : Scan Node := fun c =>
  match item endsWord (inside limit limit.toNat) c with
  | .ok n c' => .ok n c'
  | .fail _ _ => .fail ⟨.unexpected c.peek, c.pos⟩ c

theorem consumes_top (limit : Int) : Consumes (top limit) := by
  intro c n d read
  unfold top at read
  split at read <;> cases read
  exact consumes_item (forward_inside limit limit.toNat) ‹_›

theorem top_eq_between {limit : Int} {c d : Cursor} {n : Node} (read : top limit c = .ok n d) :
    n.position = c.pos ∧ n.content = joinLines (c.upTo d) := by
  unfold top at read
  split at read <;> cases read
  obtain ⟨kind, children, rfl⟩ := item_eq_between ‹_›
  exact ⟨rfl, rfl⟩

theorem top_fail {limit : Int} {c d : Cursor} {e : Failure} (h : top limit c = .fail e d) :
    e = ⟨.unexpected c.peek, c.pos⟩ ∧ d = c := by
  unfold top at h
  split at h <;> cases h
  exact ⟨rfl, rfl⟩

end Token
end ChatPreview
