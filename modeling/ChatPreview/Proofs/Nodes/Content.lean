import ChatPreview.Proofs.Nodes.Isolated
/-!
The contents of nodes as commands: a captured node, read again by itself, is one command that holds
the same tree.
-/
namespace ChatPreview
open Text Scan Token

/-! ## Brackets and selectors -/

/-- What is one level further in is read by itself, if there is such a level. -/
def InnerAlone (inner : Deeper) : Prop :=
  ∀ v ∈ inner, Alone v ∧ Forward v ∧ ∃ inner₂, v = item endsValue inner₂

section
variable {tail : List Char} {stops : Char → Bool} {inner : Deeper}
  {c c' d d' : Cursor} {n : Node}

theorem AlonePart.closed {α : Type} {close : Char} {V : α → α → Prop} {part : Scan α} {as : List α}
    {e : Cursor} (h : AlonePart close V part) (closes : isCloser close) (beneath : Beneath tail c d)
    (list : Scan.separated part comma c = .ok as e) (leads : Leads tail (skipSpace e))
    (head : (skipSpace e).rest.head? = some close) :
    ∃ as' e', Scan.separated part comma d = .ok as' e' ∧ List.Forall₂ V as as' ∧
      (skipSpace e').rest.head? = some close ∧
      Alongside tail ((skipSpace e).advance 1) ((skipSpace e').advance 1) := by
  have solid := solid_of_isCloser closes
  rcases h.separated closes beneath list leads head with ⟨as', e', list', values, after⟩
  have head' := after.skip.head_of_solid solid head
  exact ⟨as', e', list', values, head', Alongside.advance after.skip solid head⟩

theorem leads_of_close {x : Char} (solid : Solid x) (head : c.rest.head? = some x)
    (bounds : (c.advance 1).rest = tail ∨ Leads tail (c.advance 1)) : Leads tail c := by
  rcases bounds with ended | leads
  · rcases List.head?_eq_some_iff.1 head with ⟨t, split⟩
    rw [Cursor.advance, split] at ended
    exact ⟨[], x, solid, split.trans (congrArg (x :: ·) ended)⟩
  · exact leads.of_reaches (Cursor.Onward.advance head solid).1

theorem closed_of_brackets {α : Type} {opening close : Char} {part : Scan α} {as : List α}
    {e : Cursor} (forward : Forward part) (opens : Solid opening) (closes : Solid close)
    (head : c.rest.head? = some opening) (list : Scan.separated part comma (c.advance 1) = .ok as e)
    (last : (skipSpace e).rest.head? = some close) :
    c.Reaches ((skipSpace e).advance 1) ∧ c.Closed ((skipSpace e).advance 1) := by
  have parts := (forward_separated forward forward_comma list).trans (reaches_skipSpace e)
  have ahead := (Cursor.Onward.advance head opens).1.trans parts
  exact ⟨ahead.trans (Cursor.Onward.advance last closes).1, closed_of_head ahead closes last⟩

theorem closed_object (forward : ∀ v ∈ inner, Forward v) (read : object inner c = .ok n c') :
    c.Reaches c' ∧ c.Closed c' := by
  rcases object_eq_ok.1 read with ⟨v, left, entries, e, head, list, close, rfl, _⟩
  exact closed_of_brackets (forward_entry (forward v left)) (by decide) (by decide) head list close

theorem closed_array (forward : ∀ v ∈ inner, Forward v) (read : array inner c = .ok n c') :
    c.Reaches c' ∧ c.Closed c' := by
  rcases array_eq_ok.1 read with ⟨v, left, items, e, head, list, close, rfl, _⟩
  exact closed_of_brackets (forward_element (forward v left)) (by decide) (by decide) head list close

theorem close_of_arguments (forward : ∀ v ∈ inner, Forward v)
    (read : arguments inner c = .ok () c') :
    ∃ e, c.Reaches e ∧ e.rest.head? = some ']' ∧ c' = e.advance 1 := by
  rcases arguments_eq_ok.1 read with ⟨v, left, us, e, head, list, close, rfl⟩
  have first := (Cursor.Onward.advance head (by decide)).1.trans (reaches_skipSpace (c.advance 1))
  have parts := forward_separated (forward_argument (forward v left)) forward_comma list
  exact ⟨skipSpace e, first.trans (parts.trans (reaches_skipSpace e)), close, rfl⟩

theorem closed_selector (forward : ∀ v ∈ inner, Forward v) (read : selector inner c = .ok n c') :
    c.Closed c' := by
  rcases selector_eq_ok.1 read with ⟨letter, s, split, target, given, _, _⟩
  rcases optionalArguments_eq_ok.1 given with ⟨_, listed⟩ | ⟨_, rfl⟩
  · rcases close_of_arguments forward listed with ⟨e, inside, close, rfl⟩
    have reach : c.Reaches (c.advance 2) := c.reaches_advance (by simp [split])
    exact closed_of_head (reach.trans inside) (by decide) close
  · have lettered : (c.advance 1).rest.head? = some letter := by rw [Cursor.advance, split]; rfl
    have reach : c.Reaches (c.advance 1) := c.reaches_advance (by simp [split])
    rw [← c.advance_advance 1 1]
    exact closed_of_head reach (solid_of_class (by decide) letter target) lettered

/-- A bracketed node is read by itself, wherever in the text it ends. -/
theorem bracketed_alongside {α : Type} {kind : Kind} {opening close : Char}
    {part : Scan Node → Scan α} {g : List α → List Node} {V : α → α → Prop}
    (parts : ∀ v ∈ inner, AlonePart close V (part v)) (opens : Solid opening)
    (closes : isCloser close)
    (gathers : ∀ {as bs}, List.Forall₂ V as bs → AllAlike (g as) (g bs))
    (beneath : Beneath tail c d)
    (read : node kind (bracketed opening close inner part g) c = .ok n c')
    (bounds : c'.rest = tail ∨ Leads tail c') :
    ∃ n' d', node kind (bracketed opening close inner part g) d = .ok n' d' ∧ n.Alike n' ∧
      Alongside tail c' d' := by
  rcases node_bracketed_eq_ok.1 read with ⟨v, left, as, e, head, list, last, rfl, rfl⟩
  have forward := (parts v left).forward
  have solid := solid_of_isCloser closes
  have leads := leads_of_close solid last bounds
  have reach := (forward_separated forward forward_comma list).trans (reaches_skipSpace e)
  have start := (Alongside.advance beneath opens head).beneath (leads.of_reaches reach)
  rcases (parts v left).closed closes start list leads last with
    ⟨bs, e', list', values, last', after⟩
  have head' := beneath.head_of_solid opens head
  refine ⟨_, _, node_bracketed_eq_ok.2 ⟨v, left, bs, e', head', list', last', rfl, rfl⟩, ?_, after⟩
  have ⟨ahead, ended⟩ := closed_of_brackets forward opens solid head list last
  have ahead' := (closed_of_brackets forward opens solid head' list' last').1
  exact alike_between kind (Alongside.span beneath after ahead ahead' ended) (gathers values)

theorem object_alongside (h : InnerAlone inner) (beneath : Beneath tail c d)
    (read : object inner c = .ok n c') (bounds : c'.rest = tail ∨ Leads tail c') :
    ∃ n' d', object inner d = .ok n' d' ∧ n.Alike n' ∧ Alongside tail c' d' := by
  apply bracketed_alongside _ (by decide) rfl allAlike_flatten beneath read bounds
  intro v left
  have ⟨alone, forward, valued⟩ := h v left
  exact alone_entry alone forward valued

theorem array_alongside (h : InnerAlone inner) (beneath : Beneath tail c d)
    (read : array inner c = .ok n c') (bounds : c'.rest = tail ∨ Leads tail c') :
    ∃ n' d', array inner d = .ok n' d' ∧ n.Alike n' ∧ Alongside tail c' d' := by
  apply bracketed_alongside _ (by decide) rfl allAlike_of_forall₂ beneath read bounds
  intro v left
  have ⟨alone, forward, valued⟩ := h v left
  exact alone_element alone forward valued

theorem arguments_alongside (h : InnerAlone inner) (beneath : Beneath tail c d)
    (read : arguments inner c = .ok () c') (bounds : c'.rest = tail ∨ Leads tail c') :
    ∃ d', arguments inner d = .ok () d' ∧ Alongside tail c' d' := by
  rcases arguments_eq_ok.1 read with ⟨v, left, us, e, head, list, close, rfl⟩
  have ⟨alone, onward, valued⟩ := h v left
  have leads := leads_of_close (by decide) close bounds
  have reach := (reaches_skipSpace (c.advance 1)).trans
    ((forward_separated (forward_argument onward) forward_comma list).trans (reaches_skipSpace e))
  have start := (Alongside.advance beneath (by decide) head).beneath (leads.of_reaches reach)
  rcases (alone_argument alone onward valued).closed rfl start.skip list leads close with
    ⟨us', e', list', _, close', after⟩
  have head' := beneath.head_of_solid (by decide) head
  exact ⟨_, arguments_eq_ok.2 ⟨v, left, us', e', head', list', close', rfl⟩, after⟩

theorem Alongside.selectorEnds (after : Alongside tail c d) (ends : c.rest = tail ∨ Awaits tail c) :
    selectorEnds d.rest ∧ d.rest.head? ≠ some '[' := by
  rcases after with beneath | ⟨_, ended⟩
  · rcases ends with ended | awaits
    · have inside := beneath.leads.length_lt
      rw [ended] at inside
      exact absurd inside (Nat.lt_irrefl _)
    · rcases (awaits.ready beneath).head with ⟨y, head, stop, other⟩
      rw [Token.selectorEnds, head, Option.all_some, stop]
      exact ⟨rfl, fun same => other (Option.some.inj same)⟩
  · rw [ended]
    exact ⟨rfl, by simp⟩

theorem optionalArguments_alongside (h : InnerAlone inner) (after : Alongside tail c d)
    (read : optionalArguments inner c = .ok () c') (ends : c'.rest = tail ∨ Awaits tail c') :
    ∃ d', optionalArguments inner d = .ok () d' ∧ Alongside tail c' d' := by
  rcases optionalArguments_eq_ok.1 read with ⟨bracket, listed⟩ | ⟨_, rfl⟩
  · have bounds : c'.rest = tail ∨ Leads tail c' := ends.imp_right Awaits.leads
    rcases close_of_arguments (fun v left => (h v left).2.1) listed with ⟨e, inside, close, rfl⟩
    have beneath := after.beneath ((leads_of_close (by decide) close bounds).of_reaches inside)
    rcases arguments_alongside h beneath listed bounds with ⟨d', listed', after'⟩
    have bracket' := beneath.head_of_solid (by decide) bracket
    exact ⟨d', optionalArguments_eq_ok.2 (.inl ⟨bracket', listed'⟩), after'⟩
  · exact ⟨d, optionalArguments_eq_ok.2 (.inr ⟨(after.selectorEnds ends).2, rfl⟩), after⟩

theorem bounds_of_optionalArguments (h : InnerAlone inner)
    (read : optionalArguments inner c = .ok () c') (bounds : c'.rest = tail ∨ Leads tail c') :
    c.rest = tail ∨ Leads tail c := by
  rcases optionalArguments_eq_ok.1 read with ⟨_, listed⟩ | ⟨_, rfl⟩
  · rcases close_of_arguments (fun v left => (h v left).2.1) listed with ⟨e, inside, close, rfl⟩
    exact .inr ((leads_of_close (by decide) close bounds).of_reaches inside)
  · exact bounds

theorem selector_alongside (h : InnerAlone inner) (beneath : Beneath tail c d)
    (read : selector inner c = .ok n c') (ends : c'.rest = tail ∨ Awaits tail c') :
    ∃ n' d', selector inner d = .ok n' d' ∧ n.Alike n' ∧ Alongside tail c' d' := by
  have onwards : ∀ v ∈ inner, Forward v := fun v left => (h v left).2.1
  have forward := consumes_selector onwards
  have closed := closed_selector onwards read
  have ahead := (forward read).1
  rcases selector_eq_ok.1 read with ⟨letter, s, split, target, given, _, rfl⟩
  have marked : c.rest.head? = some '@' := by rw [split]; rfl
  have lettered : (c.advance 1).rest.head? = some letter := by rw [Cursor.advance, split]; rfl
  have solid : Solid letter := solid_of_class (by decide) letter target
  rw [← c.advance_advance 1 1] at given
  have leads : Leads tail (c.advance 1) := leads_of_close solid lettered
    (bounds_of_optionalArguments h given (ends.imp_right Awaits.leads))
  have beneath₁ := (Alongside.advance beneath (by decide) marked).beneath leads
  have after₂ := Alongside.advance beneath₁ solid lettered
  rcases optionalArguments_alongside h after₂ given ends with ⟨d', given', after⟩
  rcases List.head?_eq_some_iff.1 (beneath.head_of_solid (by decide) marked) with ⟨t, split'⟩
  have lettered' := beneath₁.head_of_solid solid lettered
  rw [Cursor.advance, split', List.drop_succ_cons, List.drop_zero] at lettered'
  rcases List.head?_eq_some_iff.1 lettered' with ⟨u, rfl⟩
  rw [d.advance_advance 1 1] at given'
  have read' := selector_eq_ok.2
    ⟨letter, u, split', target, given', (after.selectorEnds ends).1, rfl⟩
  refine ⟨_, d', read', alike_between .selector ?_ rfl, after⟩
  exact Alongside.span beneath after ahead (forward read').1 closed

/-! ## Values -/

theorem selectorEnds_of_word (s : List Char) :
    selectorEnds (s.drop (wordChars endsValue s).length) := by
  fun_induction wordChars endsValue s with
  | case1 => rfl
  | case2 x s ends =>
      rw [List.length_nil, List.drop_zero, selectorEnds, List.head?_cons, Option.all_some]
      exact ends
  | case3 x s free ih => exact ih

theorem fails_selector_of_word (beneath : Beneath tail c d) (noSelector : (selector inner c).Fails)
    (read : word endsValue c = .ok n c') (awaits : Awaits tail c') : (selector inner d).Fails := by
  cases other : selector inner d with
  | fail e f => exact ⟨e, f, rfl⟩
  | ok m f =>
      exfalso
      rcases selector_eq_ok.1 other with ⟨letter, u, split, target, given, ends, _⟩
      rcases word_eq_ok.1 read with ⟨_, some', rfl, _⟩
      rcases beneath.pass awaits.leads with ⟨text, after⟩
      rcases (awaits.ready after).head with ⟨y, next, stop, noBracket⟩
      rcases List.head?_eq_some_iff.1 next with ⟨v, rest⟩
      rcases wordChars_isPrefix endsValue c.rest with ⟨s, whole⟩
      have inside {z : Char} (member : z ∈ wordChars endsValue c.rest) :=
        not_stops_of_mem_wordChars member
      have last := selectorEnds_of_word c.rest
      have letters := delimits_endsValue.letter letter target
      rw [rest, split] at text
      generalize chars : wordChars endsValue c.rest = w at *
      match w with
      | [] => exact some' rfl
      | [z] =>
          cases text
          rw [stop] at letters
          cases letters
      | [z, z'] =>
          cases text
          -- the selector would end where the word does
          have bracket : (c.advance 2).rest.head? ≠ some '[' := by
            intro opens
            cases next.symm.trans (after.head_of_solid (by decide) opens)
            exact noBracket rfl
          have short : selector inner c = .ok (.between .selector c (c.advance 2) [])
              (c.advance 2) := selector_eq_ok.2 ⟨letter, s, whole.symm, target,
            optionalArguments_eq_ok.2 (.inr ⟨bracket, rfl⟩), last, rfl⟩
          rcases noSelector with ⟨e, g, failed⟩
          rw [failed] at short
          cases short
      | z :: z' :: q :: w =>
          cases text
          have free : endsValue q = false := inside (by simp)
          have onward : (d.advance 2).rest = q :: (w ++ y :: v) := by
            rw [Cursor.advance, split]
            rfl
          rcases optionalArguments_eq_ok.1 given with ⟨opens, _⟩ | ⟨_, rfl⟩
          · rw [onward] at opens
            cases opens
            cases free
          · have noFeed : '\n' ∉ (d.advance 2).rest := fun member =>
              beneath.feed_not_mem (List.mem_of_mem_drop member)
            rw [Token.selectorEnds, Continuation.starts, rest?_of_feed_not_mem noFeed, onward,
              List.head?_cons, Option.all_some, free] at ends
            cases ends

theorem item_of_object (read : object inner c = .ok n c') : item stops inner c = .ok n c' :=
  firstOf_of_ok read

theorem item_of_array (read : array inner c = .ok n c') : item stops inner c = .ok n c' := by
  have noObject : (object inner c).Fails :=
    fails_node_of_head (head_ne (opens_of_array read) (by decide))
  exact (firstOf_of_fails noObject).trans (firstOf_of_ok read)

theorem item_of_string (read : string c = .ok n c') : item stops inner c = .ok n c' := by
  have noBracket : ¬c.AtBracket := by
    rcases opens_of_string read with ⟨x, head, quote⟩
    rintro (brace | bracket)
    · cases head.symm.trans brace
      cases quote
    · cases head.symm.trans bracket
      cases quote
  exact (firstOf_append _ (fails_of_not_bracket inner noBracket)).trans (firstOf_of_ok read)

theorem item_of_selector (read : selector inner c = .ok n c') : item stops inner c = .ok n c' := by
  rcases selector_eq_ok.1 read with ⟨_, _, split, _⟩
  rw [item_of_mark (by rw [split]; rfl), firstOf_of_ok read]

theorem item_of_word (delimits : Delimits stops) (noSelector : (selector inner c).Fails)
    (read : word stops c = .ok n c') : item stops inner c = .ok n c' := by
  have noBracket := opens_of_word delimits read
  refine (firstOf_append _ (fails_of_not_bracket inner noBracket)).trans ?_
  rw [firstOf_of_fails (fails_string_of_word read), firstOf_of_fails noSelector, firstOf_of_ok read]

theorem fails_selector_of_item (read : item stops inner c = .ok n c') :
    (selector inner c).Fails ∨ selector inner c = .ok n c' := by
  cases first : selector inner c with
  | fail e f => exact .inl ⟨e, f, rfl⟩
  | ok m f =>
      rw [item_of_selector first] at read
      exact .inr read

/-- A token of a value is read by itself where a comma or a closing bracket follows it. -/
theorem alone_item (h : InnerAlone inner) : Alone (item endsValue inner) := by
  intro tail c d n c' beneath read awaits
  have leads := awaits.leads
  have noSelector := fails_selector_of_item read
  rcases item_cases read with object | array | string | selector | word
  · rcases object_alongside h beneath object (.inr leads) with ⟨n', d', same, alike, after⟩
    exact ⟨n', d', item_of_object same, alike, after.beneath leads⟩
  · rcases array_alongside h beneath array (.inr leads) with ⟨n', d', same, alike, after⟩
    exact ⟨n', d', item_of_array same, alike, after.beneath leads⟩
  · rcases string_alongside beneath string (.inr leads) with ⟨n', d', same, alike, after⟩
    exact ⟨n', d', item_of_string same, alike, after.beneath leads⟩
  · rcases selector_alongside h beneath selector (.inr awaits) with ⟨n', d', same, alike, after⟩
    exact ⟨n', d', item_of_selector same, alike, after.beneath leads⟩
  · rcases noSelector with noSelector | selector
    · have ends {d' : Cursor} (after : Beneath tail c' d') : ∀ y ∈ d'.rest.head?, endsValue y := by
        intro y head
        rcases (awaits.ready after).head with ⟨z, first, stop, _⟩
        cases head.symm.trans first
        exact stop
      rcases word_echoes beneath word leads ends with ⟨n', d', same, alike, after⟩
      have noSelector' := fails_selector_of_word beneath noSelector word awaits
      exact ⟨n', d', item_of_word delimits_endsValue noSelector' same, alike, after⟩
    · rcases selector_alongside h beneath selector (.inr awaits) with ⟨n', d', same, alike, after⟩
      exact ⟨n', d', item_of_selector same, alike, after.beneath leads⟩

theorem innerAlone_inside (limit : Int) (levels : Nat) : InnerAlone (inside limit levels) := by
  induction levels with
  | zero => exact nofun
  | succ levels ih =>
      intro v left
      cases left
      refine ⟨?_, (consumes_value limit levels).forward, inside limit levels, value_eq limit levels⟩
      rw [value_eq limit levels]
      exact alone_item ih

end

/-! ## Contents -/

/-- Whether the text of a node shows where it ends. -/
def Kind.Bounded (k : Kind) : Prop := k = .object ∨ k = .array ∨ k = .string ∨ k = .selector

section
variable {limit : Int} {levels : Nat} {c c' d : Cursor} {m : Node}

theorem Alongside.rest_eq_nil {e e' : Cursor} (after : Alongside e.rest e e') : e'.rest = [] := by
  rcases after with beneath | ⟨_, ended⟩
  · exact absurd beneath.leads.length_lt (Nat.lt_irrefl _)
  · exact ended

/-- A bounded node is read by itself to the end of its text. -/
theorem Found.read_alone (found : Found limit levels c c' m) (kind : m.kind.Bounded)
    (beneath : Beneath c'.rest c d) :
    ∃ n d', item endsWord (inside limit levels) d = .ok n d' ∧ m.Alike n ∧ d'.rest = [] := by
  have inner := innerAlone_inside limit levels
  cases found with
  | object read =>
      rcases object_alongside inner beneath read (.inl rfl) with ⟨n, d', same, alike, after⟩
      exact ⟨n, d', item_of_object same, alike, after.rest_eq_nil⟩
  | array read =>
      rcases array_alongside inner beneath read (.inl rfl) with ⟨n, d', same, alike, after⟩
      exact ⟨n, d', item_of_array same, alike, after.rest_eq_nil⟩
  | string read =>
      rcases string_alongside beneath read (.inl rfl) with ⟨n, d', same, alike, after⟩
      exact ⟨n, d', item_of_string same, alike, after.rest_eq_nil⟩
  | selector read =>
      rcases selector_alongside inner beneath read (.inl rfl) with ⟨n, d', same, alike, after⟩
      exact ⟨n, d', item_of_selector same, alike, after.rest_eq_nil⟩
  | literal => simp [Node.between, Kind.Bounded] at kind

theorem Found.bounds (found : Found limit levels c c' m) (kind : m.kind.Bounded) :
    (∃ x ∈ ['\x7b', '[', '"', '\'', '@'], c.rest.head? = some x) ∧ c.Reaches c' ∧ c.Closed c' ∧
      m.content = joinLines (c.upTo c') := by
  have onwards := forward_inside limit levels
  cases found with
  | object read =>
      have head := opens_of_object read
      have ⟨ahead, closed⟩ := closed_object onwards read
      rcases object_eq_ok.1 read with ⟨_, _, _, _, _, _, _, _, rfl⟩
      exact ⟨⟨_, by simp, head⟩, ahead, closed, rfl⟩
  | array read =>
      have head := opens_of_array read
      have ⟨ahead, closed⟩ := closed_array onwards read
      rcases array_eq_ok.1 read with ⟨_, _, _, _, _, _, _, _, rfl⟩
      exact ⟨⟨_, by simp, head⟩, ahead, closed, rfl⟩
  | string read =>
      have ahead := (consumes_string read).1
      have closed := closed_string read
      rcases opens_of_string read with ⟨x, head, quote⟩
      rcases string_eq_ok.1 read with ⟨_, _, _, _, _, _, rfl⟩
      rw [isQuote_iff] at quote
      refine ⟨⟨x, ?_, head⟩, ahead, closed, rfl⟩
      rcases quote with rfl | rfl
      · simp
      · simp
  | selector read =>
      have ahead := (consumes_selector onwards read).1
      have closed := closed_selector onwards read
      rcases selector_eq_ok.1 read with ⟨_, _, split, _, _, _, rfl⟩
      exact ⟨⟨'@', by simp, by rw [split]; rfl⟩, ahead, closed, rfl⟩
  | literal => simp [Node.between, Kind.Bounded] at kind

theorem solid_of_opens {x : Char} (opens : x ∈ ['\x7b', '[', '"', '\'', '@']) :
    Solid x ∧ x ≠ '#' ∧ x ≠ '$' := by
  have each : ['\x7b', '[', '"', '\'', '@'].all fun x => decide (Solid x ∧ x ≠ '#' ∧ x ≠ '$') := by
    decide
  exact of_decide_eq_true (List.all_eq_true.1 each x opens)

theorem commandsWithin_of_item {limit : Int} {x : Char} {s : List Char} {n : Node} (solid : Solid x)
    (code : x ≠ '#') (plain : x ≠ '$') (noFeed : '\n' ∉ x :: s)
    (read : item endsWord (inside limit limit.toNat) ⟨0, x :: s⟩ = .ok n d) (ended : d.rest = []) :
    ∃ k, commandsWithin limit (x :: s) = [k] ∧ k.error = none ∧ k.isMacro = false ∧
      k.nodes = [n] := by
  have noBlanks : ∀ y ∈ ([] : List Char), isBlank y := by simp
  have one := commandsWithin_of_joined limit noBlanks solid.not_blank code
    (joined_of_feed_not_mem noFeed)
  refine ⟨_, one, ?_⟩
  have here : skipSpace ⟨0, x :: s⟩ = ⟨0, x :: s⟩ := skipSpace_of_solid rfl solid
  have inside : ¬(⟨0, x :: s⟩ : Cursor).atLineEnd :=
    fun ends => head_ne_of_atLineEnd ends solid rfl
  have last : (skipSpace d).atLineEnd := by
    rw [skipSpace_atLineEnd (atLineEnd_iff.2 (.inl ended))]
    exact atLineEnd_iff.2 (.inl ended)
  have body : Command.readNodes limit ⟨0, x :: s⟩ = ⟨[n], none, skipSpace d⟩ := by
    rw [Command.readNodes_of_ok (by rwa [here]) (by rw [here]; exact top_of_ok read),
      Command.readNodes_of_end last]
  have mark : (x :: s).head? ≠ some '$' := fun same => plain (Option.some.inj same)
  simp only [Command.readLine, Command.pastDollar, List.length_nil, if_neg mark, body]
  exact ⟨trivial, decide_eq_false mark, trivial⟩

end

/-- An object, array, string or selector, at any depth of a command, is read again from its content
alone. -/
theorem commandsWithin_content {limit : Int} {source : List Char} {c : Command} {n m : Node}
    (among : c ∈ commandsWithin limit source) (member : n ∈ c.nodes) (below : m ∈ n.subtrees)
    (bounded : m.kind.Bounded) : ∃ k n', commandsWithin limit m.content = [k] ∧ k.error = none ∧
      k.isMacro = false ∧ k.nodes = [n'] ∧ m.Alike n' := by
  rcases found_of_mem_subtrees among member below with ⟨comment, _⟩ | ⟨e, e', _, joined, found⟩
  · simp [comment, Kind.Bounded] at bounded
  · rcases found.bounds bounded with ⟨⟨x, opens, head⟩, ahead, ⟨s, y, ends, last⟩, content⟩
    have ⟨solid, code, plain⟩ := solid_of_opens opens
    have split := ahead.upTo_append
    rw [last, List.append_assoc, List.singleton_append] at split
    have noFeed := Message.feed_not_mem_joinLines (split ▸ joined).of_append_left
    have text : m.content = joinLines s ++ [y] := by rw [content, last, joinLines_concat ends]
    have beneath : Beneath e'.rest e ⟨0, m.content⟩ := ⟨s, y, ends, split.symm, text, noFeed⟩
    rcases found.read_alone bounded beneath with ⟨n', d, read, alike, ended⟩
    rcases List.head?_eq_some_iff.1 (beneath.head_of_solid solid head) with ⟨t, starts⟩
    change m.content = x :: t at starts
    have whole : '\n' ∉ m.content := beneath.feed_not_mem
    rw [starts] at read whole ⊢
    rcases commandsWithin_of_item solid code plain whole read ended with
      ⟨k, one, error, isMacro, nodes⟩
    exact ⟨k, n', one, error, isMacro, nodes, alike⟩

theorem commandsWithin_content_entry :
    ∃ c ∈ commandsWithin 2 "say \x7ba : [1\\\n,'b]\\''],\x7d".toList, ∃ n ∈ c.nodes,
      ∃ m ∈ n.subtrees, m.kind.Bounded ∧ m.content = "[1,'b]\\'']".toList ∧
        ∃ k n', commandsWithin 2 m.content = [k] ∧ k.error = none ∧ k.isMacro = false ∧
          k.nodes = [n'] ∧ m.Alike n' := by
  have found : ∃ c ∈ commandsWithin 2 "say \x7ba : [1\\\n,'b]\\''],\x7d".toList, ∃ n ∈ c.nodes,
      ∃ m ∈ n.subtrees, m.kind = .array ∧ m.content = "[1,'b]\\'']".toList := by decide +kernel
  rcases found with ⟨c, among, n, member, m, below, array, content⟩
  have bounded : m.kind.Bounded := .inr (.inl array)
  exact ⟨c, among, n, member, m, below, bounded, content,
    commandsWithin_content among member below bounded⟩

end ChatPreview
