import ChatPreview.Proofs.Nesting.Limit
import ChatPreview.Proofs.Nodes.Alone
import Mathlib.Data.List.DropRight

namespace ChatPreview
open Text Scan Token

/-- Nodes that are the same up to their positions, at every depth. -/
def Node.Alike (n m : Node) : Prop := m.relocate (fun _ => 0) = n.relocate fun _ => 0

def AllAlike (ns ms : List Node) : Prop :=
  ms.map (·.relocate fun _ => 0) = ns.map (·.relocate fun _ => 0)

section
variable {tail : List Char} {stops : Char → Bool} {c c' d d' : Cursor} {n : Node}

theorem allAlike_of_forall₂ {ns ms : List Node} (each : List.Forall₂ Node.Alike ns ms) :
    AllAlike ns ms := by
  induction each with
  | nil => rfl
  | cons first _ ih => rw [AllAlike, List.map_cons, List.map_cons, ih, first]

theorem allAlike_flatten {nss mss : List (List Node)} (each : List.Forall₂ AllAlike nss mss) :
    AllAlike nss.flatten mss.flatten := by
  induction each with
  | nil => rfl
  | cons first _ ih =>
      rw [AllAlike, List.flatten_cons, List.flatten_cons, List.map_append, List.map_append, ih, first]

theorem alike_between (kind : Kind) {ns ms : List Node}
    (content : joinLines (c.upTo c') = joinLines (d.upTo d')) (children : AllAlike ns ms) :
    (Node.between kind c c' ns).Alike (Node.between kind d d' ms) := by
  rw [Node.Alike, Node.between, Node.between, Node.relocate, Node.relocate,
    Node.relocateAll_eq_map, Node.relocateAll_eq_map, children, content]

/-! ## Leaves -/

theorem endsValue_of_isBlank {y : Char} (blank : isBlank y) : endsValue y := by
  rw [isBlank_iff] at blank
  rcases blank with rfl | rfl <;> rfl

theorem Ready.head {s : List Char} (ready : Ready s) :
    ∃ y, s.head? = some y ∧ endsValue y ∧ y ≠ '[' := by
  rcases ready with ⟨y, ink, ends⟩
  rcases head_of_ink ink with ⟨z, head, blank | rfl⟩
  · refine ⟨z, head, endsValue_of_isBlank blank, ?_⟩
    rintro rfl
    cases blank
  · refine ⟨z, head, ?_⟩
    rcases ends with rfl | closes
    · decide
    · rw [isCloser_iff] at closes
      rcases closes with rfl | rfl <;> decide

/-- What a scanner reads from the other cursor: a value that is related, up to the same place. -/
def Echoes {α : Type} (tail : List Char) (V : α → α → Prop) (c' : Cursor) (a : α) (o : Outcome α) :
    Prop := ∃ a' d', o = .ok a' d' ∧ V a a' ∧ Beneath tail c' d'

theorem between_of_wordChars (beneath : Beneath tail c d)
    (leads : Leads tail (c.advance (wordChars stops c.rest).length)) :
    (Node.between .literal c (c.advance (wordChars stops c.rest).length) []).Alike
      (.between .literal d (d.advance (wordChars stops c.rest).length) []) := by
  rcases beneath.pass leads with ⟨text, _⟩
  apply alike_between .literal _ rfl
  have first : c.upTo (c.advance (wordChars stops c.rest).length) = wordChars stops c.rest := by
    rw [Cursor.upTo_advance]
    exact (List.prefix_iff_eq_take.1 (wordChars_isPrefix stops c.rest)).symm
  have second : d.upTo (d.advance (wordChars stops c.rest).length) = wordChars stops c.rest := by
    rw [Cursor.upTo_advance, text, List.take_left]
  rw [first, second]

theorem word_echoes (beneath : Beneath tail c d)
    (read : word stops c = .ok n c') (leads : Leads tail c')
    (ends : ∀ {d'}, Beneath tail c' d' → ∀ y ∈ d'.rest.head?, stops y) :
    Echoes tail Node.Alike c' n (word stops d) := by
  rcases word_eq_ok.1 read with ⟨noQuote, some', rfl, rfl⟩
  rcases beneath.pass leads with ⟨text, after⟩
  have same := beneath.wordChars leads (ends after)
  have quotes : d.peek.any isQuote = false := by
    cases chars : wordChars stops c.rest with
    | nil => exact absurd chars some'
    | cons y w =>
        rcases wordChars_isPrefix stops c.rest with ⟨rest, split⟩
        rw [chars] at text split
        rw [Cursor.peek, ← split] at noQuote
        rw [Cursor.peek, text]
        simpa using noQuote
  have alike := between_of_wordChars beneath leads
  refine ⟨_, _, word_eq_ok.2 ⟨quotes, same ▸ some', rfl, rfl⟩, ?_, ?_⟩
  · rw [same]
    exact alike
  · rw [same]
    exact after

theorem run_echoes {k : CharClass} (solid : ∀ y, k.has y → Solid y) (beneath : Beneath tail c d)
    (read : run k c = .ok n c') (leads : Leads tail c')
    (ends : ∀ {d'}, Beneath tail c' d' → ∀ y ∈ d'.rest.head?, ¬k.has y) :
    Echoes tail Node.Alike c' n (run k d) := by
  rcases run_eq_ok.1 read with ⟨some', rfl, rfl⟩
  rw [Cursor.skipWhile, takeWhile_eq_wordChars solid] at *
  rcases beneath.pass leads with ⟨text, after⟩
  have stop : ∀ y ∈ (d.advance (wordChars (!k.has ·) c.rest).length).rest.head?,
      (!k.has y) = true := by
    intro y head
    simpa using ends after y head
  have same := beneath.wordChars leads stop
  have alike := between_of_wordChars beneath leads
  refine ⟨_, _, run_eq_ok.2 ⟨?_, rfl, rfl⟩, ?_, ?_⟩
  · rw [takeWhile_eq_wordChars solid, same]
    exact some'
  · rw [Cursor.skipWhile, takeWhile_eq_wordChars solid, same]
    exact alike
  · rw [Cursor.skipWhile, takeWhile_eq_wordChars solid, same]
    exact after

theorem closed_string (read : string c = .ok n c') : c.Closed c' := by
  rcases string_eq_ok.1 read with ⟨quote, s, split, opens, closed, ahead, rfl⟩
  rcases Json.afterString?_last closed with ⟨inside, rfl⟩
  refine ⟨quote :: inside, quote, solid_of_isQuote opens, ahead.upTo_eq ?_⟩
  rw [split]
  simp

theorem string_alongside (beneath : Beneath tail c d) (read : string c = .ok n c')
    (bounds : c'.rest = tail ∨ Leads tail c') :
    ∃ n' d', string d = .ok n' d' ∧ n.Alike n' ∧ Alongside tail c' d' := by
  have closes := closed_string read
  rcases string_eq_ok.1 read with ⟨quote, s, split, opens, closed, ahead, rfl⟩
  have parts : ∃ r, c'.rest = r ++ tail ∧ (r = [] ∨ ∃ u y, Solid y ∧ r = u ++ [y]) := by
    rcases bounds with ended | ⟨u, y, solid, rest⟩
    · exact ⟨[], ended, .inl rfl⟩
    · exact ⟨u ++ [y], by simp [rest], .inr ⟨u, y, solid, rfl⟩⟩
  rcases parts with ⟨r, rest, ends⟩
  rcases Json.afterString?_last closed with ⟨inside, rfl⟩
  rw [rest] at closed split
  rcases beneath with ⟨s, x, solid, whole, split', noFeed⟩
  cases s with
  | nil =>
      have length := congrArg List.length (split.symm.trans whole)
      simp at length
      omega
  | cons z s =>
      rw [split, List.cons_append] at whole
      rcases List.cons.inj whole with ⟨rfl, same⟩
      rw [same] at closed
      have free : Continuation.rest? (quote :: s) = none := rest?_of_solid (solid_of_isQuote opens)
      have beneath : Beneath tail c d :=
        ⟨quote :: s, x, solid, by rw [split, same]; rfl, split', noFeed⟩
      rw [joinLines_cons free] at split' noFeed
      have later : '\n' ∉ joinLines s := fun member => noFeed (List.mem_cons_of_mem quote member)
      have closed' := afterString?_joinLines opens solid later closed
      have suffix : joinLines r <:+ d.rest := by
        rw [split']
        exact (afterString?_suffix closed').trans (List.suffix_cons quote _)
      have ahead' := d.reaches_leave suffix
      have after : Alongside tail c' (d.leave (joinLines r)) := by
        rcases ends with rfl | ⟨u, y, solid', rfl⟩
        · exact .inr ⟨rest, joinLines_nil⟩
        · refine .inl ⟨u, y, solid', by simp [rest], joinLines_concat solid' u, fun member => ?_⟩
          apply beneath.feed_not_mem
          apply suffix.subset
          rw [joinLines_concat solid']
          exact List.mem_append_left _ member
      refine ⟨_, _, string_eq_ok.2 ⟨quote, _, split', opens, closed', ahead', rfl⟩, ?_, after⟩
      exact alike_between .string
        (Alongside.span beneath after ahead ahead' closes) rfl

end

/-! ## Parts of lists -/

/-- Whether a value that a comma or a closing bracket follows is read by itself. -/
def Alone (v : Scan Node) : Prop := ∀ ⦃tail c d n c'⦄, Beneath tail c d → v c = .ok n c' →
  Awaits tail c' → Echoes tail Node.Alike c' n (v d)

structure AlonePart {α : Type} (close : Char) (V : α → α → Prop) (part : Scan α) : Prop where
  forward : Forward part
  ok ⦃tail : List Char⦄ ⦃c d c' : Cursor⦄ ⦃a : α⦄ (beneath : Beneath tail c d)
    (read : part c = .ok a c') (awaits : Awaits tail c') : Echoes tail V c' a (part d)
  stuck ⦃d : Cursor⦄ (closed : (skipSpace d).rest.head? = some close) : (part d).Fails

section
variable {α : Type} {tail : List Char} {close : Char} {V : α → α → Prop} {part : Scan α}
  {c c' d d' : Cursor}

/-- A list is read by itself up to its closing bracket. -/
theorem AlonePart.separated (h : AlonePart close V part) (closes : isCloser close) {as : List α}
    (beneath : Beneath tail c d) (read : separated part comma c = .ok as c')
    (leads : Leads tail (skipSpace c')) (closed : (skipSpace c').rest.head? = some close) :
    Echoes tail (List.Forall₂ V) c' as (separated part comma d) := by
  have solid := solid_of_isCloser closes
  have ended {c d : Cursor} (beneath : Beneath tail c d)
      (closed : (skipSpace c).rest.head? = some close) : Scan.separated part comma d = .ok [] d :=
    separated_of_fails (h.stuck (beneath.skip.head_of_solid solid closed))
  have inside {c d : Cursor} (beneath : Beneath tail c d) : ¬d.atEnd := by
    rcases beneath with ⟨s, x, _, _, split, _⟩
    rw [Cursor.atEnd, split]
    simp
  -- a comma before the closing bracket is read on both sides
  have further {c d c₁ : Cursor} {a : α} (beneath : Beneath tail c d) (first : part c = .ok a c₁)
      (comma : c₁.rest.head? = some ',') (leads : Leads tail (c₁.advance 1)) :
      ∃ b d₁, part d = .ok b d₁ ∧ V a b ∧ expect [','] d₁ = .ok [','] (d₁.advance 1) ∧
        (d₁.advance 1).rest.length < d.rest.length ∧
        Beneath tail (c₁.advance 1) (d₁.advance 1) := by
    have beyond := (Cursor.Onward.advance comma (by decide)).1
    rcases h.ok beneath first (.of_head (leads.of_reaches beyond) comma (.inl rfl)) with
      ⟨b, d₁, read, values, beneath₁⟩
    have head := beneath₁.head_of_solid (by decide) comma
    refine ⟨b, d₁, read, values, expect_of_head head, ?_, ?_⟩
    · have shorter := (h.forward read).length_le
      rcases List.head?_eq_some_iff.1 head with ⟨t, split⟩
      rw [Cursor.advance, split]
      rw [split] at shorter
      exact shorter
    · exact (Alongside.advance beneath₁ (by decide) comma).beneath leads
  fun_induction Scan.separated part comma c generalizing as c' d with
  | case1 c =>
      cases read
      exact ⟨[], d, ended beneath closed, .nil, beneath⟩
  | case2 c =>
      cases read
      exact ⟨[], d, ended beneath closed, .nil, beneath⟩
  | case3 c _ a c₁ first =>
      cases read
      have awaits := (Awaits.of_head leads closed (.inr closes)).of_skipSpace
      rcases h.ok beneath first awaits with ⟨b, d₁, read, values, beneath₁⟩
      have last := beneath₁.skip.head_of_solid solid closed
      have other : d₁.rest.head? ≠ some ',' := by
        intro comma
        rw [skipSpace_of_solid comma (by decide), comma] at last
        cases last
        cases closes
      rcases fails_expect other with ⟨e, f, failed⟩
      exact ⟨[b], d₁, separated_of_last (inside beneath) read failed, .cons values .nil, beneath₁⟩
  | case4 c _ a c₁ first _ c₂ apart _ as c₃ tail' ih =>
      cases read
      rcases expect_eq_ok.1 apart with ⟨comma, _, rfl⟩
      have ahead := forward_separated h.forward forward_comma tail'
      have leads' := leads.of_reaches (ahead.trans (reaches_skipSpace _))
      rcases further beneath first comma leads' with ⟨b, d₁, read, values, apart', shorter, beneath₂⟩
      rcases ih beneath₂ tail' leads closed with ⟨bs, d₃, rest, more, beneath₃⟩
      exact ⟨b :: bs, d₃, separated_of_more (inside beneath) read apart' shorter rest,
        .cons values more, beneath₃⟩
  | case5 => cases read
  | case6 c _ a c₁ first _ c₂ apart longer =>
      rcases expect_eq_ok.1 apart with ⟨comma, _, rfl⟩
      have shorter := (h.forward first).length_le
      rcases List.head?_eq_some_iff.1 comma with ⟨t, split⟩
      rw [split] at shorter
      rw [Cursor.advance, split] at longer
      exact absurd shorter longer

theorem fails_item_of_stop {stops : Char → Bool} {inner : Deeper} {x : Char}
    (head : c.rest.head? = some x) (stop : stops x) (among : x ∈ [',', '\x7d', ']', '=']) :
    (item stops inner c).Fails := by
  apply fails_firstOf
  have other (y : Char) (outside : y ∉ [',', '\x7d', ']', '=']) : x ≠ y := by
    rintro rfl
    exact outside among
  have noQuote : ¬isQuote x := by
    rw [isQuote_iff]
    rintro (rfl | rfl) <;> exact absurd among (by decide)
  intro t member
  simp only [List.mem_cons, List.not_mem_nil, or_false] at member
  rcases member with rfl | rfl | rfl | rfl | rfl
  · exact fails_node_of_head (head_ne head (other _ (by decide)))
  · exact fails_node_of_head (head_ne head (other _ (by decide)))
  · exact fails_string_of_head head noQuote
  · exact fails_node_of_head (head_ne head (other _ (by decide)))
  · exact fails_word_of_head head stop

theorem rest_skipSpace (noFeed : '\n' ∉ d.rest) : (skipSpace d).rest = d.rest.dropWhile isBlank := by
  have free : Continuation.rest? (d.skipWhile isBlank).rest = none := by
    apply rest?_of_feed_not_mem
    rw [Cursor.skipWhile_rest]
    exact fun member => noFeed ((List.dropWhile_suffix isBlank).subset member)
  rw [skipSpace_eq, free]
  exact Cursor.skipWhile_rest isBlank d

theorem head_of_mark {g g' : Cursor} {mark : Char} (beneath : Beneath tail g g') (solid : Solid mark)
    (head : (skipSpace g).rest.head? = some mark) : ∀ y ∈ g'.rest.head?, isBlank y ∨ y = mark := by
  have ink := beneath.skip.head_of_solid solid head
  rw [rest_skipSpace beneath.feed_not_mem] at ink
  rcases head_of_ink ink with ⟨z, first, either⟩
  intro y same
  cases same.symm.trans first
  exact either

theorem fails_item_of_ready {inner : Deeper} (ready : Ready (skipSpace d).rest)
    (noFeed : '\n' ∉ d.rest) : (item endsValue inner (skipSpace d)).Fails := by
  rcases ready with ⟨y, head, ends⟩
  rw [rest_skipSpace noFeed, List.dropWhile_idempotent, ← rest_skipSpace noFeed] at head
  rcases ends with rfl | closes
  · exact fails_item_of_stop head rfl (by decide)
  · rw [isCloser_iff] at closes
    rcases closes with rfl | rfl
    · exact fails_item_of_stop head rfl (by decide)
    · exact fails_item_of_stop head rfl (by decide)

variable {v : Scan Node}

theorem alone_element (alone : Alone v) (forward : Forward v)
    (valued : ∃ inner, v = item endsValue inner) : AlonePart ']' Node.Alike (element v) where
  forward := forward_element forward
  ok := by
    intro tail c d c' n beneath read awaits
    rcases element_eq_ok.1 read with ⟨e, value, rfl⟩
    rcases alone beneath.skip value awaits.of_skipSpace with ⟨n', e', value', alike, after⟩
    exact ⟨n', skipSpace e', element_eq_ok.2 ⟨e', value', rfl⟩, alike, after.skip⟩
  stuck := by
    intro d closed
    rcases valued with ⟨inner, rfl⟩
    apply fails_bind_of_ok (d := skipSpace d) rfl
    exact fails_bind (fails_item_of_stop closed rfl (by decide))

theorem alone_argument (alone : Alone v) (forward : Forward v)
    (valued : ∃ inner, v = item endsValue inner) : AlonePart ']' (fun _ _ => True) (argument v) where
  forward := forward_argument forward
  ok := by
    intro tail c d c' u beneath read awaits
    rcases argument_eq_ok.1 read with ⟨m, e, r, f, name, equals, tried, rfl⟩
    have awaits := awaits.of_skipSpace
    have beyond := (Cursor.Onward.advance equals (by decide)).1
    have given := forward_attempt forward tried
    have leads₂ := (awaits.leads.of_reaches given).of_reaches (reaches_skipSpace _)
    have leads₁ := (leads₂.of_reaches beyond).of_reaches (reaches_skipSpace e)
    have stop {d' : Cursor} (beneath : Beneath tail e d') : ∀ y ∈ d'.rest.head?, endsValue y := by
      intro y first
      rcases head_of_mark beneath (by decide) equals y first with blank | rfl
      · exact endsValue_of_isBlank blank
      · rfl
    rcases word_echoes beneath.skip name leads₁ stop with ⟨m', e', name', _, beneath₁⟩
    have equals' := beneath₁.skip.head_of_solid (by decide) equals
    have beneath₂ := (Alongside.advance beneath₁.skip (by decide) equals).beneath leads₂
    have tried' : ∃ r' f', attempt v (skipSpace ((skipSpace e').advance 1)) = .ok r' f' ∧
        Beneath tail f f' := by
      rcases attempt_eq_ok.1 tried with ⟨n, value, rfl⟩ | ⟨_, rfl, rfl⟩
      · rcases alone beneath₂.skip value awaits with ⟨n', f', value', _, after⟩
        exact ⟨some n', f', attempt_eq_ok.2 (.inl ⟨n', value', rfl⟩), after⟩
      · rcases valued with ⟨inner, rfl⟩
        have none : (item endsValue inner (skipSpace ((skipSpace e').advance 1))).Fails :=
          fails_item_of_ready (awaits.ready beneath₂.skip) beneath₂.feed_not_mem
        exact ⟨_, _, attempt_eq_ok.2 (.inr ⟨none, rfl, rfl⟩), beneath₂.skip⟩
    rcases tried' with ⟨r', f', tried', after⟩
    exact ⟨(), skipSpace f', argument_eq_ok.2 ⟨m', e', r', f', name', equals', tried', rfl⟩, trivial,
      after.skip⟩
  stuck := by
    intro d closed
    apply fails_bind_of_ok (d := skipSpace d) rfl
    exact fails_bind (fails_word_of_head closed rfl)

/-! ## Keys -/

variable {inner : Deeper} {key : Node}

theorem pathClass_of_keyClass {y : Char} (listed : keyClass.has y) : pathClass.has y := by
  simp only [CharClass.has, keyClass, pathClass, Bool.bne_false] at listed ⊢
  rw [List.any_append, listed, Bool.true_or]

theorem not_endsValue_of_pathClass {y : Char} (listed : pathClass.has y) : endsValue y = false := by
  have outside : (',' :: [' ', '\t', '\r', '\n', '\x7b', '\x7d', '[', ']', '=']).all
      (!pathClass.has ·) := by decide
  by_contra ends
  rw [Bool.not_eq_false, endsValue, endsWord, Bool.or_comm, Bool.or_eq_true, beq_iff_eq,
    List.contains_iff_mem, ← List.mem_cons] at ends
  have other := List.all_eq_true.1 outside y ends
  rw [listed] at other
  cases other

theorem word_of_path {y : Char} {f : Cursor} {m : Node} (head : c.rest.head? = some y)
    (listed : pathClass.has y) (value : item endsValue inner c = .ok m f) :
    word endsValue c = .ok m f := by
  have other (x : Char) (outside : pathClass.has x = false) : y ≠ x := by
    rintro rfl
    rw [listed] at outside
    cases outside
  rcases item_cases value with object | array | string | selector | word
  · exact absurd (opens_of_object object) (head_ne head (other _ (by decide)))
  · exact absurd (opens_of_array array) (head_ne head (other _ (by decide)))
  · rcases opens_of_string string with ⟨x, quote, opens⟩
    rw [isQuote_iff] at opens
    rcases opens with rfl | rfl
    · exact absurd quote (head_ne head (other _ (by decide)))
    · exact absurd quote (head_ne head (other _ (by decide)))
  · rcases selector_eq_ok.1 selector with ⟨_, _, mark, _⟩
    exact absurd (by rw [mark]; rfl) (head_ne head (other '@' (by decide)))
  · exact word

theorem wordChars_of_path {s : List Char} (noFeed : '\n' ∉ s)
    (ends : ∀ z ∈ (s.dropWhile pathClass.has).head?, endsValue z) :
    wordChars endsValue s = s.takeWhile pathClass.has := by
  have inside : ∀ y ∈ s.takeWhile pathClass.has, (!endsValue y) = true := by
    intro y member
    rw [not_endsValue_of_pathClass (List.mem_takeWhile_imp member)]
    rfl
  rw [wordChars_of_feed_not_mem noFeed]
  nth_rewrite 1 [← List.takeWhile_append_dropWhile (p := pathClass.has) (l := s)]
  rw [List.takeWhile_append_of_pos inside]
  cases rest : s.dropWhile pathClass.has with
  | nil => simp
  | cons z u =>
      rw [rest] at ends
      rw [List.takeWhile_cons_of_neg (by simp [ends z rfl]), List.append_nil]

theorem not_ready_of_equals {q f : Cursor} {m : Node} (noFeed : '\n' ∉ q.rest)
    (equals : ((q.rest.dropWhile pathClass.has).dropWhile isBlank).head? = some '=')
    (value : item endsValue inner (skipSpace q) = .ok m f) : ¬Ready f.rest := by
  cases path : q.rest.takeWhile pathClass.has with
  | nil =>
      have split := List.takeWhile_append_dropWhile (p := pathClass.has) (l := q.rest)
      rw [path, List.nil_append] at split
      rw [split, ← rest_skipSpace noFeed] at equals
      have failed : (item endsValue inner (skipSpace q)).Fails :=
        fails_item_of_stop equals rfl (by decide)
      rcases failed with ⟨e, g, failed⟩
      rw [failed] at value
      cases value
  | cons y w =>
      have listed : pathClass.has y := List.mem_takeWhile_imp (path ▸ List.mem_cons_self)
      have head : q.rest.head? = some y := by
        rcases List.takeWhile_prefix (l := q.rest) pathClass.has with ⟨t, split⟩
        rw [← split, path]
        rfl
      rw [skipSpace_of_solid head (solid_of_path y listed)] at value
      rcases word_eq_ok.1 (word_of_path head listed value) with ⟨_, _, rfl, _⟩
      have ends : ∀ z ∈ (q.rest.dropWhile pathClass.has).head?, endsValue z := by
        rcases head_of_ink equals with ⟨z, after, stop⟩
        intro z' same
        cases after.symm.trans same
        rcases stop with blank | rfl
        · exact endsValue_of_isBlank blank
        · rfl
      have rest : (q.advance (wordChars endsValue q.rest).length).rest =
          q.rest.dropWhile pathClass.has := by
        rw [wordChars_of_path noFeed ends]
        exact Cursor.skipWhile_rest pathClass.has q
      rw [rest]
      rintro ⟨x, ink, ends⟩
      cases equals.symm.trans ink
      rcases ends with same | closes
      · cases same
      · cases closes

theorem fails_pathKey_of_value {m : Node} {g f : Cursor} (noFeed : '\n' ∉ d.rest)
    (name : run keyClass d = .ok key g) (colon : (skipSpace g).rest.head? = some ':')
    (value : item endsValue inner (skipSpace ((skipSpace g).advance 1)) = .ok m f)
    (ready : Ready f.rest) : (pathKey d).Fails := by
  cases path : pathKey d with
  | fail e h => exact ⟨e, h, rfl⟩
  | ok n h =>
      exfalso
      rcases pathKey_eq_ok.1 path with ⟨p, wide, equals, _⟩
      rcases run_eq_ok.1 wide with ⟨_, rfl, _⟩
      rcases run_eq_ok.1 name with ⟨_, rfl, _⟩
      have keys := List.takeWhile_append_dropWhile (p := keyClass.has) (l := d.rest)
      have bare : ∀ y ∈ d.rest.takeWhile keyClass.has, pathClass.has y := fun y member =>
        pathClass_of_keyClass (List.mem_takeWhile_imp member)
      have later {s : List Char} (suffix : s <:+ d.rest) : '\n' ∉ s := fun member =>
        noFeed (suffix.subset member)
      have afterPath := later (List.dropWhile_suffix pathClass.has)
      have afterKey := later (List.dropWhile_suffix keyClass.has)
      rw [rest_skipSpace (by rwa [Cursor.skipWhile_rest]), Cursor.skipWhile_rest, ← keys,
        List.dropWhile_append_of_pos bare] at equals
      have gap : (skipSpace (d.skipWhile keyClass.has)).rest =
          (d.rest.dropWhile keyClass.has).dropWhile isBlank := by
        rw [rest_skipSpace (by rwa [Cursor.skipWhile_rest]), Cursor.skipWhile_rest]
      rw [gap] at colon
      rcases head_of_ink colon with ⟨z, head, stop⟩
      rcases List.head?_eq_some_iff.1 head with ⟨t, split⟩
      rw [split] at equals colon gap afterKey
      by_cases blank : isBlank z
      · have outside : pathClass.has z = false := by
          rw [isBlank_iff] at blank
          rcases blank with rfl | rfl <;> decide
        rw [List.dropWhile_cons_of_neg (by simp [outside]), colon] at equals
        cases equals
      · rcases stop with yes | rfl
        · exact blank yes
        · rw [List.dropWhile_cons_of_pos (by decide)] at equals
          rw [List.dropWhile_cons_of_neg (by decide)] at gap
          have rest : ((skipSpace (d.skipWhile keyClass.has)).advance 1).rest = t := by
            rw [Cursor.advance, gap]
            rfl
          refine not_ready_of_equals ?_ ?_ value ready
          · rw [rest]
            exact fun member => afterKey (List.mem_cons_of_mem _ member)
          · rwa [rest]

theorem pathRun_of_keyRun {g : Cursor} (name : run keyClass d = .ok key g)
    (ends : ∀ y ∈ g.rest.head?, ¬pathClass.has y) : run pathClass d = .ok key g := by
  rcases run_eq_ok.1 name with ⟨some', rfl, rfl⟩
  have split := List.takeWhile_append_dropWhile (p := keyClass.has) (l := d.rest)
  have bare : ∀ y ∈ d.rest.takeWhile keyClass.has, pathClass.has y := fun y member =>
    pathClass_of_keyClass (List.mem_takeWhile_imp member)
  have same : d.rest.takeWhile pathClass.has = d.rest.takeWhile keyClass.has := by
    rw [Cursor.skipWhile_rest] at ends
    nth_rewrite 1 [← split]
    rw [List.takeWhile_append_of_pos bare]
    cases rest : d.rest.dropWhile keyClass.has with
    | nil => simp
    | cons y s =>
        rw [rest] at ends
        rw [List.takeWhile_cons_of_neg (ends y rfl), List.append_nil]
  have there : d.skipWhile pathClass.has = d.skipWhile keyClass.has := by
    rw [Cursor.skipWhile, Cursor.skipWhile, same]
  exact run_eq_ok.2 ⟨same ▸ some', there.symm, rfl⟩

theorem run_mark_echoes {k : CharClass} {g : Cursor} {mark : Char}
    (solid : ∀ y, k.has y → Solid y) (beneath : Beneath tail c d) (name : run k c = .ok key g)
    (head : (skipSpace g).rest.head? = some mark) (marks : Solid mark) (other : ¬k.has mark)
    (leads : Leads tail ((skipSpace g).advance 1)) :
    ∃ key' g', run k d = .ok key' g' ∧ key.Alike key' ∧ (skipSpace g').rest.head? = some mark ∧
      Beneath tail ((skipSpace g).advance 1) ((skipSpace g').advance 1) ∧
      ∀ y ∈ g'.rest.head?, isBlank y ∨ y = mark := by
  have beyond := (Cursor.Onward.advance head marks).1
  have leads₁ := (leads.of_reaches beyond).of_reaches (reaches_skipSpace g)
  have ends {g' : Cursor} (after : Beneath tail g g') : ∀ y ∈ g'.rest.head?, ¬k.has y := by
    intro y first listed
    rcases head_of_mark after marks head y first with blank | rfl
    · rw [(solid y listed).not_blank] at blank
      cases blank
    · exact other listed
  rcases run_echoes solid beneath name leads₁ ends with ⟨key', g', name', alike, after⟩
  have past := (Alongside.advance after.skip marks head).beneath leads
  exact ⟨key', g', name', alike, after.skip.head_of_solid marks head, past,
    head_of_mark after marks head⟩

/-- A key is read by itself where a value follows it. -/
theorem key_echoes {e : Cursor} (beneath : Beneath tail c d)
    (read : firstOf [pathKey, plainKey] c = .ok key e) (leads : Leads tail e)
    (follows : ∀ {e'}, Beneath tail e e' → ∃ m f,
      item endsValue inner (skipSpace e') = .ok m f ∧ Ready f.rest) :
    Echoes tail Node.Alike e key (firstOf [pathKey, plainKey] d) := by
  rcases firstOf_pair read with path | plain
  · rcases pathKey_eq_ok.1 path with ⟨g, name, head, rfl⟩
    rcases run_mark_echoes solid_of_path beneath name head (by decide) (by decide) leads with
      ⟨key', g', name', alike, head', after, _⟩
    exact ⟨key', _, firstOf_of_ok (pathKey_eq_ok.2 ⟨g', name', head', rfl⟩), alike, after⟩
  · rcases plainKey_eq_ok.1 plain with ⟨g, either, mark, marks, head, rfl⟩
    rcases firstOf_pair either with name | quoted
    · have other : ¬keyClass.has mark := by rcases marks with rfl | rfl <;> decide
      rcases run_mark_echoes solid_of_key beneath name head marks.solid other leads with
        ⟨key', g', name', alike, head', after, ends⟩
      rcases marks with rfl | rfl
      · rcases follows after with ⟨m, f, value, ready⟩
        have noPath := fails_pathKey_of_value beneath.feed_not_mem name' head' value ready
        have plain := plainKey_eq_ok.2 ⟨g', firstOf_of_ok name', ':', .inl rfl, head', rfl⟩
        exact ⟨key', _, (firstOf_of_fails noPath).trans (firstOf_of_ok plain), alike, after⟩
      · have outside : ∀ y ∈ g'.rest.head?, ¬pathClass.has y := by
          intro y first
          rcases ends y first with blank | rfl
          · rw [isBlank_iff] at blank
            rcases blank with rfl | rfl <;> decide
          · decide
        have path := pathKey_eq_ok.2 ⟨g', pathRun_of_keyRun name' outside, head', rfl⟩
        exact ⟨key', _, firstOf_of_ok path, alike, after⟩
    · have beyond := (Cursor.Onward.advance head marks.solid).1
      have leads₁ := (leads.of_reaches beyond).of_reaches (reaches_skipSpace g)
      rcases string_alongside beneath quoted (.inr leads₁) with ⟨key', g', name', alike, after⟩
      have after := after.beneath leads₁
      have head' := after.skip.head_of_solid marks.solid head
      rcases opens_of_string name' with ⟨x, quote, opens⟩
      have noRun (k : CharClass) (double : ¬k.has '"') (single : ¬k.has '\'') :
          (run k d).Fails := by
        apply fails_run_of_head quote
        rw [isQuote_iff] at opens
        rcases opens with rfl | rfl
        · exact double
        · exact single
      have noPath : (pathKey d).Fails := fails_bind (noRun pathClass (by decide) (by decide))
      have either' : firstOf [run keyClass, string] d = .ok key' g' :=
        (firstOf_of_fails (noRun keyClass (by decide) (by decide))).trans (firstOf_of_ok name')
      have plain := plainKey_eq_ok.2 ⟨g', either', mark, marks, head', rfl⟩
      refine ⟨key', _, (firstOf_of_fails noPath).trans (firstOf_of_ok plain), alike, ?_⟩
      exact (Alongside.advance after.skip marks.solid head).beneath leads

theorem alone_entry {v : Scan Node} (alone : Alone v) (forward : Forward v)
    (valued : ∃ inner, v = item endsValue inner) : AlonePart '\x7d' AllAlike (entry v) where
  forward := forward_entry forward
  ok := by
    intro tail c d c' ns beneath read awaits
    rcases entry_eq_ok.1 read with ⟨key, e, m, f, name, value, rfl, rfl⟩
    have awaits := awaits.of_skipSpace
    have leads := (awaits.leads.of_reaches (forward value)).of_reaches (reaches_skipSpace e)
    have later {e' : Cursor} (after : Beneath tail e e') := alone after.skip value awaits
    rcases valued with ⟨inner, rfl⟩
    have follows {e' : Cursor} (after : Beneath tail e e') :
        ∃ m f, item endsValue inner (skipSpace e') = .ok m f ∧ Ready f.rest := by
      rcases later after with ⟨m', f', value', _, beneath₂⟩
      exact ⟨m', f', value', awaits.ready beneath₂⟩
    rcases key_echoes beneath.skip name leads follows with ⟨key', e', name', alike, after⟩
    rcases later after with ⟨m', f', value', alike', beneath₂⟩
    refine ⟨[key', m'], skipSpace f', ?_, ?_, beneath₂.skip⟩
    · exact entry_eq_ok.2 ⟨key', e', m', f', name', value', rfl, rfl⟩
    · rw [AllAlike, List.map_cons, List.map_cons, List.map_cons, List.map_cons, alike, alike']
  stuck := by
    intro d closed
    apply fails_bind_of_ok (d := skipSpace d) rfl
    exact fails_bind (Matches.fails_key_of_close closed)

end

end ChatPreview
