import ChatPreview.Proofs.Message.Whole
/-!
A message in a command: it is previewed as it would be alone.
-/
namespace ChatPreview
open Text Scan Token

/-! ## The words before a message -/

def inWord (x : Char) : Bool := x.isAlphanum || "_.:/-".toList.contains x

theorem inWord_bounds {x : Char} (inside : inWord x) : 33 ≤ x.toNat ∧ x.toNat < 127 := by
  delta inWord Char.isAlphanum Char.isAlpha Char.isUpper Char.isLower Char.isDigit at inside
  simp only [Bool.or_eq_true, Bool.and_eq_true, decide_eq_true_eq, List.contains_iff_mem,
    UInt32.le_iff_toNat_le, ge_iff_le] at inside
  rcases inside with ((⟨low, high⟩ | ⟨low, high⟩) | ⟨low, high⟩) | listed
  · exact ⟨Nat.le_trans (by decide) low, Nat.lt_of_le_of_lt high (by decide)⟩
  · exact ⟨Nat.le_trans (by decide) low, Nat.lt_of_le_of_lt high (by decide)⟩
  · exact ⟨Nat.le_trans (by decide) low, Nat.lt_of_le_of_lt high (by decide)⟩
  · have each : "_.:/-".toList.all fun x => 33 ≤ x.toNat && x.toNat < 127 := by decide
    simpa using List.all_eq_true.1 each x listed

theorem not_isSpace_of_inWord {x : Char} (inside : inWord x) : isSpace x = false := by
  rcases inWord_bounds inside with ⟨low, high⟩
  exact not_isSpace_of_visible low high

theorem bare_inWord : Bare endsWord inWord := by
  intro x inside
  refine ⟨?_, ?_, ?_⟩
  · by_contra ends
    rw [Bool.not_eq_false, endsWord, List.contains_iff_mem] at ends
    simp only [List.mem_cons, List.not_mem_nil, or_false] at ends
    rcases ends with rfl | rfl | rfl | rfl | rfl | rfl | rfl | rfl | rfl <;> cases inside
  · by_contra quote
    rw [Bool.not_eq_false, isQuote_iff] at quote
    rcases quote with rfl | rfl <;> cases inside
  · rintro rfl
    cases inside

theorem solid_of_inWord {x : Char} (inside : inWord x) : Solid x := by
  intro listed
  simp only [List.mem_cons, List.not_mem_nil, or_false] at listed
  rcases listed with rfl | rfl | rfl | rfl | rfl <;> cases inside

/-- What stands before a message: a word, or a selector without arguments. -/
inductive Lead where
  | word (text : List Char) (nonempty : text ≠ []) (all : ∀ x ∈ text, inWord x)
  | selector (letter : Char) (target : letter ∈ "aeprsn".toList)

namespace Lead

def kind : Lead → Kind
  | word .. => .literal
  | selector .. => .selector

def text : Lead → List Char
  | word text .. => text
  | selector letter _ => ['@', letter]

def fixed (s : String) (valid : (!s.toList.isEmpty && s.toList.all inWord) = true) : Lead :=
  .word s.toList (by simp_all) (by simp_all)

theorem head (lead : Lead) : ∃ x t, lead.text = x :: t ∧ Solid x ∧ isSpace x = false ∧
    x ≠ '#' ∧ x ≠ '$' := by
  cases lead with
  | word w nonempty all =>
      cases w with
      | nil => exact absurd rfl nonempty
      | cons x t =>
          have inside := all x List.mem_cons_self
          refine ⟨x, t, rfl, solid_of_inWord inside, not_isSpace_of_inWord inside, ?_, ?_⟩
          · rintro rfl
            cases inside
          · rintro rfl
            cases inside
  | selector letter target => exact ⟨'@', _, rfl, by decide, rfl, by decide, by decide⟩

theorem solid (lead : Lead) : ∀ x ∈ lead.text, Solid x := by
  intro x member
  cases lead with
  | word w nonempty all => exact solid_of_inWord (all x member)
  | selector letter target =>
      have each : "aeprsn".toList.all fun x => decide (Solid x) := by decide
      rcases List.mem_cons.1 member with rfl | last
      · decide
      · rw [List.mem_singleton.1 last]
        exact of_decide_eq_true (List.all_eq_true.1 each letter target)

theorem selector_of_space {inner : Deeper} {letter : Char}
    (target : letter ∈ "aeprsn".toList) (p : Nat) (s : List Char) :
    Token.selector inner ⟨p, '@' :: letter :: ' ' :: s⟩ =
      .ok (.between .selector ⟨p, '@' :: letter :: ' ' :: s⟩ ⟨p + 2, ' ' :: s⟩ [])
        ⟨p + 2, ' ' :: s⟩ := by
  have listed : selectorClass.has letter := by
    have each : "aeprsn".toList.all selectorClass.has := by decide
    exact List.all_eq_true.1 each letter target
  have read : member selectorClass ⟨p + 1, letter :: ' ' :: s⟩ = .ok [letter] ⟨p + 2, ' ' :: s⟩ := by
    simp only [member, listed, if_true]
    rfl
  apply node_of_ok
  rw [bind_of_ok (expect_of_head rfl)]
  exact bind_of_ok read

theorem item_of_selector {inner : Deeper} {letter : Char}
    (target : letter ∈ "aeprsn".toList) (p : Nat) (s : List Char) :
    item endsWord inner ⟨p, '@' :: letter :: ' ' :: s⟩ =
      .ok (.between .selector ⟨p, '@' :: letter :: ' ' :: s⟩ ⟨p + 2, ' ' :: s⟩ [])
        ⟨p + 2, ' ' :: s⟩ := by
  have others : ∀ t ∈ [object inner, array inner, string],
      (t ⟨p, '@' :: letter :: ' ' :: s⟩).Fails := by
    intro t member
    simp only [List.mem_cons, List.not_mem_nil, or_false] at member
    rcases member with rfl | rfl | rfl
    · exact fails_node_of_head (by simp)
    · exact fails_node_of_head (by simp)
    · exact fails_string_of_head rfl (by decide)
  exact (firstOf_append _ others).trans (firstOf_of_ok (selector_of_space target p s))

theorem top (lead : Lead) (limit : Int) (p : Nat) (s : List Char) :
    Token.top limit ⟨p, lead.text ++ ' ' :: s⟩ =
      .ok ⟨lead.kind, lead.text, p, []⟩ ⟨p + lead.text.length, ' ' :: s⟩ := by
  have text : (⟨p, lead.text ++ ' ' :: s⟩ : Cursor).upTo ⟨p + lead.text.length, ' ' :: s⟩ =
      lead.text := by
    rw [Cursor.upTo, Nat.add_sub_cancel_left, List.take_left]
  have noFeed : '\n' ∉ lead.text := fun member => lead.solid '\n' member (by simp)
  have node : Node.between lead.kind ⟨p, lead.text ++ ' ' :: s⟩ ⟨p + lead.text.length, ' ' :: s⟩ [] =
      ⟨lead.kind, lead.text, p, []⟩ := by
    rw [Node.between, text, joinLines_of_feed_not_mem noFeed]
  rw [← node]
  cases lead with
  | word w nonempty all =>
      have run : Runs inWord ⟨p, w ++ ' ' :: s⟩ ⟨p + w.length, ' ' :: s⟩ := ⟨w, rfl, rfl, all⟩
      have further : p < p + w.length := Nat.lt_add_of_pos_right (List.length_pos_iff.2 nonempty)
      exact top_of_ok (item_of_run bare_inWord rfl rfl (by decide) run further rfl)
  | selector letter target => exact top_of_ok (item_of_selector target p s)

end Lead

def leading (words : List (List Char)) : List Char := words.flatMap (· ++ [' '])

theorem leading_cons (w : List Char) (words : List (List Char)) (s : List Char) :
    leading (w :: words) ++ s = w ++ ' ' :: (leading words ++ s) := by
  simp [leading]

theorem leading_head {leads : List Lead} (nonempty : leads ≠ []) (s : List Char) :
    ∃ x t, leading (leads.map Lead.text) ++ s = x :: t ∧ Solid x ∧ isSpace x = false ∧
      x ≠ '#' ∧ x ≠ '$' := by
  cases leads with
  | nil => exact absurd rfl nonempty
  | cons lead leads =>
      rcases lead.head with ⟨x, t, word, rest⟩
      rw [List.map_cons, leading_cons, word]
      exact ⟨x, _, rfl, rest⟩

def leadNodes : Nat → List Lead → List Node
  | _, [] => []
  | p, lead :: leads => ⟨lead.kind, lead.text, p, []⟩ :: leadNodes (p + lead.text.length + 1) leads

theorem length_leadNodes (p : Nat) (leads : List Lead) :
    (leadNodes p leads).length = leads.length := by
  induction leads generalizing p with
  | nil => rfl
  | cons lead leads ih => rw [leadNodes, List.length_cons, List.length_cons, ih]

theorem plain_lead (lead : Lead) {s : List Char} (plain : Plain s) :
    Plain (lead.text ++ ' ' :: s) := by
  intro x member
  rcases List.mem_append.1 member with here | later
  · have solid := lead.solid x here
    refine ⟨?_, ?_, ?_⟩ <;> (rintro rfl; exact solid (by simp))
  · rcases List.mem_cons.1 later with rfl | later
    · decide
    · exact plain x later

theorem plain_leading (leads : List Lead) {s : List Char} (plain : Plain s) :
    Plain (leading (leads.map Lead.text) ++ s) := by
  induction leads with
  | nil => exact plain
  | cons lead leads ih =>
      rw [List.map_cons, leading_cons]
      exact plain_lead lead ih

namespace Command

theorem readNodes_congr (limit : Int) {c d : Cursor} (same : skipSpace c = skipSpace d) :
    readNodes limit c = readNodes limit d := by
  by_cases ended : (skipSpace c).atLineEnd
  · rw [readNodes_of_end ended, readNodes_of_end (same ▸ ended), same]
  · have ended' : ¬(skipSpace d).atLineEnd := same ▸ ended
    cases read : Token.top limit (skipSpace c) with
    | ok n e => rw [readNodes_of_ok ended read, readNodes_of_ok ended' (same ▸ read)]
    | fail f e => rw [readNodes_of_fail ended read, readNodes_of_fail ended' (same ▸ read)]

theorem readNodes_lead (limit : Int) (p : Nat) (lead : Lead) {s : List Char}
    {body : Body} (rest : readNodes limit ⟨p + lead.text.length + 1, s⟩ = body) :
    readNodes limit ⟨p, lead.text ++ ' ' :: s⟩ =
      { body with nodes := ⟨lead.kind, lead.text, p, []⟩ :: body.nodes } := by
  rcases lead.head with ⟨x, t, word, solid, _⟩
  have stays : skipSpace ⟨p, lead.text ++ ' ' :: s⟩ = ⟨p, lead.text ++ ' ' :: s⟩ := by
    apply skipSpace_of_head (by rw [word]; rfl) solid.not_blank
    rw [word]
    exact starts_of_solid solid
  have inside : ¬(skipSpace ⟨p, lead.text ++ ' ' :: s⟩).atLineEnd := by
    rw [stays, word]
    exact solid_head_of_inside rfl solid
  have read : Token.top limit (skipSpace ⟨p, lead.text ++ ' ' :: s⟩) =
      .ok ⟨lead.kind, lead.text, p, []⟩ ⟨p + lead.text.length, ' ' :: s⟩ := by
    rw [stays]
    exact lead.top limit p s
  have space := skipSpace_blank (x := ' ') rfl (p + lead.text.length) s
  have after : readNodes limit ⟨p + lead.text.length, ' ' :: s⟩ = body := by
    rw [readNodes_congr limit space, rest]
  rw [readNodes_of_ok inside read, after]

/-- The words are the first nodes, and the rest is read from where they end. -/
theorem readNodes_leading (limit : Int) (p : Nat) (leads : List Lead) {s : List Char}
    {body : Body}
    (rest : readNodes limit ⟨p + (leading (leads.map Lead.text)).length, s⟩ = body) :
    readNodes limit ⟨p, leading (leads.map Lead.text) ++ s⟩ =
      { body with nodes := leadNodes p leads ++ body.nodes } := by
  induction leads generalizing p with
  | nil => exact rest
  | cons lead leads ih =>
      rw [List.map_cons, leading_cons]
      have length : (leading ((lead :: leads).map Lead.text)).length =
          lead.text.length + 1 + (leading (leads.map Lead.text)).length := by
        rw [List.map_cons, leading, List.flatMap_cons, List.length_append, List.length_append]
        rfl
      rw [length, ← Nat.add_assoc, ← Nat.add_assoc] at rest
      exact readNodes_lead limit p lead (ih (p + lead.text.length + 1) rest)

end Command

/-! ## Previews -/

theorem Text.trim_of_head {s t : List Char} {x : Char} (starts : s = x :: t)
    (first : isSpace x = false) : trim s = trimEnd s := by
  rw [trim, trimStart, starts, List.dropWhile_cons_of_neg (by simp [first])]

theorem Text.trimEnd_of_last {s t : List Char} {y : Char} (ends : s = t ++ [y])
    (last : isSpace y = false) : trimEnd s = s := by
  have reversed : s.reverse = y :: t.reverse := by
    rw [ends, List.reverse_append, List.reverse_singleton, List.singleton_append]
  calc
    trimEnd s = (s.reverse.dropWhile isSpace).reverse := rfl
    _ = s.reverse.reverse := by rw [reversed, List.dropWhile_cons_of_neg (by simp [last])]
    _ = s := List.reverse_reverse s

theorem Text.trimEnd_append {s t : List Char} (spaces : ∀ x ∈ t, isSpace x) :
    trimEnd (s ++ t) = trimEnd s := by
  rw [trimEnd, dropEndWhile, List.reverse_append, List.dropWhile_append_of_pos]
  · rfl
  · intro x member
    exact spaces x (List.mem_reverse.1 member)

theorem Command.readLine_of_head (limit : Int) {t u : List Char} {x : Char} (starts : t = x :: u)
    (first : isSpace x = false) (noDollar : x ≠ '$')
    (spaces : ∀ y ∈ (readNodes limit ⟨0, t⟩).next.rest, isSpace y) :
    ∃ c, (readLine limit ⟨0, t⟩).1 = c ∧ c.raw = trimEnd t ∧ c.position = 0 ∧
      c.nodes = (readNodes limit ⟨0, t⟩).nodes ∧ c.error = (readNodes limit ⟨0, t⟩).error := by
  have mark : pastDollar ⟨0, t⟩ = ⟨0, t⟩ := by
    rw [pastDollar, starts, List.head?_cons, if_neg fun same => noDollar (Option.some.inj same)]
  have split := (readNodes_spec limit ⟨0, t⟩).1.upTo_append
  have whole : trimEnd ((⟨0, t⟩ : Cursor).upTo (readNodes limit ⟨0, t⟩).next) = trimEnd t := by
    rw [← Text.trimEnd_append spaces, split]
  have head : ∃ v, (⟨0, t⟩ : Cursor).upTo (readNodes limit ⟨0, t⟩).next = x :: v := by
    cases text : (⟨0, t⟩ : Cursor).upTo (readNodes limit ⟨0, t⟩).next with
    | nil =>
        rw [text, List.nil_append] at split
        have space := spaces x (by rw [split, starts]; exact List.mem_cons_self)
        rw [first] at space
        cases space
    | cons y v =>
        rw [text] at split
        exact ⟨v, by rw [(List.cons.inj (split.trans starts)).1]⟩
  rcases head with ⟨v, text⟩
  have raw : trim (x :: v) = trimEnd t := by rw [Text.trim_of_head rfl first, ← text, whole]
  have lead : (x :: v).takeWhile isSpace = [] := by
    rw [List.takeWhile_cons_of_neg (by simp [first])]
  refine ⟨_, rfl, ?_⟩
  simp only [readLine, mark, text, raw, lead, List.length_nil, ite_self, and_self]

theorem commandsWithin_message (limit : Int) {leads : List Lead} (nonempty : leads ≠ [])
    {s t : List Char} (message : IsMessage s) (text : t = leading (leads.map Lead.text) ++ s) :
    ∃ c body, commandsWithin limit t = [c] ∧ c.raw = t ∧ c.position = 0 ∧
      c.nodes = leadNodes 0 leads ++ body.nodes ∧ c.error = body.error ∧
      Holds s (leading (leads.map Lead.text)).length body := by
  have plain : Plain t := text ▸ plain_leading leads message.plain
  have joined := joined_of_feed_not_mem plain.feed_not_mem
  have held := message.holds limit (leading (leads.map Lead.text)).length
  generalize rest : Command.readNodes limit ⟨_, s⟩ = body at held
  rw [← Nat.zero_add (leading _).length] at rest
  have nodes := Command.readNodes_leading limit 0 leads rest
  rw [← text] at nodes
  rcases leading_head nonempty s with ⟨x, u, split, solid, ink, noHash, noDollar⟩
  rw [← text] at split
  rcases message.last with ⟨v, y, ends, ink'⟩
  rw [ends, ← List.append_assoc] at text
  have finished : (Command.readNodes limit ⟨0, t⟩).next.rest = [] := by
    have spec := Command.readNodes_spec limit ⟨0, t⟩
    have tail := plain.of_reaches spec.1
    exact (joined_of_feed_not_mem tail.feed_not_mem).atLineEnd spec.2
  rcases Command.readLine_of_head limit split ink noDollar (by simp [finished]) with
    ⟨c, read, raw, position, nodes', error⟩
  rw [Text.trimEnd_of_last text ink'] at raw
  refine ⟨c, body, ?_, raw, position, ?_, ?_, held⟩
  · rw [← read]
    subst split
    have noBlanks : ∀ y ∈ ([] : List Char), isBlank y := by simp
    exact commandsWithin_of_joined limit noBlanks solid.not_blank noHash joined
  · rw [nodes', nodes]
  · rw [error, nodes]

/-- Whatever node of these kinds comes after the words, it is the message of the command. -/
def Carries (catalog : Template.Catalog) (leads : List Lead) : Prop :=
  ∀ kind content position children, kind = .array ∨ kind = .object ∨ kind = .string →
    ∃ m, catalog.match? true (leadNodes 0 leads ++ [⟨kind, content, position, children⟩]) = some m ∧
      m.message? = some content

namespace Preview

theorem opens_kind {s : List Char} {kind : Kind} (opened : opens s = some kind) :
    kind = .array ∨ kind = .object ∨ kind = .string := by
  unfold opens at opened
  split at opened <;> cases opened <;> decide

theorem tailFrom_append (s t : List Char) : tailFrom (s ++ t) s.length = t := by
  have nonneg : ¬(s.length : Int) < 0 := by omega
  rw [tailFrom, if_neg nonneg, Int.toNat_natCast, List.drop_left]

theorem subject_of_read {catalog : Template.Catalog} {leads : List Lead}
    (carries : Carries catalog leads) {c : Command} {n : Node}
    (kind : n.kind = .array ∨ n.kind = .object ∨ n.kind = .string)
    (nodes : c.nodes = leadNodes 0 leads ++ [n]) (error : c.error = none) :
    subject catalog c = some (.message n.content) := by
  rcases n with ⟨kind', text, place, children⟩
  rcases carries kind' text place children kind with ⟨m, found, shown⟩
  rw [subject, error]
  simp only
  rw [messageOf, nodes, found, Option.bind_some, shown, Option.map_some]

theorem subject_of_holds {catalog : Template.Catalog} {leads : List Lead}
    (carries : Carries catalog leads) {before s : List Char} {c : Command} {body : Command.Body}
    (opened : ∃ kind, opens s = some kind) (raw : c.raw = before ++ s) (position : c.position = 0)
    (nodes : c.nodes = leadNodes 0 leads ++ body.nodes) (error : c.error = body.error)
    (holds : Holds s before.length body) : subject catalog c = some (.message s) := by
  cases holds with
  | read kind content =>
      rw [← content]
      exact subject_of_read carries (opens_kind kind) nodes error
  | failed offset =>
      rcases opened with ⟨kind, opened⟩
      rename_i e next
      have tail : tailFrom c.raw (e.offset - c.position) = s := by
        rw [offset, position, raw]
        simpa using tailFrom_append before s
      rcases carries kind s e.offset.toNat [] (opens_kind opened) with ⟨m, found, text⟩
      have whole : recovered? c e = some (leadNodes 0 leads ++ [⟨kind, s, e.offset.toNat, []⟩]) := by
        rw [recovered?, tail, opened, nodes, List.append_nil]
        rfl
      rw [subject, error]
      simp only
      rw [whole, Option.bind_some, found]
      simp only
      rw [text]
      rfl

theorem ofText_of_single {host : Host} {catalog : Template.Catalog} {source raw : List Char}
    {c : Command}
    (one : commands source = [c]) (filled : c.isBlank = false)
    (found : subject catalog c = some (.message raw)) :
    ofText host catalog source = some <$> ofMessage host raw := by
  rw [ofText, one, List.find?_singleton, filled]
  simp only [Bool.not_false, if_true]
  rw [ofCommand, found]
  rfl

/-- With such words before it, a message is previewed as it is alone. -/
theorem ofText_leading {host : Host} {catalog : Template.Catalog} (leads : List Lead)
    (nonempty : leads ≠ [])
    (carries : Carries catalog leads) {s : List Char} (message : IsMessage s) :
    ofText host catalog (leading (leads.map Lead.text) ++ s) = some <$> ofMessage host s := by
  rcases commandsWithin_message nestingLimit nonempty message rfl with
    ⟨c, body, one, raw, position, nodes, error, holds⟩
  rcases message.head with ⟨x, t, split, _, _, opened⟩
  have found := subject_of_holds carries opened raw position nodes error holds
  have filled : c.isBlank = false := by
    rw [Command.isBlank, raw, split, List.isEmpty_eq_false_iff]
    simp
  exact ofText_of_single one filled found

/-- The words before the message in each command of the game that carries one. -/
def carriers (target name : List Char) : List (List (List Char)) :=
  [["tellraw".toList, target], ["title".toList, target, name],
   ["bossbar".toList, "add".toList, name], ["bossbar".toList, "set".toList, name, "name".toList]]

/-- A message in a command of the game is previewed as it is alone, nested as deeply as it may be:
what the limit of a command leaves unread is recovered. -/
theorem ofText_message {host : Host} {s name : List Char} {letter : Char} (message : IsMessage s)
    (target : letter ∈ "aeprsn".toList) (nonempty : name ≠ []) (all : ∀ x ∈ name, inWord x) :
    ∀ words ∈ carriers ['@', letter] name,
      ofText host Template.standard (leading words ++ s) = some <$> ofMessage host s := by
  intro words listed
  simp only [carriers, List.mem_cons, List.not_mem_nil, or_false] at listed
  rcases listed with rfl | rfl | rfl | rfl
  · apply ofText_leading [.fixed "tellraw" (by decide), .selector letter target] (by simp) _ message
    rintro kind content position children (rfl | rfl | rfl) <;> exact ⟨_, rfl, rfl⟩
  · apply ofText_leading [.fixed "title" (by decide), .selector letter target,
      .word name nonempty all] (by simp) _ message
    rintro kind content position children (rfl | rfl | rfl) <;> exact ⟨_, rfl, rfl⟩
  · apply ofText_leading [.fixed "bossbar" (by decide), .fixed "add" (by decide),
      .word name nonempty all] (by simp) _ message
    rintro kind content position children (rfl | rfl | rfl) <;> exact ⟨_, rfl, rfl⟩
  · apply ofText_leading [.fixed "bossbar" (by decide), .fixed "set" (by decide),
      .word name nonempty all, .fixed "name" (by decide)] (by simp) _ message
    rintro kind content position children (rfl | rfl | rfl) <;> exact ⟨_, rfl, rfl⟩

theorem ofText_message_escape : IsMessage ['"', '\\', '"', '"'] ∧
    ofText .standard Template.standard
        (leading ["bossbar".toList, "set".toList, "a:b".toList, "name".toList] ++
          ['"', '\\', '"', '"']) =
      some <$> ofMessage .standard ['"', '\\', '"', '"'] := by
  have read : Json.readString 0 1 ['\\', '"', '"'] = .ok ([.scalar '"'], ⟨4, []⟩) := by
    simp [Json.readString, Json.more, Json.readEscape, Json.escaped?, Except.map]
  have message : IsMessage ['"', '\\', '"', '"'] := by
    refine ⟨by simp [Plain], .inr (.inr rfl), by decide, 0, .string [.scalar '"'], ?_⟩
    simp [Json.decode, Json.readValue, Json.readOne, Json.skipSpace,
      Cursor.skipWhile, Cursor.start, Cursor.advance, Cursor.atEnd, Json.isSpace, read, Bind.bind,
      Except.bind, Except.map]
  have target : 'a' ∈ "aeprsn".toList := by decide
  have nonempty : "a:b".toList ≠ [] := by decide
  have all : ∀ x ∈ "a:b".toList, inWord x := List.all_eq_true.1 (by decide)
  have listed : ["bossbar".toList, "set".toList, "a:b".toList, "name".toList] ∈
      carriers ['@', 'a'] "a:b".toList := by simp [carriers]
  exact ⟨message, ofText_message message target nonempty all _ listed⟩

end Preview
end ChatPreview
