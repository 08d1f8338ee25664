import ChatPreview.Preview
import ChatPreview.Proofs.Line.Shift
import ChatPreview.Proofs.Message.Value

namespace ChatPreview
open Text Scan Token
open Json (Extent inAtom Sound)

theorem Json.afterString?_last {quote : Char} {s t : List Char}
    (closed : afterString? quote s = some t) : ∃ read, s = read ++ quote :: t := by
  fun_induction afterString? quote s with
  | case1 s r found ih =>
      rcases ih closed with ⟨read, rfl⟩
      rcases Continuation.rest?_suffix found with ⟨before, split⟩
      exact ⟨before ++ read, by rw [← split, List.append_assoc]⟩
  | case2 => cases closed
  | case3 => cases closed
  | case4 s _ _ ih =>
      rcases ih closed with ⟨read, split⟩
      refine ⟨'\\' :: (s.take 1 ++ read), ?_⟩
      rw [List.cons_append, List.append_assoc, ← split, List.take_append_drop]
  | case5 s =>
      cases closed
      exact ⟨[], rfl⟩
  | case6 c s _ _ _ _ ih =>
      rcases ih closed with ⟨read, rfl⟩
      exact ⟨c :: read, rfl⟩

def Opens (s : List Char) : Prop :=
  s.head? = some '\x7b' ∨ s.head? = some '[' ∨ s.head? = some '"'

section
variable {inner : Option (Cursor → Json.Read Value)} {c d : Cursor}

theorem Opens.not_atom (opens : Opens c.rest) (run : Runs inAtom c d) : ¬c.pos < d.pos := by
  intro further
  rcases run.head further with ⟨x, s, split, inside⟩
  rw [Opens, split, List.head?_cons] at opens
  rcases opens with same | same | same <;> cases same <;> cases inside

theorem Opens.last (opens : Opens c.rest) (sound : ∀ item ∈ inner, Sound item)
    (plain : Plain c.rest) (extent : Extent inner c d) :
    ∃ read x, c.rest = read ++ x :: d.rest ∧ isSpace x = false := by
  cases extent with
  | string opens closes ahead =>
      rcases Json.afterString?_last closes with ⟨read, rfl⟩
      exact ⟨'"' :: read, '"', opens, rfl⟩
  | array left list =>
      rcases list.closes (fun _ _ plain part => part.reaches (sound _ left) plain) plain with
        ⟨e, ⟨read, split, _⟩, closed, rfl⟩
      rcases List.head?_eq_some_iff.1 closed with ⟨t, tail⟩
      refine ⟨read, ']', ?_, rfl⟩
      rw [split, Cursor.advance, tail]
      rfl
  | object left list =>
      rcases list.closes (fun _ _ plain part => part.reaches (sound _ left) plain) plain with
        ⟨e, ⟨read, split, _⟩, closed, rfl⟩
      rcases List.head?_eq_some_iff.1 closed with ⟨t, tail⟩
      refine ⟨read, '\x7d', ?_, rfl⟩
      rw [split, Cursor.advance, tail]
      rfl
  | atom run further => exact absurd further (opens.not_atom run)

/-- A message is read as a node of its own kind, or not at all. -/
theorem Opens.reads {inner' : Deeper} (opens : Opens c.rest)
    (values : ∀ item ∈ inner, ∀ value ∈ inner', Matches item value) (plain : Plain c.rest)
    (extent : Extent inner c d) :
    ∃ kind, Preview.opens c.rest = some kind ∧ Reads kind (item endsWord inner') c d := by
  cases extent with
  | string split closes ahead =>
      have quoted := string_of_closed split rfl closes ahead
      exact ⟨.string, by rw [split]; rfl, reads_item_string (.inl ⟨[], quoted⟩) (by rw [split]; rfl)⟩
  | array left list =>
      rcases List.head?_eq_some_iff.1 list.1 with ⟨t, split⟩
      have reads := reads_array (values _ left) plain list
      exact ⟨.array, by rw [split]; rfl, reads_item_array rfl reads list.1⟩
  | object left list =>
      rcases List.head?_eq_some_iff.1 list.1 with ⟨t, split⟩
      have reads := reads_object (values _ left) plain list
      exact ⟨.object, by rw [split]; rfl, reads_item_object rfl reads list.1⟩
  | atom run further => exact absurd further (opens.not_atom run)

end

/-- What is read of a message at the end of a command: one node, or an error where it starts. -/
inductive Holds (message : List Char) (p : Nat) : Command.Body → Prop where
  | read {n : Node} {next : Cursor} (kind : Preview.opens message = some n.kind)
      (content : n.content = message) : Holds message p ⟨[n], none, next⟩
  | failed {e : Failure} {next : Cursor} (offset : e.offset = p) : Holds message p ⟨[], some e, next⟩

/-- A text that a message is decoded from, where it may be nested deep enough. -/
structure IsMessage (s : List Char) : Prop where
  plain : Plain s
  opens : Opens s
  ends : s.getLast? ≠ some ' '
  decoded : ∃ levels v, Json.decode levels s = .ok v

namespace IsMessage
variable {s : List Char}

theorem head (h : IsMessage s) : ∃ x t, s = x :: t ∧ Solid x ∧ Json.isSpace x = false ∧
    ∃ kind, Preview.opens s = some kind := by
  rcases h.opens with head | head | head <;> rcases List.head?_eq_some_iff.1 head with ⟨t, rfl⟩
  · exact ⟨_, t, rfl, by decide, rfl, .object, rfl⟩
  · exact ⟨_, t, rfl, by decide, rfl, .array, rfl⟩
  · exact ⟨_, t, rfl, by decide, rfl, .string, rfl⟩

theorem rest_of_ends {c d : Cursor} (plain : Plain c.rest) (ends : c.rest.getLast? ≠ some ' ')
    (ahead : c.Reaches d) (finished : (Json.skipSpace d).atEnd) : d.rest = [] := by
  by_contra more
  rcases ahead with ⟨read, split, _⟩
  have last : d.rest.getLast more ∈ d.rest := List.getLast_mem more
  have spaces : d.rest.dropWhile Json.isSpace = [] := by
    rw [Cursor.atEnd, Json.skipSpace, Cursor.skipWhile_rest, List.isEmpty_iff] at finished
    exact finished
  have space := List.dropWhile_eq_nil_iff.1 spaces _ last
  rcases plain _ (split ▸ List.mem_append_right read last) with ⟨noTab, noReturn, noFeed⟩
  have blank : d.rest.getLast more = ' ' := by
    simpa [Json.isSpace, noTab, noReturn, noFeed] using space
  apply ends
  rw [split, List.getLast?_append_of_ne_nil _ more, List.getLast?_eq_getLast_of_ne_nil more, blank]

theorem readValue (h : IsMessage s) : ∃ levels v d,
    Json.readValue levels (.start s) = .ok (v, d) ∧ d.rest = [] := by
  rcases h.decoded with ⟨levels, v, decoded⟩
  rcases h.head with ⟨x, t, split, _, ink, _⟩
  have stays : Json.skipSpace (.start s) = .start s := skipSpace_of_head' split ink
  rw [Json.decode, stays] at decoded
  split at decoded
  · cases decoded
  · cases read : Json.readValue levels (.start s) with
    | error e =>
        rw [read] at decoded
        cases decoded
    | ok got =>
        rcases got with ⟨w, d⟩
        have ahead := (Json.sound_readValue _ h.plain read).1
        refine ⟨levels, w, d, read, rest_of_ends h.plain h.ends ahead ?_⟩
        by_contra more
        rw [read] at decoded
        change (if (Json.skipSpace d).atEnd then _ else _) = _ at decoded
        rw [if_neg more] at decoded
        cases decoded

theorem last (h : IsMessage s) : ∃ read x, s = read ++ [x] ∧ isSpace x = false := by
  rcases h.readValue with ⟨_, v, d, read, finished⟩
  rcases exists_extent h.plain read with ⟨inner, extent, items⟩
  have sound : ∀ item ∈ inner, Sound item := by
    intro item left
    rcases items item left with ⟨levels, rfl⟩
    exact Json.sound_readValue levels
  have last := h.opens.last sound h.plain extent
  rwa [finished] at last

theorem holds_of_reads (h : IsMessage s) {limit : Int} {kind : Kind} {d : Cursor}
    (opened : Preview.opens s = some kind) (ahead : (Cursor.start s).Reaches d)
    (finished : d.rest = [])
    (reads : Reads kind (item endsWord (inside limit limit.toNat)) (.start s) d) :
    Holds s 0 (Command.readNodes limit (.start s)) := by
  rcases h.head with ⟨x, t, split, solid, ink, _⟩
  have stays : skipSpace (.start s) = .start s := by
    rw [skipSpace_eq_json (c := .start s) h.plain]
    exact skipSpace_of_head' split ink
  have inside : ¬(skipSpace (.start s)).atLineEnd := by
    rw [stays]
    exact solid_head_of_inside split solid
  rcases reads with ⟨children, read⟩ | ⟨e, f, failed⟩
  · have one : top limit (skipSpace (.start s)) = .ok (.between kind (.start s) d children) d := by
      rw [stays]
      exact top_of_ok read
    have ended : (skipSpace d).atLineEnd := by
      have here : d.atLineEnd := atLineEnd_iff.2 (.inl finished)
      rwa [skipSpace_atLineEnd here]
    have text : (Cursor.start s).upTo d = s := by
      have all := ahead.upTo_append
      rwa [finished, List.append_nil] at all
    rw [Command.readNodes_of_ok inside one, Command.readNodes_of_end ended]
    apply Holds.read opened
    rw [Node.between, text, joinLines_of_feed_not_mem h.plain.feed_not_mem]
  · have none : top limit (skipSpace (.start s)) =
        .fail ⟨.unexpected (Cursor.start s).peek, 0⟩ (.start s) := by
      rw [stays, top, failed]
      rfl
    rw [Command.readNodes_of_fail inside none]
    exact .failed rfl

theorem holds_start (h : IsMessage s) (limit : Int) :
    Holds s 0 (Command.readNodes limit (.start s)) := by
  rcases h.readValue with ⟨_, v, d, read, finished⟩
  have ahead := (Json.sound_readValue _ h.plain read).1
  rcases exists_extent h.plain read with ⟨inner, extent, items⟩
  have values : ∀ item ∈ inner, ∀ value ∈ inside limit limit.toNat, Matches item value := by
    intro item left
    rcases items item left with ⟨depth, rfl⟩
    exact matches_inside (matches_readValue depth limit) limit.toNat
  rcases h.opens.reads values h.plain extent with ⟨kind, opened, reads⟩
  exact h.holds_of_reads opened ahead finished reads

theorem holds (h : IsMessage s) (limit : Int) (p : Nat) :
    Holds s p (Command.readNodes limit ⟨p, s⟩) := by
  have shifted := Command.readNodes_shift limit p (.start s)
  have start : (Cursor.start s).shift p = ⟨p, s⟩ := by rw [Cursor.start, Cursor.shift, Nat.zero_add]
  rw [start] at shifted
  rw [shifted]
  have whole := h.holds_start limit
  generalize Command.readNodes limit (.start s) = body at whole
  cases whole with
  | read kind content =>
      apply Holds.read
      · simpa using kind
      · simpa using content
  | failed offset =>
      apply Holds.failed
      change _ + (p : Int) = p
      rw [offset]
      simp

end IsMessage
end ChatPreview
