import ChatPreview.Proofs.Message.Unescape
import ChatPreview.Proofs.Message.Whole
import ChatPreview.Proofs.Nodes.Descent

namespace ChatPreview
open Text Scan Token

section
variable {s t : List Char} {x : Char}

/-! ## Solid characters in a text -/

theorem dropWhile_append_solid (solid : Solid x) (s t : List Char) :
    (s ++ x :: t).dropWhile isBlank = s.dropWhile isBlank ++ x :: t := by
  have stays : (x :: t).dropWhile isBlank = x :: t :=
    List.dropWhile_cons_of_neg (by simp [solid.not_blank])
  rw [List.dropWhile_append, stays]
  split
  · rename_i empty
    rw [List.isEmpty_iff.1 empty, List.nil_append]
  · rfl

theorem rest?_append_solid (solid : Solid x) (s t : List Char) :
    Continuation.rest? (s ++ x :: t) = (Continuation.rest? s).map (· ++ x :: t) := by
  cases found : Continuation.rest? s with
  | some r =>
      rcases rest?_eq_some.1 found with ⟨trail, v, rfl, trails, rfl⟩
      have line : '\\' :: (trail ++ '\n' :: v) ++ x :: t =
          '\\' :: (trail ++ '\n' :: (v ++ x :: t)) := by simp
      exact rest?_eq_some.2 ⟨trail, v ++ x :: t, line, trails, (dropWhile_append_solid solid v t).symm⟩
  | none =>
      cases whole : Continuation.rest? (s ++ x :: t) with
      | none => rfl
      | some r =>
          exfalso
          rcases rest?_eq_some.1 whole with ⟨trail, v, split, trails, _⟩
          cases s with
          | nil =>
              rcases List.cons.inj split with ⟨rfl, _⟩
              exact solid (by simp)
          | cons y s =>
              rcases List.cons.inj split with ⟨rfl, same⟩
              rcases List.append_eq_append_iff.1 same with ⟨u, rfl, line⟩ | ⟨u, rfl, line⟩
              · cases u with
                | nil =>
                    rcases List.cons.inj line with ⟨rfl, _⟩
                    exact solid (by simp)
                | cons z u =>
                    rcases List.cons.inj line with ⟨rfl, _⟩
                    have among : x ∈ s ++ x :: u := by simp
                    rcases trails.mem among with blank | rfl
                    · rw [solid.not_blank] at blank
                      cases blank
                    · exact solid (by simp)
              · cases u with
                | nil =>
                    rcases List.cons.inj line with ⟨rfl, _⟩
                    exact solid (by simp)
                | cons z u =>
                    rcases List.cons.inj line with ⟨rfl, _⟩
                    rw [rest?_eq_some.2 ⟨trail, u, rfl, trails, rfl⟩] at found
                    cases found

theorem joinLines_append_solid (solid : Solid x) (s t : List Char) :
    joinLines (s ++ x :: t) = joinLines s ++ x :: joinLines t := by
  fun_induction joinLines s with
  | case1 s r found ih =>
      have whole : Continuation.rest? (s ++ x :: t) = some (r ++ x :: t) := by
        rw [rest?_append_solid solid, found, Option.map_some]
      rw [joinLines_of_some whole, ih]
  | case2 =>
      have free : Continuation.rest? (x :: t) = none := by
        simpa [Continuation.starts] using starts_of_solid solid
      rw [List.nil_append, joinLines_cons free, List.nil_append]
  | case3 y s free ih =>
      have free' : Continuation.rest? (y :: (s ++ x :: t)) = none := by
        rw [← List.cons_append, rest?_append_solid solid, free, Option.map_none]
      rw [List.cons_append, joinLines_cons free', ih, List.cons_append]

theorem joinLines_concat (solid : Solid x) (s : List Char) :
    joinLines (s ++ [x]) = joinLines s ++ [x] := by
  rw [joinLines_append_solid solid, joinLines_nil]

theorem not_atNewline_of_feed_not_mem (noFeed : '\n' ∉ s) : ¬atNewline s := by
  intro ended
  rcases atNewline_iff.1 ended with ⟨t, rfl | rfl⟩
  · exact noFeed List.mem_cons_self
  · exact noFeed (List.mem_cons_of_mem _ List.mem_cons_self)

theorem feed_not_mem_concat (solid : Solid x) (noFeed : '\n' ∉ s) : '\n' ∉ s ++ [x] := by
  rw [List.mem_append, List.mem_singleton]
  rintro (inside | last)
  · exact noFeed inside
  · exact solid.ne_feed last.symm

theorem head_of_ink {y : Char} (ink : (s.dropWhile isBlank).head? = some y) :
    ∃ z, s.head? = some z ∧ (isBlank z ∨ z = y) := by
  cases s with
  | nil => cases ink
  | cons z s =>
      refine ⟨z, rfl, ?_⟩
      by_cases blank : isBlank z
      · exact .inl blank
      · rw [List.dropWhile_cons_of_neg blank] at ink
        exact .inr (Option.some.inj ink)

theorem dropWhile_joinLines (ink : ∀ y ∈ s.head?, isBlank y = false) :
    (joinLines s).dropWhile isBlank = joinLines s := by
  fun_induction joinLines s with
  | case1 s r found ih =>
      rcases rest?_eq_some.1 found with ⟨trail, v, rfl, _, rfl⟩
      exact ih (ink_of_dropWhile v)
  | case2 => rfl
  | case3 y s free =>
      have first : isBlank y = false := ink y rfl
      exact List.dropWhile_cons_of_neg (by simp [first])

end

/-! ## Cursors in the text of a node -/

/-- Cursors at one place of a text, the first before `tail` and among continuations, the second
without either. -/
def Beneath (tail : List Char) (c d : Cursor) : Prop :=
  ∃ s x, Solid x ∧ c.rest = s ++ x :: tail ∧ d.rest = joinLines s ++ [x] ∧ '\n' ∉ joinLines s

/-- Whether a cursor stands before a solid character with `tail` behind it. -/
def Leads (tail : List Char) (c : Cursor) : Prop := ∃ s x, Solid x ∧ c.rest = s ++ x :: tail

theorem Leads.length_lt {tail : List Char} {c : Cursor} (leads : Leads tail c) :
    tail.length < c.rest.length := by
  rcases leads with ⟨s, x, _, split⟩
  rw [split, List.length_append, List.length_cons]
  omega

theorem Leads.of_reaches {tail : List Char} {c d : Cursor} (leads : Leads tail d)
    (ahead : c.Reaches d) : Leads tail c := by
  rcases leads with ⟨s, x, solid, split⟩
  rcases ahead with ⟨read, whole, _⟩
  exact ⟨read ++ s, x, solid, by rw [whole, split, List.append_assoc]⟩

def Ready (s : List Char) : Prop :=
  ∃ y, (s.dropWhile isBlank).head? = some y ∧ (y = ',' ∨ isCloser y)

def Awaits (tail : List Char) (c : Cursor) : Prop :=
  ∃ s x, Solid x ∧ c.rest = s ++ x :: tail ∧ Ready (joinLines s ++ [x])

theorem exists_skipSpace {s tail : List Char} {x : Char} {c : Cursor} (solid : Solid x)
    (split : c.rest = s ++ x :: tail) : ∃ s', (skipSpace c).rest = s' ++ x :: tail ∧
      (joinLines s).dropWhile isBlank = joinLines s' ∧
      (joinLines s').dropWhile isBlank = joinLines s' := by
  have blanks := List.takeWhile_append_dropWhile (p := isBlank) (l := s)
  have blank : ∀ y ∈ s.takeWhile isBlank, isBlank y := fun y => List.mem_takeWhile_imp
  have joined : (joinLines s).dropWhile isBlank =
      (joinLines (s.dropWhile isBlank)).dropWhile isBlank := by
    rw [← blanks, Message.joinLines_append_left blank, List.dropWhile_append_of_pos blank, blanks]
  have rest : (c.skipWhile isBlank).rest = s.dropWhile isBlank ++ x :: tail := by
    rw [Cursor.skipWhile_rest, split, dropWhile_append_solid solid]
  rw [skipSpace_eq, rest, rest?_append_solid solid]
  cases found : Continuation.rest? (s.dropWhile isBlank) with
  | none =>
      have stays := dropWhile_joinLines (ink_of_dropWhile s)
      exact ⟨s.dropWhile isBlank, rest, joined.trans stays, stays⟩
  | some r =>
      rcases rest?_eq_some.1 found with ⟨trail, v, _, _, rfl⟩
      have stays := dropWhile_joinLines (ink_of_dropWhile v)
      refine ⟨v.dropWhile isBlank, rfl, ?_, stays⟩
      rw [joined, joinLines_of_some found, stays]

namespace Beneath
variable {tail : List Char} {c c' d d' : Cursor} {y : Char}

theorem leads (h : Beneath tail c d) : Leads tail c := by
  rcases h with ⟨s, x, solid, split, _⟩
  exact ⟨s, x, solid, split⟩

theorem feed_not_mem (h : Beneath tail c d) : '\n' ∉ d.rest := by
  rcases h with ⟨s, x, solid, _, split, free⟩
  rw [split]
  exact feed_not_mem_concat solid free

theorem skip (h : Beneath tail c d) : Beneath tail (skipSpace c) (skipSpace d) := by
  rcases h with ⟨s, x, solid, split, split', free⟩
  rcases exists_skipSpace solid split with ⟨s', rest, joined, _⟩
  have noFeed : '\n' ∉ joinLines s' := by
    rw [← joined]
    exact fun member => free ((List.dropWhile_suffix isBlank).subset member)
  refine ⟨s', x, solid, rest, ?_, noFeed⟩
  have none : Continuation.rest? (d.skipWhile isBlank).rest = none := by
    apply rest?_of_feed_not_mem
    rw [Cursor.skipWhile_rest, split', dropWhile_append_solid solid, joined]
    exact feed_not_mem_concat solid noFeed
  rw [skipSpace_eq, none]
  simp only
  rw [Cursor.skipWhile_rest, split', dropWhile_append_solid solid, joined]

theorem step {t : List Char} (h : Beneath tail c d) (split : c.rest = y :: t)
    (free : Continuation.starts c.rest = false) : d.rest.head? = some y ∧
      (Leads tail (c.advance 1) → Beneath tail (c.advance 1) (d.advance 1)) := by
  rcases h with ⟨s, x, solid, whole, split', noFeed⟩
  cases s with
  | nil =>
      rw [split', joinLines_nil]
      rw [whole] at split
      rcases List.cons.inj split with ⟨rfl, rfl⟩
      refine ⟨rfl, fun leads => absurd leads.length_lt ?_⟩
      simp [Cursor.advance, whole]
  | cons z s =>
      rw [whole] at split free
      rcases List.cons.inj split with ⟨rfl, rfl⟩
      rw [Continuation.starts, rest?_append_solid solid, Option.isSome_map,
        Option.isSome_eq_false_iff, Option.isNone_iff_eq_none] at free
      rw [joinLines_cons free] at split' noFeed
      refine ⟨by rw [split']; rfl, fun _ => ⟨s, x, solid, ?_, ?_, ?_⟩⟩
      · rw [Cursor.advance, whole]
        rfl
      · rw [Cursor.advance, split']
        rfl
      · exact fun member => noFeed (List.mem_cons_of_mem _ member)

theorem head_of_solid (h : Beneath tail c d) (solid : Solid y) (head : c.rest.head? = some y) :
    d.rest.head? = some y := by
  rcases List.head?_eq_some_iff.1 head with ⟨t, split⟩
  exact (h.step split (split ▸ starts_of_solid solid)).1

end Beneath

/-! ## Ends -/

def Cursor.Closed (c d : Cursor) : Prop := ∃ s x, Solid x ∧ c.upTo d = s ++ [x]

section
variable {c d : Cursor} {x : Char}

theorem upTo_advance_of_head (ahead : c.Reaches d) (solid : Solid x)
    (head : d.rest.head? = some x) : c.upTo (d.advance 1) = c.upTo d ++ [x] := by
  have beyond := ahead.trans (Cursor.Onward.advance head solid).1
  apply beyond.upTo_eq
  rcases List.head?_eq_some_iff.1 head with ⟨t, split⟩
  rw [← ahead.upTo_append, Cursor.advance, split]
  simp

theorem closed_of_head (ahead : c.Reaches d) (solid : Solid x)
    (head : d.rest.head? = some x) : c.Closed (d.advance 1) :=
  ⟨c.upTo d, x, solid, upTo_advance_of_head ahead solid head⟩

end

def Alongside (tail : List Char) (c d : Cursor) : Prop :=
  Beneath tail c d ∨ c.rest = tail ∧ d.rest = []

namespace Alongside
variable {tail : List Char} {c c' d d' : Cursor} {y : Char}

theorem beneath (h : Alongside tail c d) (leads : Leads tail c) : Beneath tail c d := by
  rcases h with beneath | ⟨ended, _⟩
  · exact beneath
  · have inside := leads.length_lt
    rw [ended] at inside
    exact absurd inside (Nat.lt_irrefl _)

theorem advance (h : Beneath tail c d) (solid : Solid y) (head : c.rest.head? = some y) :
    Alongside tail (c.advance 1) (d.advance 1) := by
  rcases List.head?_eq_some_iff.1 head with ⟨t, split⟩
  have next := (h.step split (split ▸ starts_of_solid solid)).2
  rcases h with ⟨s, x, solid, whole, split', _⟩
  cases s with
  | nil =>
      refine .inr ⟨?_, ?_⟩
      · rw [Cursor.advance, whole]
        rfl
      · rw [Cursor.advance, split', joinLines_nil]
        rfl
  | cons z s => exact .inl (next ⟨s, x, solid, by rw [Cursor.advance, whole]; rfl⟩)

theorem span (h : Beneath tail c d) (h' : Alongside tail c' d') (ahead : c.Reaches c')
    (ahead' : d.Reaches d') (closed : c.Closed c') :
    joinLines (c.upTo c') = joinLines (d.upTo d') := by
  rcases closed with ⟨r, y, solid, last⟩
  have noFeed := h.feed_not_mem
  rcases h with ⟨s, x, solid', split, joined, _⟩
  have whole := ahead.upTo_append
  have text : d.upTo d' = joinLines (c.upTo c') := by
    apply ahead'.upTo_eq
    rcases h' with ⟨s', x', _, split', joined', _⟩ | ⟨ended, ended'⟩
    · rw [last, split, split', List.append_assoc, List.singleton_append] at whole
      have same : (r ++ y :: s') ++ x' :: tail = s ++ x :: tail := by simpa using whole
      rcases List.append_inj' same rfl with ⟨rfl, ends⟩
      rcases List.cons.inj ends with ⟨rfl, _⟩
      rw [last, joined, joined', joinLines_append_solid solid, joinLines_concat solid]
      simp
    · have same : c.upTo c' ++ tail = (s ++ [x]) ++ tail := by
        rw [ended, split] at whole
        simpa using whole
      rw [List.append_cancel_right same, joined, ended', joinLines_concat solid', List.append_nil]
  rw [← text, joinLines_of_feed_not_mem]
  intro member
  apply noFeed
  rw [← ahead'.upTo_append]
  exact List.mem_append_left _ member

end Alongside

namespace Awaits
variable {tail : List Char} {c d : Cursor} {x : Char}

theorem leads (h : Awaits tail c) : Leads tail c := by
  rcases h with ⟨s, x, solid, split, _⟩
  exact ⟨s, x, solid, split⟩

theorem ready (h : Awaits tail c) (beneath : Beneath tail c d) : Ready d.rest := by
  rcases h with ⟨s, x, _, split, ready⟩
  rcases beneath with ⟨s', x', _, split', rest, _⟩
  rw [split] at split'
  have same : (s ++ [x]) ++ tail = (s' ++ [x']) ++ tail := by simpa using split'
  rcases List.append_inj' (List.append_cancel_right same) rfl with ⟨rfl, last⟩
  cases last
  rw [rest]
  exact ready

theorem of_skipSpace (h : Awaits tail (skipSpace c)) : Awaits tail c := by
  rcases h with ⟨s', x, solid, rest, y, head, ends⟩
  rcases reaches_skipSpace c with ⟨read, split, _⟩
  rw [rest, ← List.append_assoc] at split
  rcases exists_skipSpace solid split with ⟨s'', rest', joined, stays⟩
  rw [List.append_cancel_right (rest'.symm.trans rest)] at joined stays
  refine ⟨read ++ s', x, solid, split, y, ?_, ends⟩
  rw [dropWhile_append_solid solid, joined]
  rwa [dropWhile_append_solid solid, stays] at head

theorem of_head (leads : Leads tail c) (head : c.rest.head? = some x)
    (ends : x = ',' ∨ isCloser x) : Awaits tail c := by
  have solid : Solid x := by
    rcases ends with rfl | closes
    · decide
    · exact solid_of_isCloser closes
  rcases leads with ⟨s, y, last, split⟩
  refine ⟨s, y, last, split, x, ?_, ends⟩
  rw [split] at head
  cases s with
  | nil =>
      cases head
      rw [joinLines_nil, List.nil_append, List.dropWhile_cons_of_neg (by simp [solid.not_blank])]
      rfl
  | cons z s =>
      cases head
      have free : Continuation.rest? (x :: s) = none := rest?_of_solid solid
      rw [joinLines_cons free, List.cons_append,
        List.dropWhile_cons_of_neg (by simp [solid.not_blank])]
      rfl

end Awaits
/-! ## Words -/

section
variable {tail : List Char} {stops : Char → Bool} {c d : Cursor}

theorem not_stops_of_mem_wordChars {s : List Char} {y : Char} (member : y ∈ wordChars stops s) :
    stops y = false := by
  fun_induction wordChars stops s with
  | case1 => cases member
  | case2 => cases member
  | case3 x s free ih =>
      rw [Bool.not_eq_true, Bool.or_eq_false_iff] at free
      rcases List.mem_cons.1 member with rfl | later
      · exact free.1
      · exact ih later

theorem wordChars_of_feed_not_mem {s : List Char} (noFeed : '\n' ∉ s) :
    wordChars stops s = s.takeWhile (!stops ·) := by
  induction s with
  | nil => rfl
  | cons x s ih =>
      have free : Continuation.starts (x :: s) = false := by
        rw [Continuation.starts, rest?_of_feed_not_mem noFeed, Option.isSome_none]
      rw [wordChars, free, ih fun member => noFeed (List.mem_cons_of_mem x member),
        List.takeWhile_cons]
      cases stops x <;> rfl

theorem Beneath.pass (h : Beneath tail c d)
    (leads : Leads tail (c.advance (wordChars stops c.rest).length)) :
    d.rest = wordChars stops c.rest ++ (d.advance (wordChars stops c.rest).length).rest ∧
      Beneath tail (c.advance (wordChars stops c.rest).length)
        (d.advance (wordChars stops c.rest).length) := by
  generalize chars : wordChars stops c.rest = w at leads ⊢
  induction w generalizing c d with
  | nil => exact ⟨rfl, h⟩
  | cons y w ih =>
      cases split : c.rest with
      | nil =>
          rw [split, wordChars] at chars
          cases chars
      | cons z t =>
          rw [split, wordChars] at chars
          split at chars
          · cases chars
          · rename_i free
            rw [Bool.not_eq_true, Bool.or_eq_false_iff] at free
            rcases List.cons.inj chars with ⟨rfl, more⟩
            have inside : (c.advance 1).Reaches (c.advance (z :: w).length) := by
              rw [List.length_cons, Nat.add_comm, ← c.advance_advance]
              apply Cursor.reaches_advance
              rw [Cursor.advance, split]
              exact more ▸ (wordChars_isPrefix stops t).length_le
            rcases h.step split (split ▸ free.2) with ⟨head, next⟩
            have next := next (leads.of_reaches inside)
            rcases List.head?_eq_some_iff.1 head with ⟨u, split'⟩
            have later : wordChars stops (c.advance 1).rest = w := by
              rw [Cursor.advance, split]
              exact more
            rw [List.length_cons, Nat.add_comm, ← c.advance_advance] at leads ⊢
            rcases ih next later leads with ⟨text, beneath⟩
            rw [← d.advance_advance]
            refine ⟨?_, beneath⟩
            rw [List.cons_append, ← text, Cursor.advance, split']
            rfl

theorem Beneath.wordChars (h : Beneath tail c d)
    (leads : Leads tail (c.advance (wordChars stops c.rest).length))
    (ends : ∀ y ∈ (d.advance (wordChars stops c.rest).length).rest.head?, stops y) :
    wordChars stops d.rest = wordChars stops c.rest := by
  rcases h.pass leads with ⟨text, _⟩
  have inside : ∀ y ∈ Token.wordChars stops c.rest, (!stops y) = true := by
    intro y member
    rw [not_stops_of_mem_wordChars member]
    rfl
  rw [wordChars_of_feed_not_mem h.feed_not_mem, text, List.takeWhile_append_of_pos inside]
  cases split : (d.advance (Token.wordChars stops c.rest).length).rest with
  | nil => simp
  | cons y u =>
      have stop := ends y (by rw [split]; rfl)
      rw [List.takeWhile_cons_of_neg (by simp [stop]), List.append_nil]

/-! ## Strings -/

theorem afterString?_joinLines_cons {quote x z : Char} {s : List Char} (solid : Solid x)
    (free : Continuation.rest? (z :: s) = none) (noFeed : '\n' ∉ joinLines (z :: s)) :
    '\n' ∉ joinLines s ∧ afterString? quote (joinLines (z :: s) ++ [x]) =
      if z = '\\' then afterString? quote ((joinLines s ++ [x]).drop 1)
      else if z = quote then some (joinLines s ++ [x])
      else afterString? quote (joinLines s ++ [x]) := by
  rw [joinLines_cons free] at noFeed ⊢
  have whole : '\n' ∉ z :: (joinLines s ++ [x]) := feed_not_mem_concat solid noFeed
  have inside := not_atNewline_of_feed_not_mem whole
  refine ⟨fun member => noFeed (List.mem_cons_of_mem z member), ?_⟩
  rw [List.cons_append, afterString?_cons (rest?_of_feed_not_mem whole) inside]

/-- A string that is closed in a text is closed without its continuations, at the same quote. -/
theorem afterString?_joinLines {quote x : Char} {s r : List Char} (opens : isQuote quote)
    (solid : Solid x) (noFeed : '\n' ∉ joinLines s)
    (closed : afterString? quote (s ++ x :: tail) = some (r ++ tail)) :
    afterString? quote (joinLines s ++ [x]) = some (joinLines r) := by
  have within {z : Char} {s : List Char} (free : Continuation.rest? (z :: (s ++ x :: tail)) = none) :
      Continuation.rest? (z :: s) = none := by
    rwa [← List.cons_append, rest?_append_solid solid, Option.map_eq_none_iff] at free
  have tooShort (past : afterString? quote tail = some (r ++ tail)) : False := by
    rcases Json.afterString?_last past with ⟨read, split⟩
    have length := congrArg List.length split
    simp only [List.length_append, List.length_cons] at length
    omega
  generalize whole : s ++ x :: tail = text at closed
  fun_induction afterString? quote text generalizing s with
  | case1 text t found ih =>
      rw [← whole, rest?_append_solid solid] at found
      rcases Option.map_eq_some_iff.1 found with ⟨u, next, rfl⟩
      rw [joinLines_of_some next] at noFeed ⊢
      exact ih noFeed rfl closed
  | case2 => cases closed
  | case3 => cases closed
  | case4 text free inside ih =>
      cases s with
      | nil =>
          rw [List.nil_append] at whole
          cases whole
          exact absurd (by simp) solid
      | cons z s =>
          rw [List.cons_append] at whole
          cases whole
          rcases afterString?_joinLines_cons solid (within free) noFeed with ⟨later, first⟩
          rw [first, if_pos rfl]
          cases s with
          | nil => exact (tooShort closed).elim
          | cons y s =>
              cases next : Continuation.rest? (y :: s) with
              | some v =>
                  -- the backslash has taken the first character of a continuation
                  rcases rest?_eq_some.1 next with ⟨trail, v, split, trails, _⟩
                  cases split
                  rw [List.cons_append, List.drop_succ_cons, List.drop_zero, List.append_assoc,
                    List.cons_append, afterString?_trails trails opens] at closed
                  cases closed
              | none =>
                  rw [joinLines_cons next] at later ⊢
                  exact ih (fun member => later (List.mem_cons_of_mem y member)) rfl closed
  | case5 text free plain inside =>
      cases s with
      | nil =>
          rw [List.nil_append] at whole
          cases whole
          have none : r = [] :=
            List.append_cancel_right ((Option.some.inj closed).symm : r ++ tail = [] ++ tail)
          have free' : Continuation.rest? [quote] = Option.none := rest?_of_solid solid
          have inside' : ¬atNewline [quote] :=
            not_atNewline_of_feed_not_mem (feed_not_mem_concat solid List.not_mem_nil)
          rw [joinLines_nil, List.nil_append, afterString?_cons free' inside', if_neg plain,
            if_pos rfl, none, joinLines_nil]
      | cons z s =>
          rw [List.cons_append] at whole
          cases whole
          rcases afterString?_joinLines_cons solid (within free) noFeed with ⟨_, first⟩
          have last : s ++ [x] = r := by
            have same : s ++ x :: tail = r ++ tail := Option.some.inj closed
            rw [← List.singleton_append, ← List.append_assoc] at same
            exact List.append_cancel_right same
          rw [first, if_neg plain, if_pos rfl, ← last, joinLines_concat solid]
  | case6 y text free plain other inside ih =>
      cases s with
      | nil =>
          rw [List.nil_append] at whole
          cases whole
          exact (tooShort closed).elim
      | cons z s =>
          rw [List.cons_append] at whole
          cases whole
          rcases afterString?_joinLines_cons solid (within free) noFeed with ⟨later, first⟩
          rw [first, if_neg plain, if_neg other]
          exact ih later rfl closed

end
end ChatPreview
