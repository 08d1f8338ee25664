import ChatPreview.Proofs.Line.Basic
import ChatPreview.Proofs.Alignment.Token
/-!
Reading a line needs no text behind it: where a line ends, scanning finds the end, and all that is
read before it is read the same without the rest of the source.
-/
namespace ChatPreview
open Text Scan Token
variable {s tail : List Char}

/-- Every line feed of a text is continued by the text itself. -/
def Joined (s : List Char) : Prop := ∀ before after, s = before ++ '\n' :: after → Continued before

/-- The source that follows a line: nothing, or the line end that closes it, which is not
continued. -/
def Seals (tail s : List Char) : Prop :=
  tail = [] ∨ ∃ ret after, tail = ret ++ '\n' :: after ∧ ¬Continued (s ++ ret) ∧
    (ret = ['\r'] ∨ ret = [] ∧ s.getLast? ≠ some '\r')

theorem Seals.suffix {t : List Char} (seals : Seals tail s) (part : t <:+ s) : Seals tail t := by
  rcases part with ⟨before, rfl⟩
  rcases seals with empty | ⟨ret, after, split, free, returns⟩
  · exact .inl empty
  · refine .inr ⟨ret, after, split, fun continued => free ?_, ?_⟩
    · rw [List.append_assoc]
      exact continued.append_left before
    · rcases returns with returned | ⟨none, last⟩
      · exact .inl returned
      · refine .inr ⟨none, fun returned => last ?_⟩
        rw [List.getLast?_append, returned, Option.some_or]

theorem Seals.atLineEnd (seals : Seals tail s) (p : Nat) : (⟨p, tail⟩ : Cursor).atLineEnd := by
  apply atLineEnd_iff.2
  rcases seals with empty | ⟨ret, after, rfl, _, rfl | ⟨rfl, _⟩⟩
  · exact .inl empty
  · exact .inr ⟨after, .inr rfl⟩
  · exact .inr ⟨after, .inl rfl⟩

theorem Seals.dropWhile (seals : Seals tail s) : tail.dropWhile isBlank = tail := by
  rcases atLineEnd_iff.1 (seals.atLineEnd 0) with empty | ⟨t, first | first⟩
  · rw [show tail = [] from empty, List.dropWhile_nil]
  · rw [show tail = '\n' :: t from first]
    rfl
  · rw [show tail = '\r' :: '\n' :: t from first]
    rfl

theorem Seals.dropWhile_append (seals : Seals tail s) (t : List Char) :
    (t ++ tail).dropWhile isBlank = t.dropWhile isBlank ++ tail := by
  rw [List.dropWhile_append]
  split
  · rename_i empty
    rw [List.isEmpty_iff.1 empty, seals.dropWhile, List.nil_append]
  · rfl

/-! ## Continuations in a line -/

theorem Trails.dropWhile {trail : List Char} (trails : Trails trail) (v : List Char) :
    ∃ ret, (trail ++ '\n' :: v).dropWhile isBlank = ret ++ '\n' :: v ∧ (ret = [] ∨ ret = ['\r']) := by
  rcases trails with ⟨blanks, ret, rfl, blank, only⟩
  refine ⟨ret, ?_, only⟩
  rw [List.append_assoc, List.dropWhile_append_of_pos blank]
  rcases only with rfl | rfl <;> rfl

theorem afterNewline?_eq_some {t v : List Char} : afterNewline? (t.dropWhile isBlank) = some v ↔
    ∃ trail, t = trail ++ '\n' :: v ∧ Trails trail := by
  constructor
  · intro ended
    have split := List.takeWhile_append_dropWhile (p := isBlank) (l := t)
    have blank : ∀ x ∈ t.takeWhile isBlank, isBlank x := fun x => List.mem_takeWhile_imp
    unfold afterNewline? at ended
    split at ended
    · rename_i line
      cases ended
      refine ⟨_, ?_, ⟨t.takeWhile isBlank, [], rfl, blank, .inl rfl⟩⟩
      rw [List.append_nil, ← line, split]
    · rename_i line
      cases ended
      refine ⟨_, ?_, ⟨t.takeWhile isBlank, ['\r'], rfl, blank, .inr rfl⟩⟩
      rw [List.append_assoc, List.cons_append, List.nil_append, ← line, split]
    · cases ended
  · rintro ⟨trail, rfl, trails⟩
    rcases trails.dropWhile v with ⟨ret, line, rfl | rfl⟩ <;> simp [line, afterNewline?]

theorem rest?_eq_some {r : List Char} : Continuation.rest? s = some r ↔
    ∃ trail v, s = '\\' :: (trail ++ '\n' :: v) ∧ Trails trail ∧ r = v.dropWhile isBlank := by
  constructor
  · intro found
    unfold Continuation.rest? at found
    split at found
    · rename_i t
      rcases Option.map_eq_some_iff.1 found with ⟨v, ended, rfl⟩
      rcases afterNewline?_eq_some.1 ended with ⟨trail, rfl, trails⟩
      exact ⟨trail, v, rfl, trails, rfl⟩
    · cases found
  · rintro ⟨trail, v, rfl, trails, rfl⟩
    have ended : afterNewline? ((trail ++ '\n' :: v).dropWhile isBlank) = some v :=
      afterNewline?_eq_some.2 ⟨trail, rfl, trails⟩
    rw [Continuation.rest?, ended, Option.map_some]

theorem Trails.continued {trail : List Char} (trails : Trails trail) :
    Continued ('\\' :: trail) := ⟨[], trail, rfl, trails⟩

theorem rest?_of_feed_not_mem (noFeed : '\n' ∉ s) : Continuation.rest? s = none := by
  cases found : Continuation.rest? s with
  | none => rfl
  | some r =>
      rcases rest?_eq_some.1 found with ⟨trail, v, rfl, _⟩
      exact absurd (List.mem_cons_of_mem _ (List.mem_append_right trail List.mem_cons_self)) noFeed

theorem joinLines_of_feed_not_mem (noFeed : '\n' ∉ s) : joinLines s = s := by
  induction s with
  | nil => exact joinLines_nil
  | cons x s ih =>
      rw [joinLines_cons (rest?_of_feed_not_mem noFeed)]
      exact congrArg _ (ih fun member => noFeed (List.mem_cons_of_mem x member))

theorem feed_split {t u v : List Char} (same : s ++ '\n' :: t = u ++ '\n' :: v)
    (noFeed : '\n' ∉ u) : s = u ∨ ∃ w, s = u ++ '\n' :: w := by
  rcases List.append_eq_append_iff.1 same with ⟨w, rfl, line⟩ | ⟨w, rfl, line⟩
  · cases w with
    | nil => exact .inl (List.append_nil s).symm
    | cons x w =>
        cases line
        exact absurd (List.mem_append_right s List.mem_cons_self) noFeed
  · cases w with
    | nil => exact .inl (List.append_nil u)
    | cons x w =>
        cases line
        exact .inr ⟨w, rfl⟩

theorem feed_of_append {u v ret : List Char} (same : s ++ ret = u ++ '\n' :: v)
    (noFeed : '\n' ∉ ret) : ∃ w, s = u ++ '\n' :: w := by
  rcases List.append_eq_append_iff.1 same with ⟨w, rfl, line⟩ | ⟨w, rfl, line⟩
  · exact absurd (line ▸ List.mem_append_right w List.mem_cons_self) noFeed
  · cases w with
    | nil =>
        change '\n' :: v = ret at line
        exact absurd (line ▸ List.mem_cons_self) noFeed
    | cons x w =>
        cases line
        exact ⟨w, rfl⟩

/-- No continuation reaches from a line into the text behind it. -/
theorem rest?_append_of_none (seals : Seals tail s) (free : Continuation.rest? s = none) :
    Continuation.rest? (s ++ tail) = none := by
  rcases seals with rfl | ⟨ret, after, rfl, stops, returns⟩
  · rw [List.append_nil, free]
  · cases whole : Continuation.rest? (s ++ (ret ++ '\n' :: after)) with
    | none => rfl
    | some r =>
        exfalso
        rcases rest?_eq_some.1 whole with ⟨trail, v, split, trails, _⟩
        have noFeed : '\n' ∉ trail := trails.not_mem (by decide) (by decide)
        have only : '\n' ∉ ret := by rcases returns with rfl | ⟨rfl, _⟩ <;> decide
        cases s with
        | nil => rcases returns with rfl | ⟨rfl, _⟩ <;> simp at split
        | cons x s =>
            rw [List.cons_append] at split
            rcases List.cons.inj split with ⟨rfl, same⟩
            rw [← List.append_assoc] at same
            rcases feed_split same noFeed with line | ⟨w, line⟩
            · apply stops
              rw [List.cons_append, line]
              exact trails.continued
            · rcases feed_of_append line only with ⟨u, rfl⟩
              have := rest?_eq_some.2 ⟨trail, u, rfl, trails, rfl⟩
              rw [free] at this
              cases this

theorem rest?_append (seals : Seals tail s) :
    Continuation.rest? (s ++ tail) = (Continuation.rest? s).map (· ++ tail) := by
  cases found : Continuation.rest? s with
  | some r =>
      rcases rest?_eq_some.1 found with ⟨trail, v, rfl, trails, rfl⟩
      exact rest?_eq_some.2 ⟨trail, v ++ tail, by simp, trails, (seals.dropWhile_append v).symm⟩
  | none => exact rest?_append_of_none seals found

theorem starts_append (seals : Seals tail s) :
    Continuation.starts (s ++ tail) = Continuation.starts s := by
  rw [Continuation.starts, Continuation.starts, rest?_append seals, Option.isSome_map]

theorem atNewline_append (seals : Seals tail s) (nonempty : s ≠ []) :
    atNewline (s ++ tail) = atNewline s := by
  apply Bool.eq_iff_iff.2
  rw [atNewline_iff, atNewline_iff]
  constructor
  · rintro ⟨t, first | first⟩
    · cases s with
      | nil => exact absurd rfl nonempty
      | cons x s => exact ⟨s, .inl (by rw [(List.cons.inj first).1])⟩
    · match s with
      | [] => exact absurd rfl nonempty
      | [x] =>
          rcases List.cons.inj first with ⟨rfl, line⟩
          change tail = '\n' :: t at line
          rcases seals with rfl | ⟨ret, after, rfl, _, rfl | ⟨_, last⟩⟩
          · cases line
          · cases line
          · exact absurd rfl last
      | x :: y :: s =>
          rcases List.cons.inj first with ⟨rfl, line⟩
          exact ⟨s, .inr (by rw [(List.cons.inj line).1])⟩
  · rintro ⟨t, rfl | rfl⟩
    · exact ⟨t ++ tail, .inl rfl⟩
    · exact ⟨t ++ tail, .inr rfl⟩

/-! ## Where a line goes on -/

theorem Joined.of_append {t : List Char} (joined : Joined (s ++ t))
    (stays : ∀ before, (∃ after, t = before ++ '\n' :: after) →
      Continued (s ++ before) → Continued before) : Joined t := by
  rintro before after rfl
  exact stays before ⟨after, rfl⟩ (joined (s ++ before) after (by simp))

theorem Joined.of_append_left {t : List Char} (joined : Joined (s ++ t)) : Joined s := by
  rintro before after rfl
  exact joined before (after ++ t) (by simp)

theorem Joined.of_cons {x : Char} (joined : Joined (x :: s))
    (free : Continuation.starts (x :: s) = false) : Joined s := by
  apply Joined.of_append (s := [x]) joined
  rintro before ⟨after, rfl⟩ continued
  rcases continued.of_append with tail | ⟨_ | ⟨y, head⟩, trail, split, trails⟩
  · exact tail
  · cases split
    have found := rest?_eq_some.2 ⟨before, after, rfl, trails, rfl⟩
    rw [Continuation.starts, found] at free
    cases free
  · simp at split

theorem Joined.of_blanks {blanks : List Char} (joined : Joined (blanks ++ s))
    (blank : ∀ x ∈ blanks, isBlank x) : Joined s := by
  apply joined.of_append
  intro before _ continued
  rcases continued.of_append with tail | ⟨head, trail, rfl, _⟩
  · exact tail
  · have := blank '\\' (by simp)
    cases this

theorem Joined.append {t : List Char} (joined : Joined s) (joined' : Joined t) :
    Joined (s ++ t) := by
  intro before after split
  rcases List.append_eq_append_iff.1 split with ⟨u, rfl, rest⟩ | ⟨u, rfl, rest⟩
  · exact (joined' u after rest).append_left s
  · cases u with
    | nil => simpa using (joined' [] after rest.symm).append_left before
    | cons x u =>
        cases rest
        exact joined before u rfl

theorem joined_of_feed_not_mem (noFeed : '\n' ∉ s) : Joined s := by
  rintro before after rfl
  exact absurd (List.mem_append_right before List.mem_cons_self) noFeed

theorem Joined.dropWhile (joined : Joined s) : Joined (s.dropWhile isBlank) := by
  rw [← List.takeWhile_append_dropWhile (p := isBlank) (l := s)] at joined
  exact joined.of_blanks fun x => List.mem_takeWhile_imp

theorem Joined.rest {r : List Char} (joined : Joined s)
    (found : Continuation.rest? s = some r) : Joined r := by
  rcases rest?_eq_some.1 found with ⟨trail, v, rfl, _, rfl⟩
  have after : Joined v := by
    have line : Joined (('\\' :: trail ++ ['\n']) ++ v) := by simpa using joined
    apply line.of_append
    intro before _ continued
    apply Continued.after_feed (s := '\\' :: trail)
    simpa using continued
  exact after.dropWhile

theorem Joined.atLineEnd {p : Nat} (joined : Joined s) (ended : (⟨p, s⟩ : Cursor).atLineEnd) :
    s = [] := by
  rcases atLineEnd_iff.1 ended with empty | ⟨t, first | first⟩
  · exact empty
  · exact absurd (joined [] t first) (by decide)
  · exact absurd (joined ['\r'] t first) (by decide)

/-! ## Strings -/

variable {quote : Char}

theorem afterString?_trails {trail : List Char} (trails : Trails trail) (opens : isQuote quote)
    (v : List Char) : afterString? quote (trail ++ '\n' :: v) = none := by
  rcases trails with ⟨blanks, ret, rfl, blank, only⟩
  induction blanks with
  | nil => rcases only with rfl | rfl <;> exact afterString?_of_newline rfl rfl
  | cons x blanks ih =>
      have first : x = ' ' ∨ x = '\t' := by simpa [isBlank] using blank x List.mem_cons_self
      have more := ih fun y member => blank y (List.mem_cons_of_mem x member)
      have other : x ≠ quote := by
        rintro rfl
        rcases first with rfl | rfl <;> cases opens
      have free (t : List Char) : Continuation.rest? (x :: t) = none := by
        rcases first with rfl | rfl <;> rfl
      have inside (t : List Char) : ¬atNewline (x :: t) := by
        rcases first with rfl | rfl <;> exact Bool.false_ne_true
      have plain : x ≠ '\\' := by rcases first with rfl | rfl <;> decide
      rw [List.cons_append, List.cons_append, afterString?_cons (free _) (inside _),
        if_neg plain, if_neg other, more]

theorem Joined.afterString {r : List Char} (joined : Joined s) (opens : isQuote quote)
    (closed : afterString? quote s = some r) : Joined r := by
  fun_induction afterString? quote s with
  | case1 s t found ih => exact ih (joined.rest found) closed
  | case2 => cases closed
  | case3 => cases closed
  | case4 s free _ ih =>
      have next : Joined s := joined.of_cons (by rw [Continuation.starts, free]; rfl)
      cases s with
      | nil => exact ih next closed
      | cons y t =>
          by_cases escaped : Continuation.starts (y :: t)
          · -- the backslash has taken the first character of a continuation
            rcases Option.isSome_iff_exists.1 escaped with ⟨r', found⟩
            rcases rest?_eq_some.1 found with ⟨trail, v, split, trails, _⟩
            cases split
            rw [List.drop_succ_cons, List.drop_zero, afterString?_trails trails opens] at closed
            cases closed
          · exact ih (next.of_cons (Bool.eq_false_iff.2 escaped)) closed
  | case5 s free _ _ =>
      cases closed
      exact joined.of_cons (by rw [Continuation.starts, free]; rfl)
  | case6 c s free _ _ _ ih =>
      exact ih (joined.of_cons (by rw [Continuation.starts, free]; rfl)) closed

theorem afterString?_atLineEnd {p : Nat} (ended : (⟨p, s⟩ : Cursor).atLineEnd) :
    afterString? quote s = none := by
  rcases atLineEnd_iff.1 ended with empty | ⟨t, first | first⟩
  · change s = [] at empty
    rw [empty, afterString?_nil]
  · exact afterString?_of_newline (rest?_atLineEnd ended) (atNewline_iff.2 ⟨t, .inl first⟩)
  · exact afterString?_of_newline (rest?_atLineEnd ended) (atNewline_iff.2 ⟨t, .inr first⟩)

theorem afterString?_append (seals : Seals tail s) :
    afterString? quote (s ++ tail) = (afterString? quote s).map (· ++ tail) := by
  fun_induction afterString? quote s with
  | case1 s t found ih =>
      have whole : Continuation.rest? (s ++ tail) = some (t ++ tail) := by
        rw [rest?_append seals, found, Option.map_some]
      rw [afterString?_of_some whole]
      exact ih (seals.suffix (Continuation.rest?_suffix found))
  | case2 s free ended =>
      have nonempty : s ≠ [] := by
        rintro rfl
        cases ended
      rw [← atNewline_append seals nonempty] at ended
      rw [afterString?_of_newline (rest?_append_of_none seals free) ended]
      rfl
  | case3 => exact afterString?_atLineEnd (seals.atLineEnd 0)
  | case4 s free inside ih =>
      have more : (s ++ tail).drop 1 = s.drop 1 ++ tail := by
        cases s with
        | nil =>
            rcases seals with rfl | ⟨ret, after, rfl, stops, rfl | ⟨rfl, _⟩⟩
            · rfl
            · exact absurd (by decide) stops
            · exact absurd (by decide) stops
        | cons y t => rfl
      rw [← atNewline_append seals (List.cons_ne_nil _ _)] at inside
      have free' := rest?_append_of_none seals free
      rw [List.cons_append] at inside free' ⊢
      rw [afterString?_cons free' inside, if_pos rfl, more]
      exact ih (seals.suffix ((List.drop_suffix 1 s).trans (List.suffix_cons _ _)))
  | case5 s free plain inside =>
      rw [← atNewline_append seals (List.cons_ne_nil _ _)] at inside
      have free' := rest?_append_of_none seals free
      rw [List.cons_append] at inside free' ⊢
      rw [afterString?_cons free' inside, if_neg plain, if_pos rfl]
      rfl
  | case6 c s free plain other inside ih =>
      rw [← atNewline_append seals (List.cons_ne_nil _ _)] at inside
      have free' := rest?_append_of_none seals free
      rw [List.cons_append] at inside free' ⊢
      rw [afterString?_cons free' inside, if_neg plain, if_neg other]
      exact ih (seals.suffix (List.suffix_cons _ _))

end ChatPreview
