import ChatPreview.Proofs.Returns.Text
import Mathlib.Algebra.Group.Nat.Even

namespace ChatPreview
open Text Scan Token

def slashes (s : List Char) : Nat := (s.reverse.takeWhile (· == '\\')).length

/-- Whether a line ends between two texts: in a line feed, or a carriage return with one. An odd
number of backslashes with blanks behind them carries it on. -/
structure LineBreak (before after : List Char) : Prop where
  newline : atNewline after
  whole : after.head? = some '\n' → before.getLast? ≠ some '\r'
  genuine : Even (slashes (dropEndWhile isBlank before))

/-- Whether the quote at one offset ends at another: at the same quote again, in the same line, and
after an even number of backslashes. -/
structure Closes (source : List Char) (opening stop : Nat) : Prop where
  after : opening < stop
  quote : source[stop]? = source[opening]?
  bare : Even (slashes (source.take stop))
  line : ∀ i, opening < i → i < stop → ¬LineBreak (source.take i) (source.drop i)

/-! ## Backslashes -/

section
variable {s t before rest blanks : List Char} {x quote : Char} {result : Option (List Char)}

theorem slashes_concat (s : List Char) (x : Char) :
    slashes (s ++ [x]) = if x = '\\' then slashes s + 1 else 0 := by
  by_cases slash : x = '\\' <;> simp [slashes, slash]

theorem even_slashes (other : x ≠ '\\') : Even (slashes (s ++ [x])) := by
  rw [slashes_concat, if_neg other]
  exact Even.zero

theorem even_slashes_concat : Even (slashes (s ++ ['\\'])) ↔ ¬Even (slashes s) := by
  rw [slashes_concat, if_pos rfl, Nat.even_add_one]

theorem not_backslash_of_isBlank (blank : isBlank x) : x ≠ '\\' := by
  rintro rfl
  cases blank

theorem dropEndWhile_blanks (all : ∀ x ∈ blanks, isBlank x) (ink : isBlank x = false) :
    dropEndWhile isBlank (s ++ x :: blanks) = s ++ [x] := by
  induction blanks using List.reverseRecOn with
  | nil => rw [dropEndWhile_concat, if_neg (by simp [ink])]
  | append_singleton blanks y ih =>
      rw [← List.cons_append, ← List.append_assoc, dropEndWhile_concat,
        if_pos (all y (List.mem_append_right blanks List.mem_cons_self))]
      exact ih fun z member => all z (List.mem_append_left [y] member)

theorem dropWhile_of_atNewline (newline : atNewline s) : s.dropWhile isBlank = s := by
  obtain ⟨t, rfl | rfl⟩ := atNewline_iff.1 newline <;> rfl

theorem carries_of_atNewline (newline : atNewline s) :
    Continuation.rest? ('\\' :: s) ≠ none := by
  obtain ⟨t, found⟩ := Option.isSome_iff_exists.1 newline
  rw [Continuation.rest?, dropWhile_of_atNewline newline]
  simp [found]

/-- Every backslash of the text before has its character with it, and the text after does not carry
on a line that the text before would. -/
structure Paired (before after : List Char) : Prop where
  even : Even (slashes before)
  whole : after.head? = some '\n' → before.getLast? ≠ some '\r'
  ended : ¬Even (slashes (dropEndWhile isBlank before)) →
    afterNewline? (after.dropWhile isBlank) = none

namespace Paired

theorem step (paired : Paired before (x :: s)) (other : x ≠ '\\') (inside : ¬atNewline (x :: s)) :
    Paired (before ++ [x]) s where
  even := even_slashes other
  whole := by
    intro feed last
    obtain ⟨t, rfl⟩ := List.head?_eq_some_iff.1 feed
    rw [List.getLast?_concat] at last
    cases last
    exact inside rfl
  ended := by
    rw [dropEndWhile_concat]
    split
    · rename_i blank
      intro odd
      have free := paired.ended odd
      rwa [List.dropWhile_cons_of_pos blank] at free
    · exact fun odd => absurd (even_slashes other) odd

theorem escape (paired : Paired before ('\\' :: x :: s))
    (free : Continuation.rest? ('\\' :: x :: s) = none) : Paired (before ++ ['\\'] ++ [x]) s := by
  have open' : afterNewline? ((x :: s).dropWhile isBlank) = none := by
    simpa [Continuation.rest?] using free
  have even : Even (slashes (before ++ ['\\'] ++ [x])) := by
    by_cases backslash : x = '\\'
    · rw [backslash, even_slashes_concat, even_slashes_concat, not_not]
      exact paired.even
    · exact even_slashes backslash
  refine ⟨even, ?_, ?_⟩
  · intro feed last
    obtain ⟨t, rfl⟩ := List.head?_eq_some_iff.1 feed
    rw [List.getLast?_concat] at last
    cases last
    cases open'
  · rw [dropEndWhile_concat]
    split
    · rename_i blank
      intro _
      rwa [List.dropWhile_cons_of_pos blank] at open'
    · exact fun odd => absurd even odd

theorem feed (before s : List Char) (all : ∀ x ∈ blanks, isBlank x) :
    Paired (before ++ '\n' :: blanks) s := by
  have ended : ∃ init y, before ++ '\n' :: blanks = init ++ [y] ∧ (y = '\n' ∨ isBlank y) := by
    rcases List.eq_nil_or_concat blanks with rfl | ⟨init, y, rfl⟩
    · exact ⟨before, '\n', rfl, .inl rfl⟩
    · exact ⟨before ++ '\n' :: init, y, by simp, .inr (all y (by simp))⟩
  obtain ⟨init, y, split, kind⟩ := ended
  refine ⟨?_, ?_, ?_⟩
  · rw [split]
    apply even_slashes
    rcases kind with rfl | blank
    · decide
    · exact not_backslash_of_isBlank blank
  · intro _ last
    rw [split, List.getLast?_concat] at last
    cases last
    rcases kind with same | blank
    · cases same
    · cases blank
  · rw [dropEndWhile_blanks all rfl]
    exact fun odd => absurd (even_slashes (by decide)) odd

theorem opening (before s : List Char) (opens : isQuote quote) : Paired (before ++ [quote]) s := by
  have mark : quote ≠ '\\' ∧ quote ≠ '\r' ∧ isBlank quote = false := by
    rcases isQuote_iff.1 opens with rfl | rfl <;> decide
  refine ⟨even_slashes mark.1, ?_, ?_⟩
  · intro _ last
    rw [List.getLast?_concat] at last
    exact mark.2.1 (Option.some.inj last)
  · rw [dropEndWhile_concat, if_neg (by simp [mark.2.2])]
    exact fun odd => absurd (even_slashes mark.1) odd

theorem lineBreak (paired : Paired before s) (newline : atNewline s) : LineBreak before s := by
  refine ⟨newline, paired.whole, ?_⟩
  by_contra odd
  have none := paired.ended odd
  rw [dropWhile_of_atNewline newline] at none
  rw [atNewline, none] at newline
  cases newline

end Paired

/-! ## The quote that closes a string -/

def ClosesAt (quote : Char) (before s : List Char) (i : Nat) : Prop :=
  s[i]? = some quote ∧ Even (slashes (before ++ s.take i)) ∧
    ∀ j < i, ¬LineBreak (before ++ s.take j) (s.drop j)

def Closed (quote : Char) (before s : List Char) : Option (List Char) → Prop
  | some rest => ∃ i, ClosesAt quote before s i ∧ (∀ j < i, ¬ClosesAt quote before s j) ∧
      rest = s.drop (i + 1)
  | none => ∀ i, ¬ClosesAt quote before s i

theorem closesAt_zero : ClosesAt quote before (x :: s) 0 ↔ x = quote ∧ Even (slashes before) := by
  simp [ClosesAt]

theorem closesAt_succ {i : Nat} : ClosesAt quote before (x :: s) (i + 1) ↔
    ¬LineBreak before (x :: s) ∧ ClosesAt quote (before ++ [x]) s i := by
  simp only [ClosesAt, List.getElem?_cons_succ, List.take_succ_cons, List.append_assoc,
    List.singleton_append, Nat.forall_lt_succ_left, List.take_zero, List.append_nil, List.drop_zero,
    List.drop_succ_cons]
  tauto

theorem not_atNewline {x : Char} (feed : x ≠ '\n') (ret : x ≠ '\r') : ¬atNewline (x :: s) := by
  intro newline
  obtain ⟨t, first | first⟩ := atNewline_iff.1 newline
  · exact feed (List.cons.inj first).1
  · exact ret (List.cons.inj first).1

namespace Closed

theorem nil : Closed quote before [] none := by
  intro i closes
  cases closes.1

theorem here (even : Even (slashes before)) : Closed quote before (quote :: s) (some s) :=
  ⟨0, closesAt_zero.2 ⟨rfl, even⟩, fun j before => absurd before (Nat.not_lt_zero j), rfl⟩

theorem step (other : ¬(x = quote ∧ Even (slashes before))) (inside : ¬LineBreak before (x :: s))
    (closed : Closed quote (before ++ [x]) s result) : Closed quote before (x :: s) result := by
  have first : ¬ClosesAt quote before (x :: s) 0 := mt closesAt_zero.1 other
  cases result with
  | none =>
      intro i closes
      cases i with
      | zero => exact first closes
      | succ i => exact closed i (closesAt_succ.1 closes).2
  | some rest =>
      obtain ⟨i, closes, least, rfl⟩ := closed
      refine ⟨i + 1, closesAt_succ.2 ⟨inside, closes⟩, ?_, rfl⟩
      intro j earlier closes'
      cases j with
      | zero => exact first closes'
      | succ j => exact least j (Nat.lt_of_succ_lt_succ earlier) (closesAt_succ.1 closes').2

theorem stop (other : x ≠ quote) (ends : LineBreak before (x :: s)) :
    Closed quote before (x :: s) none := by
  intro i closes
  cases i with
  | zero => exact other (closesAt_zero.1 closes).1
  | succ i => exact (closesAt_succ.1 closes).1 ends

theorem past_blanks (opens : isQuote quote) (all : ∀ x ∈ blanks, isBlank x)
    (closed : Closed quote (before ++ blanks) s result) :
    Closed quote before (blanks ++ s) result := by
  induction blanks generalizing before with
  | nil => rwa [List.append_nil] at closed
  | cons x blanks ih =>
      have blank := all x List.mem_cons_self
      have other : x ≠ quote ∧ x ≠ '\n' ∧ x ≠ '\r' := by
        refine ⟨?_, ?_, ?_⟩
        · rintro rfl
          rcases isQuote_iff.1 opens with rfl | rfl <;> cases blank
        all_goals
          rintro rfl
          cases blank
      refine step (fun here => other.1 here.1) ?_ (ih (fun y later => all y (.tail x later)) ?_)
      · exact fun ends => not_atNewline other.2.1 other.2.2 ends.newline
      · rwa [List.append_assoc, List.singleton_append]

theorem past_continuation {trail : List Char} (opens : isQuote quote) (even : Even (slashes before))
    (trails : Trails trail) (all : ∀ x ∈ blanks, isBlank x)
    (closed : Closed quote (before ++ '\\' :: trail ++ '\n' :: blanks) s result) :
    Closed quote before ('\\' :: (trail ++ '\n' :: (blanks ++ s))) result := by
  have other (x : Char) (mark : isQuote x = false) : x ≠ quote := by
    rintro rfl
    rw [opens] at mark
    cases mark
  obtain ⟨spaces, ret, rfl, blank, only⟩ := trails
  have carried (t : List Char) : ¬LineBreak (before ++ ['\\'] ++ spaces) t := by
    intro ends
    have genuine := ends.genuine
    rw [List.append_assoc, List.singleton_append, dropEndWhile_blanks blank rfl,
      even_slashes_concat] at genuine
    exact genuine even
  refine step (fun here => other '\\' rfl here.1) ?_ ?_
  · exact fun ends => not_atNewline (by decide) (by decide) ends.newline
  · rw [List.append_assoc]
    apply Closed.past_blanks opens blank
    rcases only with rfl | rfl
    · refine step (fun here => other '\n' rfl here.1) (carried _) (Closed.past_blanks opens all ?_)
      simpa using closed
    · refine step (fun here => other '\r' rfl here.1) (carried _) ?_
      refine step (fun here => other '\n' rfl here.1) ?_ (Closed.past_blanks opens all ?_)
      · exact fun ends => ends.whole rfl (by rw [List.getLast?_concat])
      · simpa using closed

end Closed

/-- Scanning stops at the first quote that closes the string. -/
theorem closed_afterString? (opens : isQuote quote) (paired : Paired before s) :
    Closed quote before s (afterString? quote s) := by
  have noBackslash : '\\' ≠ quote := by
    rintro rfl
    cases opens
  fun_induction afterString? quote s generalizing before with
  | case1 s rest found ih =>
      obtain ⟨trail, v, rfl, trails, rfl⟩ := rest?_eq_some.1 found
      have indent : ∀ x ∈ v.takeWhile isBlank, isBlank x := fun x => List.mem_takeWhile_imp
      have closed := ih (Paired.feed (before ++ '\\' :: trail) (v.dropWhile isBlank) indent)
      have whole := Closed.past_continuation opens paired.even trails indent closed
      rwa [List.takeWhile_append_dropWhile] at whole
  | case2 s free newline =>
      have ends := paired.lineBreak newline
      obtain ⟨t, rfl | rfl⟩ := atNewline_iff.1 newline
      · exact .stop (by rintro rfl; cases opens) ends
      · exact .stop (by rintro rfl; cases opens) ends
  | case3 => exact .nil
  | case4 s free inside ih =>
      have here : ¬('\\' = quote ∧ Even (slashes before)) := fun here => noBackslash here.1
      refine .step here (fun ends => inside ends.newline) ?_
      cases s with
      | nil =>
          rw [List.drop_nil, afterString?_nil]
          exact .nil
      | cons x s =>
          have odd : ¬Even (slashes (before ++ ['\\'])) := by
            rw [even_slashes_concat, not_not]
            exact paired.even
          refine .step (fun here => odd here.2) ?_ (ih (paired.escape free))
          exact fun ends => carries_of_atNewline ends.newline free
  | case5 => exact .here paired.even
  | case6 c s free other different inside ih =>
      refine .step (fun here => different here.1) (fun ends => inside ends.newline) ?_
      exact ih (paired.step other inside)

theorem closesAt_iff {source : List Char} {opening i : Nat} (here : source[opening]? = some quote) :
    ClosesAt quote (source.take (opening + 1)) (source.drop (opening + 1)) i ↔
      Closes source opening (opening + 1 + i) := by
  have taken (j : Nat) : source.take (opening + 1) ++ (source.drop (opening + 1)).take j =
      source.take (opening + 1 + j) := (List.take_add ..).symm
  rw [ClosesAt, List.getElem?_drop, taken]
  constructor
  · rintro ⟨quote, bare, line⟩
    refine ⟨by omega, quote.trans here.symm, bare, fun j after earlier ends => ?_⟩
    obtain ⟨k, rfl⟩ := Nat.exists_eq_add_of_le after
    apply line k (by omega)
    rwa [taken, List.drop_drop]
  · rintro ⟨_, quote, bare, line⟩
    refine ⟨quote.trans here, bare, fun j earlier ends => ?_⟩
    rw [taken, List.drop_drop] at ends
    exact line (opening + 1 + j) (by omega) (by omega) ends

theorem seek_leave {source : List Char} {p q : Nat} (le : p ≤ q) (inside : q ≤ source.length) :
    (Cursor.seek source p).leave (source.drop q) = .seek source q := by
  have moved : p + ((source.drop p).length - (source.drop q).length) = q := by
    rw [List.length_drop, List.length_drop]
    omega
  rw [Cursor.leave, Cursor.seek, Cursor.seek, moved]

theorem string_cases {source : List Char} {opening : Nat} (here : source[opening]? = some quote)
    (opens : isQuote quote) :
    (∃ stop, Closes source opening stop ∧ (∀ i < stop, ¬Closes source opening i) ∧
      string (.seek source opening) =
        .ok (.between .string (.seek source opening) (.seek source (stop + 1)) [])
          (.seek source (stop + 1))) ∨
      (∀ stop, ¬Closes source opening stop) ∧
        string (.seek source opening) = .fail ⟨.unterminated, opening⟩ (.seek source opening) := by
  obtain ⟨inside, same⟩ := List.getElem?_eq_some_iff.1 here
  have line : source.drop opening = quote :: source.drop (opening + 1) := by
    rw [List.drop_eq_getElem_cons inside, same]
  have start : source.take (opening + 1) = source.take opening ++ [quote] := by
    rw [List.take_succ_eq_append_getElem inside, same]
  have closed := closed_afterString? opens
    (Paired.opening (source.take opening) (source.drop (opening + 1)) opens)
  rw [← start] at closed
  have reach (i : Nat) (closes : Closes source opening i) : ∃ k, i = opening + 1 + k :=
    Nat.exists_eq_add_of_le closes.after
  have read : (Cursor.seek source opening).rest = quote :: source.drop (opening + 1) := line
  cases found : afterString? quote (source.drop (opening + 1)) with
  | some rest =>
      rw [found] at closed
      obtain ⟨k, closes, least, rfl⟩ := closed
      have closes := (closesAt_iff here).1 closes
      refine .inl ⟨_, closes, ?_, ?_⟩
      · intro i earlier closes'
        obtain ⟨j, rfl⟩ := reach i closes'
        exact least j (by omega) ((closesAt_iff here).2 closes')
      · have bound : opening + 1 + k < source.length :=
          (List.getElem?_eq_some_iff.1 (closes.quote.trans here)).1
        have moved : (Cursor.seek source opening).leave (source.drop (opening + 1 + (k + 1))) =
            .seek source (opening + 1 + (k + 1)) := seek_leave (by omega) (by omega)
        rw [string, read]
        simp only [opens, if_true, found, List.drop_drop, moved]
        rfl
  | none =>
      rw [found] at closed
      refine .inr ⟨?_, ?_⟩
      · intro i closes
        obtain ⟨k, rfl⟩ := reach i closes
        exact closed k ((closesAt_iff here).2 closes)
      · rw [string, read]
        simp only [opens, if_true, found]
        rfl

/-- A quoted string ends at the first quote of its kind that an even number of backslashes stands
before, if that comes before the end of the line. Otherwise it is unterminated. -/
theorem string_closes {source : List Char} {opening : Nat} (here : source[opening]? = some quote)
    (opens : isQuote quote) :
    ((∃ n d, string (.seek source opening) = .ok n d) ↔ ∃ stop, Closes source opening stop) ∧
      (∀ n d, string (.seek source opening) = .ok n d → ∃ stop, Closes source opening stop ∧
        (∀ i < stop, ¬Closes source opening i) ∧ d = .seek source (stop + 1) ∧
        n = .between .string (.seek source opening) d []) ∧
      ((¬∃ stop, Closes source opening stop) → ∃ e d, string (.seek source opening) = .fail e d ∧
        e.message = "unterminated string" ∧ e.offset = opening) := by
  rcases string_cases here opens with ⟨stop, closes, least, read⟩ | ⟨open', failed⟩
  · refine ⟨⟨fun _ => ⟨stop, closes⟩, fun _ => ⟨_, _, read⟩⟩, ?_, ?_⟩
    · intro n d read'
      cases read.symm.trans read'
      exact ⟨stop, closes, least, rfl, rfl⟩
    · exact fun none => absurd ⟨stop, closes⟩ none
  · refine ⟨⟨?_, ?_⟩, ?_, fun _ => ⟨_, _, failed, rfl, rfl⟩⟩
    · rintro ⟨n, d, read⟩
      cases failed.symm.trans read
    · rintro ⟨stop, closes⟩
      exact absurd closes (open' stop)
    · intro n d read
      cases failed.symm.trans read

/-- An escaped quote, an escaped backslash before the closing quote, and a continuation with a lone
carriage return before it. -/
theorem string_closes_escaped : let source := "say \"a\\\"\r\\ \n b\\\\\" \"".toList
    source[4]? = some '"' ∧ isQuote '"' ∧
      ((∃ n d, string (.seek source 4) = .ok n d) ↔ ∃ stop, Closes source 4 stop) ∧
      (∀ n d, string (.seek source 4) = .ok n d → ∃ stop, Closes source 4 stop ∧
        (∀ i < stop, ¬Closes source 4 i) ∧ d = .seek source (stop + 1) ∧
        n = .between .string (.seek source 4) d []) ∧
      ((¬∃ stop, Closes source 4 stop) → ∃ e d, string (.seek source 4) = .fail e d ∧
        e.message = "unterminated string" ∧ e.offset = 4) := by
  intro source
  have here : source[4]? = some '"' := rfl
  exact ⟨here, rfl, string_closes here rfl⟩

end
end ChatPreview
