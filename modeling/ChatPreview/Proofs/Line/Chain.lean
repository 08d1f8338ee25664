import ChatPreview.Proofs.Message.Commands
import ChatPreview.Proofs.Returns.Previews
/-!
Chains of continuations. White space is skipped up to the second continuation of a chain, where no
node can be read.
-/
namespace ChatPreview
open Text Scan Token

/-- Blanks and so many continuations from one cursor to another. -/
inductive Chain : Nat → Cursor → Cursor → Prop where
  | none (c : Cursor) : Chain 0 c c
  | blank {n : Nat} {c d : Cursor} {x : Char} {s : List Char} (split : c.rest = x :: s)
      (blank : isBlank x) (rest : Chain n (c.leave s) d) : Chain n c d
  | continuation {n : Nat} {c d : Cursor} {trail s : List Char}
      (split : c.rest = '\\' :: (trail ++ '\n' :: s)) (trails : Trails trail)
      (rest : Chain n (c.leave s) d) : Chain (n + 1) c d

def Cursor.AtInk (c : Cursor) : Prop :=
  (∀ x ∈ c.rest.head?, isBlank x = false) ∧ Continuation.starts c.rest = false

instance (c : Cursor) : Decidable c.AtInk :=
  -- Characters are finitely many: their own instance would go through them all.
  haveI : Decidable (∀ x ∈ c.rest.head?, isBlank x = false) := Option.decidableForallMem _
  inferInstanceAs (Decidable (_ ∧ _))

structure Chain.Whole (n : Nat) (c stop : Cursor) : Prop where
  chain : Chain n c stop
  ink : stop.AtInk
  longest : ∀ m d, Chain m c d → m ≤ n ∧ d.Reaches stop

section
variable {n m : Nat} {c d stop : Cursor} {x : Char} {s trail : List Char}

theorem starts_of_trails (split : c.rest = '\\' :: (trail ++ '\n' :: s)) (trails : Trails trail) :
    Continuation.rest? c.rest = some (s.dropWhile isBlank) :=
  rest?_eq_some.2 ⟨trail, s, split, trails, rfl⟩

namespace Cursor.AtInk

theorem not_blank (ink : c.AtInk) (split : c.rest = x :: s) : ¬isBlank x := by
  rw [ink.1 x (by rw [split]; rfl)]
  exact Bool.false_ne_true

theorem not_continuation (ink : c.AtInk) (trails : Trails trail) :
    c.rest ≠ '\\' :: (trail ++ '\n' :: s) := by
  intro split
  have starts := ink.2
  rw [Continuation.starts, starts_of_trails split trails] at starts
  cases starts

theorem skipSpace_eq (ink : c.AtInk) : skipSpace c = c := by
  cases split : c.rest with
  | nil => exact skipSpace_atLineEnd (atLineEnd_iff.2 (.inl split))
  | cons x s => exact skipSpace_of_head split (ink.1 x (by rw [split]; rfl)) ink.2

end Cursor.AtInk

namespace Chain

theorem reaches (chain : Chain n c d) : c.Reaches d := by
  induction chain with
  | none c => exact .refl c
  | @blank _ c d x s split _ _ ih =>
      have tail : s <:+ c.rest := split ▸ List.suffix_cons x s
      exact (c.reaches_leave tail).trans ih
  | @continuation _ c d trail s split _ _ ih =>
      have tail : s <:+ c.rest := ⟨'\\' :: (trail ++ ['\n']), by simp [split]⟩
      exact (c.reaches_leave tail).trans ih

theorem of_blank (chain : Chain n c stop) (ink : stop.AtInk) (split : c.rest = x :: s)
    (blank : isBlank x) : Chain n (c.leave s) stop := by
  cases chain with
  | none => exact absurd blank (ink.not_blank split)
  | blank split' _ rest =>
      cases split.symm.trans split'
      exact rest
  | continuation split' =>
      cases split.symm.trans split'
      cases blank

theorem of_continuation (chain : Chain n c stop) (ink : stop.AtInk)
    (split : c.rest = '\\' :: (trail ++ '\n' :: s)) (trails : Trails trail) :
    ∃ m, n = m + 1 ∧ Chain m (c.leave s) stop := by
  cases chain with
  | none => exact absurd split (ink.not_continuation trails)
  | blank split' blank =>
      cases split.symm.trans split'
      cases blank
  | @continuation m _ _ trail' s' split' trails' rest =>
      have same := (List.cons.inj (split.symm.trans split')).2
      have noFeed : '\n' ∉ trail := trails.not_mem (by decide) (by decide)
      have noFeed' : '\n' ∉ trail' := trails'.not_mem (by decide) (by decide)
      rcases feed_split same noFeed' with rfl | ⟨w, rfl⟩
      · cases List.append_cancel_left same
        exact ⟨m, rfl, rest⟩
      · exact absurd (List.mem_append_right trail' List.mem_cons_self) noFeed

theorem exists_rest (chain : Chain m c d) (whole : Chain n c stop) (ink : stop.AtInk) :
    ∃ k, n = m + k ∧ Chain k d stop := by
  induction chain generalizing n with
  | none c => exact ⟨n, (Nat.zero_add n).symm, whole⟩
  | blank split blank _ ih => exact ih (whole.of_blank ink split blank)
  | @continuation m c d trail s split trails _ ih =>
      obtain ⟨l, rfl, rest⟩ := whole.of_continuation ink split trails
      obtain ⟨k, rfl, last⟩ := ih rest
      exact ⟨k, Nat.add_right_comm m k 1, last⟩

theorem exists_stop (c : Cursor) : ∃ n stop, Chain n c stop ∧ stop.AtInk := by
  by_cases ink : c.AtInk
  · exact ⟨0, c, .none c, ink⟩
  · by_cases blank : ∀ x ∈ c.rest.head?, isBlank x = false
    · have starts : (Continuation.rest? c.rest).isSome :=
        Bool.not_eq_false _ ▸ fun free => ink ⟨blank, free⟩
      obtain ⟨r, found⟩ := Option.isSome_iff_exists.1 starts
      obtain ⟨trail, s, split, trails, _⟩ := rest?_eq_some.1 found
      obtain ⟨n, stop, chain, ended⟩ := exists_stop (c.leave s)
      exact ⟨n + 1, stop, .continuation split trails chain, ended⟩
    · push Not at blank
      obtain ⟨x, head, blank⟩ := blank
      obtain ⟨s, split⟩ := List.head?_eq_some_iff.1 head
      obtain ⟨n, stop, chain, ended⟩ := exists_stop (c.leave s)
      exact ⟨n, stop, .blank split (Bool.eq_true_of_not_eq_false blank) chain, ended⟩
termination_by c.rest.length
decreasing_by
  · simp [Cursor.leave, split]; omega
  · simp [Cursor.leave, split]

theorem exists_whole (c : Cursor) : ∃ n stop, Whole n c stop := by
  obtain ⟨n, stop, chain, ink⟩ := exists_stop c
  refine ⟨n, stop, chain, ink, fun m d part => ?_⟩
  obtain ⟨k, rfl, rest⟩ := part.exists_rest chain ink
  exact ⟨Nat.le_add_right m k, rest.reaches⟩

/-! ## What is skipped of a chain -/

theorem skipWhile_of_cons (split : c.rest = x :: s) (blank : isBlank x) :
    c.skipWhile isBlank = (c.leave s).skipWhile isBlank := by
  have tail : s <:+ c.rest := split ▸ List.suffix_cons x s
  have ahead := (c.reaches_leave tail).trans ((c.leave s).reaches_skipWhile isBlank)
  apply (c.reaches_skipWhile isBlank).eq_of_rest_eq ahead
  rw [Cursor.skipWhile_rest, Cursor.skipWhile_rest, split, List.dropWhile_cons_of_pos blank]
  rfl

theorem skipWhile_of_ink (ink : ∀ x ∈ c.rest.head?, isBlank x = false) :
    c.skipWhile isBlank = c := by
  obtain ⟨pos, rest⟩ := c
  cases rest with
  | nil => rfl
  | cons x s =>
      rw [Cursor.skipWhile, List.takeWhile_cons_of_neg (Bool.eq_false_iff.1 (ink x rfl))]
      rfl

theorem skipWhile (chain : Chain n c stop) (ink : stop.AtInk) :
    Chain n (c.skipWhile isBlank) stop := by
  induction chain with
  | none c =>
      rw [skipWhile_of_ink ink.1]
      exact .none c
  | blank split blank _ ih =>
      rw [skipWhile_of_cons split blank]
      exact ih ink
  | continuation split trails rest =>
      rw [skipWhile_of_ink (by simp [split, isBlank])]
      exact .continuation split trails rest

theorem skipSpace_of_blank (split : c.rest = x :: s) (blank : isBlank x) :
    Token.skipSpace c = Token.skipSpace (c.leave s) := by
  rw [Token.skipSpace_eq, Token.skipSpace_eq, skipWhile_of_cons split blank]

theorem skipSpace_of_continuation (split : c.rest = '\\' :: (trail ++ '\n' :: s))
    (trails : Trails trail) : Token.skipSpace c = (c.leave s).skipWhile isBlank := by
  have tail : s <:+ c.rest := ⟨'\\' :: (trail ++ ['\n']), by simp [split]⟩
  have ahead := (c.reaches_leave tail).trans ((c.leave s).reaches_skipWhile isBlank)
  rw [Token.skipSpace_eq, skipWhile_of_ink (by simp [split, isBlank]),
    starts_of_trails split trails]
  apply (c.reaches_leave ((s.dropWhile_suffix isBlank).trans tail)).eq_of_rest_eq ahead
  rw [Cursor.skipWhile_rest]
  rfl

theorem skipSpace (chain : Chain n c stop) (ink : stop.AtInk) :
    Chain (n - 1) (Token.skipSpace c) stop := by
  induction chain with
  | none c =>
      rw [ink.skipSpace_eq]
      exact .none c
  | blank split blank _ ih =>
      rw [skipSpace_of_blank split blank]
      exact ih ink
  | continuation split trails rest =>
      rw [skipSpace_of_continuation split trails]
      exact rest.skipWhile ink

theorem blanks (c : Cursor) : Chain 0 c (c.skipWhile isBlank) := by
  obtain ⟨pos, rest⟩ := c
  induction rest generalizing pos with
  | nil => exact .none _
  | cons x s ih =>
      by_cases blank : isBlank x
      · rw [skipWhile_of_cons rfl blank]
        exact .blank rfl blank (ih _)
      · rw [skipWhile_of_ink (by simpa using blank)]
        exact .none _

theorem skipped (chain : Chain n c stop) (some' : 0 < n) : Chain 1 c (Token.skipSpace c) := by
  induction chain with
  | none => exact absurd some' (Nat.lt_irrefl 0)
  | blank split blank _ ih =>
      rw [skipSpace_of_blank split blank]
      exact .blank split blank (ih some')
  | continuation split trails =>
      rw [skipSpace_of_continuation split trails]
      exact .continuation split trails (blanks _)

theorem starts_of_head (chain : Chain n c stop) (ink : ∀ x ∈ c.rest.head?, isBlank x = false)
    (some' : 0 < n) : Continuation.starts c.rest := by
  cases chain with
  | none => exact absurd some' (Nat.lt_irrefl 0)
  | @blank _ _ _ x s split blank =>
      rw [ink x (by rw [split]; rfl)] at blank
      cases blank
  | continuation split trails =>
      rw [Continuation.starts, starts_of_trails split trails, Option.isSome_some]

/-- So many skips pass so many continuations. -/
theorem skipSpace_iterate (chain : Chain n c stop) (ink : stop.AtInk) (k : Nat) :
    Chain (n - k) (Token.skipSpace^[k] c) stop := by
  induction k with
  | zero => exact chain
  | succ k ih =>
      rw [Function.iterate_succ_apply', Nat.sub_succ]
      exact ih.skipSpace ink

theorem skipSpace_iterate_eq_iff (chain : Chain n c stop) (ink : stop.AtInk) (k : Nat) :
    Token.skipSpace^[k + 1] c = stop ↔ n ≤ k + 1 := by
  have left := chain.skipSpace_iterate ink (k + 1)
  rw [Function.iterate_succ_apply'] at left ⊢
  generalize Token.skipSpace^[k] c = before at left ⊢
  constructor
  · intro ended
    by_contra more
    have starts := left.starts_of_head (head_skipSpace before) (by omega)
    rw [ended, ink.2] at starts
    cases starts
  · intro few
    rw [Nat.sub_eq_zero_of_le few] at left
    have first := head_skipSpace before
    generalize Token.skipSpace before = d at left first ⊢
    cases left with
    | none => rfl
    | @blank _ _ _ x s split blank =>
        rw [first x (by rw [split]; rfl)] at blank
        cases blank

end Chain

theorem fails_item_of_starts {stops : Char → Bool} {inner : Deeper}
    (starts : Continuation.starts c.rest) : (item stops inner c).Fails := by
  obtain ⟨r, found⟩ := Option.isSome_iff_exists.1 starts
  obtain ⟨trail, s, split, _⟩ := rest?_eq_some.1 found
  have other (y : Char) (ne : '\\' ≠ y) : c.rest.head? ≠ some y := by
    rw [split]
    exact fun same => ne (Option.some.inj same)
  have empty : wordChars stops c.rest = [] := by
    rw [split] at starts ⊢
    rw [wordChars, starts, Bool.or_true, if_pos rfl]
  apply fails_firstOf
  intro t member
  simp only [List.mem_cons, List.not_mem_nil, or_false] at member
  rcases member with rfl | rfl | rfl | rfl | rfl
  · exact fails_node_of_head (other _ (by decide))
  · exact fails_node_of_head (other _ (by decide))
  · exact fails_string_of_head (by rw [split]; rfl) (by decide)
  · exact fails_node_of_head (other _ (by decide))
  · have noQuote : ¬c.peek.any isQuote := by simp [Cursor.peek, split, isQuote]
    exact ⟨_, _, by rw [word, if_neg noQuote, empty]; rfl⟩

/-- A command stops at the second continuation of a chain. -/
theorem Chain.readNodes_of_long (chain : Chain n c stop) (ink : stop.AtInk) (long : 1 < n)
    (limit : Int) : Command.readNodes limit c =
      ⟨[], some ⟨.unexpected ['\\'], (Token.skipSpace c).pos⟩,
        Command.skipLine (Token.skipSpace c)⟩ := by
  have starts := (chain.skipSpace ink).starts_of_head (head_skipSpace c) (by omega)
  have fails : (item endsWord (inside limit limit.toNat) (Token.skipSpace c)).Fails :=
    fails_item_of_starts starts
  obtain ⟨e, d, failed⟩ := fails
  obtain ⟨r, found⟩ := Option.isSome_iff_exists.1 starts
  obtain ⟨trail, s, split, _⟩ := rest?_eq_some.1 found
  have within : ¬(Token.skipSpace c).atLineEnd := by
    intro ended
    rw [rest?_atLineEnd ended] at found
    cases found
  have backslash : (Token.skipSpace c).peek = ['\\'] := by rw [Cursor.peek, split]; rfl
  rw [Command.readNodes_of_fail within (by rw [top, failed]), backslash]

/-- White space is skipped to the end of a chain if that has one continuation or none, and then the
nodes behind it are read. In a longer chain the second continuation is where reading stops: as many
skips as there are continuations would pass it. -/
theorem skipSpace_chain (source : List Char) (pos : Nat) :
    ∃ n stop, Chain.Whole n (.seek source pos) stop ∧
      (∀ k, Token.skipSpace^[k + 1] (.seek source pos) = stop ↔ n ≤ k + 1) ∧
      (n ≤ 1 → ∀ limit,
        Command.readNodes limit (.seek source pos) = Command.readNodes limit stop) ∧
      (1 < n → ∃ second, Token.skipSpace (.seek source pos) = second ∧
        Chain 1 (.seek source pos) second ∧ Chain (n - 1) second stop ∧
        (∀ stops inner, (item stops inner second).Fails) ∧
        ∀ limit, Command.readNodes limit (.seek source pos) =
          ⟨[], some ⟨.unexpected ['\\'], second.pos⟩, Command.skipLine second⟩) := by
  obtain ⟨n, stop, whole⟩ := Chain.exists_whole (.seek source pos)
  have ⟨chain, ink, _⟩ := whole
  refine ⟨n, stop, whole, chain.skipSpace_iterate_eq_iff ink, ?_, ?_⟩
  · intro short limit
    apply Command.readNodes_congr
    have ended := (chain.skipSpace_iterate_eq_iff ink 0).2 short
    rw [ink.skipSpace_eq]
    exact ended
  · intro long
    have rest := chain.skipSpace ink
    have starts := rest.starts_of_head (head_skipSpace _) (by omega)
    exact ⟨_, rfl, chain.skipped (by omega), rest, fun _ _ => fails_item_of_starts starts,
      chain.readNodes_of_long ink long⟩

/-- A line that holds a backslash alone hides the word behind it. -/
theorem not_atInk_skipSpace :
    ¬(Token.skipSpace (.seek "say \\\n\\\n  x".toList 4)).AtInk ∧
      (commands "say \\\n  x".toList).map
          (fun c => (c.nodes.map (·.content), c.error.isSome)) =
        [(["say".toList, ['x']], false)] ∧
      (commands "say \\\n\\\n  x".toList).map
          (fun c => (c.nodes.map (·.content), c.error.isSome)) = [(["say".toList], true)] := by
  refine ⟨?_, ?_, ?_⟩ <;> decide +kernel

end
end ChatPreview
