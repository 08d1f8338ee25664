import ChatPreview.Proofs.Line.Local
import ChatPreview.Proofs.Message.Unescape
import ChatPreview.Text.Position
import Mathlib.Data.List.DropRight

namespace ChatPreview
open Text Scan Token

/-- A text with a carriage return before each line feed. -/
def withReturns (s : List Char) : List Char :=
  s.flatMap fun x => if x = '\n' then ['\r', '\n'] else [x]

/-- Where an offset of a text stands in the text with carriage returns. -/
def placeIn (source : List Char) (p : Nat) : Nat := (withReturns (source.take p)).length

section
variable {s t : List Char} {x : Char}

theorem withReturns_nil : withReturns [] = [] := rfl

theorem withReturns_feed (s : List Char) :
    withReturns ('\n' :: s) = '\r' :: '\n' :: withReturns s := rfl

theorem withReturns_cons (other : x ≠ '\n') (s : List Char) :
    withReturns (x :: s) = x :: withReturns s := by
  rw [withReturns, List.flatMap_cons, if_neg other]
  rfl

theorem withReturns_append (s t : List Char) :
    withReturns (s ++ t) = withReturns s ++ withReturns t := List.flatMap_append

theorem withReturns_of_feed_not_mem (noFeed : '\n' ∉ s) : withReturns s = s := by
  induction s with
  | nil => rfl
  | cons x s ih =>
      have other : x ≠ '\n' := fun same => noFeed (by simp [same])
      rw [withReturns_cons other, ih fun member => noFeed (List.mem_cons_of_mem x member)]

theorem isEmpty_withReturns (s : List Char) : (withReturns s).isEmpty = s.isEmpty := by
  cases s with
  | nil => rfl
  | cons x s =>
      by_cases feed : x = '\n'
      · rw [feed, withReturns_feed]
        rfl
      · rw [withReturns_cons feed]
        rfl

theorem head?_withReturns {y : Char} (noFeed : y ≠ '\n') (noReturn : y ≠ '\r') (s : List Char) :
    (withReturns s).head? = some y ↔ s.head? = some y := by
  cases s with
  | nil => rfl
  | cons x s =>
      by_cases feed : x = '\n'
      · rw [feed, withReturns_feed, List.head?_cons, List.head?_cons, Option.some.injEq,
          Option.some.injEq, eq_comm, iff_false_right (Ne.symm noFeed)]
        exact noReturn
      · rw [withReturns_cons feed]
        rfl

theorem noReturn_of_suffix (noReturn : '\r' ∉ s) (part : t <:+ s) : '\r' ∉ t :=
  fun member => noReturn (part.subset member)

theorem noReturn_of_cons (noReturn : '\r' ∉ x :: s) : '\r' ∉ s :=
  noReturn_of_suffix noReturn (List.suffix_cons x s)

/-! ## Runs of characters -/

variable {p : Char → Bool}

theorem dropWhile_withReturns (same : p '\r' = p '\n') (s : List Char) :
    (withReturns s).dropWhile p = withReturns (s.dropWhile p) := by
  induction s with
  | nil => rfl
  | cons x s ih =>
      by_cases feed : x = '\n'
      · rw [feed, withReturns_feed, List.dropWhile_cons, List.dropWhile_cons, List.dropWhile_cons,
          same, ih]
        split <;> rfl
      · rw [withReturns_cons feed, List.dropWhile_cons, List.dropWhile_cons, ih]
        split
        · rfl
        · exact (withReturns_cons feed s).symm

theorem takeWhile_withReturns (same : p '\r' = p '\n') (s : List Char) :
    (withReturns s).takeWhile p = withReturns (s.takeWhile p) := by
  have split := List.takeWhile_append_dropWhile (p := p) (l := withReturns s)
  rw [dropWhile_withReturns same] at split
  apply List.append_cancel_right (split.trans _)
  rw [← withReturns_append, List.takeWhile_append_dropWhile]

theorem dropEndWhile_concat (s : List Char) (x : Char) :
    dropEndWhile p (s ++ [x]) = if p x then dropEndWhile p s else s ++ [x] :=
  List.rdropWhile_concat p s x

theorem dropEndWhile_withReturns (same : p '\r' = p '\n') (s : List Char) :
    dropEndWhile p (withReturns s) = withReturns (dropEndWhile p s) := by
  induction s using List.reverseRecOn with
  | nil => rfl
  | append_singleton s x ih =>
      rw [dropEndWhile_concat, withReturns_append]
      by_cases feed : x = '\n'
      · have pair : withReturns s ++ withReturns [x] = (withReturns s ++ ['\r']) ++ ['\n'] := by
          rw [feed, withReturns_feed, List.append_assoc]
          rfl
        rw [pair, dropEndWhile_concat, dropEndWhile_concat, same, ih, feed]
        split
        · rfl
        · rw [withReturns_append, List.append_assoc]
          rfl
      · rw [withReturns_cons feed, withReturns_nil, dropEndWhile_concat, ih]
        split
        · rfl
        · rw [withReturns_append, withReturns_cons feed, withReturns_nil]

theorem trim_withReturns (s : List Char) : trim (withReturns s) = withReturns (trim s) := by
  rw [trim, trimStart, dropWhile_withReturns rfl, trimEnd, dropEndWhile_withReturns rfl]
  rfl

/-! ## Line ends -/

theorem afterNewline?_withReturns (noReturn : '\r' ∉ s) :
    afterNewline? (withReturns s) = (afterNewline? s).map withReturns := by
  cases s with
  | nil => rfl
  | cons x s =>
      by_cases feed : x = '\n'
      · rw [feed]
        rfl
      · have other : x ≠ '\r' := fun same => noReturn (by simp [same])
        rw [withReturns_cons feed]
        simp [afterNewline?, feed, other]

theorem atNewline_withReturns (noReturn : '\r' ∉ s) :
    atNewline (withReturns s) = atNewline s := by
  rw [atNewline, atNewline, afterNewline?_withReturns noReturn, Option.isSome_map]

/-! ## Continuations -/

theorem afterBreak?_withReturns (noReturn : '\r' ∉ s) :
    Message.afterBreak? (withReturns s) = (Message.afterBreak? s).map withReturns := by
  cases s with
  | nil => rfl
  | cons x s =>
      by_cases feed : x = '\n'
      · rw [feed]
        rfl
      · have later := noReturn_of_suffix (noReturn_of_cons noReturn) (s.dropWhile_suffix isBlank)
        rw [withReturns_cons feed]
        by_cases backslash : x = '\\'
        · rw [backslash, Message.afterBreak?, Message.afterBreak?, dropWhile_withReturns rfl,
            afterNewline?_withReturns later]
        · simp [Message.afterBreak?, backslash]

theorem rest?_withReturns (noReturn : '\r' ∉ s) :
    Continuation.rest? (withReturns s) = (Continuation.rest? s).map withReturns := by
  rw [Message.rest?_eq_afterBreak?, Message.rest?_eq_afterBreak?, afterBreak?_withReturns noReturn,
    Option.map_map, Option.map_map]
  congr 1
  funext r
  exact dropWhile_withReturns rfl r

theorem starts_withReturns (noReturn : '\r' ∉ s) :
    Continuation.starts (withReturns s) = Continuation.starts s := by
  rw [Continuation.starts, Continuation.starts, rest?_withReturns noReturn, Option.isSome_map]

theorem joinLines_withReturns (noReturn : '\r' ∉ s) :
    joinLines (withReturns s) = withReturns (joinLines s) := by
  fun_induction joinLines s with
  | case1 s r found ih =>
      have found' : Continuation.rest? (withReturns s) = some (withReturns r) := by
        rw [rest?_withReturns noReturn, found, Option.map_some]
      rw [joinLines_of_some found',
        ih (noReturn_of_suffix noReturn (Continuation.rest?_suffix found))]
  | case2 => exact joinLines_nil
  | case3 x s free ih =>
      have free' : Continuation.rest? (withReturns (x :: s)) = none := by
        rw [rest?_withReturns noReturn, free, Option.map_none]
      have later := ih (noReturn_of_cons noReturn)
      by_cases feed : x = '\n'
      · rw [feed, withReturns_feed, withReturns_feed, joinLines_cons rfl, joinLines_cons rfl, later]
      · rw [withReturns_cons feed] at free' ⊢
        rw [withReturns_cons feed, joinLines_cons free', later]

/-! ## Strings -/

theorem afterString?_withReturns_cons (quote : Char) (noReturn : '\r' ∉ x :: s)
    (free : Continuation.rest? (x :: s) = none) (inside : ¬atNewline (x :: s)) :
    afterString? quote (withReturns (x :: s)) =
      if x = '\\' then afterString? quote (withReturns (s.drop 1))
      else if x = quote then some (withReturns s) else afterString? quote (withReturns s) := by
  have feed : x ≠ '\n' := fun same => inside (atNewline_iff.2 ⟨s, .inl (by rw [same])⟩)
  have free' : Continuation.rest? (withReturns (x :: s)) = none := by
    rw [rest?_withReturns noReturn, free, Option.map_none]
  have inside' : ¬atNewline (withReturns (x :: s)) := by rwa [atNewline_withReturns noReturn]
  rw [withReturns_cons feed] at free' inside' ⊢
  rw [afterString?_cons free' inside']
  split
  · -- a line feed after the backslash would be a continuation
    cases s with
    | nil => rfl
    | cons y s =>
        have other : y ≠ '\n' := by
          rintro rfl
          rw [‹x = '\\'›] at free
          cases free
        rw [withReturns_cons other]
        rfl
  · rfl

theorem afterString?_withReturns (quote : Char) (noReturn : '\r' ∉ s) :
    afterString? quote (withReturns s) = (afterString? quote s).map withReturns := by
  fun_induction afterString? quote s with
  | case1 s r found ih =>
      have found' : Continuation.rest? (withReturns s) = some (withReturns r) := by
        rw [rest?_withReturns noReturn, found, Option.map_some]
      rw [afterString?_of_some found',
        ih (noReturn_of_suffix noReturn (Continuation.rest?_suffix found))]
  | case2 s free ended =>
      apply afterString?_of_newline
      · rw [rest?_withReturns noReturn, free, Option.map_none]
      · rwa [atNewline_withReturns noReturn]
  | case3 => exact afterString?_nil
  | case4 s free inside ih =>
      rw [afterString?_withReturns_cons quote noReturn free inside, if_pos rfl]
      exact ih (noReturn_of_suffix (noReturn_of_cons noReturn) (List.drop_suffix 1 s))
  | case5 s free plain inside =>
      rw [afterString?_withReturns_cons _ noReturn free inside, if_neg plain, if_pos rfl,
        Option.map_some]
  | case6 x s free plain other inside ih =>
      rw [afterString?_withReturns_cons quote noReturn free inside, if_neg plain, if_neg other]
      exact ih (noReturn_of_cons noReturn)

/-! ## Messages -/

theorem dropBreaks_withReturns (noReturn : '\r' ∉ s) :
    Message.dropBreaks (withReturns s) = withReturns (Message.dropBreaks s) := by
  fun_induction Message.dropBreaks s with
  | case1 s r found ih =>
      have found' : Message.afterBreak? (withReturns s) = some (withReturns r) := by
        rw [afterBreak?_withReturns noReturn, found, Option.map_some]
      rw [Message.dropBreaks_of_some found']
      exact ih (noReturn_of_suffix noReturn (Message.afterBreak?_suffix found))
  | case2 => exact Message.dropBreaks_nil
  | case3 x s free ih =>
      have later := ih (noReturn_of_cons noReturn)
      by_cases feed : x = '\n'
      · rw [feed, withReturns_feed, withReturns_feed, Message.dropBreaks_cons rfl,
          Message.dropBreaks_cons rfl, later]
      · have free' : Message.afterBreak? (withReturns (x :: s)) = none := by
          rw [afterBreak?_withReturns noReturn, free, Option.map_none]
        rw [withReturns_cons feed] at free' ⊢
        rw [withReturns_cons feed, Message.dropBreaks_cons free', later]

theorem unescape_withReturns (noReturn : '\r' ∉ s) :
    Message.unescape (withReturns s) = Message.unescape s := by
  have feeds (t : List Char) : (withReturns t).filter (!Message.isControl ·) =
      t.filter (!Message.isControl ·) := by
    induction t with
    | nil => rfl
    | cons x t ih =>
        by_cases feed : x = '\n'
        · rw [feed, withReturns_feed]
          exact ih
        · rw [withReturns_cons feed, List.filter_cons, List.filter_cons, ih]
  rw [Message.unescape, dropBreaks_withReturns noReturn, feeds, Message.unescape]

/-! ## Places -/

theorem take_withReturns (source : List Char) (p : Nat) :
    (withReturns source).take (placeIn source p) = withReturns (source.take p) := by
  calc
    (withReturns source).take (placeIn source p) =
        (withReturns (source.take p) ++ withReturns (source.drop p)).take (placeIn source p) := by
      rw [← withReturns_append, List.take_append_drop]
    _ = withReturns (source.take p) := by rw [placeIn, List.take_left]

theorem placeIn_length (before after : List Char) :
    placeIn (before ++ after) before.length = (withReturns before).length := by
  rw [placeIn, List.take_left]

theorem placeIn_mono {source : List Char} {p q : Nat} (le : p ≤ q) :
    placeIn source p ≤ placeIn source q := by
  rw [placeIn, placeIn, ← List.take_append_drop p (source.take q), List.take_take, Nat.min_eq_left le,
    withReturns_append, List.length_append]
  exact Nat.le_add_right _ _

theorem extract_withReturns (source : List Char) (p q : Nat) :
    (withReturns source).extract (placeIn source p) (placeIn source q) =
      withReturns (source.extract p q) := by
  rw [List.extract_eq_take_drop, List.extract_eq_take_drop, ← List.drop_take, ← List.drop_take,
    take_withReturns]
  rcases Nat.le_total p q with le | ge
  · have first : (source.take q).take p = source.take p := by
      rw [List.take_take, Nat.min_eq_left le]
    have same : placeIn (source.take q) p = placeIn source p := by rw [placeIn, placeIn, first]
    have split := List.take_append_drop p (source.take q)
    rw [first] at split
    nth_rewrite 1 [← split]
    rw [withReturns_append, placeIn, List.drop_left]
  · have short : (source.take q).length ≤ p := by
      rw [List.length_take]
      omega
    rw [List.drop_eq_nil_of_le short, withReturns_nil]
    exact List.drop_eq_nil_of_le (placeIn_mono ge)

theorem locate_withReturns (source : List Char) (offset : Int) :
    (locate (withReturns source) (placeIn source offset.toNat)).line = (locate source offset).line ∧
      (locate (withReturns source) (placeIn source offset.toNat)).column =
        (locate source offset).column := by
  have feeds (t : List Char) : (withReturns t).count '\n' = t.count '\n' := by
    induction t with
    | nil => rfl
    | cons x t ih =>
        by_cases feed : x = '\n'
        · rw [feed, withReturns_feed, List.count_cons_of_ne (by decide), List.count_cons_self,
            List.count_cons_self, ih]
        · rw [withReturns_cons feed, List.count_cons_of_ne feed, List.count_cons_of_ne feed, ih]
  have last (t : List Char) :
      (withReturns t).reverse.takeWhile (· ≠ '\n') = t.reverse.takeWhile (· ≠ '\n') := by
    induction t using List.reverseRecOn with
    | nil => rfl
    | append_singleton t x ih =>
        rw [withReturns_append, List.reverse_append, List.reverse_append]
        by_cases feed : x = '\n'
        · rw [feed]
          rfl
        · rw [withReturns_cons feed, withReturns_nil, List.reverse_singleton,
            List.singleton_append, List.singleton_append, List.takeWhile_cons, List.takeWhile_cons,
            ih]
  constructor
  · simp only [locate, Int.toNat_natCast, take_withReturns, feeds]
  · simp only [locate, Int.toNat_natCast, take_withReturns, last]

end

end ChatPreview
