import ChatPreview.Text.Excerpt
import ChatPreview.Proofs.Place.Positions

namespace ChatPreview.Text
open Place (Finished)

/-- How many breaks of a display neither are line feeds nor stand as carriage returns before one. -/
def strays : List Char → Nat
  | [] => 0
  | '\r' :: '\n' :: s => strays s
  | c :: s => (if c ≠ '\n' ∧ breaksLine c then 1 else 0) + strays s

/-! ## Breaks -/

section
variable {c : Char} {s t : List Char}

/-- A text is read break by break: a carriage return and a line feed are one, and any other stands
alone. -/
theorem break_induction {motive : List Char → Prop} (nil : motive [])
    (pair : ∀ s, motive s → motive ('\r' :: '\n' :: s))
    (single : ∀ c s, breaksLine c → (c = '\r' → s.head? ≠ some '\n') → motive s → motive (c :: s))
    (inside : ∀ c s, ¬breaksLine c → motive s → motive (c :: s)) (t : List Char) : motive t := by
  fun_induction strays t with
  | case1 => exact nil
  | case2 s ih => exact pair s ih
  | case3 c s other ih =>
      by_cases breaks : breaksLine c
      · apply single c s breaks _ ih
        intro ret feed
        obtain ⟨t, rfl⟩ := List.head?_eq_some_iff.mp feed
        exact other t ret rfl
      · exact inside c s breaks ih

theorem displayLines_pair (s : List Char) :
    displayLines ('\r' :: '\n' :: s) = ['\r', '\n'] :: displayLines s := rfl

theorem displayLines_single (breaks : breaksLine c) (alone : c = '\r' → s.head? ≠ some '\n') :
    displayLines (c :: s) = [c] :: displayLines s := by
  rw [displayLines]
  · rw [if_pos breaks]
  · rintro t rfl rfl
    exact alone rfl rfl

theorem displayLines_inside (inside : ¬breaksLine c) : displayLines (c :: s) =
    (c :: (displayLines s).head?.getD []) :: (displayLines s).tail := by
  rw [displayLines]
  · rw [if_neg inside]
    cases displayLines s <;> rfl
  · rintro t rfl rfl
    exact inside rfl

theorem displayLines_ne_nil (nonempty : t ≠ []) : displayLines t ≠ [] := by
  induction t using break_induction with
  | nil => exact absurd rfl nonempty
  | pair s => exact List.cons_ne_nil _ _
  | single c s breaks alone =>
      rw [displayLines_single breaks alone]
      exact List.cons_ne_nil _ _
  | inside c s inside =>
      rw [displayLines_inside inside]
      exact List.cons_ne_nil _ _

theorem strays_pair (s : List Char) : strays ('\r' :: '\n' :: s) = strays s := rfl

theorem strays_feed (s : List Char) : strays ('\n' :: s) = strays s := Nat.zero_add _

theorem strays_single (breaks : breaksLine c) (other : c ≠ '\n')
    (alone : c = '\r' → s.head? ≠ some '\n') : strays (c :: s) = strays s + 1 := by
  rw [strays]
  · rw [if_pos ⟨other, breaks⟩, Nat.add_comm]
  · rintro t rfl rfl
    exact alone rfl rfl

theorem strays_inside (inside : ¬breaksLine c) : strays (c :: s) = strays s := by
  rw [strays]
  · rw [if_neg fun both => inside both.2, Nat.zero_add]
  · rintro t rfl rfl
    exact inside rfl

theorem alone_append (finished : Finished (c :: s)) (alone : c = '\r' → s.head? ≠ some '\n')
    (t : List Char) : c = '\r' → (s ++ t).head? ≠ some '\n' := by
  rintro rfl
  rw [finished.head?_append (by decide)]
  exact alone rfl

theorem displayLines_append (finished : Finished t) (s : List Char) :
    displayLines (t ++ s) = displayLines t ++ displayLines s := by
  induction t using break_induction with
  | nil => rfl
  | pair t ih =>
      rw [List.cons_append, List.cons_append, displayLines_pair, displayLines_pair,
        ih finished.tail.tail, List.cons_append]
  | single c t breaks alone ih =>
      rw [List.cons_append, displayLines_single breaks (alone_append finished alone s),
        displayLines_single breaks alone, ih finished.tail, List.cons_append]
  | inside c t inside ih =>
      have other : c ≠ '\n' := by
        rintro rfl
        exact inside rfl
      obtain ⟨line, lines, split⟩ :=
        List.exists_cons_of_ne_nil (displayLines_ne_nil (finished.ne_nil other))
      rw [List.cons_append, displayLines_inside inside, displayLines_inside inside,
        ih finished.tail, split]
      rfl

/-- A display has one line more for each stray break. -/
theorem length_displayLines (finished : Finished t) :
    (displayLines t).length = t.count '\n' + strays t := by
  induction t using break_induction with
  | nil => rfl
  | pair t ih =>
      have length := ih finished.tail.tail
      rw [displayLines_pair, strays_pair, List.length_cons, length,
        List.count_cons_of_ne (by decide), List.count_cons_self]
      omega
  | single c t breaks alone ih =>
      have length := ih finished.tail
      rw [displayLines_single breaks alone, List.length_cons, length]
      by_cases feed : c = '\n'
      · subst feed
        rw [List.count_cons_self, strays_feed]
        omega
      · rw [List.count_cons_of_ne feed, strays_single breaks feed alone, Nat.add_assoc]
  | inside c t inside ih =>
      have other : c ≠ '\n' := by
        rintro rfl
        exact inside rfl
      have length := ih finished.tail
      have more := List.length_pos_iff.mpr (displayLines_ne_nil (finished.ne_nil other))
      rw [displayLines_inside inside, List.count_cons_of_ne other, strays_inside inside, ← length,
        List.length_cons, List.length_tail]
      omega

theorem strays_append (finished : Finished t) (s : List Char) :
    strays (t ++ s) = strays t + strays s := by
  induction t using break_induction with
  | nil => exact (Nat.zero_add _).symm
  | pair t ih =>
      rw [List.cons_append, List.cons_append, strays_pair, strays_pair, ih finished.tail.tail]
  | single c t breaks alone ih =>
      rw [List.cons_append]
      by_cases feed : c = '\n'
      · subst feed
        rw [strays_feed, strays_feed, ih finished.tail]
      · rw [strays_single breaks feed (alone_append finished alone s),
          strays_single breaks feed alone, ih finished.tail, Nat.add_right_comm]
  | inside c t inside ih =>
      rw [List.cons_append, strays_inside inside, strays_inside inside, ih finished.tail]

end

end ChatPreview.Text
