import ChatPreview.Scan.Combinators
import ChatPreview.Text.Blank
/-!
A backslash at the end of a line, with any blanks after it, carries the command on to the next
line, past that line's indent.
-/
namespace ChatPreview
open Text Scan

def afterNewline? : List Char → Option (List Char)
  | '\n' :: s => some s
  | '\r' :: '\n' :: s => some s
  | _ => none

def atNewline (s : List Char) : Bool := (afterNewline? s).isSome

def Cursor.atLineEnd (c : Cursor) : Bool := c.atEnd || atNewline c.rest

namespace Continuation

def rest? : List Char → Option (List Char)
  | '\\' :: s => (afterNewline? (s.dropWhile isBlank)).map (·.dropWhile isBlank)
  | _ => none

def starts (s : List Char) : Bool := (rest? s).isSome

theorem length_dropWhile_le (p : Char → Bool) (s : List Char) :
    (s.dropWhile p).length ≤ s.length := (s.dropWhile_suffix p).length_le

theorem afterNewline?_length {s r : List Char} (h : afterNewline? s = some r) :
    r.length < s.length := by
  unfold afterNewline? at h
  split at h
  · cases h
    simp
  · cases h
    simp only [List.length_cons]
    omega
  · cases h

theorem afterNewline?_suffix {s r : List Char} (h : afterNewline? s = some r) : r <:+ s := by
  unfold afterNewline? at h
  split at h <;> cases h
  · exact List.suffix_cons _ _
  · exact (List.suffix_cons _ _).trans (List.suffix_cons _ _)

theorem rest?_length {s r : List Char} (h : rest? s = some r) : r.length < s.length := by
  unfold rest? at h
  split at h
  · rename_i t
    obtain ⟨u, hu, rfl⟩ := Option.map_eq_some_iff.1 h
    have h1 := afterNewline?_length hu
    have h2 := length_dropWhile_le isBlank t
    have h3 := length_dropWhile_le isBlank u
    simp only [List.length_cons]
    omega
  · simp at h

theorem rest?_suffix {s r : List Char} (h : rest? s = some r) : r <:+ s := by
  unfold rest? at h
  split at h
  · rename_i t
    obtain ⟨u, hu, rfl⟩ := Option.map_eq_some_iff.1 h
    have inner := (u.dropWhile_suffix isBlank).trans (afterNewline?_suffix hu)
    exact (inner.trans (t.dropWhile_suffix isBlank)).trans (List.suffix_cons _ _)
  · simp at h

end Continuation

/-- Takes the continuations out of a text. -/
def joinLines (s : List Char) : List Char :=
  match _h : Continuation.rest? s with
  | some rest => joinLines rest
  | none =>
    match s with
    | [] => []
    | c :: s => c :: joinLines s
termination_by s.length
decreasing_by
  · exact Continuation.rest?_length _h
  · simp

theorem joinLines_of_some {s r : List Char} (found : Continuation.rest? s = some r) :
    joinLines s = joinLines r := by
  rw [joinLines]
  split
  · rename_i other
    rw [found] at other
    cases other
    rfl
  · rename_i other
    rw [found] at other
    cases other

theorem joinLines_cons {x : Char} {s : List Char} (free : Continuation.rest? (x :: s) = none) :
    joinLines (x :: s) = x :: joinLines s := by
  rw [joinLines]
  split
  · rename_i other
    rw [free] at other
    cases other
  · rfl

theorem joinLines_nil : joinLines [] = [] := by
  rw [joinLines]
  rfl

def blankClass : CharClass := ⟨"[ \\t]", false, [(' ', ' '), ('\t', '\t')]⟩

def newline : Scan (List Char) := oneOf [['\n'], ['\r', '\n']]

def continuation : Scan Unit := do
  let _ ← expect ['\\']
  let _ ← atLeast 0 blankClass
  let _ ← newline
  let _ ← atLeast 0 blankClass

def continuationValue? : Unit → Option Unit := fun () => none

theorem blankClass_has : blankClass.has = isBlank := by
  funext x
  have only (a : Char) : (decide (a ≤ x) && decide (x ≤ a)) = (x == a) := by
    by_cases h : x = a
    · simp [h]
    · have : ¬(a ≤ x ∧ x ≤ a) := fun ⟨low, high⟩ => h (Char.le_antisymm high low)
      rw [← Bool.decide_and, decide_eq_false this, beq_eq_false_iff_ne.2 h]
  simp [CharClass.has, blankClass, only, isBlank]

theorem blanks_eq (c : Cursor) :
    atLeast 0 blankClass c = .ok (c.rest.takeWhile isBlank) (c.skipWhile isBlank) := by
  simp [atLeast, blankClass_has, Cursor.skipWhile]

theorem newline_of_some {c : Cursor} {rest : List Char} (h : afterNewline? c.rest = some rest) :
    ∃ got, newline c = .ok got (c.leave rest) := by
  unfold afterNewline? at h
  split at h
  · rename_i found
    cases h
    exact ⟨['\n'], by simp [newline, oneOf, found, Cursor.leave, Cursor.advance]⟩
  · rename_i found
    cases h
    refine ⟨['\r', '\n'], ?_⟩
    have two : rest.length + 2 - rest.length = 2 := by omega
    simp [newline, oneOf, found, Cursor.leave, Cursor.advance, two]
  · cases h

theorem newline_of_none {c : Cursor} (h : afterNewline? c.rest = none) :
    ∃ e, newline c = .fail e c := by
  have none : [['\n'], ['\r', '\n']].find? (·.isPrefixOf c.rest) = none := by
    refine List.find?_eq_none.2 fun text member => ?_
    intro starts
    obtain ⟨s, split⟩ := List.isPrefixOf_iff_prefix.1 starts
    simp only [List.mem_cons, List.not_mem_nil, or_false] at member
    rcases member with rfl | rfl <;> simp [← split, afterNewline?] at h
  refine ⟨⟨.expectedOneOf [['\n'], ['\r', '\n']] c.peek, c.pos⟩, ?_⟩
  simp only [newline, oneOf, none]

theorem continuation_of_some {c : Cursor} {rest : List Char}
    (h : Continuation.rest? c.rest = some rest) : continuation c = .ok () (c.leave rest) := by
  have tail := Continuation.rest?_suffix h
  unfold Continuation.rest? at h
  split at h
  · rename_i t found
    obtain ⟨u, ended, rfl⟩ := Option.map_eq_some_iff.1 h
    let c₁ := c.advance 1
    let c₂ := c₁.skipWhile isBlank
    have rest₁ : c₁.rest = t := by simp [c₁, Cursor.advance, found]
    have rest₂ : afterNewline? c₂.rest = some u := by rw [c₁.skipWhile_rest, rest₁, ended]
    obtain ⟨got, ending⟩ := newline_of_some rest₂
    have backslash : expect ['\\'] c = .ok ['\\'] c₁ := by simp [expect, found, c₁]
    have inside : c.Reaches c₁ := c.reaches_advance (by simp [found])
    have line : c.Reaches (c₂.leave u) :=
      (inside.trans (c₁.reaches_skipWhile isBlank)).trans
        (c₂.reaches_leave (Continuation.afterNewline?_suffix rest₂))
    have last : c.Reaches ((c₂.leave u).skipWhile isBlank) :=
      line.trans (Cursor.reaches_skipWhile isBlank _)
    have same : (c₂.leave u).skipWhile isBlank = c.leave (u.dropWhile isBlank) :=
      last.eq_of_rest_eq (c.reaches_leave tail) (Cursor.skipWhile_rest isBlank _)
    simp only [continuation, bind_apply, backslash, blanks_eq, ending, same, c₂, pure_apply]
  · cases h

theorem continuation_of_none {c : Cursor} (h : Continuation.rest? c.rest = none) :
    ∃ e d, continuation c = .fail e d := by
  unfold continuation
  rw [bind_apply]
  split
  · rename_i got c₁ backslash
    unfold expect at backslash
    split at backslash
    · rename_i starts
      cases backslash
      obtain ⟨t, found⟩ := List.isPrefixOf_iff_prefix.1 starts
      have rest₁ : (c.advance 1).rest = t := by simp [Cursor.advance, ← found]
      have open' : afterNewline? ((c.advance 1).skipWhile isBlank).rest = none := by
        rw [Cursor.skipWhile_rest, rest₁]
        simpa [Continuation.rest?, ← found] using h
      obtain ⟨e, failed⟩ := newline_of_none open'
      refine ⟨e, (c.advance 1).skipWhile isBlank, ?_⟩
      simp only [bind_apply, List.length_singleton, blanks_eq, failed]
    · cases backslash
  · exact ⟨_, _, rfl⟩

end ChatPreview
