import ChatPreview.Scan.Combinators
import Mathlib.Data.List.Forall2
import Mathlib.Data.Option.Basic
/-!
Scanners that agree: from related cursors they both read, to related values and related cursors, or
both fail. The combinators keep agreement, whatever the relations.
-/
namespace ChatPreview
variable {α β γ δ : Type}

inductive Outcome.Agree (R : Cursor → Cursor → Prop) (V : α → β → Prop) :
    Outcome α → Outcome β → Prop where
  | ok {a : α} {b : β} {c d : Cursor} (values : V a b) (next : R c d) :
      Outcome.Agree R V (.ok a c) (.ok b d)
  | fail {e e' : Failure} {c d : Cursor} : Outcome.Agree R V (.fail e c) (.fail e' d)

def Outcome.Fails (o : Outcome α) : Prop := ∃ e c, o = .fail e c

namespace Scan

def Agree (R : Cursor → Cursor → Prop) (V : α → β → Prop) (s : Scan α) (t : Scan β) : Prop :=
  ∀ ⦃c d⦄, R c d → (s c).Agree R V (t d)

variable {R : Cursor → Cursor → Prop} {V : α → β → Prop} {W : γ → δ → Prop}
variable {s : Scan α} {t : Scan β}

theorem bind_of_ok {f : α → Scan γ} {a : α} {c d : Cursor} (read : s c = .ok a d) :
    (s >>= f) c = f a d := by
  rw [bind_apply, read]

theorem fails_bind {f : α → Scan γ} {c : Cursor} (first : (s c).Fails) : ((s >>= f) c).Fails := by
  obtain ⟨e, d, failed⟩ := first
  exact ⟨e, d, by rw [bind_apply, failed]⟩

theorem fails_bind_of_ok {f : α → Scan γ} {a : α} {c d : Cursor} (read : s c = .ok a d)
    (next : (f a d).Fails) : ((s >>= f) c).Fails := by
  rwa [bind_of_ok read]

theorem firstOf_of_ok {rest : List (Scan α)} {a : α} {c d : Cursor} (read : s c = .ok a d) :
    firstOf (s :: rest) c = .ok a d := by
  simp only [firstOf, read]

theorem firstOf_of_fails {rest : List (Scan α)} {c : Cursor} (first : (s c).Fails) :
    firstOf (s :: rest) c = firstOf rest c := by
  obtain ⟨e, d, failed⟩ := first
  simp only [firstOf, failed]

theorem fails_firstOf {scanners : List (Scan α)} {c : Cursor}
    (each : ∀ s ∈ scanners, (s c).Fails) : (firstOf scanners c).Fails := by
  induction scanners with
  | nil => exact ⟨_, _, rfl⟩
  | cons s rest ih =>
      rw [firstOf_of_fails (each s List.mem_cons_self)]
      exact ih fun t member => each t (List.mem_cons_of_mem s member)

theorem fails_expect {x : Char} {c : Cursor} (other : c.rest.head? ≠ some x) :
    (expect [x] c).Fails := by
  refine ⟨⟨.expected [x] (common [x] c.rest ++ c.peek), c.pos⟩, c, if_neg fun starts => other ?_⟩
  obtain ⟨t, split⟩ := List.isPrefixOf_iff_prefix.1 starts
  simp [← split]

theorem agree_pure {a : α} {b : β} (values : V a b) : Agree R V (pure a : Scan α) (pure b) :=
  fun _ _ related => .ok values related

theorem agree_fail (cause cause' : Cause) : Agree R V (fail cause : Scan α) (fail cause') :=
  fun _ _ _ => .fail

theorem agree_bind {f : α → Scan γ} {g : β → Scan δ} (first : Agree R V s t)
    (next : ∀ a b, V a b → Agree R W (f a) (g b)) : Agree R W (s >>= f) (t >>= g) := by
  intro c d related
  have outcomes := first related
  rw [bind_apply, bind_apply]
  cases left : s c with
  | ok a c₁ =>
      rw [left] at outcomes
      cases right : t d with
      | ok b d₁ =>
          rw [right] at outcomes
          cases outcomes with
          | ok values after => exact next a b values after
      | fail e d₁ => rw [right] at outcomes; cases outcomes
  | fail e c₁ =>
      rw [left] at outcomes
      cases right : t d with
      | ok b d₁ => rw [right] at outcomes; cases outcomes
      | fail e' d₁ => exact .fail

theorem agree_attempt (first : Agree R V s t) :
    Agree R (Option.Rel V) (attempt s) (attempt t) := by
  intro c d related
  have outcomes := first related
  unfold attempt
  generalize s c = left at outcomes
  generalize t d = right at outcomes
  cases outcomes with
  | ok values after => exact .ok (.some values) after
  | fail => exact .ok .none related

theorem agree_firstOf {scanners : List (Scan α)} {scanners' : List (Scan β)}
    (each : List.Forall₂ (Agree R V) scanners scanners') :
    Agree R V (firstOf scanners) (firstOf scanners') := by
  induction each with
  | nil => exact agree_fail _ _
  | @cons s t rest rest' first _ ih =>
      intro c d related
      have outcomes := first related
      unfold firstOf
      generalize s c = left at outcomes
      generalize t d = right at outcomes
      cases outcomes with
      | ok values after => exact .ok values after
      | fail => exact ih related

theorem Agree.ok {a : α} {c c₁ d : Cursor} (agree : Agree R V s t) (related : R c d)
    (read : s c = .ok a c₁) : ∃ b d₁, t d = .ok b d₁ ∧ V a b ∧ R c₁ d₁ := by
  have outcomes := agree related
  rw [read] at outcomes
  generalize right : t d = o at outcomes
  cases outcomes with
  | ok values after => exact ⟨_, _, rfl, values, after⟩

theorem Agree.fails {e : Failure} {c c₁ d : Cursor} (agree : Agree R V s t) (related : R c d)
    (failed : s c = .fail e c₁) : (t d).Fails := by
  have outcomes := agree related
  rw [failed] at outcomes
  generalize right : t d = o at outcomes
  cases outcomes with
  | fail => exact ⟨_, _, rfl⟩

theorem separated_of_fails {item : Scan α} {separator : Scan γ} {c : Cursor}
    (failed : (item c).Fails) : separated item separator c = .ok [] c := by
  obtain ⟨e, d, failed⟩ := failed
  rw [separated, failed]
  simp

theorem separated_ok (item : Scan α) (separator : Scan γ) (c : Cursor) :
    ∃ as d, separated item separator c = .ok as d := by
  fun_induction separated item separator c with
  | case1 c => exact ⟨[], c, rfl⟩
  | case2 c => exact ⟨[], c, rfl⟩
  | case3 c _ a c₁ => exact ⟨[a], c₁, rfl⟩
  | case4 c _ a c₁ _ b c₂ _ _ as c₃ => exact ⟨a :: as, c₃, rfl⟩
  | case5 c _ a c₁ _ b c₂ _ _ e c₃ tail ih =>
      obtain ⟨as, c₄, whole⟩ := ih
      rw [whole] at tail
      cases tail
  | case6 c _ a c₁ _ b c₂ => exact ⟨[a], c₂, rfl⟩

theorem agree_separated {item : Scan α} {item' : Scan β} {separator : Scan γ}
    {separator' : Scan δ} (items : Agree R V item item') (separators : Agree R W separator separator')
    (ends : ∀ {c d}, R c d → (c.atEnd = d.atEnd) ∨ (item c).Fails ∧ (item' d).Fails)
    (shrinks : ∀ {c d c' d'}, R c d → R c' d' → c.Reaches c' → d.Reaches d' →
      (c'.rest.length < c.rest.length ↔ d'.rest.length < d.rest.length))
    (forward : Forward item) (forward' : Forward item') (onward : Forward separator)
    (onward' : Forward separator') :
    Agree R (List.Forall₂ V) (separated item separator) (separated item' separator') := by
  intro c d related
  have goesOn {c d a c₁} (related : R c d) (inside : ¬c.atEnd = true)
      (read : item c = .ok a c₁) : ¬d.atEnd = true := by
    rcases ends related with same | ⟨⟨e, c', failed⟩, _⟩
    · exact same ▸ inside
    · rw [read] at failed
      cases failed
  fun_induction separated item separator c generalizing d with
  | case1 c ended =>
      rcases ends related with same | ⟨_, failed⟩
      · rw [separated, if_pos (same ▸ ended)]
        exact .ok .nil related
      · rw [separated_of_fails failed]
        exact .ok .nil related
  | case2 c _ e c₁ failed =>
      rw [separated_of_fails (items.fails related failed)]
      exact .ok .nil related
  | case3 c inside a c₁ read e c₂ failed =>
      obtain ⟨b, d₁, read', values, after⟩ := items.ok related read
      obtain ⟨e', d₂, failed'⟩ := separators.fails after failed
      rw [separated_of_last (goesOn related inside read) read' failed']
      exact .ok (.cons values .nil) after
  | case4 c inside a c₁ read b c₂ apart shorter as c₃ tail ih =>
      obtain ⟨a', d₁, read', values, after⟩ := items.ok related read
      obtain ⟨b', d₂, apart', _, beyond⟩ := separators.ok after apart
      have moved := (forward read).trans (onward apart)
      have moved' := (forward' read').trans (onward' apart')
      have outcomes := ih beyond
      rw [tail] at outcomes
      rw [separated, if_neg (goesOn related inside read), read']
      simp only [apart', if_pos ((shrinks related beyond moved moved').1 shorter)]
      generalize separated item' separator' d₂ = right at outcomes
      cases outcomes with
      | ok more last => exact .ok (.cons values more) last
  | case5 c inside a c₁ read b c₂ apart shorter e c₃ tail ih =>
      obtain ⟨as, c₄, whole⟩ := separated_ok item separator c₂
      rw [whole] at tail
      cases tail
  | case6 c inside a c₁ read b c₂ apart same =>
      obtain ⟨a', d₁, read', values, after⟩ := items.ok related read
      obtain ⟨b', d₂, apart', _, beyond⟩ := separators.ok after apart
      have moved := (forward read).trans (onward apart)
      have moved' := (forward' read').trans (onward' apart')
      have same' := mt (shrinks related beyond moved moved').2 same
      rw [separated_of_still (goesOn related inside read) read' apart' same']
      exact .ok (.cons values .nil) beyond

end Scan
end ChatPreview
