import ChatPreview.Proofs.Alignment.Basic
import ChatPreview.Proofs.Backtracking.Basic
import ChatPreview.Scan.Script
/-!
Backtracking leaves no trace: an expression that is evaluated with a moving cursor ends as its
scanner does, and only a sequence that fails leaves the cursor elsewhere than where it began.
-/
namespace ChatPreview
open Scan

def Outcome.cursor {α : Type} : Outcome α → Cursor
  | .ok _ c => c
  | .fail _ c => c

def Routine.Ending.Failed {α : Type} (ending : Routine.Ending α) : Prop :=
  ∃ why s, ending = .failed why s

namespace Outcome
variable {α : Type} {o : Outcome α} {depth : Int} {s : Routine.State}

theorem withDepth_eq_done {a : α} :
    o.withDepth depth = .done a s ↔ ∃ c, o = .ok a c ∧ s = ⟨c, depth⟩ := by
  constructor
  · intro same
    cases o with
    | ok b c =>
        cases same
        exact ⟨c, rfl, rfl⟩
    | fail why c => cases same
  · rintro ⟨c, rfl, rfl⟩
    rfl

theorem withDepth_eq_failed {why : Failure} :
    o.withDepth depth = .failed why s ↔ ∃ c, o = .fail why c ∧ s = ⟨c, depth⟩ := by
  constructor
  · intro same
    cases o with
    | ok b c => cases same
    | fail why c =>
        cases same
        exact ⟨c, rfl, rfl⟩
  · rintro ⟨c, rfl, rfl⟩
    rfl

theorem failed_withDepth : (o.withDepth depth).Failed ↔ o.Fails := by
  constructor
  · rintro ⟨why, s, same⟩
    obtain ⟨c, stopped, _⟩ := withDepth_eq_failed.mp same
    exact ⟨why, c, stopped⟩
  · rintro ⟨why, c, rfl⟩
    exact ⟨why, ⟨c, depth⟩, rfl⟩

end Outcome

namespace Scan
variable {α β : Type} {s : Scan α} {f : α → Scan β} {c d : Cursor}

/-- Whether a scanner leaves the cursor in the text ahead, even where it fails. -/
def Ahead (s : Scan α) : Prop := ∀ c : Cursor, c.Reaches (s c).cursor

theorem Ahead.forward (ahead : Ahead s) : Forward s := by
  intro c a d read
  have reached := ahead c
  rw [read] at reached
  exact reached

theorem ahead_of_restores (forward : Forward s) (restores : Restores s) : Ahead s := by
  intro c
  cases read : s c with
  | ok a d => exact forward read
  | fail e d =>
      rw [restores read]
      exact .refl c

theorem ahead_bind (first : Ahead s) (next : ∀ a, Ahead (f a)) : Ahead (s >>= f) := by
  intro c
  have reached := first c
  rw [bind_apply]
  cases read : s c with
  | ok a d =>
      rw [read] at reached
      exact reached.trans (next a d)
  | fail e d =>
      rw [read] at reached
      exact reached

theorem ahead_pure (a : α) : Ahead (pure a : Scan α) := fun c => .refl c

theorem map_apply (g : α → β) (s : Scan α) (c : Cursor) : (g <$> s) c =
    match s c with
    | .ok a d => .ok (g a) d
    | .fail e d => .fail e d := rfl

theorem ahead_map (g : α → β) (ahead : Ahead s) : Ahead (g <$> s) :=
  ahead_bind ahead fun a => ahead_pure (g a)

theorem restores_map (g : α → β) (restores : Restores s) : Restores (g <$> s) := by
  intro c e d failed
  rw [map_apply] at failed
  split at failed
  · cases failed
  · rename_i stopped
    cases failed
    exact restores stopped

theorem not_fails_map {g : α → β} (read : ∃ a d, s c = .ok a d) : ¬((g <$> s) c).Fails := by
  obtain ⟨a, d, read⟩ := read
  rw [map_apply, read]
  exact nofun

end Scan

theorem exists_chars (p : Char → Bool) : ∃ chars : List Char, chars.contains = p := by
  refine ⟨((List.range 1114112).map Char.ofNat).filter p, funext fun c => ?_⟩
  have below : c.toNat < 1114112 := by
    rcases c.valid with low | ⟨_, high⟩
    · exact Nat.lt_trans low (by decide)
    · exact high
  have listed : c ∈ (List.range 1114112).map Char.ofNat :=
    List.mem_map.mpr ⟨c.toNat, List.mem_range.mpr below, Char.ofNat_toNat c⟩
  rw [Bool.eq_iff_iff, List.contains_iff_mem, List.mem_filter, and_iff_right listed]

theorem CharClass.has_of_chars (written : String) (chars : List Char) :
    (⟨written, false, chars.map fun c => (c, c)⟩ : CharClass).has = chars.contains := by
  funext c
  rw [Bool.eq_iff_iff, List.contains_iff_mem, has, Bool.bne_false, List.any_map, List.any_eq_true]
  constructor
  · rintro ⟨x, listed, same⟩
    simp only [Function.comp_apply, Bool.and_eq_true, decide_eq_true_eq] at same
    rwa [Char.le_antisymm same.2 same.1]
  · intro listed
    exact ⟨c, listed, by simp⟩

namespace Expr

mutual

/-- Evaluates an expression with a moving cursor, each loop in so many rounds. -/
def eval (rounds : Nat) : Expr → Routine Reading
  | .expect text => .text <$> Routine.Stepwise.expect text
  | .oneOf choices => .text <$> Routine.Stepwise.oneOf choices
  | .member k => .text <$> Routine.Stepwise.member k
  | .atLeast least k => .text <$> Routine.Stepwise.atLeast least k rounds
  | .takeWhile chars => .text <$> Routine.Stepwise.takeWhile chars.contains rounds
  | .takeUntil chars => .text <$> Routine.Stepwise.takeWhile (!chars.contains ·) rounds
  | .next => .text <$> Routine.scan Scan.next
  | .fail message none => Routine.scan (Scan.fail (.custom message))
  | .fail message (some offset) => Routine.scan (Scan.failAt (.custom message) offset)
  | .attempt e => (fun r => r.getD .nothing) <$> Routine.attempt (eval rounds e)
  | .firstOf es => Routine.firstOf (evalEach rounds es)
  | .all es => .list <$> evalAll rounds es
  | .separated item separator =>
    .list <$> Routine.separated (eval rounds item) (eval rounds separator) rounds

def evalEach (rounds : Nat) : List Expr → List (Routine Reading)
  | [] => []
  | e :: es => eval rounds e :: evalEach rounds es

def evalAll (rounds : Nat) : List Expr → Routine (List Reading)
  | [] => pure []
  | e :: es => do
    let r ← eval rounds e
    let rs ← evalAll rounds es
    return r :: rs

end

@[elab_as_elim]
theorem induction {motive : Expr → Prop} (expect : ∀ text, motive (.expect text))
    (oneOf : ∀ choices, motive (.oneOf choices)) (member : ∀ k, motive (.member k))
    (atLeast : ∀ least k, motive (.atLeast least k))
    (takeWhile : ∀ chars, motive (.takeWhile chars))
    (takeUntil : ∀ chars, motive (.takeUntil chars)) (next : motive .next)
    (fail : ∀ message offset, motive (.fail message offset))
    (attempt : ∀ e, motive e → motive (.attempt e))
    (firstOf : ∀ es, (∀ e ∈ es, motive e) → motive (.firstOf es))
    (all : ∀ es, (∀ e ∈ es, motive e) → motive (.all es))
    (separated : ∀ item separator, motive item → motive separator →
      motive (.separated item separator)) (e : Expr) : motive e :=
  @Expr.rec motive (fun es => ∀ e ∈ es, motive e) expect oneOf member atLeast takeWhile takeUntil
    next fail attempt firstOf all separated (List.forall_mem_nil motive)
    (fun _ _ first rest => List.forall_mem_cons.mpr ⟨first, rest⟩) e

theorem runEach_eq (es : List Expr) : runEach es = es.map run := by
  induction es with
  | nil => rfl
  | cons e es ih => rw [runEach, List.map_cons, ih]

theorem restores_run {e : Expr} (single : ∀ es, e ≠ .all es) : Restores e.run := by
  cases e with
  | expect text => exact restores_map _ (restores_expect text)
  | oneOf choices => exact restores_map _ (restores_oneOf choices)
  | member k => exact restores_map _ (restores_member k)
  | atLeast least k => exact restores_map _ (restores_atLeast least k)
  | takeWhile chars => exact restores_map _ (restores_of_ok fun _ => ⟨_, _, rfl⟩)
  | takeUntil chars => exact restores_map _ (restores_of_ok fun _ => ⟨_, _, rfl⟩)
  | next => exact restores_map _ (restores_of_ok fun _ => ⟨_, _, rfl⟩)
  | fail message offset =>
      cases offset with
      | none => exact restores_fail _
      | some offset => exact restores_failAt _ offset
  | attempt e => exact restores_map _ (restores_of_ok (attempt_ok e.run))
  | firstOf es => exact restores_firstOf (runEach es)
  | all es => exact absurd rfl (single es)
  | separated item separator =>
      exact restores_map _ (restores_of_ok (separated_ok item.run separator.run))

theorem ahead_runAll {es : List Expr} (each : ∀ e ∈ es, Ahead e.run) : Ahead (runAll es) := by
  induction es with
  | nil => exact ahead_pure []
  | cons e es ih =>
      obtain ⟨first, rest⟩ := List.forall_mem_cons.mp each
      exact ahead_bind first fun r => ahead_bind (ih rest) fun rs => ahead_pure (r :: rs)

theorem ahead_run (e : Expr) : Ahead e.run := by
  induction e using Expr.induction with
  | expect text =>
      exact ahead_map _ (ahead_of_restores (fun _ _ _ => reaches_expect) (restores_expect text))
  | oneOf choices =>
      exact ahead_map _ (ahead_of_restores (forward_oneOf choices) (restores_oneOf choices))
  | member k => exact ahead_map _ (ahead_of_restores (forward_member k) (restores_member k))
  | atLeast least k =>
      exact ahead_map _ (ahead_of_restores (forward_atLeast least k) (restores_atLeast least k))
  | takeWhile chars => exact ahead_map _ (Cursor.reaches_skipWhile _)
  | takeUntil chars => exact ahead_map _ (Cursor.reaches_skipWhile _)
  | next => exact ahead_map _ reaches_next
  | fail message offset => cases offset <;> exact Cursor.Reaches.refl
  | attempt e ih =>
      exact ahead_map _ (ahead_of_restores (forward_attempt ih.forward)
        (restores_of_ok (attempt_ok e.run)))
  | firstOf es each =>
      refine ahead_of_restores (forward_firstOf ?_) (restores_firstOf (runEach es))
      rw [runEach_eq]
      exact List.forall_mem_map.mpr fun e member => (each e member).forward
  | all es each => exact ahead_map _ (ahead_runAll each)
  | separated item separator first second =>
      exact ahead_map _ (ahead_of_restores (forward_separated first.forward second.forward)
        (restores_of_ok (separated_ok item.run separator.run)))

section
variable {size rounds : Nat} {depth : Int}

theorem follows_evalEach {es : List Expr}
    (each : ∀ e ∈ es, Routine.Follows size depth (e.eval rounds) e.run) :
    Routine.Follows size depth (Routine.firstOf (evalEach rounds es))
      (Scan.firstOf (runEach es)) := by
  induction es with
  | nil => exact Routine.follows_firstOf_nil
  | cons e es ih =>
      obtain ⟨first, rest⟩ := List.forall_mem_cons.mp each
      exact Routine.follows_firstOf_cons first (ih rest)

theorem follows_evalAll {es : List Expr}
    (each : ∀ e ∈ es, Routine.Follows size depth (e.eval rounds) e.run) :
    Routine.Follows size depth (evalAll rounds es) (runAll es) := by
  induction es with
  | nil => exact Routine.follows_pure []
  | cons e es ih =>
      obtain ⟨first, rest⟩ := List.forall_mem_cons.mp each
      have more : Forward (runAll es) := (ahead_runAll fun e _ => ahead_run e).forward
      refine Routine.follows_bind (ahead_run e).forward first fun r => ?_
      exact Routine.follows_bind more (ih rest) fun rs => Routine.follows_pure (r :: rs)

/-- No loop runs longer than there is text, so evaluation ends, and as the scanner does. -/
theorem follows_eval (enough : size < rounds) (e : Expr) :
    Routine.Follows size depth (e.eval rounds) e.run := by
  induction e using Expr.induction with
  | expect text => exact Routine.follows_map _ (Routine.Stepwise.follows_expect text)
  | oneOf choices => exact Routine.follows_map _ (Routine.Stepwise.follows_oneOf choices)
  | member k => exact Routine.follows_map _ (Routine.Stepwise.follows_member k)
  | atLeast least k => exact Routine.follows_map _ (Routine.Stepwise.follows_atLeast least k enough)
  | takeWhile chars => exact Routine.follows_map _ (Routine.Stepwise.follows_takeWhile _ enough)
  | takeUntil chars => exact Routine.follows_map _ (Routine.Stepwise.follows_takeWhile _ enough)
  | next => exact Routine.follows_map _ (Routine.follows_scan _)
  | fail message offset => cases offset <;> exact Routine.follows_scan _
  | attempt e ih => exact Routine.follows_map _ (Routine.follows_attempt ih)
  | firstOf es each => exact follows_evalEach each
  | all es each => exact Routine.follows_map _ (follows_evalAll each)
  | separated item separator first second =>
      exact Routine.follows_map _ (Routine.follows_separated (ahead_run item).forward
        (ahead_run separator).forward first second enough)

end

/-- What the evaluation of expressions from a position of a source does, and what it leaves
behind. -/
structure Traceless (source : List Char) (pos rounds : Nat) (depth : Int) : Prop where
  /-- It is never out of rounds. -/
  ends (e : Expr) :
    e.eval rounds ⟨.seek source pos, depth⟩ = (e.run (.seek source pos)).withDepth depth
  stays (e : Expr) : ∃ stop, pos ≤ stop ∧ stop ≤ source.length ∧
    ((∃ r, e.eval rounds ⟨.seek source pos, depth⟩ = .done r ⟨.seek source stop, depth⟩) ∨
      ∃ why, e.eval rounds ⟨.seek source pos, depth⟩ = .failed why ⟨.seek source stop, depth⟩)
  returns {e : Expr} {why : Failure} {s : Routine.State} (single : ∀ es, e ≠ .all es)
    (failed : e.eval rounds ⟨.seek source pos, depth⟩ = .failed why s) :
    s = ⟨.seek source pos, depth⟩
  attempts (e : Expr) : ¬((attempt e).eval rounds ⟨.seek source pos, depth⟩).Failed
  repeats (item separator : Expr) :
    ¬((separated item separator).eval rounds ⟨.seek source pos, depth⟩).Failed
  /-- The first that succeeds, as if those before it had not been tried. -/
  chooses {before after : List Expr} {e : Expr} {r : Reading} {s : Routine.State}
    (failed : ∀ e ∈ before, (e.eval rounds ⟨.seek source pos, depth⟩).Failed)
    (read : e.eval rounds ⟨.seek source pos, depth⟩ = .done r s) :
    (firstOf (before ++ e :: after)).eval rounds ⟨.seek source pos, depth⟩ = .done r s
  fails (es : List Expr) : ((firstOf es).eval rounds ⟨.seek source pos, depth⟩).Failed ↔
    ∀ e ∈ es, (e.eval rounds ⟨.seek source pos, depth⟩).Failed

section
variable {es before after : List Expr} {e : Expr} {c d : Cursor} {r : Reading}

theorem exists_stop {source : List Char} {pos : Nat} (inside : pos ≤ source.length) (e : Expr) :
    ∃ stop, pos ≤ stop ∧ stop ≤ source.length ∧
      (e.run (.seek source pos)).cursor = .seek source stop := by
  have reached := ahead_run e (.seek source pos)
  have ordered : pos ≤ (e.run (.seek source pos)).cursor.pos := reached.pos_le
  have whole : pos + (Cursor.seek source pos).rest.length = _ := reached.length_add
  rw [Cursor.length_seek] at whole
  exact ⟨_, ordered, by omega, reached.eq_seek⟩

theorem run_firstOf_of_ok (failed : ∀ e ∈ before, (e.run c).Fails) (read : e.run c = .ok r d) :
    (firstOf (before ++ e :: after)).run c = .ok r d := by
  induction before with
  | nil => exact firstOf_of_ok read
  | cons b before ih =>
      obtain ⟨first, rest⟩ := List.forall_mem_cons.mp failed
      exact (firstOf_of_fails first).trans (ih rest)

theorem fails_run_firstOf : ((firstOf es).run c).Fails ↔ ∀ e ∈ es, (e.run c).Fails := by
  induction es with
  | nil => exact ⟨fun _ => List.forall_mem_nil _, fun _ => ⟨_, _, rfl⟩⟩
  | cons e es ih =>
      rw [List.forall_mem_cons, ← ih]
      cases read : e.run c with
      | ok r d =>
          have chosen : (firstOf (e :: es)).run c = .ok r d := firstOf_of_ok read
          rw [chosen]
          exact ⟨nofun, fun both => both.1⟩
      | fail failure d =>
          have failed : (e.run c).Fails := ⟨failure, d, read⟩
          have skipped : (firstOf (e :: es)).run c = (firstOf es).run c := firstOf_of_fails failed
          rw [skipped]
          exact ⟨fun rest => ⟨⟨failure, d, rfl⟩, rest⟩, fun both => both.2⟩

end

/-- Expressions can ask for every class of characters. From each position of a source, their
evaluation ends, inside of the source and not before the position; where it fails, the cursor is back
unless a sequence was evaluated; and of alternatives the first that succeeds decides, as if it
stood alone. -/
theorem traceless (source : List Char) {pos rounds : Nat} (inside : pos ≤ source.length)
    (enough : source.length < rounds) (depth : Int) :
    (∀ p : Char → Bool, ∃ (chars : List Char) (k : CharClass), chars.contains = p ∧ k.has = p) ∧
      Traceless source pos rounds depth := by
  refine ⟨fun p => ?_, ?_⟩
  · obtain ⟨chars, all⟩ := exists_chars p
    exact ⟨chars, _, all, (CharClass.has_of_chars "" chars).trans all⟩
  have left := Cursor.length_seek source pos
  have ends (e : Expr) : e.eval rounds ⟨.seek source pos, depth⟩ =
      (e.run (.seek source pos)).withDepth depth := follows_eval enough e _ (by omega)
  have failed_iff (e : Expr) : (e.eval rounds ⟨.seek source pos, depth⟩).Failed ↔
      (e.run (.seek source pos)).Fails := by rw [ends, Outcome.failed_withDepth]
  constructor
  · exact ends
  · intro e
    obtain ⟨stop, ordered, within, left⟩ := exists_stop inside e
    refine ⟨stop, ordered, within, ?_⟩
    rw [ends, ← left]
    cases e.run (.seek source pos) with
    | ok r d => exact .inl ⟨r, rfl⟩
    | fail why d => exact .inr ⟨why, rfl⟩
  · intro e why s single failed
    obtain ⟨d, stopped, rfl⟩ := Outcome.withDepth_eq_failed.mp ((ends e).symm.trans failed)
    rw [restores_run single stopped]
  · intro e failed
    exact not_fails_map (attempt_ok e.run _) ((failed_iff (attempt e)).mp failed)
  · intro item separator failed
    exact not_fails_map (separated_ok item.run separator.run _)
      ((failed_iff (separated item separator)).mp failed)
  · intro before after e r s failed read
    obtain ⟨d, found, rfl⟩ := Outcome.withDepth_eq_done.mp ((ends e).symm.trans read)
    have skipped (b : Expr) (member : b ∈ before) := (failed_iff b).mp (failed b member)
    rw [ends, run_firstOf_of_ok skipped found]
    rfl
  · intro es
    rw [failed_iff, fails_run_firstOf]
    exact forall₂_congr fun e _ => (failed_iff e).symm

/-- A sequence that fails leaves the cursor behind what it read; the next alternative starts over. -/
theorem traceless_sequence : let source := "say @x,".toList
    let start : Routine.State := ⟨.seek source 4, 0⟩
    let target := Expr.all [.expect ['@'], .expect ['a']]
    let other := Expr.all [.expect ['@'], .next]
    4 ≤ source.length ∧ source.length < 8 ∧ Traceless source 4 8 0 ∧
      target.eval 8 start =
        .failed ⟨.expected ['a'] ['x'], 5⟩ ⟨.seek source 5, 0⟩ ∧
      (firstOf [target, other]).eval 8 start =
        .done (.list [.text ['@'], .text ['x']]) ⟨.seek source 6, 0⟩ := by
  intro source start target other
  have settled := (@traceless source 4 8 (by decide) (by decide) 0).2
  have failed : target.eval 8 start = .failed ⟨.expected ['a'] ['x'], 5⟩ ⟨.seek source 5, 0⟩ := rfl
  have read : other.eval 8 start =
    .done (.list [.text ['@'], .text ['x']]) ⟨.seek source 6, 0⟩ := rfl
  refine ⟨by decide, by decide, settled, failed, ?_⟩
  exact @settled.chooses [target] [] other _ _ (by simpa using ⟨_, _, failed⟩) read

end Expr
end ChatPreview
