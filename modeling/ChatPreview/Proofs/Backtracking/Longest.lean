import ChatPreview.Proofs.Alignment.Basic
import ChatPreview.Proofs.Counter.Basic
/-!
Items with separators between them are the longest run of them, told from what the scanners read at
each position. Where the cursor is left depends on how the run ends.
-/
namespace ChatPreview
open Scan

namespace Routine
variable {α β : Type} {t : Scan α} {c d : Cursor} {depth : Int} {f : Option α → Routine β}

theorem attempt_scan_of_ok {a : α} (read : t c = .ok a d) :
    (attempt (scan t) >>= f) ⟨c, depth⟩ = f (some a) ⟨d, depth⟩ := by
  rw [bind_apply, attempt, scan, read]
  rfl

theorem attempt_scan_of_fails (failed : (t c).Fails) :
    (attempt (scan t) >>= f) ⟨c, depth⟩ = f none ⟨c, depth⟩ := by
  obtain ⟨e, d, failed⟩ := failed
  rw [bind_apply, attempt, scan, failed]
  rfl

end Routine

namespace Separated
variable {α β γ : Type}

def Reads (source : List Char) (s : Scan α) (pos : Nat) (a : α) (stop : Nat) : Prop :=
  s (.seek source pos) = .ok a (.seek source stop)

/-- Whether a scanner never moves the cursor back. It may move it behind the end. -/
def Onward (source : List Char) (s : Scan α) : Prop :=
  ∀ ⦃pos a d⦄, s (.seek source pos) = .ok a d → ∃ stop, pos ≤ stop ∧ d = .seek source stop

/-- Items from a position on, one separator between two of them, with where the last of them starts
and stops. Each item is read where text is left, and a round that reads nothing has none after
it. -/
inductive Run (source : List Char) (item : Scan α) (separator : Scan β) :
    Nat → List α → Nat → Nat → Prop where
  | last {pos stop : Nat} {a : α} (inside : pos < source.length)
      (read : Reads source item pos a stop) : Run source item separator pos [a] pos stop
  | more {pos mid next first stop : Nat} {a : α} {b : β} {items : List α}
      (inside : pos < source.length) (read : Reads source item pos a mid)
      (apart : Reads source separator mid b next) (moved : next ≠ pos)
      (rest : Run source item separator next items first stop) :
      Run source item separator pos (a :: items) first stop

inductive Exit (source : List Char) (item : Scan α) (separator : Scan β) (first last : Nat) :
    Nat → Prop where
  | unseparated (failed : (separator (.seek source last)).Fails) :
      Exit source item separator first last last
  | exhausted {stop : Nat} {b : β} (apart : Reads source separator last b stop)
      (ended : source.length ≤ stop) : Exit source item separator first last stop
  | unfollowed {stop : Nat} {b : β} (apart : Reads source separator last b stop)
      (failed : (item (.seek source stop)).Fails) : Exit source item separator first last stop
  | still {b : β} (apart : Reads source separator last b first) :
      Exit source item separator first last first

/-- A run that cannot go on, or no item at all. -/
inductive Ended (source : List Char) (item : Scan α) (separator : Scan β) :
    Nat → List α → Nat → Prop where
  | none {pos : Nat} (stopped : source.length ≤ pos ∨ (item (.seek source pos)).Fails) :
      Ended source item separator pos [] pos
  | run {pos first last stop : Nat} {items : List α}
      (run : Run source item separator pos items first last)
      (exit : Exit source item separator first last stop) :
      Ended source item separator pos items stop

section
variable {source : List Char} {s : Scan α} {item : Scan α} {separator : Scan β}
  {pos mid next first last stop : Nat} {a a' : α} {b : β} {items others : List α}

theorem Reads.unique (read : Reads source s pos a mid) (read' : Reads source s pos a' next) :
    a = a' ∧ mid = next := by
  have same := read.symm.trans read'
  cases same
  exact ⟨rfl, rfl⟩

theorem Reads.not_fails (read : Reads source s pos a mid) : ¬(s (.seek source pos)).Fails := by
  rw [read]
  exact nofun

theorem Onward.le (onward : Onward source s) (read : Reads source s pos a mid) : pos ≤ mid := by
  obtain ⟨stop, ordered, same⟩ := onward read
  cases same
  exact ordered

theorem onward_of_forward (forward : Forward s) : Onward source s :=
  fun _ _ d read => ⟨d.pos, (forward read).pos_le, (forward read).eq_seek⟩

theorem onward_map {t : Scan β} (f : β → γ) (onward : Onward source t) :
    Onward source (f <$> t) := by
  intro pos c d read
  obtain ⟨b, d', first, second⟩ := bind_eq_ok.mp read
  cases second
  exact onward first

theorem Ended.more (inside : pos < source.length) (read : Reads source item pos a mid)
    (apart : Reads source separator mid b next) (moved : next ≠ pos)
    (rest : Ended source item separator next items stop) :
    Ended source item separator pos (a :: items) stop := by
  cases rest with
  | none stopped =>
      rcases stopped with ended | failed
      · exact .run (.last inside read) (.exhausted apart ended)
      · exact .run (.last inside read) (.unfollowed apart failed)
  | run run exit => exact .run (.more inside read apart moved run) exit

@[elab_as_elim]
theorem Ended.induction
    {motive : (pos : Nat) → (items : List α) → (stop : Nat) →
      Ended source item separator pos items stop → Prop}
    (exhausted : ∀ {pos} (ended : source.length ≤ pos), motive pos [] pos (.none (.inl ended)))
    (failed : ∀ {pos} (failed : (item (.seek source pos)).Fails),
      motive pos [] pos (.none (.inr failed)))
    (unseparated : ∀ {pos a mid} (inside : pos < source.length)
      (read : Reads source item pos a mid) (failed : (separator (.seek source mid)).Fails),
      motive pos [a] mid (.run (.last inside read) (.unseparated failed)))
    (still : ∀ {pos a mid b} (inside : pos < source.length) (read : Reads source item pos a mid)
      (apart : Reads source separator mid b pos),
      motive pos [a] pos (.run (.last inside read) (.still apart)))
    (more : ∀ {pos a mid b next items stop} (inside : pos < source.length)
      (read : Reads source item pos a mid) (apart : Reads source separator mid b next)
      (moved : next ≠ pos) (rest : Ended source item separator next items stop),
      motive next items stop rest →
      motive pos (a :: items) stop (rest.more inside read apart moved))
    {pos : Nat} {items : List α} {stop : Nat} (ended : Ended source item separator pos items stop) :
    motive pos items stop ended := by
  cases ended with
  | none stopped =>
      rcases stopped with ended | stopped
      · exact exhausted ended
      · exact failed stopped
  | run run exit =>
      induction run with
      | @last pos _ a inside read =>
          cases exit with
          | unseparated stopped => exact unseparated inside read stopped
          | exhausted apart ended =>
              have moved : stop ≠ pos := by omega
              exact more inside read apart moved _ (exhausted ended)
          | unfollowed apart stopped =>
              have moved : stop ≠ pos := by
                rintro rfl
                exact read.not_fails stopped
              exact more inside read apart moved _ (failed stopped)
          | still apart => exact still inside read apart
      | more inside read apart moved rest ih => exact more inside read apart moved _ (ih exit)

theorem exists_ended (onward : Onward source item) (onward' : Onward source separator)
    (pos : Nat) : ∃ items stop, Ended source item separator pos items stop := by
  induction left : source.length - pos using Nat.strongRecOn generalizing pos with
  | ind left ih =>
      by_cases inside : pos < source.length
      · cases read : item (.seek source pos) with
        | fail e d => exact ⟨[], pos, .none (.inr ⟨e, d, read⟩)⟩
        | ok a d =>
            obtain ⟨mid, ordered, rfl⟩ := onward read
            cases apart : separator (.seek source mid) with
            | fail e d => exact ⟨[a], mid, .run (.last inside read) (.unseparated ⟨e, d, apart⟩)⟩
            | ok b d =>
                obtain ⟨next, further, rfl⟩ := onward' apart
                by_cases moved : next = pos
                · subst moved
                  exact ⟨[a], next, .run (.last inside read) (.still apart)⟩
                · obtain ⟨items, stop, rest⟩ := ih (source.length - next) (by omega) next rfl
                  exact ⟨a :: items, stop, .more inside read apart moved rest⟩
      · exact ⟨[], pos, .none (.inl (Nat.le_of_not_lt inside))⟩

theorem Run.head (run : Run source item separator pos items first last) :
    pos < source.length ∧ ∃ a mid, Reads source item pos a mid := by
  cases run with
  | last inside read => exact ⟨inside, _, _, read⟩
  | more inside read => exact ⟨inside, _, _, read⟩

theorem prefix_of_ended (ended : Ended source item separator pos items stop)
    (run : Run source item separator pos others first last) : others <+: items := by
  -- Scanners read one thing at a position, so both runs go the same way.
  induction ended using Ended.induction generalizing others first last with
  | exhausted ended => exact absurd run.head.1 (Nat.not_lt_of_le ended)
  | failed failed =>
      obtain ⟨_, a, mid, read⟩ := run.head
      exact absurd failed read.not_fails
  | unseparated inside read failed =>
      cases run with
      | last _ read' =>
          exact List.cons_prefix_cons.mpr ⟨(read'.unique read).1, List.nil_prefix⟩
      | more _ read' apart =>
          rw [(read'.unique read).2] at apart
          exact absurd failed apart.not_fails
  | still inside read apart =>
      cases run with
      | last _ read' =>
          exact List.cons_prefix_cons.mpr ⟨(read'.unique read).1, List.nil_prefix⟩
      | more _ read' apart' moved =>
          rw [(read'.unique read).2] at apart'
          exact absurd (apart'.unique apart).2 moved
  | more inside read apart moved rest ih =>
      cases run with
      | last _ read' =>
          exact List.cons_prefix_cons.mpr ⟨(read'.unique read).1, List.nil_prefix⟩
      | more _ read' apart' _ more =>
          obtain ⟨value, same⟩ := read'.unique read
          rw [same] at apart'
          rw [(apart'.unique apart).2] at more
          exact List.cons_prefix_cons.mpr ⟨value, ih more⟩

theorem atEnd_seek : (Cursor.seek source pos).atEnd ↔ source.length ≤ pos := by
  rw [Cursor.atEnd, List.isEmpty_iff]
  exact List.drop_eq_nil_iff

theorem not_atEnd_seek (inside : pos < source.length) : ¬(Cursor.seek source pos).atEnd :=
  mt atEnd_seek.mp (Nat.not_le_of_lt inside)

/-- What the scanner of separated items reads is the run that cannot go on. -/
theorem separated_of_ended (onward : Onward source item) (onward' : Onward source separator)
    (ended : Ended source item separator pos items stop) :
    separated item separator (.seek source pos) = .ok items (.seek source stop) := by
  induction ended using Ended.induction with
  | exhausted ended => exact separated_of_atEnd (atEnd_seek.mpr ended)
  | failed failed => exact separated_of_fails failed
  | unseparated inside read failed =>
      obtain ⟨e, d, failed⟩ := failed
      exact separated_of_last (not_atEnd_seek inside) read failed
  | still inside read apart =>
      exact separated_of_still (not_atEnd_seek inside) read apart (Nat.lt_irrefl _)
  | more inside read apart moved rest ih =>
      have ordered := Nat.le_trans (onward.le read) (onward'.le apart)
      refine separated_of_more (not_atEnd_seek inside) read apart ?_ ih
      rw [Cursor.length_seek, Cursor.length_seek]
      omega

/-- A loop with marks to which the cursor moves back reads the same. Each round but the last reads
something, so there are rounds enough. -/
theorem loop_of_ended (onward : Onward source item) (onward' : Onward source separator)
    {rounds : Nat} (enough : source.length - pos ≤ rounds) (depth : Int)
    (ended : Ended source item separator pos items stop) :
    Routine.separated (.scan item) (.scan separator) (rounds + 1) ⟨.seek source pos, depth⟩ =
      .done items ⟨.seek source stop, depth⟩ := by
  induction ended using Ended.induction generalizing rounds with
  | exhausted ended =>
      rw [Routine.separated, Routine.here_bind, if_pos (atEnd_seek.mpr ended)]
      rfl
  | @failed pos failed =>
      rw [Routine.separated, Routine.here_bind]
      by_cases ended : (Cursor.seek source pos).atEnd
      · rw [if_pos ended]
        rfl
      · rw [if_neg ended, Routine.attempt_scan_of_fails failed]
        rfl
  | unseparated inside read failed =>
      rw [Routine.separated, Routine.here_bind, if_neg (not_atEnd_seek inside),
        Routine.attempt_scan_of_ok read]
      dsimp only
      rw [Routine.attempt_scan_of_fails failed]
      rfl
  | still inside read apart =>
      rw [Routine.separated, Routine.here_bind, if_neg (not_atEnd_seek inside),
        Routine.attempt_scan_of_ok read]
      dsimp only
      rw [Routine.attempt_scan_of_ok apart]
      dsimp only
      rw [Routine.here_bind, if_pos rfl]
      rfl
  | @more pos _ _ _ next _ _ inside read apart moved rest ih =>
      have ordered := Nat.le_trans (onward.le read) (onward'.le apart)
      have elsewhere : (Cursor.seek source next).pos ≠ (Cursor.seek source pos).pos := moved
      obtain ⟨rounds, rfl⟩ : ∃ k, rounds = k + 1 := ⟨rounds - 1, by omega⟩
      rw [Routine.separated, Routine.here_bind, if_neg (not_atEnd_seek inside),
        Routine.attempt_scan_of_ok read]
      dsimp only
      rw [Routine.attempt_scan_of_ok apart]
      dsimp only
      rw [Routine.here_bind, if_neg elsewhere, Routine.bind_apply, ih (by omega)]
      rfl

theorem reads_map (f : β → γ) (apart : Reads source separator pos b stop) :
    Reads source (f <$> separator) pos (f b) stop :=
  bind_eq_ok.mpr ⟨b, _, apart, rfl⟩

theorem ended_map (f : β → γ) (ended : Ended source item separator pos items stop) :
    Ended source item (f <$> separator) pos items stop := by
  induction ended using Ended.induction with
  | exhausted ended => exact .none (.inl ended)
  | failed failed => exact .none (.inr failed)
  | unseparated inside read failed =>
      exact .run (.last inside read) (.unseparated (fails_bind failed))
  | still inside read apart => exact .run (.last inside read) (.still (reads_map f apart))
  | more inside read apart moved rest ih => exact ih.more inside read (reads_map f apart) moved

end

/-- Items with separators between them are read without failing. The items are those of the longest
run, told by it alone, and the cursor is left where it ends. A loop with marks does the same, and
what values the separators have is all the same. -/
theorem separated_longest {source : List Char} {item : Scan α} {separator : Scan β}
    (onward : Onward source item) (onward' : Onward source separator) (pos : Nat) :
    ∃ items stop, separated item separator (.seek source pos) = .ok items (.seek source stop) ∧
      Ended source item separator pos items stop ∧
      (∀ others last, Ended source item separator pos others last → others = items ∧ last = stop) ∧
      (∀ others first last, Run source item separator pos others first last → others <+: items) ∧
      (∀ rounds depth, source.length < rounds →
        Routine.separated (.scan item) (.scan separator) rounds ⟨.seek source pos, depth⟩ =
          .done items ⟨.seek source stop, depth⟩) ∧
      ∀ (γ : Type) (f : β → γ),
        separated item (f <$> separator) (.seek source pos) = .ok items (.seek source stop) := by
  obtain ⟨items, stop, ended⟩ := exists_ended onward onward' pos
  have read := separated_of_ended onward onward' ended
  refine ⟨items, stop, read, ended, ?_, ?_, ?_, ?_⟩
  · intro others last ended'
    have same := (separated_of_ended onward onward' ended').symm.trans read
    cases same
    exact ⟨rfl, rfl⟩
  · intro others first last run
    exact prefix_of_ended ended run
  · intro rounds depth enough
    obtain ⟨rounds, rfl⟩ : ∃ k, rounds = k + 1 := ⟨rounds - 1, by omega⟩
    exact loop_of_ended onward onward' (by omega) depth ended
  · intro γ f
    exact separated_of_ended onward (onward_map f onward') (ended_map f ended)

/-- Digits that may be missing, with commas that may be missing: the third round reads nothing, and
its item is kept once. -/
theorem separated_longest_still : let source := "1,,x".toList
    let item := Scan.takeWhile (·.isDigit)
    let separator := Scan.attempt (Scan.expect [','])
    Onward source item ∧ Onward source separator ∧
      Ended source item separator 0 [['1'], [], []] 3 ∧
      separated item separator (.seek source 0) = .ok [['1'], [], []] (.seek source 3) ∧
      Routine.separated (.scan item) (.scan separator) 5 ⟨.seek source 0, 0⟩ =
        .done [['1'], [], []] ⟨.seek source 3, 0⟩ := by
  intro source item separator
  have onward : Onward source item :=
    onward_of_forward fun _ _ _ read => by cases read; exact Cursor.reaches_skipWhile _ _
  have onward' : Onward source separator :=
    onward_of_forward (forward_attempt (consumes_expect (List.cons_ne_nil _ _)).forward)
  have one : Reads source item 0 ['1'] 1 := rfl
  have comma : Reads source separator 1 (some [',']) 2 := rfl
  have missing : Reads source item 2 [] 2 := rfl
  have comma' : Reads source separator 2 (some [',']) 3 := rfl
  have missing' : Reads source item 3 [] 3 := rfl
  have still : Reads source separator 3 none 3 := rfl
  have third : Ended source item separator 3 [[]] 3 :=
    .run (.last (by decide) missing') (.still still)
  have second := third.more (by decide) missing comma' (by decide)
  have ended := second.more (by decide) one comma (by decide)
  obtain ⟨items, stop, read, _, unique, _, loop, _⟩ := separated_longest onward onward' 0
  obtain ⟨rfl, rfl⟩ := unique _ _ ended
  exact ⟨onward, onward', ended, read, loop 5 0 (by decide)⟩

end Separated
end ChatPreview
