import ChatPreview.Command.Token
/-!
Routines read with a counter of the levels that are open, and may run out of rounds. A routine
follows a scanner if it ends as the scanner does, with the counter as it was.
-/
namespace ChatPreview
open Scan Token

structure Routine.State where
  cursor : Cursor
  depth : Int

/-- How a routine ends. Out of rounds, it does not say how it would. -/
inductive Routine.Ending (α : Type) where
  | done (value : α) (state : State)
  | failed (failure : Failure) (state : State)
  | unfinished

def Routine (α : Type) : Type := Routine.State → Routine.Ending α

def Outcome.withDepth {α : Type} (depth : Int) : Outcome α → Routine.Ending α
  | .ok a c => .done a ⟨c, depth⟩
  | .fail e c => .failed e ⟨c, depth⟩

namespace Routine

instance : Monad Routine where
  pure a := fun s => .done a s
  bind r f := fun s =>
    match r s with
    | .done a t => f a t
    | .failed e t => .failed e t
    | .unfinished => .unfinished

section
variable {α β : Type}

def stop : Routine α := fun _ => .unfinished

def here : Routine Cursor := fun s => .done s.cursor s

def scan (t : Scan α) : Routine α := fun s => (t s.cursor).withDepth s.depth

def caught (r : Routine α) : Routine (Except Failure α) := fun s =>
  match r s with
  | .done a t => .done (.ok a) t
  | .failed e t => .done (.error e) t
  | .unfinished => .unfinished

/-- Takes a failure for none, and moves the cursor back. The counter is left alone. -/
def attempt (r : Routine α) : Routine (Option α) := fun s =>
  match r s with
  | .done a t => .done (some a) t
  | .failed _ t => .done none { t with cursor := s.cursor }
  | .unfinished => .unfinished

def firstOf : List (Routine α) → Routine α
  | [] => scan (fail .noAlternative)
  | r :: rest => do
    match ← attempt r with
    | some a => return a
    | none => firstOf rest

/-- Counts a level while a routine runs, however it ends. -/
def nested (limit : Int) (r : Routine α) : Routine α := fun s =>
  if limit ≤ s.depth then .failed ⟨.tooDeep limit, s.cursor.pos⟩ s
  else match r { s with depth := s.depth + 1 } with
    | .done a t => .done a { t with depth := t.depth - 1 }
    | .failed e t => .failed e { t with depth := t.depth - 1 }
    | .unfinished => .unfinished

def separated (item : Routine α) (separator : Routine β) : Nat → Routine (List α)
  | 0 => stop
  | rounds + 1 => do
    let first ← here
    if first.atEnd then return []
    let some a ← attempt item | return []
    let some _ ← attempt separator | return [a]
    if (← here).pos = first.pos then return [a]
    return a :: (← separated item separator rounds)

def node (kind : Kind) (r : Routine (List Node)) : Routine Node := do
  let first ← here
  let children ← r
  return .between kind first (← here) children

end

/-- Whether a routine ends as a scanner does wherever no more than this much text is left. -/
def Follows {α : Type} (size : Nat) (depth : Int) (r : Routine α) (t : Scan α) : Prop :=
  ∀ c, c.rest.length ≤ size → r ⟨c, depth⟩ = (t c).withDepth depth

section
variable {α β : Type} {size rounds : Nat} {depth limit : Int} {r : Routine α} {t : Scan α}
  {f : α → Routine β} {g : α → Scan β} {q : Routine β} {u : Scan β}

theorem follows_scan (t : Scan α) : Follows size depth (scan t) t := fun _ _ => rfl

theorem follows_pure (a : α) : Follows size depth (pure a) (pure a) := fun _ _ => rfl

theorem bind_apply (s : State) : (r >>= f) s =
    match r s with
    | .done a t => f a t
    | .failed e t => .failed e t
    | .unfinished => .unfinished := rfl

theorem here_bind {f : Cursor → Routine β} {c : Cursor} :
    (here >>= f) ⟨c, depth⟩ = f c ⟨c, depth⟩ := rfl

theorem scan_bind_of_ok {a : α} {c d : Cursor} (read : t c = .ok a d) :
    (scan t >>= f) ⟨c, depth⟩ = f a ⟨d, depth⟩ := by
  rw [bind_apply, scan, read]
  rfl

theorem follows_bind (forward : Forward t) (first : Follows size depth r t)
    (next : ∀ a, Follows size depth (f a) (g a)) : Follows size depth (r >>= f) (t >>= g) := by
  intro c short
  rw [bind_apply, Scan.bind_apply, first c short]
  cases read : t c with
  | ok a d => exact next a d (Nat.le_trans (forward read).length_le short)
  | fail e d => rfl

theorem follows_bind_of_consumes (consumes : Consumes t) (first : Follows size depth r t)
    (next : ∀ less < size, ∀ a, Follows less depth (f a) (g a)) :
    Follows size depth (r >>= f) (t >>= g) := by
  intro c short
  rw [bind_apply, Scan.bind_apply, first c short]
  cases read : t c with
  | ok a d =>
      obtain ⟨ahead, further⟩ := consumes read
      have := ahead.length_add
      exact next d.rest.length (by omega) a d (Nat.le_refl _)
  | fail e d => rfl

theorem follows_attempt (follows : Follows size depth r t) :
    Follows size depth (attempt r) (Scan.attempt t) := by
  intro c short
  rw [attempt, Scan.attempt, follows c short]
  cases t c <;> rfl

theorem follows_firstOf_cons {routines : List (Routine α)} {scanners : List (Scan α)}
    (first : Follows size depth r t)
    (rest : Follows size depth (firstOf routines) (Scan.firstOf scanners)) :
    Follows size depth (firstOf (r :: routines)) (Scan.firstOf (t :: scanners)) := by
  intro c short
  rw [firstOf, Scan.firstOf, bind_apply, follows_attempt first c short, Scan.attempt]
  dsimp only
  cases t c with
  | ok a d => rfl
  | fail e d => exact rest c short

theorem follows_firstOf_nil : Follows size depth (firstOf []) (Scan.firstOf [] : Scan α) :=
  follows_scan _

theorem follows_nested {body : Scan Node → Scan α}
    (deeper : depth < limit →
      Follows size (depth + 1) r (body (value limit (limit - (depth + 1)).toNat))) :
    Follows size depth (nested limit r) (Token.nested (inside limit (limit - depth).toNat) body) := by
  intro c short
  rw [nested]
  by_cases deep : limit ≤ depth
  · have none : (limit - depth).toNat = 0 := by omega
    rw [if_pos deep, none]
    rfl
  · have left : (limit - depth).toNat = (limit - (depth + 1)).toNat + 1 := by omega
    have back : depth + 1 - 1 = depth := by omega
    rw [if_neg deep, left, deeper (by omega) c short]
    change _ = (body (value limit (limit - (depth + 1)).toNat) c).withDepth depth
    cases body (value limit (limit - (depth + 1)).toNat) c <;> simp only [Outcome.withDepth, back]

theorem follows_separated (forward : Forward t) (forward' : Forward u)
    (item : Follows size depth r t) (separator : Follows size depth q u) (enough : size < rounds) :
    Follows size depth (separated r q rounds) (Scan.separated t u) := by
  -- A round that goes on has read something, so there are rounds enough.
  have within (rounds : Nat) : ∀ c, c.rest.length ≤ size → c.rest.length < rounds →
      separated r q rounds ⟨c, depth⟩ = (Scan.separated t u c).withDepth depth := by
    induction rounds with
    | zero => exact fun c _ none => absurd none (Nat.not_lt_zero _)
    | succ rounds ih =>
        intro c short left
        rw [separated, here_bind, Scan.separated]
        by_cases ended : c.atEnd
        · rw [if_pos ended, if_pos ended]
          rfl
        rw [if_neg ended, if_neg ended, bind_apply, follows_attempt item c short, Scan.attempt]
        cases read : t c with
        | fail e d => rfl
        | ok a d =>
            have ahead := forward read
            simp only [Outcome.withDepth]
            rw [bind_apply, follows_attempt separator d (by have := ahead.length_le; omega),
              Scan.attempt]
            cases apart : u d with
            | fail e d' => rfl
            | ok b d' =>
                have further := ahead.trans (forward' apart)
                have := further.length_add
                simp only [Outcome.withDepth]
                rw [here_bind]
                by_cases moved : d'.rest.length < c.rest.length
                · have other : d'.pos ≠ c.pos := by omega
                  rw [if_neg other, if_pos moved, bind_apply, ih d' (by omega) (by omega)]
                  cases Scan.separated t u d' <;> rfl
                · have same : d'.pos = c.pos := by have := further.pos_le; omega
                  rw [if_pos same, if_neg moved]
                  rfl
  exact fun c short => within rounds c short (Nat.lt_of_le_of_lt short enough)

theorem follows_node {kind : Kind} {r : Routine (List Node)} {t : Scan (List Node)}
    (follows : Follows size depth r t) : Follows size depth (node kind r) (Token.node kind t) := by
  intro c short
  rw [Token.node, node, here_bind, bind_apply, follows c short]
  cases t c <;> rfl

end
end Routine
end ChatPreview
