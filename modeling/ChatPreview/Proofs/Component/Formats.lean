import ChatPreview.Component.Interpret

namespace ChatPreview

/-- Whether there is a result just if none of these numbers has too many digits. -/
def RestsOn {α : Type} (numbers : List (List Char)) : Except DigitLimit α → Prop
  | .ok _ => ∀ digits ∈ numbers, digits.length ≤ maxDigits
  | .error e => ∃ digits ∈ numbers, digits.length = e.count ∧ maxDigits < e.count

section
variable {α β : Type} {r : Except DigitLimit α} {f : α → Except DigitLimit β}
  {first second : List (List Char)}

theorem restsOn_ok (a : α) : RestsOn [] (.ok a : Except DigitLimit α) := by
  simp [RestsOn]

theorem restsOn_bind (reads : RestsOn first r) (next : ∀ a, RestsOn second (f a)) :
    RestsOn (first ++ second) (r >>= f) := by
  cases r with
  | error e =>
      obtain ⟨digits, member, exceeds⟩ := reads
      exact ⟨digits, List.mem_append_left second member, exceeds⟩
  | ok a =>
      change RestsOn (first ++ second) (f a)
      have rest := next a
      cases found : f a with
      | error e =>
          rw [found] at rest
          obtain ⟨digits, member, exceeds⟩ := rest
          exact ⟨digits, List.mem_append_right first member, exceeds⟩
      | ok b =>
          rw [found] at rest
          intro digits member
          cases List.mem_append.1 member with
          | inl before => exact reads digits before
          | inr after => exact rest digits after

theorem RestsOn.gives (reads : RestsOn first r) (g : α → β) :
    RestsOn first (r >>= fun a => pure (g a)) := by
  have whole := restsOn_bind reads fun a => restsOn_ok (g a)
  rwa [List.append_nil] at whole

theorem restsOn_readDigits (digits : List Char) : RestsOn [digits] (readDigits digits) := by
  rw [readDigits]
  split
  · rename_i long
    exact ⟨digits, List.mem_singleton_self digits, rfl, long⟩
  · rename_i short
    intro other member
    rw [List.mem_singleton.1 member]
    exact Nat.le_of_not_lt short

end

namespace Format

def Piece.number? : Piece → Option (List Char)
  | .nth digits => some digits
  | _ => none

def numbers (format : Text) : List (List Char) := (pieces format).filterMap Piece.number?

theorem leadingDigits_spec (t : Text) :
    Text.ofChars (leadingDigits t) ++ t.drop (leadingDigits t).length = t ∧
      ∀ x ∈ leadingDigits t, x.isDigit := by
  fun_induction leadingDigits t with
  | case1 c rest digit ih =>
      refine ⟨congrArg (CodePoint.scalar c :: ·) ih.1, fun x member => ?_⟩
      cases List.mem_cons.1 member with
      | inl same => rwa [same]
      | inr later => exact ih.2 x later
  | case2 => exact ⟨rfl, by simp⟩
  | case3 => exact ⟨rfl, by simp⟩

theorem numbered?_spec {t rest : Text} {digits : List Char}
    (found : numbered? t = some (digits, rest)) :
    t = Text.ofChars digits ++ .scalar '$' :: .scalar 's' :: rest ∧ ∀ x ∈ digits, x.isDigit := by
  obtain ⟨split, all⟩ := leadingDigits_spec t
  unfold numbered? at found
  simp only at found
  split at found
  · rename_i tail _ shape
    split at found
    · cases found
    · cases found
      rw [shape] at split
      exact ⟨split.symm, all⟩
  · cases found

theorem leadingDigits_append {digits : List Char} (all : ∀ x ∈ digits, x.isDigit) (rest : Text) :
    leadingDigits (Text.ofChars digits ++ .scalar '$' :: rest) = digits := by
  induction digits with
  | nil => rfl
  | cons x digits ih =>
      change (if x.isDigit then
        x :: leadingDigits (Text.ofChars digits ++ .scalar '$' :: rest) else []) = _
      rw [if_pos (all x List.mem_cons_self), ih fun y member => all y (List.mem_cons_of_mem x member)]

theorem marker?_marker {x : Char} {digits : List Char} (all : ∀ y ∈ x :: digits, y.isDigit)
    (positive : x ≠ '0') (rest : Text) :
    marker? (Text.ofChars (x :: digits) ++ .scalar '$' :: .scalar 's' :: rest) =
      some (.nth (x :: digits), rest) := by
  have leading := leadingDigits_append all (.scalar 's' :: rest)
  have dropped : (Text.ofChars (x :: digits) ++ .scalar '$' :: .scalar 's' :: rest).drop
      (x :: digits).length = .scalar '$' :: .scalar 's' :: rest :=
        List.drop_left' (by simp [Text.ofChars])
  have other : CodePoint.scalar x ≠ .scalar 's' := by
    rintro same
    cases same
    cases all 's' List.mem_cons_self
  have number : numbered? (Text.ofChars (x :: digits) ++ .scalar '$' :: .scalar 's' :: rest) =
      some (x :: digits, rest) := by
    rw [numbered?, leading]
    simp only [dropped]
    rw [if_neg positive]
  rw [Text.ofChars, List.map_cons, List.cons_append] at number ⊢
  rw [marker?, if_neg other, number]
  rfl

theorem pieces_marker {x : Char} {digits : List Char} (all : ∀ y ∈ x :: digits, y.isDigit)
    (positive : x ≠ '0') :
    pieces (Text.ofChars ('%' :: x :: digits ++ ['$', 's'])) = [.nth (x :: digits)] := by
  have split : Text.ofChars ('%' :: x :: digits ++ ['$', 's']) =
      .scalar '%' :: (Text.ofChars (x :: digits) ++ [.scalar '$', .scalar 's']) := by
    simp [Text.ofChars]
  have found := marker?_marker all positive []
  rw [split, pieces, if_pos rfl]
  split
  · rename_i other
    rw [found] at other
    cases other
    rw [pieces]
  · rename_i other
    rw [found] at other
    cases other

theorem restsOn_fill (args : List Text) (next : Nat) (pieces : List Piece) :
    RestsOn (pieces.filterMap Piece.number?) (fill args next pieces) := by
  induction pieces generalizing next with
  | nil => exact restsOn_ok []
  | cons piece rest ih =>
      cases piece with
      | char p => exact (ih next).gives fun t => p :: t
      | next => exact (ih (next + 1)).gives fun t => argument args next ++ t
      | nth digits =>
          exact restsOn_bind (restsOn_readDigits digits) fun n =>
            (ih next).gives fun t => argument args (n - 1) ++ t

theorem restsOn_apply (format : Text) (args : List Text) :
    RestsOn (numbers format) (apply format args) :=
  restsOn_fill args 0 (pieces format)

end Format

namespace Component

mutual

def numbers : Component → List (List Char)
  | .plain _ => []
  | .sequence items => numbersAll items
  | .content body extra => bodyNumbers body ++ numbersIn extra

def bodyNumbers : Body → List (List Char)
  | .translatable format args _ => numbersIn args ++ Format.numbers format
  | _ => []

def numbersAll : List Component → List (List Char)
  | [] => []
  | c :: rest => numbers c ++ numbersAll rest

def numbersIn : Option (List Component) → List (List Char)
  | none => []
  | some items => numbersAll items

end

mutual

theorem restsOn_interpret (c : Component) : RestsOn c.numbers c.interpret := by
  cases c with
  | plain text => exact restsOn_ok text
  | sequence items => exact restsOn_interpretAll items
  | content body extra =>
      exact restsOn_bind (restsOn_interpretBody body) fun text =>
        (restsOn_interpretExtra extra).gives fun rest => text ++ rest

theorem restsOn_interpretBody (body : Body) : RestsOn (bodyNumbers body) (interpretBody body) := by
  cases body with
  | translatable format args fallback =>
      exact restsOn_bind (restsOn_interpretArgs args) fun texts => Format.restsOn_apply format texts
  | text text => exact restsOn_ok text
  | selector selector separator => exact restsOn_ok selector
  | keybind key => exact restsOn_ok _
  | scoreboard name objective => exact restsOn_ok _
  | nbt path source target interpret separator => exact restsOn_ok path

theorem restsOn_interpretAll (items : List Component) :
    RestsOn (numbersAll items) (interpretAll items) := by
  cases items with
  | nil => exact restsOn_ok []
  | cons c rest =>
      exact restsOn_bind (restsOn_interpret c) fun text =>
        (restsOn_interpretAll rest).gives fun texts => text ++ texts

theorem restsOn_interpretExtra (extra : Option (List Component)) :
    RestsOn (numbersIn extra) (interpretExtra extra) := by
  cases extra with
  | none => exact restsOn_ok []
  | some items => exact restsOn_interpretAll items

theorem restsOn_interpretEach (items : List Component) :
    RestsOn (numbersAll items) (interpretEach items) := by
  cases items with
  | nil => exact restsOn_ok []
  | cons c rest =>
      exact restsOn_bind (restsOn_interpret c) fun text =>
        (restsOn_interpretEach rest).gives fun texts => text :: texts

theorem restsOn_interpretArgs (args : Option (List Component)) :
    RestsOn (numbersIn args) (interpretArgs args) := by
  cases args with
  | none => exact restsOn_ok []
  | some items => exact restsOn_interpretEach items

end

end Component
end ChatPreview
