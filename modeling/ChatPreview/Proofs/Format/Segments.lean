import ChatPreview.Proofs.Format.Markers

namespace ChatPreview
open Text

namespace Format

/-- A part of what a format shows: a text of its own, or one of `n` arguments. -/
inductive Segment (n : Nat) where
  | fixed (text : Text)
  | argument (index : Fin n)

def Segment.filled {n : Nat} (args : Fin n → Text) : Segment n → Text
  | fixed text => text
  | argument index => args index

def MarkerFree (t : Text) : Prop :=
  ∀ piece body, Marks piece body → ¬.scalar '%' :: body <:+: t

/-- What takes the place of a marker, given how many unnumbered ones come before it and with it. -/
inductive Replaces {n : Nat} : Nat → Text → Segment n → Nat → Prop where
  | next {rank : Nat} (given : rank < n) :
      Replaces rank (ofString "%s") (.argument ⟨rank, given⟩) (rank + 1)
  | nextLeft {rank : Nat} (missing : n ≤ rank) :
      Replaces rank (ofString "%s") (.fixed (marker (rank + 1))) (rank + 1)
  | nth {rank : Nat} {digits : List Char} (numeral : Numeral digits) (index : Fin n)
      (value : digitsValue digits = index + 1) :
      Replaces rank (Piece.written (.nth digits)) (.argument index) rank
  | nthLeft {rank : Nat} {digits : List Char} (numeral : Numeral digits)
      (missing : n < digitsValue digits) :
      Replaces rank (Piece.written (.nth digits)) (.fixed (Piece.written (.nth digits))) rank

/-- How the segments come from a format, of which `rank` unnumbered markers are already passed: the
text between its markers stays, and each marker is replaced. -/
inductive Segmented {n : Nat} : Nat → Text → List (Segment n) → Prop where
  | last {rank : Nat} {gap : Text} (free : MarkerFree gap) : Segmented rank gap [.fixed gap]
  | marker {rank rank' : Nat} {gap mark rest : Text} {segment : Segment n}
      {segments : List (Segment n)} (free : MarkerFree gap)
      (replaces : Replaces rank mark segment rank') (tail : Segmented rank' rest segments) :
      Segmented rank (gap ++ mark ++ rest) (.fixed gap :: segment :: segments)

def segment (n index : Nat) : Segment n :=
  if given : index < n then .argument ⟨index, given⟩ else .fixed (marker (index + 1))

def segmentsFrom (n : Nat) : Nat → Text → List Piece → List (Segment n)
  | _, gap, [] => [.fixed gap]
  | rank, gap, .char p :: ps => segmentsFrom n rank (gap ++ [p]) ps
  | rank, gap, .next :: ps => .fixed gap :: segment n rank :: segmentsFrom n (rank + 1) [] ps
  | rank, gap, .nth digits :: ps =>
    .fixed gap :: segment n (digitsValue digits - 1) :: segmentsFrom n rank [] ps

section
variable {n rank : Nat} {gap : Text} {ps : List Piece} {digits : List Char}

theorem segment_filled (args : Fin n → Text) (index : Nat) :
    (segment n index).filled args = argument (List.ofFn args) index := by
  rw [segment, argument, List.getElem?_ofFn]
  split <;> rfl

/-- Filling in the arguments gives the segments, each argument in its places. -/
theorem exists_fill_ofFn (args : Fin n → Text) (rank : Nat) (gap : Text)
    (short : ∀ digits ∈ ps.filterMap Piece.number?, digits.length ≤ maxDigits) :
    ∃ t, fill (List.ofFn args) rank ps = .ok t ∧
      (segmentsFrom n rank gap ps).flatMap (·.filled args) = gap ++ t := by
  induction ps generalizing rank gap with
  | nil => exact ⟨[], rfl, by simp [segmentsFrom, Segment.filled]⟩
  | cons piece ps ih =>
      cases piece with
      | char p =>
          obtain ⟨t, filled, same⟩ := ih rank (gap ++ [p]) short
          refine ⟨p :: t, by rw [fill, filled]; rfl, ?_⟩
          rw [segmentsFrom, same, List.append_assoc, List.singleton_append]
      | next =>
          obtain ⟨t, filled, same⟩ := ih (rank + 1) [] short
          refine ⟨argument (List.ofFn args) rank ++ t, by rw [fill, filled]; rfl, ?_⟩
          rw [segmentsFrom, List.flatMap_cons, List.flatMap_cons, same, segment_filled]
          rfl
      | nth digits =>
          have later : ∀ digits ∈ ps.filterMap Piece.number?, digits.length ≤ maxDigits :=
            fun digits member => short digits (List.mem_cons_of_mem _ member)
          obtain ⟨t, filled, same⟩ := ih rank [] later
          refine ⟨argument (List.ofFn args) (digitsValue digits - 1) ++ t, ?_, ?_⟩
          · rw [fill_nth (short digits List.mem_cons_self), filled]
            rfl
          · rw [segmentsFrom, List.flatMap_cons, List.flatMap_cons, same, segment_filled]
            rfl

/-! ## Where the segments come from -/

theorem replaces_next (rank : Nat) :
    Replaces rank (ofString "%s") (segment n rank) (rank + 1) := by
  rw [segment]
  split
  · exact .next _
  · rename_i missing
    exact .nextLeft (Nat.le_of_not_lt missing)

theorem replaces_nth (rank : Nat) (numeral : Numeral digits) :
    Replaces rank (Piece.written (.nth digits)) (segment n (digitsValue digits - 1)) rank := by
  obtain ⟨positive, same⟩ := numeral.toDigits_digitsValue
  rw [segment]
  split
  · rename_i given
    exact .nth numeral ⟨_, given⟩ (Nat.sub_add_cancel positive).symm
  · rename_i missing
    rw [Nat.sub_add_cancel positive, marker_eq, same]
    exact .nthLeft numeral (by omega)

theorem markerFree_of_scanned (scanned : Scanned (gap.map .char ++ ps)) : MarkerFree gap := by
  rintro piece body marks ⟨before, after, rfl⟩
  have split : (before ++ (.scalar '%' :: body) ++ after).map Piece.char ++ ps =
      before.map .char ++ .char (.scalar '%') :: ((body ++ after).map .char ++ ps) := by simp
  rw [split] at scanned
  have free := scanned.of_append.free_of_percent
  rw [written_append_chars, List.append_assoc, marker?_of_marks marks] at free
  cases free

theorem segmented_segmentsFrom (rank : Nat) (gap : Text) (scanned : Scanned (gap.map .char ++ ps)) :
    Segmented rank (gap ++ written ps) (segmentsFrom n rank gap ps) := by
  induction ps generalizing rank gap with
  | nil =>
      rw [segmentsFrom, written, List.flatMap_nil, List.append_nil]
      exact .last (markerFree_of_scanned scanned)
  | cons piece ps ih =>
      cases piece with
      | char p =>
          have moved : gap.map .char ++ .char p :: ps = (gap ++ [p]).map .char ++ ps := by simp
          rw [moved] at scanned
          have tail := ih rank (gap ++ [p]) scanned
          rwa [List.append_assoc] at tail
      | next =>
          have tail := ih (rank + 1) [] scanned.of_append.tail
          have whole := Segmented.marker (markerFree_of_scanned scanned) (replaces_next rank) tail
          rwa [List.append_assoc] at whole
      | nth digits =>
          have tail := ih rank [] scanned.of_append.tail
          have whole := Segmented.marker (markerFree_of_scanned scanned)
            (replaces_nth rank scanned.of_append.numeral) tail
          rwa [List.append_assoc] at whole

end
end Format

namespace Component

section
variable {n : Nat} {args : Fin n → Component}

theorem interpretEach_ofFn {texts : Fin n → Text}
    (each : ∀ i, (args i).interpret = .ok (texts i)) :
    interpretEach (List.ofFn args) = .ok (List.ofFn texts) := by
  induction n with
  | zero => rfl
  | succ n ih =>
      rw [List.ofFn_succ, List.ofFn_succ, interpretEach, each 0, ih fun i => each i.succ]
      rfl

theorem interpretEach_ofFn_error {i : Fin n} {e : DigitLimit}
    (before : ∀ j < i, ∃ text, (args j).interpret = .ok text)
    (first : (args i).interpret = .error e) : interpretEach (List.ofFn args) = .error e := by
  induction n with
  | zero => exact i.elim0
  | succ n ih =>
      rw [List.ofFn_succ, interpretEach]
      cases i using Fin.cases with
      | zero =>
          rw [first]
          rfl
      | succ i =>
          obtain ⟨text, read⟩ := before 0 (Fin.succ_pos i)
          have rest := ih (fun j earlier => before j.succ (Fin.succ_lt_succ_iff.2 earlier)) first
          rw [read, rest]
          rfl

end

/-- What a text to be translated shows is settled but for what its arguments show: it is cut into
its markers and the texts between them, and an argument is put in as it is. With a number that
cannot be read in an argument nothing shows, and the first such number is to blame. -/
theorem interpretBody_segmented {format : Text}
    (short : ∀ digits ∈ Format.numbers format, digits.length ≤ maxDigits) (n : Nat) :
    ∃ segments : List (Format.Segment n), Format.Segmented 0 format segments ∧
      (∀ (args : Fin n → Component) texts fallback, (∀ i, (args i).interpret = .ok (texts i)) →
        interpretBody (.translatable format (some (List.ofFn args)) fallback) =
          .ok (segments.flatMap (·.filled texts))) ∧
      ∀ (args : Fin n → Component) fallback i e,
        (∀ j < i, ∃ text, (args j).interpret = .ok text) → (args i).interpret = .error e →
        interpretBody (.translatable format (some (List.ofFn args)) fallback) = .error e := by
  obtain ⟨scanned, text⟩ := Format.scanned_pieces format
  refine ⟨Format.segmentsFrom n 0 [] (Format.pieces format), ?_, ?_, ?_⟩
  · have cut := Format.segmented_segmentsFrom (n := n) 0 [] scanned
    rwa [text] at cut
  · intro args texts fallback each
    obtain ⟨t, filled, same⟩ := Format.exists_fill_ofFn texts 0 [] short
    change (interpretEach (List.ofFn args) >>= Format.apply format) = _
    rw [interpretEach_ofFn each, same]
    exact filled
  · intro args fallback i e before first
    change (interpretEach (List.ofFn args) >>= Format.apply format) = _
    rw [interpretEach_ofFn_error before first]
    rfl

theorem interpretBody_segmented_missing : let format := ofString "%s of %3$s and %s"
    (∀ digits ∈ Format.numbers format, digits.length ≤ maxDigits) ∧
      ∃ segments : List (Format.Segment 1), Format.Segmented 0 format segments ∧
        (∀ (args : Fin 1 → Component) texts fallback, (∀ i, (args i).interpret = .ok (texts i)) →
          interpretBody (.translatable format (some (List.ofFn args)) fallback) =
            .ok (segments.flatMap (·.filled texts))) ∧
        ∀ (args : Fin 1 → Component) fallback i e,
          (∀ j < i, ∃ text, (args j).interpret = .ok text) → (args i).interpret = .error e →
          interpretBody (.translatable format (some (List.ofFn args)) fallback) = .error e := by
  intro format
  have short : ∀ digits ∈ Format.numbers format, digits.length ≤ maxDigits := by decide +kernel
  exact ⟨short, interpretBody_segmented short 1⟩

end Component
end ChatPreview
