import ChatPreview.Template.Parse
import Mathlib.Data.List.Forall2
import Mathlib.Data.List.TakeWhile

namespace ChatPreview
open Text

/-! ## Words -/

namespace Text
variable {s w : List Char}

theorem fields_eq (s : List Char) : fields s = s.splitOnP isSpace := by
  induction s with
  | nil => exact List.splitOnP_nil.symm
  | cons c s ih =>
      obtain ⟨w, ws, split⟩ := List.exists_cons_of_ne_nil (List.splitOnP_ne_nil isSpace s)
      rw [fields, List.splitOnP_cons_eq_if_modifyHead, ih, split]
      rfl

theorem words_of_ink (nonempty : w ≠ []) (ink : ∀ c ∈ w, isSpace c = false) : words w = [w] := by
  rw [words, fields_eq, List.splitOnP_eq_singleton ink]
  exact List.filter_cons_of_pos (by simpa using nonempty)

theorem words_append_space {c : Char} (space : isSpace c) (s t : List Char) :
    words (s ++ c :: t) = words s ++ words t := by
  rw [words, words, words, fields_eq, fields_eq, fields_eq, List.splitOnP_append_cons s t space,
    List.filter_append]

theorem words_spaced {ws : List (List Char)}
    (each : ∀ w ∈ ws, w ≠ [] ∧ ∀ c ∈ w, isSpace c = false) :
    words (List.intercalate [' '] ws) = ws := by
  induction ws with
  | nil => rfl
  | cons w ws ih =>
      obtain ⟨⟨nonempty, ink⟩, others⟩ := List.forall_mem_cons.1 each
      cases ws with
      | nil => rw [List.intercalate_singleton, words_of_ink nonempty ink]
      | cons v ws =>
          rw [List.intercalate_cons_cons, List.append_assoc, List.singleton_append,
            words_append_space rfl, words_of_ink nonempty ink, ih others, List.singleton_append]

theorem ink_of_mem_fields (member : w ∈ fields s) : ∀ c ∈ w, isSpace c = false := by
  induction s generalizing w with
  | nil =>
      rw [List.mem_singleton.1 member]
      simp
  | cons c s ih =>
      rw [fields] at member
      split at member
      · rcases List.mem_cons.1 member with rfl | later
        · simp
        · exact ih later
      · rename_i ink
        split at member
        · rw [List.mem_singleton.1 member]
          simpa using ink
        · rename_i v vs split
          rcases List.mem_cons.1 member with rfl | later
          · exact List.forall_mem_cons.2 ⟨by simpa using ink, ih (by simp [split])⟩
          · exact ih (by simp [split, later])

theorem mem_words (member : w ∈ words s) : w ≠ [] ∧ ∀ c ∈ w, isSpace c = false := by
  obtain ⟨field, nonempty⟩ := List.mem_filter.1 member
  exact ⟨by simpa using nonempty, ink_of_mem_fields field⟩

end Text

namespace Template

theorem mapM_eq_ok {α β ε : Type} {f : α → Except ε β} {as : List α} {bs : List β} :
    as.mapM f = .ok bs ↔ List.Forall₂ (fun a b => f a = .ok b) as bs := by
  induction as generalizing bs with
  | nil => cases bs <;> simp [pure, Except.pure]
  | cons a as ih =>
      rw [List.mapM_cons]
      cases first : f a with
      | error e => cases bs <;> simp [bind, Except.bind, first]
      | ok b =>
          cases rest : as.mapM f with
          | error e => cases bs <;> simp [bind, Except.bind, first, ← ih, rest]
          | ok bs' => cases bs <;> simp [bind, Except.bind, pure, Except.pure, first, ← ih, rest]

/-! ## Type lists -/

section
variable {text types name : List Char} {allowed given : List Kind}

theorem unbar_eq (s : List Char) : unbar s = s.splitOn '|' := by
  induction s with
  | nil => rfl
  | cons c s ih =>
      obtain ⟨w, ws, split⟩ := List.exists_cons_of_ne_nil (List.splitOn_ne_nil '|' s)
      rw [unbar, List.splitOn_cons_eq_if_modifyHead, ih, split]
      simp only [beq_iff_eq]
      rfl

theorem unbar_barred (nonempty : allowed ≠ []) :
    unbar (Pattern.barred allowed) = allowed.map (·.name.toList) := by
  rw [unbar_eq, Pattern.barred, List.splitOn_intercalate '|' _ (by simpa using nonempty)]
  intro name member
  obtain ⟨kind, _, rfl⟩ := List.mem_map.1 member
  cases kind <;> decide

theorem kinds_eq_ok : kinds text types = .ok allowed ↔
    ∃ given, List.Forall₂ (fun name kind => Kind.ofName? name = some kind) (unbar types) given ∧
      allowed = Kind.all.filter given.contains := by
  let read (name : List Char) : Except Fault Kind :=
    (Kind.ofName? name).elim (.error (.unknownType name text)) .ok
  have each : kinds text types =
      (unbar types).mapM read >>= fun given => return Kind.all.filter given.contains := by
    rw [kinds]
    congr
    funext name
    cases found : Kind.ofName? name <;> simp only [read, found] <;> rfl
  have known (name : List Char) (kind : Kind) :
      Kind.ofName? name = some kind ↔ read name = .ok kind := by
    cases found : Kind.ofName? name <;> simp [read, found]
  simp only [known, ← mapM_eq_ok, each]
  cases (unbar types).mapM read with
  | error e => simp [bind, Except.bind]
  | ok given => simp [bind, Except.bind, pure, Except.pure, eq_comm]

theorem ofName?_name (kind : Kind) : Kind.ofName? kind.name.toList = some kind := by
  cases kind <;> decide

theorem mem_all (kind : Kind) : kind ∈ Kind.all := by
  cases kind <;> decide

def Sorted (kinds : List Kind) : Prop := Kind.all.filter kinds.contains = kinds

theorem sorted_filter (p : Kind → Bool) : Sorted (Kind.all.filter p) := by
  refine List.filter_congr fun kind _ => ?_
  rw [Bool.eq_iff_iff, List.contains_iff_mem, List.mem_filter, and_iff_right (mem_all kind)]

theorem sorted_of_kinds (read : kinds text types = .ok allowed) : allowed ≠ [] ∧ Sorted allowed := by
  obtain ⟨given, each, rfl⟩ := kinds_eq_ok.1 read
  refine ⟨?_, sorted_filter _⟩
  obtain ⟨name, names, split⟩ := List.exists_cons_of_ne_nil (List.splitOn_ne_nil '|' types)
  rw [unbar_eq, split] at each
  cases each with
  | @cons _ kind _ _ _ _ =>
      exact List.ne_nil_of_mem (List.mem_filter.2 ⟨mem_all kind, by simp⟩)

theorem kinds_barred (nonempty : allowed ≠ []) (sorted : Sorted allowed) :
    kinds text (Pattern.barred allowed) = .ok allowed := by
  refine kinds_eq_ok.2 ⟨allowed, ?_, sorted.symm⟩
  rw [unbar_barred nonempty, List.forall₂_map_left_iff, List.forall₂_same]
  exact fun kind _ => ofName?_name kind

theorem barred_ne_nil (nonempty : allowed ≠ []) : Pattern.barred allowed ≠ [] := by
  intro empty
  have given := unbar_barred nonempty
  rw [empty] at given
  obtain ⟨kind, kinds, rfl⟩ := List.exists_cons_of_ne_nil nonempty
  have unnamed : kind.name.toList = [] := (List.cons.inj given).1.symm
  cases kind <;> exact absurd unnamed (by decide)

theorem inTypes_barred (kinds : List Kind) : ∀ c ∈ Pattern.barred kinds, inTypes c := by
  rw [Pattern.barred]
  induction kinds with
  | nil => simp
  | cons kind kinds ih =>
      have here : ∀ c ∈ kind.name.toList, inTypes c :=
        List.all_eq_true.1 (by cases kind <;> rfl)
      cases kinds with
      | nil => simpa using here
      | cons next kinds =>
          rw [List.map_cons, List.map_cons, List.intercalate_cons_cons]
          intro c member
          rcases List.mem_append.1 member with first | later
          · rcases List.mem_append.1 first with inName | bar
            · exact here c inName
            · rw [List.mem_singleton.1 bar]
              rfl
          · exact ih c later

end

/-! ## Arguments -/

structure Names (name : List Char) : Prop where
  starts : name.head?.any startsName
  inside : ∀ c ∈ name, inName c

section
variable {text name types word : List Char} {types? : Option (List Char)}

theorem names_of_argument? (read : argument? word = some (name, types?)) : Names name := by
  unfold argument? at read
  split at read
  · split at read
    · simp only at read
      split at read
      · cases read
      · rename_i starts
        simp only [Bool.not_eq_true', Bool.not_eq_false] at starts
        split at read
        · cases read
          exact ⟨starts, fun c => List.mem_takeWhile_imp⟩
        · split at read <;> cases read
          exact ⟨starts, fun c => List.mem_takeWhile_imp⟩
        · cases read
    · cases read
  · cases read

theorem argument?_of_names (names : Names name) (rest : List Char) :
    rest.takeWhile inName = [] → argument? ('<' :: (name ++ rest) ++ ['>']) = match rest with
      | [] => some (name, none)
      | ':' :: types => if !types.isEmpty && types.all inTypes then some (name, some types) else none
      | _ => none := by
  intro ends
  have inner : (name ++ rest ++ ['>']).dropLast = name ++ rest := List.dropLast_concat
  have taken : (name ++ rest).takeWhile inName = name := by
    rw [List.takeWhile_append_of_pos names.inside, ends, List.append_nil]
  have closed : (name ++ rest ++ ['>']).getLast? = some '>' := List.getLast?_concat
  rw [List.cons_append, argument?, if_pos closed]
  simp only [inner, taken, List.drop_left]
  exact if_neg (by simp [names.starts])

end

end Template

namespace Pattern

/-- Whether a pattern is one that some word is read as. -/
def Readable : Pattern → Prop
  | literal text => text ≠ [] ∧ (∀ c ∈ text, isSpace c = false) ∧ text.head? ≠ some '<'
  | argument name allowed => Template.Names name ∧ allowed ≠ [] ∧ Template.Sorted allowed

end Pattern

namespace Template

section
variable {p : Pattern} {text word : List Char}

theorem readable_of_pattern (nonempty : word ≠ []) (ink : ∀ c ∈ word, isSpace c = false)
    (read : pattern text word = .ok p) : p.Readable := by
  rw [pattern] at read
  split at read
  · split at read
    · cases read
    · rename_i name found
      cases read
      exact ⟨names_of_argument? found, by decide, sorted_filter fun _ => true⟩
    · rename_i name types found
      cases listed : kinds text types with
      | error e =>
          rw [listed] at read
          cases read
      | ok allowed =>
          rw [listed] at read
          cases read
          exact ⟨names_of_argument? found, sorted_of_kinds listed⟩
  · rename_i open'
    cases read
    exact ⟨nonempty, ink, open'⟩

/-- A pattern that can be read is read from what is written of it. -/
theorem pattern_written (readable : p.Readable) (text : List Char) :
    pattern text p.written = .ok p := by
  cases p with
  | literal word =>
      obtain ⟨_, _, closed⟩ := readable
      rw [pattern, Pattern.written, if_neg closed]
  | argument name allowed =>
      obtain ⟨names, nonempty, sorted⟩ := readable
      have opened (rest : List Char) : ('<' :: (name ++ rest) ++ ['>']).head? = some '<' := rfl
      rw [Pattern.written]
      split
      · rename_i all
        have bare := argument?_of_names names [] rfl
        have shown : '<' :: name ++ ['>'] = '<' :: (name ++ []) ++ ['>'] := by
          rw [List.append_nil]
        rw [shown, pattern, if_pos (opened _), bare, all]
      · have typed := argument?_of_names names (':' :: Pattern.barred allowed) rfl
        have listed :
            (!(Pattern.barred allowed).isEmpty && (Pattern.barred allowed).all inTypes) := by
          rw [Bool.and_eq_true, List.all_eq_true]
          exact ⟨by simpa using barred_ne_nil nonempty, inTypes_barred allowed⟩
        have shown : '<' :: name ++ ':' :: Pattern.barred allowed ++ ['>'] =
            '<' :: (name ++ ':' :: Pattern.barred allowed) ++ ['>'] := rfl
        rw [shown, pattern, if_pos (opened _), typed]
        simp only [if_pos listed]
        rw [kinds_barred nonempty sorted]
        rfl

theorem inTypes_visible {c : Char} (inside : inTypes c) : isSpace c = false := by
  delta inTypes at inside
  simp only [Bool.or_eq_true, Bool.and_eq_true, decide_eq_true_eq, beq_iff_eq,
    Char.le_def, UInt32.le_iff_toNat_le] at inside
  rcases inside with ⟨low, high⟩ | rfl
  · exact not_isSpace_of_visible (Nat.le_trans (by decide) low)
      (Nat.lt_of_le_of_lt high (by decide))
  · rfl

theorem inName_visible {c : Char} (inside : inName c) : isSpace c = false := by
  have bounds (low high : Char) (least : 33 ≤ low.toNat) (greatest : high.toNat < 127)
      (between : low ≤ c ∧ c ≤ high) : isSpace c = false :=
    not_isSpace_of_visible (Nat.le_trans least (UInt32.le_iff_toNat_le.1 between.1))
      (Nat.lt_of_le_of_lt (UInt32.le_iff_toNat_le.1 between.2) greatest)
  delta inName startsName isLetter Char.isDigit at inside
  simp only [Bool.or_eq_true, Bool.and_eq_true, decide_eq_true_eq, beq_iff_eq] at inside
  rcases inside with ((((lower | upper) | rfl) | digit) | rfl)
  · exact bounds 'a' 'z' (by decide) (by decide) lower
  · exact bounds 'A' 'Z' (by decide) (by decide) upper
  · rfl
  · exact bounds '0' '9' (by decide) (by decide) digit
  · rfl

theorem written_ink (readable : p.Readable) :
    p.written ≠ [] ∧ ∀ c ∈ p.written, isSpace c = false := by
  cases p with
  | literal word => exact ⟨readable.1, readable.2.1⟩
  | argument name allowed =>
      have inside : ∀ c ∈ name, isSpace c = false :=
        fun c member => inName_visible (readable.1.inside c member)
      have listed : ∀ c ∈ Pattern.barred allowed, isSpace c = false :=
        fun c member => inTypes_visible (inTypes_barred allowed c member)
      have closed : ∀ c ∈ ['>'], isSpace c = false := List.forall_mem_singleton.2 rfl
      rw [Pattern.written]
      split
      · refine ⟨List.cons_ne_nil _ _, List.forall_mem_append.2 ⟨?_, closed⟩⟩
        exact List.forall_mem_cons.2 ⟨rfl, inside⟩
      · refine ⟨List.cons_ne_nil _ _, List.forall_mem_append.2 ⟨?_, closed⟩⟩
        refine List.forall_mem_cons.2 ⟨rfl, List.forall_mem_append.2 ⟨inside, ?_⟩⟩
        exact List.forall_mem_cons.2 ⟨rfl, listed⟩

end

theorem patterns_of_parse {text : List Char} {t : Template} (read : parse text = .ok t) :
    (words text).mapM (pattern text) = .ok t.patterns := by
  rw [parse] at read
  cases each : (words text).mapM (pattern text) with
  | error e =>
      rw [each] at read
      cases read
  | ok patterns =>
      rw [each] at read
      change ofPatterns patterns = .ok t at read
      rw [ofPatterns] at read
      split at read
      · cases read
      · split at read <;> cases read
        rfl

theorem readable_of_parse {text : List Char} {t : Template} (read : parse text = .ok t) :
    ∀ p ∈ t.patterns, p.Readable := by
  have each := mapM_eq_ok.1 (patterns_of_parse read)
  intro p member
  obtain ⟨i, inside, rfl⟩ := List.mem_iff_getElem.1 member
  have before : i < (words text).length := each.length_eq ▸ inside
  obtain ⟨nonempty, ink⟩ := mem_words (List.getElem_mem before)
  exact readable_of_pattern nonempty ink (each.get before inside)

/-- What is written of a template that was read is read as the same template, however the text that
it was read from is laid out. -/
theorem parse_written {text : List Char} {t : Template} (read : parse text = .ok t) :
    parse t.written = .ok t := by
  have readable := readable_of_parse read
  have split : words t.written = t.patterns.map Pattern.written := by
    refine words_spaced ?_
    simpa only [List.forall_mem_map] using fun p member => written_ink (readable p member)
  have each : (t.patterns.map Pattern.written).mapM (pattern t.written) = .ok t.patterns := by
    rw [mapM_eq_ok, List.forall₂_map_left_iff, List.forall₂_same]
    exact fun p member => pattern_written (readable p member) t.written
  rw [parse, split, each]
  exact (dif_neg t.nonempty).trans (dif_pos t.distinct)

/-- Spaces of several kinds, types out of order and repeated, and an argument of every type. -/
theorem parse_written_layout :
    ∃ text t, text = ("\u2003give\t<who:selector>\u00A0\n<what:string|array|string>\u3000" ++
        "<any:string|selector|object|literal|comment|array>").toList ∧
      parse text = .ok t ∧ t.written = "give <who:selector> <what:array|string> <any>".toList ∧
      parse t.written = .ok t := by
  let t : Template := ⟨[word "give", .argument "who".toList [.selector],
    .argument "what".toList [.array, .string], .argument "any".toList Kind.all],
    by decide, by decide⟩
  have read : parse ("\u2003give\t<who:selector>\u00A0\n<what:string|array|string>\u3000" ++
      "<any:string|selector|object|literal|comment|array>").toList = .ok t := rfl
  exact ⟨_, t, rfl, read, by decide, parse_written read⟩

end Template
end ChatPreview
