import ChatPreview.Proofs.Place.Basic
import ChatPreview.Proofs.Place.Commands
import ChatPreview.Proofs.Preview.Document

namespace ChatPreview.Workspace
open Template (Catalog)

inductive Answer where
  | diagnostic (d : Diagnostic)
  | hint (h : Hint)

namespace Answer

def place : Answer → Place
  | diagnostic d => d.first
  | hint h => h.place

def diagnostic? : Answer → Option Diagnostic
  | diagnostic d => some d
  | hint _ => none

def hint? : Answer → Option Hint
  | diagnostic _ => none
  | hint h => some h

def of (source mark : List Char) : Command × Preview → Answer
  | (c, .failure why) => diagnostic ⟨placeAt source c.position, placeAt source c.stop, why.text⟩
  | (c, .text t) => hint ⟨placeAt source c.stop, label mark t⟩

end Answer

def merged (ds : List Diagnostic) (hs : List Hint) : List Answer :=
  (ds.map Answer.diagnostic ++ hs.map Answer.hint).mergeSort fun x y => x.place ≤ y.place

/-- Where an offset is, for an editor; positions count from one. -/
def IsPlace (source : List Char) (offset : Nat) (p : Place) : Prop :=
  (locate source offset).line = p.line + 1 ∧ (locate source offset).column = p.column + 1

/-- What an editor is told of a preview: what is wrong, from the start of its command to the end, or
its text at the end of its command, after the lead without the white space around that. -/
inductive Answered (lead source : List Char) : Command × Preview → Answer → Prop
  | diagnostic {c : Command} {why : Refusal} {d : Diagnostic}
    (first : IsPlace source c.position d.first) (last : IsPlace source c.stop d.last)
    (message : d.message = why.text) : Answered lead source (c, .failure why) (.diagnostic d)
  | hint {c : Command} {t : Text} {h : Hint} (place : IsPlace source c.stop h.place)
    (label : h.label = (if Text.trim lead = [] then [] else
      Text.ofChars (Text.trim lead) ++ [.scalar ' ']) ++ t) :
    Answered lead source (c, .text t) (.hint h)

def InOrder (answers : List Answer) : Prop := answers.Pairwise fun x y => x.place < y.place

theorem answers_perm (answers : List Answer) :
    (((answers.filterMap Answer.diagnostic?).map Answer.diagnostic) ++
      (answers.filterMap Answer.hint?).map Answer.hint).Perm answers := by
  induction answers with
  | nil => exact .nil
  | cons x answers ih =>
      cases x with
      | diagnostic d => exact ih.cons _
      | hint h => exact List.perm_middle.trans (ih.cons _)

theorem InOrder.eq_of_le {answers : List Answer} (ordered : InOrder answers) {x y : Answer}
    (first : x ∈ answers) (second : y ∈ answers) (le : x.place ≤ y.place) (ge : y.place ≤ x.place) :
    x = y := by
  induction answers with
  | nil => cases first
  | cons z answers ih =>
      obtain ⟨ahead, later⟩ := List.pairwise_cons.mp ordered
      rcases List.mem_cons.mp first with here | there
      · rcases List.mem_cons.mp second with here' | there'
        · exact here.trans here'.symm
        · subst here
          exact absurd ge (Place.not_le_of_lt (ahead y there'))
      · rcases List.mem_cons.mp second with here' | there'
        · subst here'
          exact absurd le (Place.not_le_of_lt (ahead x there))
        · exact ih later there there'

theorem merged_sorted (ds : List Diagnostic) (hs : List Hint) :
    (merged ds hs).Pairwise fun x y => decide (x.place ≤ y.place) = true := by
  apply List.pairwise_mergeSort
  · intro x y z first second
    rw [decide_eq_true_eq] at first second ⊢
    exact Place.le_trans first second
  · intro x y
    rw [Bool.or_eq_true, decide_eq_true_eq, decide_eq_true_eq]
    exact Place.le_total x.place y.place

/-- Answers in order are what merging their diagnostics and hints gives. -/
theorem merged_of_inOrder {answers : List Answer} (ordered : InOrder answers) :
    merged (answers.filterMap Answer.diagnostic?) (answers.filterMap Answer.hint?) = answers := by
  have perm := (List.mergeSort_perm _ fun x y => decide (x.place ≤ y.place)).trans
    (answers_perm answers)
  have sorted := merged_sorted (answers.filterMap Answer.diagnostic?)
    (answers.filterMap Answer.hint?)
  have given : answers.Pairwise fun x y => decide (x.place ≤ y.place) = true :=
    ordered.imp fun less => decide_eq_true (Place.le_of_lt less)
  -- Sorting is told by the places only, so two answers of one place would be in doubt.
  have alone : ∀ x y, x ∈ merged (answers.filterMap Answer.diagnostic?)
      (answers.filterMap Answer.hint?) → y ∈ answers → decide (x.place ≤ y.place) = true →
      decide (y.place ≤ x.place) = true → x = y := by
    intro x y first second le ge
    exact ordered.eq_of_le (perm.subset first) second (of_decide_eq_true le) (of_decide_eq_true ge)
  exact List.Perm.eq_of_pairwise alone sorted given perm

/-! ## Answers of previews -/

section
variable {host : Host} {catalog : Catalog} {source : List Char}
  {previews : List (Command × Preview)}

theorem diagnostic?_of (source mark : List Char) (p : Command × Preview) :
    (Answer.of source mark p).diagnostic? = diagnostic? source p := by
  rcases p with ⟨c, shown | why⟩
  · rfl
  · rfl

theorem hint?_of (source mark : List Char) (p : Command × Preview) :
    (Answer.of source mark p).hint? = hint? source mark p := by
  rcases p with ⟨c, shown | why⟩
  · rfl
  · rfl

theorem filterMap_diagnostic?_of (source mark : List Char) (previews : List (Command × Preview)) :
    (previews.map (Answer.of source mark)).filterMap Answer.diagnostic? =
      previews.filterMap (diagnostic? source) := by
  rw [List.filterMap_map]
  exact congrArg (previews.filterMap ·) (funext (diagnostic?_of source mark))

theorem filterMap_hint?_of (source mark : List Char) (previews : List (Command × Preview)) :
    (previews.map (Answer.of source mark)).filterMap Answer.hint? =
      previews.filterMap (hint? source mark) := by
  rw [List.filterMap_map]
  exact congrArg (previews.filterMap ·) (funext (hint?_of source mark))

theorem label_eq (mark : List Char) (t : Text) :
    label mark t = (if mark = [] then [] else Text.ofChars mark ++ [.scalar ' ']) ++ t := by
  cases mark with
  | nil => rfl
  | cons x mark =>
      rw [if_neg (List.cons_ne_nil x mark), List.append_assoc]
      rfl

theorem answered_of (lead source : List Char) (p : Command × Preview) :
    Answered lead source p (Answer.of source (Text.trim lead) p) := by
  rcases p with ⟨c, shown | why⟩
  · exact .hint (locate_placeAt source c.stop) (label_eq (Text.trim lead) shown)
  · exact .diagnostic (locate_placeAt source c.position) (locate_placeAt source c.stop) rfl

theorem placeAt_le_of (source mark : List Char) {p : Command × Preview}
    (span : p.1.position ≤ p.1.stop) :
    placeAt source p.1.position ≤ (Answer.of source mark p).place ∧
      (Answer.of source mark p).place ≤ placeAt source p.1.stop := by
  rcases p with ⟨c, shown | why⟩
  · exact ⟨placeAt_le span, Place.le_refl _⟩
  · exact ⟨Place.le_refl _, placeAt_le span⟩

theorem previewed_of_document (shown : Preview.ofDocument host catalog source = .ok previews) :
    Preview.Previewed host catalog (commands source) previews := by
  obtain ⟨others, read, previewed⟩ | ⟨e, stopped, _⟩ :=
    Preview.ofCommands_previewed host catalog (commands source)
  · cases shown.symm.trans read
    exact previewed
  · cases shown.symm.trans stopped

theorem previews_inside (shown : Preview.ofDocument host catalog source = .ok previews) :
    ∀ p ∈ previews, p.1 ∈ commands source ∧ p.1.position ≤ p.1.stop ∧ p.1.stop ≤ source.length := by
  intro p member
  have listed : p.1 ∈ previews.map Prod.fst := List.mem_map_of_mem member
  rw [(previewed_of_document shown).commands] at listed
  have command := (List.mem_filter.mp listed).1
  have bounds := (commands_separate source).inside p.1 command
  exact ⟨command, bounds.2.1, bounds.2.2⟩

theorem previews_ordered (shown : Preview.ofDocument host catalog source = .ok previews) :
    previews.Pairwise fun p q => p.1.stop < q.1.position := by
  have ordered := (commands_separate source).ordered.filter (Preview.bears catalog)
  rw [← (previewed_of_document shown).commands] at ordered
  exact List.pairwise_map.mp ordered

theorem placeAt_ordered (shown : Preview.ofDocument host catalog source = .ok previews) :
    previews.Pairwise fun p q =>
      placeAt source p.1.stop < placeAt source q.1.position ∧ p.1.position ≤ p.1.stop ∧
        q.1.position ≤ q.1.stop := by
  apply (previews_ordered shown).imp_of_mem
  intro p q first second apart
  obtain ⟨_, span, _⟩ := previews_inside shown p first
  obtain ⟨_, span', within⟩ := previews_inside shown q second
  exact ⟨placeAt_lt apart (Nat.le_trans span' within), span, span'⟩

/-- Answers for the previews of a document are in the order of the document. -/
theorem inOrder_of_document (mark : List Char)
    (shown : Preview.ofDocument host catalog source = .ok previews) :
    InOrder (previews.map (Answer.of source mark)) := by
  apply List.pairwise_map.mpr
  apply (placeAt_ordered shown).imp
  intro p q ordered
  have last := (placeAt_le_of source mark ordered.2.1).2
  have start := (placeAt_le_of source mark ordered.2.2).1
  exact Place.lt_of_le_of_lt last (Place.lt_of_lt_of_le ordered.1 start)

/-! ## Diagnostics -/

structure Covers (source : List Char) (d : Diagnostic) (p : Command × Preview) : Prop where
  ordered : d.first ≤ d.last
  text : Place.between source d.first d.last = p.1.raw

theorem covers_of_document (shown : Preview.ofDocument host catalog source = .ok previews) :
    List.Forall₂ (Covers source) (previews.filterMap (diagnostic? source))
      (previews.filter (!·.2.ok)) := by
  have inside := previews_inside shown
  clear shown
  induction previews with
  | nil => exact .nil
  | cons p previews ih =>
      have rest := ih fun q member => inside q (List.mem_cons_of_mem p member)
      obtain ⟨command, span, within⟩ := inside p List.mem_cons_self
      rcases p with ⟨c, text | why⟩
      · exact rest
      · refine .cons ⟨placeAt_le span, ?_⟩ rest
        rw [between_placeAt span within]
        exact (raw_eq_extract command).symm

theorem diagnostic?_eq_some {p : Command × Preview} {d : Diagnostic}
    (found : diagnostic? source p = some d) :
    d.first = placeAt source p.1.position ∧ d.last = placeAt source p.1.stop := by
  rcases p with ⟨c, text | why⟩
  · cases found
  · cases found
    exact ⟨rfl, rfl⟩

theorem diagnostics_apart (shown : Preview.ofDocument host catalog source = .ok previews) :
    (previews.filterMap (diagnostic? source)).Pairwise fun d d' => d.last < d'.first := by
  apply List.Pairwise.filterMap _ _ (placeAt_ordered shown)
  intro p q ordered d found d' found'
  rw [(diagnostic?_eq_some found).2, (diagnostic?_eq_some found').1]
  exact ordered.1

/-! ## Hints in ranges -/

/-- Whether a hint is on a line of the range, its first and last line included. -/
def within (range : Nat × Nat) (h : Hint) : Bool :=
  range.1 ≤ h.place.line && h.place.line ≤ range.2

/-- Every line of a text is in one of the ranges, and in no other. -/
def Partitions (source : List Char) (ranges : List (Nat × Nat)) : Prop :=
  ∀ line ≤ source.count '\n', ranges.countP (fun r => r.1 ≤ line && line ≤ r.2) = 1

theorem flatMap_filter_cons (ranges : List (Nat × Nat)) (h : Hint) (hs : List Hint) :
    (ranges.flatMap fun r => (h :: hs).filter (within r)).Perm
      (List.replicate (ranges.countP (within · h)) h ++
        ranges.flatMap fun r => hs.filter (within r)) := by
  induction ranges with
  | nil => exact .nil
  | cons r ranges ih =>
      rw [List.flatMap_cons, List.flatMap_cons, List.countP_cons]
      by_cases inside : within r h
      · rw [List.filter_cons_of_pos inside, if_pos inside, List.replicate_succ]
        apply List.Perm.cons
        exact (ih.append_left _).trans (List.perm_append_comm_assoc _ _ _)
      · rw [List.filter_cons_of_neg inside, if_neg inside, Nat.add_zero]
        exact (ih.append_left _).trans (List.perm_append_comm_assoc _ _ _)

theorem flatMap_filter_perm {ranges : List (Nat × Nat)} {hs : List Hint}
    (once : ∀ h ∈ hs, ranges.countP (within · h) = 1) :
    (ranges.flatMap fun r => hs.filter (within r)).Perm hs := by
  induction hs with
  | nil => simp
  | cons h hs ih =>
      have first := flatMap_filter_cons ranges h hs
      rw [once h List.mem_cons_self] at first
      exact first.trans ((ih fun k member => once k (List.mem_cons_of_mem h member)).cons h)

end
end ChatPreview.Workspace
