import ChatPreview.Preview
import ChatPreview.Proofs.Line.Commands
import ChatPreview.Proofs.Template.Match
/-!
Commands whose reading stopped: the text they show comes from a match of which the unread text is the
last node.
-/
namespace ChatPreview.Preview
open Template (Catalog)

def tailNode (c : Command) (e : Failure) (kind : Kind) : Node :=
  ⟨kind, tailFrom c.raw (e.offset - c.position), e.offset.toNat, []⟩

variable {host : Host} {catalog : Catalog} {c : Command} {e : Failure} {t : Text}

theorem message_of_text {s : Subject} (shown : ofSubject host s = .ok (.text t)) :
    ∃ raw, s = .message raw ∧ ofMessage host raw = .ok (.text t) := by
  cases s with
  | message raw => exact ⟨raw, rfl, shown⟩
  | trailing e => cases shown

theorem subject_of_text (shown : ofCommand host catalog c = .ok (some (.text t))) :
    ∃ raw, subject catalog c = some (.message raw) ∧ ofMessage host raw = .ok (.text t) := by
  cases found : subject catalog c with
  | none =>
      rw [ofCommand_of_none found] at shown
      cases shown
  | some s =>
      rw [ofCommand_of_some found] at shown
      cases read : ofSubject host s with
      | error limit =>
          rw [read] at shown
          cases shown
      | ok preview =>
          rw [read] at shown
          cases shown
          obtain ⟨raw, rfl, message⟩ := message_of_text read
          exact ⟨raw, rfl, message⟩

/-- The nodes that were read show nothing unless the unread text completes the command. -/
theorem match_of_stopped {raw : List Char} (stopped : c.error = some e)
    (found : subject catalog c = some (.message raw)) :
    ∃ kind m, opens (tailFrom c.raw (e.offset - c.position)) = some kind ∧
      catalog.match? true (c.nodes ++ [tailNode c e kind]) = some m ∧ m.message? = some raw := by
  rw [subject, stopped] at found
  simp only at found
  cases recovered : (recovered? c e).bind (catalog.match? true) with
  | none =>
      rw [recovered] at found
      obtain ⟨raw, _, other⟩ := Option.map_eq_some_iff.1 found
      cases other
  | some m =>
      rw [recovered] at found
      obtain ⟨raw, message, same⟩ := Option.map_eq_some_iff.1 found
      cases same
      obtain ⟨nodes, complete, fits⟩ := Option.bind_eq_some_iff.1 recovered
      obtain ⟨kind, opened, rfl⟩ := Option.map_eq_some_iff.1 complete
      exact ⟨kind, m, opened, fits, message⟩

/-- Only where the error stands before the span of its command is the tail another text. -/
theorem tailFrom_eq_extract {source : List Char} (raw : c.raw = source.extract c.position c.stop)
    {offset : Int} (ahead : c.position ≤ offset) :
    tailFrom c.raw (offset - c.position) = source.extract offset.toNat c.stop := by
  obtain ⟨n, rfl⟩ := Int.eq_ofNat_of_zero_le (Int.le_trans (Int.natCast_nonneg _) ahead)
  have bound : c.position ≤ n := Int.ofNat_le.1 ahead
  have nonneg : ¬((n : Int) - c.position < 0) := by omega
  have index : ((n : Int) - c.position).toNat = n - c.position := by omega
  have place : c.position + (n - c.position) = n := by omega
  have length : c.stop - c.position - (n - c.position) = c.stop - n := by omega
  rw [tailFrom, if_neg nonneg, index, raw, List.extract_eq_take_drop, List.extract_eq_take_drop,
    List.drop_take, List.drop_drop, place, length, Int.toNat_natCast]

/-- A command whose reading stopped shows no text but that of all that is unread. -/
def ShowsUnread (host : Host) (catalog : Catalog) (source : List Char) (c : Command) : Prop :=
  ∀ e ∈ c.error, ∀ t, ofCommand host catalog c = .ok (some (.text t)) →
    ofMessage host (source.extract e.offset.toNat c.stop) = .ok (.text t)

instance (host : Host) (catalog : Catalog) (source : List Char) (c : Command) :
    Decidable (ShowsUnread host catalog source c) :=
  inferInstanceAs (Decidable (∀ _ ∈ c.error, ∀ _, _ → _))

/-- Where a text comes from that is shown though reading stopped: a match takes all that is unread as
its last node, which is the message unless an argument comes after the message. -/
structure Recovers (host : Host) (catalog : Catalog) (c : Command) (unread : Node) (t : Text)
    (m : Match) : Prop where
  opened : opens unread.content = some unread.kind
  fits : catalog.match? true (c.nodes ++ [unread]) = some m
  final : m.nodes.getLast? = some unread
  shown : ∃ raw, m.message? = some raw ∧ ofMessage host raw = .ok (.text t)
  last : m.template.MessageLast → ofMessage host unread.content = .ok (.text t)

/-- Where the error stands in the span of its command, a text is shown only by a match that takes all
that is unread. -/
theorem recovers_of_text {limit : Int} {source : List Char} (member : c ∈ commandsWithin limit source)
    (stopped : c.error = some e) (ahead : (c.position : Int) ≤ e.offset)
    (shown : ofCommand host catalog c = .ok (some (.text t))) :
    ∃ kind m, Recovers host catalog c
      ⟨kind, source.extract e.offset.toNat c.stop, e.offset.toNat, []⟩ t m := by
  obtain ⟨raw, found, message⟩ := subject_of_text shown
  obtain ⟨kind, m, opened, fits, argument⟩ := match_of_stopped stopped found
  rw [tailNode] at fits
  rw [tailFrom_eq_extract (raw_eq_extract member) ahead] at opened fits
  have final := Catalog.last_of_match? fits
  refine ⟨kind, m, opened, fits, final, ⟨raw, argument, message⟩, fun last => ?_⟩
  obtain ⟨n, ended, content⟩ :=
    Template.message?_eq_last (Catalog.match?_spec fits).2.2 last argument
  rw [Option.some.inj (final.symm.trans ended), content]
  exact message

theorem recovers_of_text_array : ∃ c ∈ commandsWithin 0 "tellraw @s [\"hi\"]".toList,
    ∃ e ∈ c.error, ∃ kind m, Recovers .standard Template.standard c
      ⟨kind, "tellraw @s [\"hi\"]".toList.extract e.offset.toNat c.stop, e.offset.toNat, []⟩
      (Text.ofString "hi") m := by
  have found : ∃ c ∈ commandsWithin 0 "tellraw @s [\"hi\"]".toList, c.error.isSome ∧
      (∀ e ∈ c.error, (c.position : Int) ≤ e.offset) ∧
      ¬∀ t, ofCommand .standard Template.standard c = .ok (some (.text t)) → t ≠ Text.ofString "hi" := by
    decide +kernel
  obtain ⟨c, member, stopped, ahead, shown⟩ := found
  obtain ⟨e, failed⟩ := Option.isSome_iff_exists.1 stopped
  push Not at shown
  obtain ⟨t, shown, rfl⟩ := shown
  exact ⟨c, member, e, failed, recovers_of_text member failed (ahead e failed) shown⟩

/-- An argument after the message takes the unread text, and an error before the span of its
command makes a part of that text of the command. -/
theorem not_showsUnread :
    (∃ c ∈ commands "say \"hi\" \x7boops".toList,
      ¬ShowsUnread .standard [⟨[Template.word "say", .argument messageName [.string],
        .argument "rest".toList Kind.all], by decide, by decide⟩] "say \"hi\" \x7boops".toList c) ∧
    ∃ c ∈ commands "\r   x \"hi\"".toList,
      ¬ShowsUnread .standard [⟨[.argument messageName Kind.all], by decide, by decide⟩]
        "\r   x \"hi\"".toList c := by
  constructor
  · decide +kernel
  · decide +kernel

end ChatPreview.Preview
