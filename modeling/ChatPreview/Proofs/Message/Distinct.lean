import ChatPreview.Proofs.Message.Rounds

namespace ChatPreview

/-- Whether no object in a value holds a key twice. -/
inductive Value.Distinct : Value → Prop where
  | null : Distinct .null
  | boolean (b : Bool) : Distinct (.boolean b)
  | integer (n : Int) : Distinct (.integer n)
  | real (x : Binary64) : Distinct (.real x)
  | string (t : Text) : Distinct (.string t)
  | array {items : List Value} (each : ∀ v ∈ items, v.Distinct) : Distinct (.array items)
  | object {members : Members} (keys : (members.map Prod.fst).Nodup)
      (each : ∀ m ∈ members, m.2.Distinct) : Distinct (.object members)

namespace Members
variable {members : Members} {key : Text} {v : Value}

theorem mem_put {m : Text × Value} (among : m ∈ members.put key v) : m ∈ members ∨ m = (key, v) := by
  induction members with
  | nil => exact .inr (List.mem_singleton.1 among)
  | cons first rest ih =>
      obtain ⟨k, w⟩ := first
      rw [put] at among
      split at among
      · rename_i same
        rcases List.mem_cons.1 among with rfl | later
        · exact .inr (by rw [same])
        · exact .inl (List.mem_cons_of_mem _ later)
      · rcases List.mem_cons.1 among with rfl | later
        · exact .inl List.mem_cons_self
        · exact (ih later).imp_left (List.mem_cons_of_mem _)

theorem nodup_put (distinct : (members.map Prod.fst).Nodup) :
    ((members.put key v).map Prod.fst).Nodup := by
  induction members with
  | nil => simp [put]
  | cons first rest ih =>
      obtain ⟨k, w⟩ := first
      rw [List.map_cons, List.nodup_cons] at distinct
      rw [put]
      split
      · exact List.nodup_cons.2 distinct
      · rename_i other
        refine List.nodup_cons.2 ⟨fun among => ?_, ih distinct.2⟩
        obtain ⟨m, held, same⟩ := List.mem_map.1 among
        rcases mem_put held with before | rfl
        · exact distinct.1 (List.mem_map.2 ⟨m, before, same⟩)
        · exact other same.symm

end Members

namespace Json

def GivesDistinct (item : Cursor → Read Value) : Prop := ∀ ⦃c v d⦄, item c = .ok (v, d) → v.Distinct

variable {item : Cursor → Read Value} {c d : Cursor} {v : Value}

theorem distinct_of_readItems (gives : GivesDistinct item) {vs : List Value}
    (read : readItems item c = .ok (vs, d)) : ∀ v ∈ vs, v.Distinct := by
  fun_induction readItems item c generalizing vs d with
  | case1 => cases read
  | case2 c v c₁ first =>
      cases read
      exact List.forall_mem_singleton.2 (gives first)
  | case3 c v c₁ first c₂ s comma c₃ =>
      rename_i shorter ih
      obtain ⟨⟨ws, c₄⟩, rest, same⟩ := map_eq_ok read
      cases same
      exact List.forall_mem_cons.2 ⟨gives first, ih rest⟩
  | case4 => cases read
  | case5 => cases read

theorem distinct_put {members : Members} {key : Text} (earlier : (Value.object members).Distinct)
    (value : v.Distinct) : (Value.object (members.put key v)).Distinct := by
  cases earlier with
  | object keys each =>
      refine .object (Members.nodup_put keys) fun m among => ?_
      rcases Members.mem_put among with before | rfl
      · exact each m before
      · exact value

theorem distinct_of_readMembers (gives : GivesDistinct item) {before members : Members}
    (earlier : (Value.object before).Distinct)
    (read : readMembers item before c = .ok (members, d)) : (Value.object members).Distinct := by
  fun_induction readMembers item before c with
  | case1 => cases read
  | case2 => cases read
  | case3 before c key c₁ first v c₂ second c₃ after =>
      obtain ⟨rfl, rfl⟩ := Prod.mk.inj (Except.ok.inj read)
      exact distinct_put earlier (gives second)
  | case4 before c key c₁ first v c₂ second c₃ after s comma c₄ shorter ih =>
      exact ih (distinct_put earlier (gives second)) read
  | case5 => cases read
  | case6 => cases read

theorem givesDistinct_readNumber : GivesDistinct readNumber := by
  intro c v d read
  rw [readNumber] at read
  simp only at read
  generalize (if c.rest.head? == some '-' then c.advance 1 else c) = unsigned at read
  split at read
  · cases read
  · split at read
    · cases read
      exact .real _
    · split at read
      · cases read
        exact .real _
      · split at read
        · cases read
          exact .integer _
        · cases read

theorem givesDistinct_readOne {inner : Option (Cursor → Read Value)}
    (gives : ∀ item ∈ inner, GivesDistinct item) : GivesDistinct (readOne inner) := by
  intro c v d read
  rw [readOne.eq_def] at read
  split at read
  · obtain ⟨_, _, same⟩ := map_eq_ok read
    cases same
    exact .string _
  · cases inner with
    | none => cases read
    | some item =>
        simp only at read
        split at read
        · cases read
          exact .array (by simp)
        · obtain ⟨_, items, same⟩ := map_eq_ok read
          cases same
          exact .array (distinct_of_readItems (gives item rfl) items)
  · cases inner with
    | none => cases read
    | some item =>
        simp only at read
        have empty : (Value.object []).Distinct := .object List.nodup_nil (by simp)
        split at read
        · cases read
          exact empty
        · obtain ⟨_, members, same⟩ := map_eq_ok read
          cases same
          exact distinct_of_readMembers (gives item rfl) empty members
  · split at read
    · rename_i word w found
      cases read
      have among : v ∈ literals.map Prod.snd :=
        List.mem_map.2 ⟨_, List.mem_of_find?_eq_some found, rfl⟩
      simp only [literals, List.map_cons, List.map_nil, List.mem_cons, List.not_mem_nil,
        or_false] at among
      rcases among with rfl | rfl | rfl | rfl | rfl | rfl <;> constructor
    · exact givesDistinct_readNumber read

theorem givesDistinct_readValue (levels : Nat) : GivesDistinct (readValue levels) := by
  induction levels with
  | zero =>
      change GivesDistinct (readOne none)
      exact givesDistinct_readOne (by simp)
  | succ levels ih =>
      change GivesDistinct (readOne (some (readValue levels)))
      apply givesDistinct_readOne
      intro item left
      cases left
      exact ih

theorem distinct_of_decode {levels : Nat} {text : List Char}
    (decoded : decode levels text = .ok v) : v.Distinct := by
  rw [decode] at decoded
  split at decoded
  · cases decoded
  · cases read : readValue levels (skipSpace (.start text)) with
    | error e =>
        rw [read] at decoded
        cases decoded
    | ok got =>
        rw [read] at decoded
        simp only [Bind.bind, Except.bind] at decoded
        split at decoded <;> cases decoded
        exact givesDistinct_readValue levels read

end Json
end ChatPreview
