import ChatPreview.Proofs.Counter.Basic

namespace ChatPreview.Routine
open Text Scan Token

section
variable (limit : Int) (rounds : Nat) (value : Routine Node)

def argument : Routine Unit := do
  scan space
  let _ ← scan (word endsValue)
  scan space
  let _ ← scan (expect ['='])
  scan space
  let _ ← attempt value
  scan space

def arguments : Routine Unit := do
  let _ ← scan (expect ['['])
  scan space
  let _ ← nested limit (separated (argument value) (scan comma) rounds)
  scan space
  let _ ← scan (expect [']'])

def optionalArguments : Routine Unit := do
  if (← here).rest.head? = some '[' then arguments limit rounds value

def selector : Routine Node :=
  node .selector do
    let _ ← scan (expect ['@'])
    let _ ← scan (member selectorClass)
    optionalArguments limit rounds value
    scan selectorEnd

def element : Routine Node := do
  scan space
  let item ← value
  scan space
  return item

def array : Routine Node :=
  node .array do
    let _ ← scan (expect ['['])
    let items ← nested limit (separated (element value) (scan comma) rounds)
    scan space
    let _ ← scan (expect [']'])
    return items

def entry : Routine (List Node) := do
  scan space
  let key ← firstOf [scan pathKey, scan plainKey]
  scan space
  let item ← value
  scan space
  return [key, item]

def object : Routine Node :=
  node .object do
    let _ ← scan (expect ['\x7b'])
    let entries ← nested limit (separated (entry value) (scan comma) rounds)
    scan space
    let _ ← scan (expect ['\x7d'])
    return entries.flatten

def item (stops : Char → Bool) : Routine Node :=
  firstOf [object limit rounds value, array limit rounds value, scan string,
    selector limit rounds value, scan (word stops)]

end

/-- A value that may be read so many calls deep. -/
def value (limit : Int) (rounds : Nat) : Nat → Routine Node
  | 0 => stop
  | calls + 1 => item limit rounds (value limit rounds calls) endsValue

def top (limit : Int) (rounds : Nat) : Routine Node := do
  match ← caught (item limit rounds (value limit rounds rounds) endsWord) with
  | .ok n => return n
  | .error _ => scan fun c => .fail ⟨.unexpected c.peek, c.pos⟩ c

section
variable {size rounds : Nat} {depth limit : Int} {value : Routine Node} {v : Scan Node}

theorem follows_space : Follows size depth (scan space) space := follows_scan _

theorem follows_argument (forward : Forward v) (follows : Follows size depth value v) :
    Follows size depth (argument value) (Token.argument v) := by
  refine follows_bind forward_space follows_space fun _ => ?_
  refine follows_bind (consumes_word endsValue).forward (follows_scan _) fun _ => ?_
  refine follows_bind forward_space follows_space fun _ => ?_
  refine follows_bind (forward_expect '=') (follows_scan _) fun _ => ?_
  refine follows_bind forward_space follows_space fun _ => ?_
  exact follows_bind (forward_attempt forward) (follows_attempt follows) fun _ => follows_space

theorem follows_element (forward : Forward v) (follows : Follows size depth value v) :
    Follows size depth (element value) (Token.element v) := by
  refine follows_bind forward_space follows_space fun _ => ?_
  refine follows_bind forward follows fun item => ?_
  exact follows_bind forward_space follows_space fun _ => follows_pure item

theorem forward_key : Forward (Scan.firstOf [pathKey, plainKey]) :=
  forward_firstOf (by simp [forward_pathKey, forward_plainKey])

theorem follows_key :
    Follows size depth (firstOf [scan pathKey, scan plainKey]) (Scan.firstOf [pathKey, plainKey]) :=
  follows_firstOf_cons (follows_scan pathKey)
    (follows_firstOf_cons (follows_scan plainKey) follows_firstOf_nil)

theorem follows_entry (forward : Forward v) (follows : Follows size depth value v) :
    Follows size depth (entry value) (Token.entry v) := by
  refine follows_bind forward_space follows_space fun _ => ?_
  refine follows_bind forward_key follows_key fun key => ?_
  refine follows_bind forward_space follows_space fun _ => ?_
  refine follows_bind forward follows fun item => ?_
  exact follows_bind forward_space follows_space fun _ => follows_pure [key, item]

def ReadsInside (size : Nat) (depth limit : Int) (value : Routine Node) : Prop :=
  depth < limit → Follows size (depth + 1) value (Token.value limit (limit - (depth + 1)).toNat)

theorem follows_parts {α : Type} {part : Routine Node → Routine α} {scanner : Scan Node → Scan α}
    (forward : ∀ {v}, Forward v → Forward (scanner v))
    (follows : ∀ {v}, Forward v → Follows size (depth + 1) value v →
      Follows size (depth + 1) (part value) (scanner v))
    (enough : size < rounds) (reads : ReadsInside size depth limit value) :
    Follows size depth (nested limit (separated (part value) (scan comma) rounds))
      (Token.nested (inside limit (limit - depth).toNat) fun v => Scan.separated (scanner v) comma) := by
  refine follows_nested fun deeper => ?_
  have ahead := (consumes_value limit (limit - (depth + 1)).toNat).forward
  exact follows_separated (forward ahead) forward_comma (follows ahead (reads deeper))
    (follows_scan comma) enough

theorem forward_parts {α : Type} {scanner : Scan Node → Scan α} {levels : Nat}
    (forward : ∀ {v}, Forward v → Forward (scanner v)) :
    Forward (Token.nested (inside limit levels) fun v => Scan.separated (scanner v) comma) :=
  forward_nested fun v left =>
    forward_separated (forward (forward_inside limit levels v left)) forward_comma

theorem follows_arguments (enough : size < rounds) (reads : ReadsInside size depth limit value) :
    Follows size depth (arguments limit rounds value)
      (Token.arguments (inside limit (limit - depth).toNat)) := by
  refine follows_bind (forward_expect '[') (follows_scan _) fun _ => ?_
  refine follows_bind forward_space follows_space fun _ => ?_
  refine follows_bind (forward_parts forward_argument)
    (follows_parts forward_argument follows_argument enough reads) fun _ => ?_
  refine follows_bind forward_space follows_space fun _ => ?_
  exact follows_bind (forward_expect ']') (follows_scan _) fun _ => follows_pure ()

theorem follows_optionalArguments (enough : size < rounds)
    (reads : ReadsInside size depth limit value) :
    Follows size depth (optionalArguments limit rounds value)
      (Token.optionalArguments (inside limit (limit - depth).toNat)) := by
  intro c short
  rw [optionalArguments, here_bind, Token.optionalArguments]
  split
  · exact follows_arguments enough reads c short
  · rfl

theorem follows_selector (enough : size ≤ rounds)
    (reads : ∀ less < size, ReadsInside less depth limit value) :
    Follows size depth (selector limit rounds value)
      (Token.selector (inside limit (limit - depth).toNat)) := by
  refine follows_node (follows_bind_of_consumes (consumes_expect (List.cons_ne_nil _ _))
    (follows_scan _) fun less fewer _ => ?_)
  refine follows_bind (forward_member _) (follows_scan _) fun _ => ?_
  refine follows_bind (forward_optionalArguments (forward_inside limit _))
    (follows_optionalArguments (by omega) (reads less fewer)) fun _ => ?_
  exact follows_scan selectorEnd

theorem follows_array (enough : size ≤ rounds)
    (reads : ∀ less < size, ReadsInside less depth limit value) :
    Follows size depth (array limit rounds value)
      (Token.array (inside limit (limit - depth).toNat)) := by
  refine follows_node (follows_bind_of_consumes (consumes_expect (List.cons_ne_nil _ _))
    (follows_scan _) fun less fewer _ => ?_)
  refine follows_bind (forward_parts forward_element)
    (follows_parts forward_element follows_element (by omega) (reads less fewer)) fun items => ?_
  refine follows_bind forward_space follows_space fun _ => ?_
  exact follows_bind (forward_expect ']') (follows_scan _) fun _ => follows_pure items

theorem follows_object (enough : size ≤ rounds)
    (reads : ∀ less < size, ReadsInside less depth limit value) :
    Follows size depth (object limit rounds value)
      (Token.object (inside limit (limit - depth).toNat)) := by
  refine follows_node (follows_bind_of_consumes (consumes_expect (List.cons_ne_nil _ _))
    (follows_scan _) fun less fewer _ => ?_)
  refine follows_bind (forward_parts forward_entry)
    (follows_parts forward_entry follows_entry (by omega) (reads less fewer)) fun entries => ?_
  refine follows_bind forward_space follows_space fun _ => ?_
  exact follows_bind (forward_expect '\x7d') (follows_scan _) fun _ => follows_pure entries.flatten

theorem follows_item {stops : Char → Bool} (enough : size ≤ rounds)
    (reads : ∀ less < size, ReadsInside less depth limit value) :
    Follows size depth (item limit rounds value stops)
      (Token.item stops (inside limit (limit - depth).toNat)) := by
  refine follows_firstOf_cons (follows_object enough reads) ?_
  refine follows_firstOf_cons (follows_array enough reads) ?_
  refine follows_firstOf_cons (follows_scan string) ?_
  refine follows_firstOf_cons (follows_selector enough reads) ?_
  exact follows_firstOf_cons (follows_scan (word stops)) follows_firstOf_nil

end

section
variable {size rounds : Nat} {depth limit : Int}

theorem follows_value {calls : Nat} (enough : size ≤ rounds) (within : size < calls) :
    Follows size depth (value limit rounds calls) (Token.value limit (limit - depth).toNat) := by
  -- Each call inside another has less text left, so there are calls enough.
  induction calls generalizing size depth with
  | zero => exact absurd within (Nat.not_lt_zero size)
  | succ calls ih =>
      rw [value_eq]
      refine follows_item enough fun less fewer _ => ?_
      exact ih (by omega) (by omega)

theorem follows_top (enough : size < rounds) :
    Follows size 0 (top limit rounds) (Token.top limit) := by
  have reads (less : Nat) (fewer : less < size) :
      ReadsInside less 0 limit (value limit rounds rounds) :=
    fun _ => follows_value (by omega) (by omega)
  have items : Follows size 0 (item limit rounds (value limit rounds rounds) endsWord)
      (Token.item endsWord (inside limit (limit - 0).toNat)) :=
    follows_item (Nat.le_of_lt enough) reads
  rw [Int.sub_zero] at items
  intro c short
  rw [top, Token.top, bind_apply, caught, items c short]
  cases read : Token.item endsWord (inside limit limit.toNat) c with
  | ok n d => rfl
  | fail e d =>
      obtain rfl := restores_firstOf _ read
      rfl

end
end ChatPreview.Routine
