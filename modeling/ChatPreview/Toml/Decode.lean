import ChatPreview.Text.Position
import ChatPreview.Toml.Number

namespace ChatPreview.Toml
open Text

/-! ## Values -/

def readItems (item : Cursor → Read Item) (c : Cursor) : Read (List Item) :=
  match item c with
  | .error e => .error e
  | .ok (v, c₁) =>
    match skipFiller c₁ with
    | .error e => .error e
    | .ok c₂ =>
      if c₂.rest.head? = some ']' then .ok ([v], c₂.advance 1)
      else if c₂.rest.head? = some ',' then
        match skipFiller (c₂.advance 1) with
        | .error e => .error e
        | .ok c₃ =>
          if c₃.rest.head? = some ']' then .ok ([v], c₃.advance 1)
          else if c₃.rest.length < c.rest.length then
            (readItems item c₃).map fun (vs, c₄) => (v :: vs, c₄)
          else fault .array c₃
      else fault .array c₂
termination_by c.rest.length

def readPair (item : Cursor → Read Item) (c : Cursor) : Except Stop ((Key × Item) × Cursor) := do
  let (key, c₁) ← readKey c
  if c₁.rest.head? ≠ some '=' then fault .equals c₁
  else
    let (v, c₂) ← item (skipBlanks (c₁.advance 1))
    return ((key, v), c₂)

/-- Changes the table that a key leads to, and makes one where there is none. Through an array of
tables the way goes to its last one. -/
def within (arrays : Bool) (change : Table → Except Fault Table) :
    Key → Table → Except Fault Table
  | [], t => change t
  | part :: key, t =>
    match t.lookup part with
    | none => (within arrays change key []).map fun inner => t.put part (.table inner)
    | some (.table inner) =>
      (within arrays change key inner).map fun inner => t.put part (.table inner)
    | some (.array items) =>
      match items.getLast? with
      | some (.table inner) =>
        if arrays then
          (within arrays change key inner).map fun inner =>
            t.put part (.array (items.dropLast ++ [.table inner]))
        else .error .overwritten
      | _ => .error .overwritten
    | some _ => .error .overwritten

def add (taken : Fault) (part : List Char) (item : Item) (t : Table) : Except Fault Table :=
  if (t.lookup part).isSome then .error taken else .ok (t.put part item)

def append (part : List Char) (t : Table) : Except Fault Table :=
  match t.lookup part with
  | none => .ok (t.put part (.array [.table []]))
  | some (.array items) => .ok (t.put part (.array (items ++ [.table []])))
  | some _ => .error .overwritten

def parent (key : Key) : Key := key.dropLast
def stem (key : Key) : List Char := key.getLast?.getD []

def isClosed : Item → Bool
  | .array _ | .table _ => true
  | _ => false

def covers (closed : List Key) (key : Key) : Bool := closed.any (·.isPrefixOf key)

def faultAt {α : Type} (c : Cursor) (r : Except Fault α) : Except Stop α :=
  r.mapError fun f => .fault f c.pos

def readMembers (item : Cursor → Read Item) (closed : List Key) (t : Table) (c : Cursor) :
    Read Table :=
  match readPair item c with
  | .error e => .error e
  | .ok ((key, v), c₁) =>
    if covers closed key then fault (.immutable key) c₁
    else
      match faultAt c₁
        (within false (add (.duplicate (stem key)) (stem key) v) (parent key) t) with
      | .error e => .error e
      | .ok t =>
        let c₂ := skipBlanks c₁
        if c₂.rest.head? = some '\x7d' then .ok (t, c₂.advance 1)
        else if c₂.rest.head? = some ',' then
          let c₃ := skipBlanks (c₂.advance 1)
          if c₃.rest.length < c.rest.length then
            readMembers item (if isClosed v then key :: closed else closed) t c₃
          else fault .inlineTable c₃
        else fault .inlineTable c₂
termination_by c.rest.length

def readPlain (c : Cursor) : Read Item :=
  if "true".toList.isPrefixOf c.rest then .ok (.boolean true, c.advance 4)
  else if "false".toList.isPrefixOf c.rest then .ok (.boolean false, c.advance 5)
  else match ((readDate? c).or (readClock? c)).or (readNumber? c) with
    | some read => read
    | none =>
      match wordNumbers.find? (·.1.isPrefixOf c.rest) with
      | some (word, x) => .ok (.real x, c.advance word.length)
      | none => fault .value c

def readValue : Nat → Cursor → Read Item
  | 0, _ => .error (.halt .tooDeep)
  | levels + 1, c =>
    match c.rest with
    | '"' :: _ => (readQuoted '"' c).map fun (t, c') => (.string t, c')
    | '\'' :: _ => (readQuoted '\'' c).map fun (t, c') => (.string t, c')
    | '[' :: _ =>
      match skipFiller (c.advance 1) with
      | .error e => .error e
      | .ok c₁ =>
        if c₁.rest.head? = some ']' then .ok (.array [], c₁.advance 1)
        else (readItems (readValue levels) c₁).map fun (vs, c₂) => (.array vs, c₂)
    | '\x7b' :: _ =>
      let c₁ := skipBlanks (c.advance 1)
      if c₁.rest.head? = some '\x7d' then .ok (.table [], c₁.advance 1)
      else (readMembers (readValue levels) [] [] c₁).map fun (t, c₂) => (.table t, c₂)
    | _ => readPlain c

/-! ## Statements -/

/-- What was read so far. A key that was `declared` may not be declared again; what is `closed` may
not be added to, nor what is inside it. The keys that pass through a table by points are `pending`
until the next table begins. -/
structure State where
  root : Table
  header : Key
  declared : List Key
  closed : List Key
  pending : List Key

namespace State

def empty : State := ⟨[], [], [], [], []⟩

def settle (s : State) : State := { s with declared := s.pending ++ s.declared, pending := [] }

/-- What is under a key is forgotten, but not the key. -/
def release (s : State) (key : Key) : State :=
  { s with
    declared := key :: s.declared.filter fun k => !key.isPrefixOf k
    closed := s.closed.filter fun k => !key.isPrefixOf k }

end State

def readTable (s : State) (c : Cursor) : Except Stop (State × Cursor) := do
  let (key, c₁) ← readKey (skipBlanks (c.advance 1))
  if s.declared.contains key || covers s.closed key then fault (.declaredTwice key) c₁
  else
    let root ← faultAt c₁ (within true .ok key s.root)
    if c₁.rest.head? ≠ some ']' then fault .tableEnd c₁
    else
      return ({ s with root := root, header := key, declared := key :: s.declared }, c₁.advance 1)

def readTableArray (s : State) (c : Cursor) : Except Stop (State × Cursor) := do
  let (key, c₁) ← readKey (skipBlanks (c.advance 2))
  if covers s.closed key then fault (.immutable key) c₁
  else
    let root ← faultAt c₁ (within true (append (stem key)) (parent key) s.root)
    if !"]]".toList.isPrefixOf c₁.rest then fault .arrayEnd c₁
    else return ({ s.release key with root := root, header := key }, c₁.advance 2)

/-- The keys of the tables that a key passes through by its points, below a header. -/
def passed (header key : Key) : List Key :=
  ((List.range key.length).drop 1).map fun length => header ++ key.take length

def readEntry (levels : Nat) (s : State) (c : Cursor) : Except Stop (State × Cursor) := do
  let ((key, v), c₁) ← readPair (readValue levels) c
  let through := passed s.header key
  let table := s.header ++ parent key
  match through.find? s.declared.contains with
  | some k => fault (.redefined k) c₁
  | none =>
    if covers s.closed table then fault (.immutable table) c₁
    else
      let root ← faultAt c₁ (within true (add .overwritten (stem key) v) table s.root)
      let closed := if isClosed v then (s.header ++ key) :: s.closed else s.closed
      return ({ s with root := root, closed := closed, pending := through ++ s.pending }, c₁)

def readStatement (levels : Nat) (s : State) (c : Cursor) : Read State :=
  match c.rest with
  | '[' :: '[' :: _ => readTableArray s.settle c
  | '[' :: _ => readTable s.settle c
  | '#' :: _ => .ok (s, c)
  | x :: _ => if startsKey x then readEntry levels s c else fault .statement c
  | [] => .ok (s, c)

/-- The statements from a line's start on, one a line, with so many lines at most. -/
def readDocument (levels : Nat) : Nat → State → Cursor → Except Stop State
  | 0, s, _ => .ok s
  | n + 1, s, c => do
    let c := skipBlanks c
    match c.rest with
    | [] => return s
    | '\n' :: _ => readDocument levels n s (c.advance 1)
    | _ =>
      let (s, c) ← readStatement levels s c
      let c ← skipComment (skipBlanks c)
      match c.rest with
      | [] => return s
      | '\n' :: _ => readDocument levels n s (c.advance 1)
      | _ => fault .afterStatement c

def joinReturns : List Char → List Char
  | '\r' :: '\n' :: s => '\n' :: joinReturns s
  | c :: s => c :: joinReturns s
  | [] => []

def messageIn (text : List Char) (f : Fault) (offset : Nat) : String :=
  if offset < text.length then
    let p := locate text offset
    s!"{f.message} (at line {p.line}, column {p.column})"
  else s!"{f.message} (at end of document)"

def decode (levels : Nat) (source : List Char) : Except Error Table :=
  let text := joinReturns source
  match readDocument levels (text.length + 1) .empty (.start text) with
  | .ok s => .ok s.root
  | .error (.halt why) => .error (.halt why)
  | .error (.fault f offset) => .error (.malformed (messageIn text f offset))

end ChatPreview.Toml
