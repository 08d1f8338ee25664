import ChatPreview.Command.Basic
import ChatPreview.Component.Interpret
import ChatPreview.Host
import ChatPreview.Json.Decode
import ChatPreview.Template.Match
/-!
Previews: the text that the message of a command shows, or why it shows none.
-/
namespace ChatPreview
open Template (Catalog)

inductive MessageError where
  | malformed (fault : Json.Fault) (offset : Option Nat)
  | shape (error : Shape.Error)
  deriving Repr

namespace MessageError

def malformedText (message : String) : Option Int → String
  | none => s!"malformed JSON: {message}"
  | some offset => s!"malformed JSON: {messageAt message offset}"

def shapeText (message : String) (path : Path) : String :=
  s!"invalid chat component at {path.text}: {message}"

def text : MessageError → String
  | malformed fault offset => malformedText fault.message (offset.map Int.ofNat)
  | shape e => shapeText e.fault.message e.path

end MessageError

namespace Message

def afterBreak? : List Char → Option (List Char)
  | '\\' :: s => afterNewline? (s.dropWhile Text.isBlank)
  | _ => none

theorem afterBreak?_length {s r : List Char} (h : afterBreak? s = some r) :
    r.length < s.length := by
  unfold afterBreak? at h
  split at h
  · rename_i t
    have h1 := Continuation.afterNewline?_length h
    have h2 := Continuation.length_dropWhile_le Text.isBlank t
    simp only [List.length_cons]
    omega
  · cases h

/-- Takes out line breaks after a backslash, but not the indent after them. -/
def dropBreaks (s : List Char) : List Char :=
  match _h : afterBreak? s with
  | some rest => dropBreaks rest
  | none =>
    match s with
    | [] => []
    | c :: s => c :: dropBreaks s
termination_by s.length
decreasing_by
  · exact afterBreak?_length _h
  · simp

def isControl (c : Char) : Bool := c == '\t' || c == '\r' || c == '\n'

def unescape (raw : List Char) : List Char := (dropBreaks raw).filter (!isControl ·)

/-- Whether an error in a message can be told: the value that it shows is not nested too deep. -/
def shows (host : Host) (v : Value) (e : Shape.Error) : Bool :=
  e.fault.shown?.all fun declared => declared.levels ≤ host.shownLevels v e.path

def build (host : Host) (v : Value) : Except Halt (Except MessageError Component) :=
  match Component.build host.checks v with
  | .ok c => .ok (.ok c)
  | .error e => if shows host v e then .ok (.error (.shape e)) else .error .tooDeep

/-- The component that a message describes. A number with too many digits is no fault of the
message: it stops the reading. -/
def read (host : Host) (raw : List Char) : Except Halt (Except MessageError Component) :=
  match Json.decode host.decodedLevels (unescape raw) with
  | .error (.digits e) => .error (.digits e)
  | .error (.malformed fault offset) => .ok (.error (.malformed fault offset))
  | .ok v => build host v

end Message

inductive Refusal where
  | message (error : MessageError)
  | trailing (failure : Failure)
  deriving Repr

def Refusal.text : Refusal → String
  | message e => e.text
  | trailing e => e.text

inductive Preview where
  | text (text : Text)
  | failure (why : Refusal)

namespace Preview

def ok : Preview → Bool
  | text _ => true
  | failure _ => false

instance decidableShown (r : Except Halt Preview) (t : Text) :
    Decidable (r = .ok (.text t)) :=
  match r with
  | .ok (.text u) => decidable_of_iff (u = t) (by simp)
  | .ok (.failure _) => .isFalse (by simp)
  | .error _ => .isFalse (by simp)

instance decidableWhenShown (r : Except Halt (Option Preview)) (p : Text → Prop)
    [DecidablePred p] : Decidable (∀ t, r = .ok (some (.text t)) → p t) :=
  match r with
  | .ok (some (.text t)) => decidable_of_iff (p t) (by simp)
  | .ok (some (.failure _)) => .isTrue (by simp)
  | .ok none => .isTrue (by simp)
  | .error _ => .isTrue (by simp)

def ofMessage (host : Host) (raw : List Char) : Except Halt Preview := do
  match ← Message.read host raw with
  | .error e => return .failure (.message e)
  | .ok c => return .text (← (Component.interpret c).mapError .digits)

inductive Subject where
  | message (raw : List Char)
  | trailing (failure : Failure)

/-- The text from an index on, which counts back from the end when it is negative. -/
def tailFrom (s : List Char) (index : Int) : List Char :=
  if index < 0 then s.drop (s.length - index.natAbs) else s.drop index.toNat

def opens : List Char → Option Kind
  | '\x7b' :: _ => some .object
  | '[' :: _ => some .array
  | '"' :: _ => some .string
  | '\'' :: _ => some .string
  | _ => none

def recovered? (c : Command) (e : Failure) : Option (List Node) :=
  let tail := tailFrom c.raw (e.offset - c.position)
  (opens tail).map fun kind => c.nodes ++ [⟨kind, tail, e.offset.toNat, []⟩]

def messageOf (catalog : Catalog) (nodes : List Node) : Option (List Char) :=
  (catalog.match? true nodes).bind Match.message?

/-- The message of a command. Where reading stopped, the unread text may be the message; else a
message before it is not shown, since there is text after it. -/
def subject (catalog : Catalog) (c : Command) : Option Subject :=
  match c.error with
  | none => (messageOf catalog c.nodes).map .message
  | some e =>
    match (recovered? c e).bind (catalog.match? true) with
    | some m => m.message?.map .message
    | none => (messageOf catalog c.nodes).map fun _ => .trailing e

def ofSubject (host : Host) : Subject → Except Halt Preview
  | .message raw => ofMessage host raw
  | .trailing e => .ok (.failure (.trailing e))

def ofCommand (host : Host) (catalog : Catalog) (c : Command) : Except Halt (Option Preview) :=
  match subject catalog c with
  | none => .ok none
  | some s => some <$> ofSubject host s

section
variable {host : Host} {catalog : Catalog} {c : Command}

theorem ofCommand_of_none (found : subject catalog c = none) :
    ofCommand host catalog c = .ok none := by
  rw [ofCommand, found]

theorem ofCommand_of_some {s : Subject} (found : subject catalog c = some s) :
    ofCommand host catalog c = (ofSubject host s).map some := by
  rw [ofCommand, found]
  rfl

end

def ofText (host : Host) (catalog : Catalog) (source : List Char) : Except Halt (Option Preview) :=
  match (commands source).find? (!·.isBlank) with
  | none => .ok none
  | some c => ofCommand host catalog c

/-- The commands that carry a message, each with its preview. -/
def ofCommands (host : Host) (catalog : Catalog) :
    List Command → Except Halt (List (Command × Preview))
  | [] => .ok []
  | c :: rest => do
    let preview ← ofCommand host catalog c
    let previews ← ofCommands host catalog rest
    return (preview.map (c, ·)).toList ++ previews

def ofDocument (host : Host) (catalog : Catalog) (source : List Char) :
    Except Halt (List (Command × Preview)) :=
  ofCommands host catalog (commands source)

end Preview
end ChatPreview
