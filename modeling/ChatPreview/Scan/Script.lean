import ChatPreview.Scan.Combinators

namespace ChatPreview

inductive Expr where
  | expect (text : List Char)
  | oneOf (choices : List (List Char))
  | member (k : CharClass)
  | atLeast (least : Nat) (k : CharClass)
  | takeWhile (chars : List Char)
  | takeUntil (chars : List Char)
  | next
  | fail (message : String) (offset : Option Int)
  | attempt (e : Expr)
  | firstOf (es : List Expr)
  /-- All in order. A failure leaves the cursor where it happened. -/
  | all (es : List Expr)
  | separated (item separator : Expr)

inductive Reading where
  | nothing
  | text (s : List Char)
  | list (items : List Reading)
  deriving Repr, Inhabited

namespace Expr

mutual

def run : Expr → Scan Reading
  | .expect text => .text <$> Scan.expect text
  | .oneOf choices => .text <$> Scan.oneOf choices
  | .member k => .text <$> Scan.member k
  | .atLeast least k => .text <$> Scan.atLeast least k
  | .takeWhile chars => .text <$> Scan.takeWhile chars.contains
  | .takeUntil chars => .text <$> Scan.takeUntil chars.contains
  | .next => .text <$> Scan.next
  | .fail message none => Scan.fail (.custom message)
  | .fail message (some offset) => Scan.failAt (.custom message) offset
  | .attempt e => (fun r => r.getD .nothing) <$> Scan.attempt (run e)
  | .firstOf es => Scan.firstOf (runEach es)
  | .all es => .list <$> runAll es
  | .separated item separator => .list <$> Scan.separated (run item) (run separator)

def runEach : List Expr → List (Scan Reading)
  | [] => []
  | e :: es => run e :: runEach es

def runAll : List Expr → Scan (List Reading)
  | [] => pure []
  | e :: es => do
    let r ← run e
    let rs ← runAll es
    return r :: rs

end

end Expr

structure Session where
  source : List Char
  pos : Nat
  marks : List Nat
  deriving Repr

namespace Session

inductive Action where
  | peek (ahead : Int)
  | check (text : List Char) (ahead : Int)
  | mark
  | recover (mark : Nat)
  | commit (mark : Nat)
  | eval (e : Expr)

inductive Answer where
  | reading (r : Reading)
  | truth (b : Bool)
  | mark (index : Nat)

def start (source : List Char) (pos : Nat) : Session := ⟨source, pos, []⟩

def atEnd (s : Session) : Bool := s.source.length ≤ s.pos

/-- The character so far ahead, or behind, and nothing outside the source. -/
def peek (s : Session) (ahead : Int) : List Char :=
  let index := s.pos + ahead
  if index < 0 then [] else (s.source.drop index.toNat).take 1

def span (s : Session) (mark : Nat) : List Char := (s.source.take s.pos).drop mark

def run (s : Session) : Action → Except Failure Answer × Session
  | .peek ahead => (.ok (.reading (.text (s.peek ahead))), s)
  | .check text ahead => (.ok (.truth (s.peek ahead == text)), s)
  | .mark => (.ok (.mark s.marks.length), { s with marks := s.marks ++ [s.pos] })
  | .recover index =>
    let mark := s.marks[index]?.getD s.pos
    (.ok (.reading (.text (s.span mark))), { s with pos := mark })
  | .commit index => (.ok (.reading (.text (s.span (s.marks[index]?.getD s.pos)))), s)
  | .eval e =>
    match e.run (.seek s.source s.pos) with
    | .ok r c => (.ok (.reading r), { s with pos := c.pos })
    | .fail failure c => (.error failure, { s with pos := c.pos })

end Session
end ChatPreview
