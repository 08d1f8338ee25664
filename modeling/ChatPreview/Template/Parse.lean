import ChatPreview.Template.Basic
import ChatPreview.Text.Blank

namespace ChatPreview.Template
open Text

def isLetter (c : Char) : Bool := ('a' ≤ c && c ≤ 'z') || ('A' ≤ c && c ≤ 'Z')

def startsName (c : Char) : Bool := isLetter c || c == '_'

def inName (c : Char) : Bool := startsName c || c.isDigit || c == '-'

def inTypes (c : Char) : Bool := ('a' ≤ c && c ≤ 'z') || c == '|'

def argument? : List Char → Option (List Char × Option (List Char))
  | '<' :: s =>
    if s.getLast? = some '>' then
      let inner := s.dropLast
      let name := inner.takeWhile inName
      if !name.head?.any startsName then none
      else match inner.drop name.length with
        | [] => some (name, none)
        | ':' :: types => if !types.isEmpty && types.all inTypes then some (name, types) else none
        | _ => none
    else none
  | _ => none

def unbar : List Char → List (List Char)
  | [] => [[]]
  | c :: s =>
    if c = '|' then [] :: unbar s
    else match unbar s with
      | [] => [[c]]
      | piece :: pieces => (c :: piece) :: pieces

def kinds (text types : List Char) : Except Fault (List Kind) := do
  let given ← (unbar types).mapM fun name =>
    match Kind.ofName? name with
    | some kind => .ok kind
    | none => .error (.unknownType name text)
  return Kind.all.filter given.contains

def pattern (text word : List Char) : Except Fault Pattern :=
  if word.head? = some '<' then
    match argument? word with
    | none => .error (.invalidArgument word text)
    | some (name, none) => .ok (.argument name Kind.all)
    | some (name, some types) => .argument name <$> kinds text types
  else .ok (.literal word)

def repeatedNames (names : List (List Char)) : List (List Char) :=
  ((names.filter fun name => names.count name > 1).eraseDups).mergeSort fun a b => !(b < a)

def ofPatterns (patterns : List Pattern) : Except Fault Template :=
  if nonempty : patterns = [] then .error .noPattern
  else if distinct : (patterns.filterMap Pattern.name?).Nodup then
    .ok ⟨patterns, nonempty, distinct⟩
  else .error (.repeated (repeatedNames (patterns.filterMap Pattern.name?)))

def parse (text : List Char) : Except Fault Template := do
  let patterns ← (words text).mapM (pattern text)
  ofPatterns patterns

abbrev Catalog := List Template

def parseAll (texts : List (List Char)) : Except Fault Catalog := texts.mapM parse

def word (s : String) : Pattern := .literal s.toList
def targetPattern : Pattern := .argument "target".toList [.selector]
def messagePattern : Pattern := .argument messageName [.array, .object, .string]
def literalPattern (name : String) : Pattern := .argument name.toList [.literal]

def standard : Catalog :=
  [⟨[word "tellraw", targetPattern, messagePattern], by decide, by decide⟩,
   ⟨[word "title", targetPattern, literalPattern "position", messagePattern],
    by decide, by decide⟩,
   ⟨[word "bossbar", word "add", literalPattern "id", messagePattern], by decide, by decide⟩,
   ⟨[word "bossbar", word "set", literalPattern "id", word "name", messagePattern],
    by decide, by decide⟩]

end ChatPreview.Template
