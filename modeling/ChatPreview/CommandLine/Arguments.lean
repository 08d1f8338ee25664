import ChatPreview.Text.Digit
import ChatPreview.Text.Quoted
/-!
The words of a command line: options by name or unambiguous start of a name, and one input file.
After a word of two hyphens no word is an option.
-/
namespace ChatPreview.CommandLine
open Text

inductive Flag where
  | help
  | output
  | config
  | lead
  | template
  | noErrors
  | debug
  deriving DecidableEq, Repr

namespace Flag

def names : Flag → List String
  | help => ["-h", "--help"]
  | output => ["-o", "--output"]
  | config => ["--config"]
  | lead => ["--prefix"]
  | template => ["--template"]
  | noErrors => ["--no-errors"]
  | debug => ["--debug"]

def all : List Flag := [help, output, config, lead, template, noErrors, debug]

def table : List (List Char × Flag) := all.flatMap fun f => f.names.map fun n => (n.toList, f)

def takesValue : Flag → Bool
  | help | noErrors | debug => false
  | output | config | lead | template => true

def title (f : Flag) : String := String.intercalate "/" f.names

end Flag

inductive Usage where
  | ambiguous (word : List Char) (names : List (List Char))
  | noValue (flag : Flag)
  | ignoredValue (flag : Flag) (value : List Char)
  | noInput
  | unrecognized (words : List (List Char))
  deriving DecidableEq, Repr

def Usage.message : Usage → String
  | ambiguous word names =>
    s!"ambiguous option: {String.ofList word} could match " ++
      String.intercalate ", " (names.map String.ofList)
  | noValue flag => s!"argument {flag.title}: expected one argument"
  | ignoredValue flag value =>
    s!"argument {flag.title}: ignored explicit argument {quotedChars value}"
  | noInput => "the following arguments are required: input"
  | unrecognized words =>
    "unrecognized arguments: " ++ String.intercalate " " (words.map String.ofList)

structure Tail where
  /-- Whether the name is of the form that lets other flags follow it directly. -/
  short : Bool
  value : List Char
  deriving DecidableEq, Repr

inductive Role where
  | plain
  /-- Two hyphens, the first time they stand alone. -/
  | divider
  /-- An option, and what is written after its name in the same word. -/
  | option (flag : Flag) (tail : Option Tail)
  | unknown
  deriving DecidableEq, Repr

def splitEquals (word : List Char) : Option (List Char × List Char) :=
  let head := word.takeWhile (· ≠ '=')
  if head.length < word.length then some (head, word.drop (head.length + 1)) else none

def isNegativeNumber (word : List Char) : Bool :=
  let word := if word.getLast? = some '\n' then word.dropLast else word
  match word with
  | '-' :: s =>
    match s.dropWhile isDigit with
    | [] => !s.isEmpty
    | '.' :: t => !t.isEmpty && t.all isDigit
    | _ => false
  | _ => false

def candidates (word : List Char) : List (List Char × Role) :=
  if word.take 2 = ['-', '-'] then
    let (start, tail) : List Char × Option Tail := match splitEquals word with
      | some (start, value) => (start, some ⟨false, value⟩)
      | none => (word, none)
    (Flag.table.filter fun (name, _) => start.isPrefixOf name).map fun (name, f) =>
      (name, .option f tail)
  else
    Flag.table.filterMap fun (name, f) =>
      if name = word.take 2 then some (name, .option f (some ⟨true, word.drop 2⟩))
      else if word.isPrefixOf name then some (name, .option f none)
      else none

def named? (word : List Char) : Option Role :=
  match Flag.table.lookup word, splitEquals word with
  | some f, _ => some (.option f none)
  | none, some (name, value) =>
    (Flag.table.lookup name).map fun f => .option f (some ⟨name.length == 2, value⟩)
  | none, none => none

def readWord (word : List Char) : Except Usage Role :=
  if word.head? ≠ some '-' ∨ word.length = 1 then .ok .plain
  else match named? word with
    | some r => .ok r
    | none =>
      match candidates word with
      | [(_, r)] => .ok r
      | [] => .ok (if isNegativeNumber word || word.contains ' ' then .plain else .unknown)
      | several => .error (.ambiguous word (several.map (·.1)))

def readWords : List (List Char) → Except Usage (List (List Char × Role))
  | [] => .ok []
  | ['-', '-'] :: rest => .ok ((['-', '-'], .divider) :: rest.map (·, .plain))
  | word :: rest => do
    let r ← readWord word
    let rs ← readWords rest
    return (word, r) :: rs

/-- An option as given. Two hyphens in the option's own word are the divider there too, which
leaves it without its value. -/
structure Setting where
  flag : Flag
  value : Option (List Char)
  deriving DecidableEq, Repr

def Setting.own (flag : Flag) (value : List Char) : Setting :=
  ⟨flag, if value = ['-', '-'] then none else some value⟩

/-- Help comes before what is wrong with the words after it. -/
inductive Stop where
  | help
  | usage (error : Usage)
  deriving DecidableEq, Repr

/-- What the words before say: the options, the input, and the words that are neither. -/
structure Given where
  settings : List Setting
  input : Option (List Char)
  extras : List (List Char)

namespace Given

def empty : Given := ⟨[], none, []⟩

def set (g : Given) (settings : List Setting) : Given :=
  { g with settings := g.settings ++ settings }

def plain (g : Given) (word : List Char) : Given :=
  match g.input with
  | none => { g with input := some word }
  | some _ => { g with extras := g.extras ++ [word] }

def extra (g : Given) (words : List (List Char)) : Given := { g with extras := g.extras ++ words }

def wantsHelp (g : Given) : Bool := g.settings.any (·.flag == .help)

end Given

/-- The flags written in one word after a hyphen: all but the last have no value. The answer is
the settings, and the flag that still waits for its value. -/
def inWord (f : Flag) (short : Bool) : List Char → Except Usage (List Setting × Option Flag)
  | [] => if f.takesValue then .ok ([⟨f, some []⟩], none) else .error (.ignoredValue f [])
  | c :: s =>
    if f.takesValue then .ok ([.own f (c :: s)], none)
    else match short, Flag.table.lookup ['-', c] with
      | true, some g =>
        if s.isEmpty then
          .ok (if g.takesValue then ([⟨f, none⟩], some g) else ([⟨f, none⟩, ⟨g, none⟩], none))
        else (inWord g true s).map fun (gs, waiting) => (⟨f, none⟩ :: gs, waiting)
      | _, _ => .error (.ignoredValue f (c :: s))

/-- The words after the last option. Of the divider and one word beside it the word is taken. -/
def finish (g : Given) (words : List (List Char × Role)) : Given :=
  match g.input, words with
  | .none, (_, .divider) :: (word, _) :: rest => (g.plain word).extra (rest.map (·.1))
  | .none, (word, .plain) :: (_, .divider) :: rest => (g.plain word).extra (rest.map (·.1))
  | .none, (word, .plain) :: rest => (g.plain word).extra (rest.map (·.1))
  | _, words => g.extra (words.map (·.1))

def isOption : Role → Bool
  | .option _ _ => true
  | .unknown => true
  | _ => false

/-- Gives each word its part, the next one first; `waiting` is an option whose value comes next. -/
def assign (g : Given) (waiting : Option Flag) : List (List Char × Role) → Except Stop Given
  | [] =>
    match waiting with
    | some f => .error (.usage (.noValue f))
    | none => if g.wantsHelp then .error .help else .ok g
  | (word, r) :: rest =>
    match waiting, r with
    | some f, .plain => assign (g.set [⟨f, some word⟩]) none rest
    | some f, _ => .error (.usage (.noValue f))
    | none, r =>
      if g.wantsHelp then .error .help
      else match r with
        | .option f none =>
          if f.takesValue then assign g (some f) rest else assign (g.set [⟨f, none⟩]) none rest
        | .option f (some tail) =>
          match inWord f tail.short tail.value with
          | .error e => .error (.usage e)
          | .ok (settings, waiting) => assign (g.set settings) waiting rest
        | .unknown => assign (g.extra [word]) none rest
        | _ =>
          if rest.any fun (_, r) => isOption r then assign (g.plain word) none rest
          else .ok (finish g ((word, r) :: rest))

structure Arguments where
  input : List Char
  settings : List Setting
  deriving Repr

def parse (words : List (List Char)) : Except Stop Arguments := do
  let readings ← (readWords words).mapError .usage
  let g ← assign .empty none readings
  match g.input with
  | none => .error (.usage .noInput)
  | some input =>
    if g.extras.isEmpty then .ok ⟨input, g.settings⟩ else .error (.usage (.unrecognized g.extras))

namespace Arguments

def last? (a : Arguments) (f : Flag) : Option Setting :=
  a.settings.reverse.find? (·.flag == f)

def has (a : Arguments) (f : Flag) : Bool := a.settings.any (·.flag == f)

/-- The text to stand before previews; a setting without its value is shown as an empty list. -/
def lead? (a : Arguments) : Option (List Char) :=
  (a.last? .lead).map fun s => s.value.getD ['[', ']']

def file? (a : Arguments) (f : Flag) : Option (List Char) :=
  ((a.last? f).bind (·.value)).filter (!·.isEmpty)

def templates (a : Arguments) : List (Option (List Char)) :=
  (a.settings.filter (·.flag == .template)).map (·.value)

end Arguments
end ChatPreview.CommandLine
