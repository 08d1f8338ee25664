import ChatPreview.Text.Quoted

namespace ChatPreview

abbrev Part := List Char

/-- A file name: its root, empty when the name is relative, and the parts between slashes. -/
structure FileName where
  root : List Char
  parts : List Part
  deriving DecidableEq, Repr

namespace FileName

def pieces : List Char → List Part
  | [] => [[]]
  | c :: s =>
    if c = '/' then [] :: pieces s
    else match pieces s with
      | [] => [[c]]
      | piece :: rest => (c :: piece) :: rest

/-- Two slashes at the start, but not three, are a root of their own. -/
def rootOf (s : List Char) : List Char :=
  let slashes := (s.takeWhile (· == '/')).length
  if slashes = 2 then ['/', '/'] else if slashes = 0 then [] else ['/']

def ofChars (s : List Char) : FileName :=
  ⟨rootOf s, (pieces s).filter fun p => !p.isEmpty && p != ['.']⟩

def chars (f : FileName) : List Char :=
  if f.root.isEmpty && f.parts.isEmpty then ['.'] else f.root ++ List.intercalate ['/'] f.parts

def text (f : FileName) : String := String.ofList f.chars

def sibling (f : FileName) (name : String) : FileName := ⟨f.root, f.parts.dropLast ++ [name.toList]⟩

def maxBytes : Nat := 4096

def maxPartBytes : Nat := 255

def byteCount (s : List Char) : Nat := s.foldl (fun n c => n + c.utf8Size) 0

end FileName

inductive FileError where
  | missing
  | denied
  | notFolder
  | isFolder
  | tooLong
  | loop
  | badHandle
  /-- A null character would end the name too early. -/
  | nullInName
  /-- Any other, with the whole of what is said of it. -/
  | other (message : String)
  deriving DecidableEq, Repr

namespace FileError

def reason : FileError → String
  | missing => "[Errno 2] No such file or directory"
  | badHandle => "[Errno 9] Bad file descriptor"
  | denied => "[Errno 13] Permission denied"
  | notFolder => "[Errno 20] Not a directory"
  | isFolder => "[Errno 21] Is a directory"
  | tooLong => "[Errno 36] File name too long"
  | loop => "[Errno 40] Too many levels of symbolic links"
  | nullInName => "embedded null byte"
  | other message => message

/-- A name with a null character is not shown. -/
def message (e : FileError) (name : FileName) : String :=
  match e with
  | nullInName | other _ => e.reason
  | e => s!"{e.reason}: {Text.quotedChars name.chars}"

/-- The errors that say that there is no file of a name, where it is only looked for. -/
def meansAbsent : FileError → Bool
  | missing | badHandle | notFolder | loop | nullInName => true
  | denied | isFolder | tooLong | other _ => false

end FileError
end ChatPreview
