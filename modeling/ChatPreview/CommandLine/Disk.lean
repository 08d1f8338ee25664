import ChatPreview.CommandLine.FileName

namespace ChatPreview

/-- The files that a run can see and change. Each name answers for itself what is found there, what
reading it gives, and what keeps a text from being written to it. -/
structure Disk where
  /-- Whether what is found is a file. -/
  stat : FileName → Except FileError Bool
  read : FileName → Except FileError ByteArray
  write : FileName → List Char → Option FileError

/-- Whether a name is that of a file. Only some of the errors say that it is not. -/
def Disk.isFile (d : Disk) (name : FileName) : Except FileError Bool :=
  match d.stat name with
  | .ok found => .ok found
  | .error e => if e.meansAbsent then .ok false else .error e

inductive Target where
  | file (bytes : ByteArray)
  /-- A file that cannot be opened. -/
  | locked (error : FileError)
  /-- No file, but empty to a reader and open to a writer, whose text it drops. -/
  | sink
  | folder
  /-- Nothing, in a folder that could hold it. -/
  | vacant
  | lost (error : FileError)

namespace Target

def stat : Target → Except FileError Bool
  | file _ | locked _ => .ok true
  | sink | folder => .ok false
  | vacant => .error .missing
  | lost e => .error e

def read : Target → Except FileError ByteArray
  | file bytes => .ok bytes
  | sink => .ok .empty
  | folder => .error .isFolder
  | vacant => .error .missing
  | locked e | lost e => .error e

def writeError? : Target → Option FileError
  | file _ | sink | vacant => none
  | folder => some .isFolder
  | locked e | lost e => some e

end Target

def Disk.ofTargets (target : FileName → Target) : Disk where
  stat name := (target name).stat
  read name := (target name).read
  write name _ := (target name).writeError?

inductive Base where
  /-- The folder so many levels above the working folder. -/
  | above (levels : Nat)
  | root
  deriving DecidableEq, Repr

/-- A place in the tree of folders, with no way up in its parts. -/
structure Location where
  base : Base
  parts : List Part
  deriving DecidableEq, Repr

namespace Location

def here : Location := ⟨.above 0, []⟩

def root : Location := ⟨.root, []⟩

def up (p : Location) : Location :=
  match p.parts, p.base with
  | [], .above levels => ⟨.above (levels + 1), []⟩
  | [], .root => root
  | parts, base => ⟨base, parts.dropLast⟩

def step (p : Location) (part : Part) : Location :=
  if part = ['.', '.'] then p.up else ⟨p.base, p.parts ++ [part]⟩

def holds (p q : Location) : Bool := p.base == q.base && p.parts.isPrefixOf q.parts

def rootFolders : List Part :=
  ["bin", "boot", "dev", "etc", "home", "lib", "media", "mnt", "opt", "proc", "root", "run", "sbin",
   "srv", "sys", "tmp", "usr", "var"].map String.toList

def sink : Location := ⟨.root, ["dev".toList, "null".toList]⟩

end Location

abbrev FileTree := List (Location × ByteArray)

namespace FileTree

def isFolder (t : FileTree) (p : Location) : Bool :=
  p.parts.isEmpty || (p.base == .root && Location.rootFolders.any fun f => p.parts == [f]) ||
    t.any fun (q, _) => p.holds q

def targetAt (t : FileTree) (p : Location) : Target :=
  match t.lookup p with
  | some bytes => .file bytes
  | none => if p = Location.sink then .sink else if t.isFolder p then .folder else .vacant

/-- The place that the parts lead to. Only a folder can be left or gone through. -/
def follow (t : FileTree) (p : Location) : List Part → Except FileError Location
  | [] => .ok p
  | part :: rest =>
    match t.targetAt p with
    | .folder =>
      if FileName.byteCount part > FileName.maxPartBytes then .error .tooLong
      else t.follow (p.step part) rest
    | .vacant => .error .missing
    | .lost e => .error e
    | _ => .error .notFolder

def location (t : FileTree) (name : FileName) : Except FileError Location :=
  if name.chars.contains '\x00' then .error .nullInName
  else if FileName.byteCount name.chars ≥ FileName.maxBytes then .error .tooLong
  else t.follow (if name.root.isEmpty then .here else .root) name.parts

def disk (t : FileTree) : Disk :=
  .ofTargets fun name =>
    match t.location name with
    | .ok p => t.targetAt p
    | .error e => .lost e

/-- The tree with this file in it; a name that no file can have changes nothing. -/
def put (t : FileTree) (name : FileName) (bytes : ByteArray) : FileTree :=
  match t.location name with
  | .error _ => t
  | .ok p =>
    match t.targetAt p with
    | .file _ | .vacant => (p, bytes) :: t.filter (·.1 ≠ p)
    | _ => t

end FileTree
end ChatPreview
