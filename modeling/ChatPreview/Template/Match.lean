import ChatPreview.Template.Parse

namespace ChatPreview

structure Match where
  template : Template
  nodes : List Node

namespace Match

def captures (m : Match) : List (List Char × List Char) :=
  (m.template.patterns.zip m.nodes).filterMap fun (p, n) => p.name?.map (·, n.content)

def message? (m : Match) : Option (List Char) := m.captures.lookup messageName

end Match

namespace Template

def fitsAll : List Pattern → List Node → Bool
  | [], [] => true
  | p :: ps, n :: ns => p.fits n && fitsAll ps ns
  | _, _ => false

def match? (t : Template) (nodes : List Node) : Option Match :=
  if fitsAll t.patterns nodes then some ⟨t, nodes⟩ else none

def afterRun : List Node → List (List Node)
  | [] => []
  | n :: rest => if n.isLiteral "run".toList then rest :: afterRun rest else afterRun rest

/-- The nodes of a command, and of the commands that an `execute` runs. -/
def candidates (unwrap : Bool) (nodes : List Node) : List (List Node) :=
  nodes :: if unwrap && nodes.head?.any (·.isLiteral "execute".toList) then afterRun nodes else []

/-- The first candidate that fits a template, with the first template it fits. -/
def Catalog.match? (catalog : Catalog) (unwrap : Bool) (nodes : List Node) : Option Match :=
  (candidates unwrap nodes).findSome? fun candidate =>
    catalog.findSome? fun t => t.match? candidate

end Template
end ChatPreview
