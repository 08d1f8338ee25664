import ChatPreview.Command.Basic

namespace ChatPreview

namespace Node

mutual

def relocate (place : Nat → Nat) : Node → Node
  | ⟨kind, content, position, children⟩ =>
    ⟨kind, content, place position, relocateAll place children⟩

def relocateAll (place : Nat → Nat) : List Node → List Node
  | [] => []
  | n :: rest => relocate place n :: relocateAll place rest

end

theorem relocateAll_eq_map (place : Nat → Nat) (nodes : List Node) :
    relocateAll place nodes = nodes.map (relocate place) := by
  induction nodes with
  | nil => rfl
  | cons n rest ih => rw [relocateAll, ih, List.map_cons]

@[simp] theorem relocate_kind (place : Nat → Nat) (n : Node) : (n.relocate place).kind = n.kind := by
  cases n
  rw [relocate]

@[simp] theorem relocate_content (place : Nat → Nat) (n : Node) :
    (n.relocate place).content = n.content := by
  cases n
  rw [relocate]

end Node

def Failure.shift (k : Nat) (e : Failure) : Failure := { e with offset := e.offset + k }

def Command.shift (k : Nat) (c : Command) : Command :=
  { c with nodes := c.nodes.map (·.relocate (· + k)), start := c.start + k,
           position := c.position + k, stop := c.stop + k, error := c.error.map (·.shift k) }

end ChatPreview
