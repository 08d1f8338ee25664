import ChatPreview.Component.Build
import ChatPreview.Toml.Decode

namespace ChatPreview

/-- What the program is run with. It calls a validator of fields and a decoder of configurations,
and how deep it may recurse depends on the calls that it is in. -/
structure Host where
  checks : Component.Checks
  /-- How deep the values of a message may be nested. -/
  decodedLevels : Nat
  /-- How deep a value may be nested to be shown, when it stands under a path in a message. -/
  shownLevels : Value → Path → Nat
  /-- How deep an item may be nested to be taken as a template. -/
  templateLevels : Nat
  toml : List Char → Except Toml.Error Toml.Table

/-- A host whose stack is a thousand calls deep, of which each step down a path takes two. -/
def Host.standard : Host where
  checks := .standard
  decodedLevels := 990
  shownLevels _ path := 980 - 2 * path.length
  templateLevels := 980
  toml := Toml.decode 480

end ChatPreview
