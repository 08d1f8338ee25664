import ChatPreview.Component.Basic
import ChatPreview.Component.Format
/-!
Components as the plain text that shows for them. Selectors, key names and scores are not looked
up; the format of a translatable text is used as it stands.
-/
namespace ChatPreview.Component

mutual

def interpret : Component → Except DigitLimit Text
  | .plain text => .ok text
  | .sequence items => interpretAll items
  | .content body extra => do
    let text ← interpretBody body
    return text ++ (← interpretExtra extra)

def interpretBody : Body → Except DigitLimit Text
  | .text text => .ok text
  | .selector selector _ => .ok selector
  | .keybind key => .ok (Text.ofString "<" ++ key ++ Text.ofString ">")
  | .translatable format args _ => do
    Format.apply format (← interpretArgs args)
  | .scoreboard name objective =>
    .ok (Text.ofString "<" ++ name ++ Text.ofString "->" ++ objective ++ Text.ofString ">")
  | .nbt path _ _ _ _ => .ok path

def interpretAll : List Component → Except DigitLimit Text
  | [] => .ok []
  | c :: rest => do
    let text ← interpret c
    return text ++ (← interpretAll rest)

def interpretExtra : Option (List Component) → Except DigitLimit Text
  | none => .ok []
  | some items => interpretAll items

def interpretEach : List Component → Except DigitLimit (List Text)
  | [] => .ok []
  | c :: rest => do
    let text ← interpret c
    return text :: (← interpretEach rest)

def interpretArgs : Option (List Component) → Except DigitLimit (List Text)
  | none => .ok []
  | some items => interpretEach items

end

end ChatPreview.Component
