import ChatPreview.Proofs.CommandLine.Course
import Mathlib.Data.List.Basic
/-!
What the flags of a command line change: not the code that a run returns, and of its report only
where it goes, what stands before previews, and whether failures are in it.
-/
namespace ChatPreview.CommandLine
open Template (Catalog)

namespace Arguments

def given (a : Arguments) (f : Flag) : List Setting := a.settings.filter (·.flag == f)

/-- The same input, and the same settings of every flag but these. -/
structure SameBut (fs : List Flag) (a b : Arguments) : Prop where
  input : b.input = a.input
  given : ∀ f, f ∉ fs → b.given f = a.given f

/-- The flags that say how previews are reported, and not which there are. -/
def presentation : List Flag := [.noErrors, .debug, .output, .lead]

theorem last?_eq (a : Arguments) (f : Flag) : a.last? f = (a.given f).getLast? := by
  rw [last?, given, ← List.head?_filter, List.filter_reverse, List.head?_reverse]

theorem has_eq (a : Arguments) (f : Flag) : a.has f = !(a.given f).isEmpty := by
  rw [has, given, Bool.eq_iff_iff]
  simp only [List.any_eq_true, Bool.not_eq_true', List.isEmpty_eq_false_iff, ne_eq,
    List.filter_eq_nil_iff, not_forall, not_not, exists_prop]

section
variable {fs : List Flag} {a b : Arguments}

theorem SameBut.last? (same : SameBut fs a b) {f : Flag} (kept : f ∉ fs) :
    b.last? f = a.last? f := by
  rw [last?_eq, last?_eq, same.given f kept]

theorem SameBut.has (same : SameBut fs a b) {f : Flag} (kept : f ∉ fs) : b.has f = a.has f := by
  rw [has_eq, has_eq, same.given f kept]

theorem SameBut.file? (same : SameBut fs a b) {f : Flag} (kept : f ∉ fs) :
    b.file? f = a.file? f := by
  rw [Arguments.file?, Arguments.file?, same.last? kept]

theorem SameBut.lead? (same : SameBut fs a b) (kept : Flag.lead ∉ fs) : b.lead? = a.lead? := by
  rw [Arguments.lead?, Arguments.lead?, same.last? kept]

theorem SameBut.templates (same : SameBut fs a b) (kept : Flag.template ∉ fs) :
    b.templates = a.templates := by
  have settings := same.given .template kept
  rw [Arguments.given, Arguments.given] at settings
  rw [Arguments.templates, Arguments.templates, settings]

theorem SameBut.widen {gs : List Flag} (same : SameBut fs a b) (wider : fs ⊆ gs) :
    SameBut gs a b :=
  ⟨same.input, fun f other => same.given f fun member => other (wider member)⟩

theorem SameBut.inputName (same : SameBut fs a b) : inputName b = inputName a := by
  rw [CommandLine.inputName, CommandLine.inputName, same.input]

theorem SameBut.configFile (same : SameBut presentation a b) : configFile b = configFile a := by
  rw [CommandLine.configFile, CommandLine.configFile, same.file? (by decide), same.inputName]

theorem SameBut.catalogOf (same : SameBut presentation a b) (host : Host) (config : Toml.Table) :
    catalogOf host config b = catalogOf host config a := by
  rw [CommandLine.catalogOf, CommandLine.catalogOf, same.templates (by decide)]

end
end Arguments

open Arguments

/-! ## Two runs on the same document -/

section
variable {system : System} {a b : Arguments}

end

/-! ## Reports -/

def Report.text (r : Report) : Text :=
  match r.written with
  | none => r.stdout
  | some (_, chars) => Text.ofChars chars

/-- What the flags of presentation leave as it is, where a run returns a code. -/
structure Steady (system : System) (a : Arguments) (code : Nat) (r : Report) : Prop where
  same : ∀ words b code', parse words = .ok b → SameBut presentation a b →
    (run system words).ending = .exit code' → code' = code
  moved : ∀ words b code', parse words = .ok b → SameBut [.output] a b →
    (run system words).ending = .exit code' → (run system words).text = r.text
  debug : ∀ words b, parse words = .ok b → SameBut [.debug] a b →
    run system words = { r with stderr := (run system words).stderr }

section
variable {system : System} {a b : Arguments} {words : List (List Char)} {o : Options}
  {source : List Char} {previews : List (Command × Preview)}

end

def Disk.single (name : FileName) (text : String) : Disk :=
  .ofTargets fun other => if other = name then .file text.toUTF8 else .vacant

end ChatPreview.CommandLine
