import ChatPreview.CommandLine.Run
import Mathlib.Data.List.Forall2
import Mathlib.Tactic.Push

namespace ChatPreview.CommandLine
open Template (Catalog)

/-! ## Reading a configuration -/

/-- The errors that say that nothing is there. -/
inductive Absent : FileError → Prop
  | missing : Absent .missing
  | notFolder : Absent .notFolder
  | badHandle : Absent .badHandle
  | loop : Absent .loop
  | nullInName : Absent .nullInName

/-- No file is found: something else is there, or nothing. -/
def Lacks (disk : Disk) (name : FileName) : Prop :=
  disk.stat name = .ok false ∨ ∃ e, disk.stat name = .error e ∧ Absent e

theorem meansAbsent_iff {e : FileError} : e.meansAbsent ↔ Absent e := by
  constructor
  · intro means
    cases e with
    | missing => exact .missing
    | notFolder => exact .notFolder
    | badHandle => exact .badHandle
    | loop => exact .loop
    | nullInName => exact .nullInName
    | denied => cases means
    | isFolder => cases means
    | tooLong => cases means
    | other message => cases means
  · intro absent
    cases absent <;> rfl

section
variable {disk : Disk} {name : FileName} {e : FileError}

theorem isFile_of_lacks (lacks : Lacks disk name) : disk.isFile name = .ok false := by
  rw [Disk.isFile]
  rcases lacks with found | ⟨e, found, absent⟩
  · rw [found]
  · simp only [found, meansAbsent_iff.mpr absent, if_true]

theorem isFile_of_found (found : disk.stat name = .ok true) : disk.isFile name = .ok true := by
  rw [Disk.isFile, found]

end

section
variable {system : System} {name : FileName} {e : FileError} {bytes : ByteArray}

theorem readConfig_of_lacks (lacks : Lacks system.disk name) : readConfig system name = .ok [] := by
  rw [readConfig, isFile_of_lacks lacks]
  rfl

theorem readConfig_of_read (found : system.disk.stat name = .ok true)
    (read : system.disk.read name = .ok bytes) :
    readConfig system name = decodeConfig system.toHost bytes := by
  rw [readConfig, isFile_of_found found]
  simp only [Except.mapError, Bind.bind, Except.bind, if_true, read]

end

theorem decodeConfig_of_text {host : Host} {bytes : ByteArray} {text : String}
    (code : String.fromUTF8? bytes = some text) :
    decodeConfig host bytes = (host.toml text.toList).mapError .ofToml := by
  rw [decodeConfig, code]

/-! ## Settling the options -/

def optionsOf (a : Arguments) (config : Toml.Table) (catalog : Catalog) : Options where
  input := inputName a
  output := (a.file? .output).map .ofChars
  settings :=
    ⟨(a.lead?.or (Settings.lead? config)).getD Settings.standard.lead,
      if a.has .noErrors then false
      else (Settings.showErrors? config).getD Settings.standard.showErrors, catalog⟩
  debug := a.has .debug

theorem resolve_eq (system : System) (a : Arguments) : resolve system a =
    (readConfig system (configFile a)).bind fun config =>
      (catalogOf system.toHost config a).map (optionsOf a config) := rfl

theorem resolve_eq_ok {system : System} {a : Arguments} {o : Options} :
    resolve system a = .ok o ↔ ∃ config catalog, readConfig system (configFile a) = .ok config ∧
      catalogOf system.toHost config a = .ok catalog ∧ o = optionsOf a config catalog := by
  rw [resolve_eq]
  constructor
  · intro resolved
    cases read : readConfig system (configFile a) with
    | error why =>
        rw [read] at resolved
        cases resolved
    | ok config =>
        rw [read, Except.bind] at resolved
        cases found : catalogOf system.toHost config a with
        | error why =>
            rw [found] at resolved
            cases resolved
        | ok catalog =>
            rw [found] at resolved
            cases resolved
            exact ⟨config, catalog, rfl, found, rfl⟩
  · rintro ⟨config, catalog, read, found, rfl⟩
    rw [read, Except.bind, found]
    rfl

/-- The options are settled, and the input is read as this text. -/
structure Opened (system : System) (a : Arguments) (o : Options) (source : List Char) : Prop where
  resolved : resolve system a = .ok o
  text : ∃ bytes written, system.disk.read o.input = .ok bytes ∧
    String.fromUTF8? bytes = some written ∧ joinReturns written.toList = source

theorem runWith_of_opened {system : System} {a : Arguments} {o : Options} {source : List Char}
    (text : Opened system a o source) : runWith system a = preview system o source := by
  rcases text with ⟨resolved, bytes, written, found, decoded, rfl⟩
  rw [runWith, resolved]
  simp only [found, decoded]

def logOf (host : Host) (o : Options) (source : List Char) : String :=
  if o.debug then debugLog host o.settings.catalog (commands source) else ""

def textOf (o : Options) (source : List Char) (previews : List (Command × Preview)) : Text :=
  reportText o.settings (entries source previews)

def codeOf (source : List Char) (previews : List (Command × Preview)) : Nat :=
  exitCode (entries source previews)

theorem preview_of_ok {system : System} {o : Options} {source : List Char}
    {previews : List (Command × Preview)}
    (shown : Preview.ofDocument system.toHost o.settings.catalog source = .ok previews) :
    preview system o source = deliver system o (logOf system.toHost o source)
      (textOf o source previews) (codeOf source previews) := by
  rw [Preview.ofDocument] at shown
  rw [preview]
  simp only [shown]
  rfl

/-! ## What a report says -/

/-- The line that tells of a preview: where its command starts, and its text after the lead, or what
is wrong with it. -/
inductive Line (lead source : List Char) : Command × Preview → Text → Prop
  | text {c : Command} {t : Text} {place : Position} (start : locate source c.position = place) :
    Line lead source (c, .text t)
      (Text.ofString s!"{place.line}:{place.column}:" ++ Text.ofChars lead ++ t)
  | failure {c : Command} {why : Refusal} {place : Position}
    (start : locate source c.position = place) :
    Line lead source (c, .failure why)
      (Text.ofString s!"{place.line}:{place.column}: error: {why.text}")

/-- A text with one line for each preview, in order, and nothing else. -/
def Lists (lead source : List Char) (previews : List (Command × Preview)) (text : Text) : Prop :=
  ∃ lines, List.Forall₂ (Line lead source) previews lines ∧
    text = lines.flatMap (· ++ [.scalar '\n'])

def visible (showErrors : Bool) (previews : List (Command × Preview)) :
    List (Command × Preview) :=
  if showErrors then previews else previews.filter (·.2.ok)

theorem Lists.cons {lead source : List Char} {p : Command × Preview}
    {previews : List (Command × Preview)} {line text : Text} (first : Line lead source p line)
    (rest : Lists lead source previews text) :
    Lists lead source (p :: previews) (line ++ .scalar '\n' :: text) := by
  obtain ⟨lines, each, rfl⟩ := rest
  refine ⟨line :: lines, .cons first each, ?_⟩
  rw [List.flatMap_cons, List.append_assoc]
  rfl

theorem reportText_cons {s : Settings} {e : Entry} {es : List Entry} {line : Text}
    (shown : e.shown s = some line) :
    reportText s (e :: es) = line ++ .scalar '\n' :: reportText s es := by
  rw [reportText, List.filterMap_cons_some shown, Text.unlines, List.flatMap_cons,
    List.append_assoc]
  rfl

/-- A report has a line for each preview, but for failures when these are hidden. -/
theorem lists_reportText (s : Settings) (source : List Char) (previews : List (Command × Preview)) :
    Lists s.lead source (visible s.showErrors previews)
      (reportText s (entries source previews)) := by
  induction previews with
  | nil =>
      rw [visible, List.filter_nil, ite_self]
      exact ⟨[], .nil, rfl⟩
  | cons p previews ih =>
      obtain ⟨c, preview⟩ := p
      cases preview with
      | text t =>
          have kept : visible s.showErrors ((c, .text t) :: previews) =
              (c, .text t) :: visible s.showErrors previews := by
            rw [visible, visible, List.filter_cons_of_pos rfl]
            split <;> rfl
          rw [kept, entries, List.map_cons, reportText_cons rfl]
          exact .cons (.text rfl) ih
      | failure why =>
          cases shows : s.showErrors with
          | true =>
              rw [shows] at ih
              have entry : Entry.shown s ⟨(locate source c.position).line,
                  (locate source c.position).column, .failure why⟩ = some _ := if_pos shows
              rw [entries, List.map_cons, reportText_cons entry]
              exact .cons (.failure rfl) ih
          | false =>
              rw [shows] at ih
              have hidden : Entry.shown s ⟨(locate source c.position).line,
                  (locate source c.position).column, .failure why⟩ = none := by
                rw [Entry.shown]
                simp only [shows, Bool.false_eq_true, if_false]
              rw [entries, List.map_cons, reportText, List.filterMap_cons_none hidden]
              exact ih

/-! ## Where a report goes -/

def Takes (system : System) (output : Option FileName) (text : Text) : Prop :=
  match output with
  | none => system.prints text
  | some name => ∃ chars, Text.chars? text = some chars ∧ system.disk.write name chars = none

def placed (o : Options) (log : String) (report : Text) (code : Nat) : Report :=
  match o.output with
  | none => ⟨.exit code, report, log, none⟩
  | some name => ⟨.exit code, [], log, some (name, (Text.chars? report).getD [])⟩

section
variable {system : System} {o : Options} {log : String} {report : Text} {code : Nat}

end

structure Reported (system : System) (o : Options) (source : List Char)
    (previews : List (Command × Preview)) : Prop where
  shown : Preview.ofDocument system.toHost o.settings.catalog source = .ok previews
  takes : Takes system o.output (textOf o source previews)

section
variable {system : System} {a : Arguments} {o : Options} {source : List Char}
  {previews : List (Command × Preview)}

end

theorem codeOf_eq (source : List Char) (previews : List (Command × Preview)) :
    codeOf source previews = if previews.all (·.2.ok) then 0 else 1 := by
  rw [codeOf, exitCode, entries, List.all_map]
  rfl

end ChatPreview.CommandLine
