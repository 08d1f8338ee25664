import ChatPreview.Proofs.CommandLine.Course
import ChatPreview.Proofs.Workspace.Answers
/-!
A workspace and a run of the command line on the same document and configuration: each preview is
told once by either, and both tell the same.
-/
namespace ChatPreview
open Template (Catalog)
open CommandLine

/-! ## The same files -/

theorem fromUTF8?_toUTF8 (s : String) : String.fromUTF8? s.toUTF8 = some s := by
  have valid : s.toUTF8.IsValidUTF8 := s.isValidUTF8
  rw [String.fromUTF8?, dif_pos valid]
  rfl

theorem CommandLine.joinReturns_of_not_mem {s : List Char} (noReturn : '\r' ∉ s) :
    joinReturns s = s := by
  fun_induction joinReturns s with
  | case1 s ih => exact absurd List.mem_cons_self noReturn
  | case2 s _ ih => exact absurd List.mem_cons_self noReturn
  | case3 c s _ _ ih => rw [ih fun member => noReturn (List.mem_cons_of_mem c member)]
  | case4 => rfl

namespace Workspace

structure HoldsText (disk : Disk) (name : FileName) (text : List Char) : Prop where
  file : disk.stat name = .ok true
  read : disk.read name = .ok (String.ofList text).toUTF8

/-- A configuration that is the same for a workspace and for a run, and gives these settings. -/
inductive Configured (system : System) (a : Arguments) (w : Workspace) : Settings → Prop
  | none (absent : w.config = none) (lacks : Lacks system.disk (configFile a)) :
    Configured system a w .standard
  | config {text : List Char} {config : Toml.Table} {s : Settings} (given : w.config = some text)
    (file : HoldsText system.disk (configFile a) text) (decoded : system.toml text = .ok config)
    (parsed : Settings.ofConfig system.templateLevels config = .ok (.ok s)) :
    Configured system a w s

/-- A run without flags has a document of the workspace as its input, and the same settings. -/
structure SameFiles (system : System) (a : Arguments) (w : Workspace) (document : String)
    (s : Settings) : Prop where
  plain : a.settings = []
  input : system.disk.read (inputName a) = .ok (String.ofList (w.source document)).toUTF8
  config : Configured system a w s

section
variable {system : System} {a : Arguments} {w : Workspace} {document : String} {s : Settings}

theorem Configured.settings (configured : Configured system a w s) :
    w.settings system.toHost = .ok s := by
  cases configured with
  | none absent lacks => rw [Workspace.settings, absent, Option.map_none]
  | config given file decoded parsed =>
      rw [Workspace.settings, given, Option.map_some, decoded]
      simp only [parsed]

theorem readConfig_of_text {name : FileName} {text : List Char} {config : Toml.Table}
    (file : HoldsText system.disk name text) (decoded : system.toml text = .ok config) :
    readConfig system name = .ok config := by
  rw [readConfig_of_read file.file file.read, decodeConfig_of_text (fromUTF8?_toUTF8 _),
    String.toList_ofList, decoded]
  rfl

theorem ofConfig_eq_ok {levels : Nat} {config : Toml.Table}
    (parsed : Settings.ofConfig levels config = .ok (.ok s)) :
    ∃ texts, Settings.templates levels config = .ok texts ∧
      Settings.extended texts = .ok s.catalog ∧
      s.lead = (Settings.lead? config).getD Settings.standard.lead ∧
      s.showErrors = (Settings.showErrors? config).getD Settings.standard.showErrors := by
  rw [Settings.ofConfig] at parsed
  cases read : Settings.templates levels config with
  | error why =>
      rw [read] at parsed
      cases parsed
  | ok texts =>
      rw [read] at parsed
      cases extended : Settings.extended texts with
      | error fault =>
          simp only [Bind.bind, Except.bind, extended] at parsed
          cases parsed
      | ok catalog =>
          simp only [Bind.bind, Except.bind, extended] at parsed
          cases parsed
          exact ⟨texts, rfl, extended, rfl, rfl⟩

theorem optionsOf_plain {host : Host} {config : Toml.Table} (plain : a.settings = [])
    (parsed : Settings.ofConfig host.templateLevels config = .ok (.ok s)) :
    catalogOf host config a = .ok s.catalog ∧
      optionsOf a config s.catalog = ⟨inputName a, none, s, false⟩ := by
  obtain ⟨texts, read, extended, lead, showErrors⟩ := ofConfig_eq_ok parsed
  constructor
  · rw [catalogOf, read, Arguments.templates, plain]
    simp [Except.mapError, Bind.bind, Except.bind, Pure.pure, Except.pure, extended]
  · rw [optionsOf, Arguments.lead?, Arguments.file?, Arguments.last?, Arguments.last?,
      Arguments.has, Arguments.has, plain]
    rcases s with ⟨sLead, sShow, sCatalog⟩
    cases lead
    cases showErrors
    rfl

theorem ofConfig_empty (levels : Nat) : Settings.ofConfig levels [] = .ok (.ok .standard) := rfl

theorem SameFiles.resolve (files : SameFiles system a w document s) :
    resolve system a = .ok ⟨inputName a, none, s, false⟩ := by
  rw [resolve_eq_ok]
  rcases files.config with ⟨_, lacks⟩ | ⟨_, file, decoded, parsed⟩
  · obtain ⟨catalog, options⟩ := optionsOf_plain files.plain (ofConfig_empty system.templateLevels)
    exact ⟨_, _, readConfig_of_lacks lacks, catalog, options.symm⟩
  · obtain ⟨catalog, options⟩ := optionsOf_plain files.plain parsed
    exact ⟨_, _, readConfig_of_text file decoded, catalog, options.symm⟩

theorem SameFiles.opened (files : SameFiles system a w document s)
    (noReturn : '\r' ∉ w.source document) :
    Opened system a ⟨inputName a, none, s, false⟩ (w.source document) := by
  refine ⟨files.resolve, _, _, files.input, fromUTF8?_toUTF8 (String.ofList (w.source document)), ?_⟩
  rw [String.toList_ofList]
  exact joinReturns_of_not_mem noReturn

end

/-! ## The answers and the report -/

/-- A report of one line for each preview, with the code that tells whether one of them failed. A
console that does not take it stops the run. -/
def Printed (system : System) (s : Settings) (source : List Char)
    (previews : List (Command × Preview)) (r : Report) : Prop :=
  ∃ text, Lists s.lead source previews text ∧
    r = if system.prints text then ⟨.exit (if previews.all (·.2.ok) then 0 else 1), text, "", none⟩
      else ⟨.escape .unprinted, [], "", none⟩

/-- The answers of a workspace for a document, and the report of a run on it. -/
structure Agrees (system : System) (w : Workspace) (document : String) (s : Settings)
    (previews : List (Command × Preview)) (ds : List Diagnostic) (hs : List Hint) (r : Report) :
    Prop where
  diagnostics : w.diagnostics system.toHost document = .ok ds
  hints : w.hints system.toHost document none = .ok hs
  ranged : ∀ range, w.hints system.toHost document (some range) = .ok (hs.filter (within range))
  partitioned : ∀ ranges, Partitions (w.source document) ranges →
    (ranges.flatMap fun range => hs.filter (within range)).Perm hs
  answered : List.Forall₂ (Answered s.lead (w.source document)) previews (merged ds hs)
  ordered : InOrder (merged ds hs)
  printed : Printed system s (w.source document) previews r
  covers : List.Forall₂ (Covers (w.source document)) ds (previews.filter (!·.2.ok))
  apart : ds.Pairwise fun d d' => d.last < d'.first

section
variable {host : Host} {w : Workspace} {document : String} {s : Settings}
  {previews : List (Command × Preview)}

theorem diagnostics_of_shown (settings : w.settings host = .ok s)
    (showErrors : s.showErrors = true)
    (shown : Preview.ofDocument host s.catalog (w.source document) = .ok previews) :
    w.diagnostics host document = .ok (previews.filterMap (diagnostic? (w.source document))) := by
  rw [diagnostics, settings]
  simp only [Bind.bind, Except.bind, shown, showErrors, if_true]
  rfl

theorem hints_of_shown (settings : w.settings host = .ok s)
    (shown : Preview.ofDocument host s.catalog (w.source document) = .ok previews)
    (range : Option (Nat × Nat)) :
    w.hints host document range =
      .ok (match range with
        | none => previews.filterMap (hint? (w.source document) (Text.trim s.lead))
        | some range =>
          (previews.filterMap (hint? (w.source document) (Text.trim s.lead))).filter
            (within range)) := by
  rw [hints, settings]
  simp only [Bind.bind, Except.bind, shown]
  cases range with
  | none => rfl
  | some range => rfl

theorem line_of_hint {source mark : List Char} {h : Hint}
    (member : h ∈ previews.filterMap (hint? source mark)) : h.place.line ≤ source.count '\n' := by
  obtain ⟨⟨c, shown | why⟩, _, found⟩ := List.mem_filterMap.mp member
  · cases found
    exact placeAt_line_le source c.stop
  · cases found

theorem printed_of_opened {system : System} {a : Arguments} {source : List Char}
    (showErrors : s.showErrors = true)
    (opened : Opened system a ⟨inputName a, none, s, false⟩ source)
    (shown : Preview.ofDocument system.toHost s.catalog source = .ok previews) :
    Printed system s source previews (runWith system a) := by
  have lists := lists_reportText s source previews
  rw [visible, if_pos showErrors] at lists
  refine ⟨_, lists, ?_⟩
  rw [runWith_of_opened opened, preview_of_ok shown, codeOf_eq]
  rfl

end

/-- A workspace and a run tell the same of each preview of a document, once and in its order. -/
theorem agrees_of_sameFiles {system : System} {words : List (List Char)} {a : Arguments}
    {w : Workspace} {document : String} {s : Settings} {previews : List (Command × Preview)}
    (parsed : parse words = .ok a) (files : SameFiles system a w document s)
    (noReturn : '\r' ∉ w.source document) (showErrors : s.showErrors = true)
    (shown : Preview.ofDocument system.toHost s.catalog (w.source document) = .ok previews) :
    ∃ ds hs, Agrees system w document s previews ds hs (CommandLine.run system words) := by
  have settings := files.config.settings
  have ordered := inOrder_of_document (Text.trim s.lead) shown
  have merge := merged_of_inOrder ordered
  rw [filterMap_diagnostic?_of, filterMap_hint?_of] at merge
  refine ⟨_, _, diagnostics_of_shown settings showErrors shown, hints_of_shown settings shown none,
    fun range => hints_of_shown settings shown (some range), ?_, ?_, ?_, ?_,
    covers_of_document shown, diagnostics_apart shown⟩
  · intro ranges partition
    apply flatMap_filter_perm
    intro h member
    exact partition h.place.line (line_of_hint member)
  · rw [merge, List.forall₂_map_right_iff, List.forall₂_same]
    exact fun p _ => answered_of s.lead (w.source document) p
  · rw [merge]
    exact ordered
  · rw [CommandLine.run, parsed]
    exact printed_of_opened showErrors (files.opened noReturn) shown

theorem exists_of_toOption {ε α β : Type} {result : Except ε α} {f : α → β} {b : β}
    (found : result.toOption.map f = some b) : ∃ a, result = .ok a ∧ f a = b := by
  cases result with
  | error e => cases found
  | ok a => exact ⟨a, rfl, Option.some.inj found⟩

theorem agrees_of_sameFiles_lead :
    let text := "tellraw @s [1]\ntellraw @s \"hi\"".toList
    let config := "[preview]\nprefix = '> '\n".toList
    let disk : Disk := .ofTargets fun name =>
      .file (String.ofList (if name = .ofChars ['f'] then text else config)).toUTF8
    let system : System := ⟨.standard, disk, fun _ => true⟩
    let w : Workspace := ⟨some config, [("d", text)]⟩
    let s : Settings := ⟨"> ".toList, true, Template.standard⟩
    ∃ previews ds hs, previews.map (·.2.ok) = [false, true] ∧
      Agrees system w "d" s previews ds hs (CommandLine.run system [['f']]) := by
  intro text config disk system w s
  have read : ((Toml.decode 480 config).toOption.map fun c =>
      (Settings.lead? c, Settings.showErrors? c, (Settings.templates 980 c).toOption)) =
      some (some "> ".toList, none, some []) := by
    decide +kernel
  have made : ((Preview.ofDocument .standard s.catalog text).toOption.map fun ps =>
      ps.map (·.2.ok)) = some [false, true] := by
    decide +kernel
  obtain ⟨value, decoded, told⟩ := exists_of_toOption read
  obtain ⟨previews, shown, each⟩ := exists_of_toOption made
  have lead : Settings.lead? value = some "> ".toList := congrArg Prod.fst told
  have showErrors : Settings.showErrors? value = none := congrArg (·.2.1) told
  have templates : Settings.templates 980 value = .ok [] := by
    cases texts : Settings.templates 980 value with
    | error why =>
        rw [texts] at told
        cases congrArg (·.2.2) told
    | ok others =>
        rw [texts] at told
        cases congrArg (·.2.2) told
        rfl
  have parsed : Settings.ofConfig 980 value = .ok (.ok s) := by
    rw [Settings.ofConfig, templates, lead, showErrors]
    rfl
  have files : SameFiles system ⟨['f'], []⟩ w "d" s :=
    ⟨rfl, rfl, .config rfl ⟨rfl, rfl⟩ decoded parsed⟩
  have words : parse [['f']] = .ok ⟨['f'], []⟩ := by rfl
  obtain ⟨ds, hs, agrees⟩ := agrees_of_sameFiles words files (by decide) rfl shown
  exact ⟨previews, ds, hs, each, agrees⟩

end Workspace
end ChatPreview
