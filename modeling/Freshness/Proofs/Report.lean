import Freshness.Proofs.Text.Json
import Freshness.Proofs.Text.Spelling
import Freshness.Report

/-!
# What a report as JSON tells

A report as JSON can be read again, and then it tells what a report for a reader tells.  But this
is so only if all paths in it are texts.  If one of them is not, the whole report is an empty
object, which tells nothing of the units and the artifacts.
-/

namespace Freshness

theorem isSome_mapM_iff {α β : Type} {f : α → Option β} {items : List α} :
    (items.mapM f).isSome ↔ ∀ a ∈ items, (f a).isSome := by
  induction items with
  | nil => simp
  | cons a items ih =>
      rw [List.forall_mem_cons, ← ih, List.mapM_cons]
      cases f a <;> cases items.mapM f <;> simp

/-! ## Paths that are texts -/

namespace Path

def IsText (p : Path) : Prop := ∃ text, p = ofString text

theorem toString?_eq_some_iff {p : Path} {text : String} :
    p.toString? = some text ↔ p = ofString text := by
  obtain ⟨bytes⟩ := p
  rw [toString?, Utf8.decode?_eq_some_iff, ofString, mk.injEq]

theorem isSome_toString?_iff {p : Path} : p.toString?.isSome ↔ p.IsText := by
  rw [Option.isSome_iff_exists]
  simp only [toString?_eq_some_iff, IsText]

theorem display_ofString (text : String) : (ofString text).display = text :=
  Utf8.decodeLossy_encode text

end Path

/-! ## Parts of a document -/

namespace Json

def text? : Json → Option String
  | .text letters => some letters
  | _ => none

def flag? : Json → Option Bool
  | .flag value => some value
  | _ => none

def items? : Json → Option (List Json)
  | .array items => some items
  | _ => none

def members? : Json → Option (List (String × Json))
  | .object members => some members
  | _ => none

/-- The member with a name. -/
def member? (document : Json) (name : String) : Option Json :=
  document.members?.bind (·.lookup name)

def texts? (document : Json) : Option (List String) := do
  let items ← document.items?
  items.mapM text?

theorem texts?_ofTexts (texts : List String) : (ofTexts texts).texts? = some texts :=
  mapM_map text? .text (fun _ => rfl) texts

end Json

namespace GraphDump

/-- Lists of texts by identity, from a document. -/
def groupsTold? (document : Json) : Option (List (Identity × List String)) := do
  let members ← document.members?
  members.mapM fun member => member.2.texts?.map (member.1, ·)

/-- The dump that a document tells. -/
def told? (document : Json) : Option GraphDump := do
  let dependencies ← (document.member? "dependencies").bind groupsTold?
  let affectedBy ← (document.member? "affected_by").bind groupsTold?
  let libraries ← ((document.member? "libraries").map groupsTold?).getD (some [])
  return ⟨dependencies, affectedBy, libraries.map fun group =>
    (group.1, group.2.map Path.ofString)⟩

theorem groupsTold?_groupsJson (groups : List (Identity × List String)) :
    groupsTold? (groupsJson groups) = some groups := by
  refine mapM_map _ _ ?_ groups
  rintro ⟨id, texts⟩
  rw [Json.texts?_ofTexts]
  rfl

theorem libraryTexts?_eq_some_iff {d : GraphDump} {groups : List (Identity × List String)} :
    d.libraryTexts? = some groups ↔
      d.libraries = groups.map fun group => (group.1, group.2.map Path.ofString) := by
  refine mapM_eq_some_iff ?_
  rintro ⟨id, paths⟩ ⟨id', texts⟩
  simp only [Option.map_eq_some_iff, mapM_eq_some_iff fun _ _ => Path.toString?_eq_some_iff]
  constructor
  · rintro ⟨texts, rfl, heq⟩
    cases heq
    rfl
  · intro heq
    cases heq
    exact ⟨texts, rfl, rfl⟩

theorem told?_of_json? {d : GraphDump} {document : Json} (h : d.json? = some document) :
    told? document = some d := by
  obtain ⟨groups, hgroups, heq⟩ := Option.bind_eq_some_iff.mp h
  have hlibraries := libraryTexts?_eq_some_iff.mp hgroups
  obtain ⟨dependencies, affectedBy, libraries⟩ := d
  obtain rfl := Option.some.inj heq
  dsimp only at hlibraries ⊢
  subst hlibraries
  cases groups with
  | nil => simp [told?, Json.member?, Json.members?, List.lookup, groupsTold?_groupsJson]
  | cons group groups =>
      simp [told?, Json.member?, Json.members?, List.lookup, groupsTold?_groupsJson]

theorem isSome_json?_iff {d : GraphDump} :
    d.json?.isSome ↔ ∀ group ∈ d.libraries, ∀ p ∈ group.2, p.IsText := by
  have hjson : d.json?.isSome ↔ d.libraryTexts?.isSome := by
    rw [json?]
    cases d.libraryTexts? <;> simp
  rw [hjson, libraryTexts?, isSome_mapM_iff]
  refine forall₂_congr ?_
  rintro ⟨id, paths⟩ _
  simp only [Option.isSome_map, isSome_mapM_iff, Path.isSome_toString?_iff]

end GraphDump

namespace Report

/-- What a report is about, as far as a reader is shown it. -/
structure Told where
  dryRun : Bool
  /-- The units that are out of date, each with the reason. -/
  units : List (String × String)
  artifacts : List String
  dump : Option GraphDump

/-- A unit that is out of date and the reason. -/
def unitTold? (item : Json) : Option (String × String) := do
  let unit ← (item.member? "unit").bind Json.text?
  let reason ← (item.member? "reason").bind Json.text?
  return (unit, reason)

/-- What a document tells. -/
def told? (document : Json) : Option Told := do
  let dryRun ← (document.member? "dry_run").bind Json.flag?
  let stale ← document.member? "out_of_date"
  let units ← stale.items?.bind (·.mapM unitTold?)
  let artifacts ← (document.member? "removed").bind Json.texts?
  let dump ← match document.member? "dependencies" with
    | none => some none
    | some dump => (GraphDump.told? dump).map some
  return ⟨dryRun, units, artifacts, dump⟩

/-- The report for a reader of what was told. -/
def Told.text (told : Told) : String :=
  (if told.units.isEmpty then "All units up to date\n"
    else "Out of date:\n" ++ String.join (told.units.map fun unit =>
      "  " ++ unit.1 ++ " (" ++ unit.2 ++ ")\n"))
  ++ (if told.artifacts.isEmpty then ""
    else (if told.dryRun then "Would delete" else "Deleted") ++ ":\n"
      ++ String.join (told.artifacts.map fun artifact => "  " ++ artifact ++ "\n"))
  ++ (told.dump.map GraphDump.text).getD ""

/-- Each unit and each artifact of the summary is told once, in its order. -/
structure Tells (told : Told) (summary : RunSummary) : Prop where
  dryRun : told.dryRun = summary.dryRun
  units : told.units = summary.outOfDate.toList.map fun stale => (stale.1, stale.2.message)
  artifacts : told.artifacts.map Path.ofString = summary.removed
  dump : told.dump = summary.dump

/-- All paths that are to be written are texts. -/
structure Textual (summary : RunSummary) : Prop where
  removed : ∀ p ∈ summary.removed, p.IsText
  failures : ∀ failure ∈ summary.failures, failure.path.IsText
  libraries : ∀ d ∈ summary.dump, ∀ group ∈ d.libraries, ∀ p ∈ group.2, p.IsText

variable {summary : RunSummary} {milliseconds : Nat} {document : Json}

theorem isSome_statusJson?_iff : (statusJson? summary milliseconds).isSome ↔ Textual summary := by
  have hremoved : (summary.removed.mapM Path.toString?).isSome ↔
      ∀ p ∈ summary.removed, p.IsText := by
    simp only [isSome_mapM_iff, Path.isSome_toString?_iff]
  have hfailures : (summary.failures.mapM failureJson?).isSome ↔
      ∀ failure ∈ summary.failures, failure.path.IsText := by
    simp only [isSome_mapM_iff, failureJson?, Option.isSome_map, Path.isSome_toString?_iff]
  have hdump : (dependenciesJson? summary.dump).isSome ↔
      ∀ d ∈ summary.dump, ∀ group ∈ d.libraries, ∀ p ∈ group.2, p.IsText := by
    cases summary.dump with
    | none => simp [dependenciesJson?]
    | some d => simp [dependenciesJson?, GraphDump.isSome_json?_iff]
  have hparts : (statusJson? summary milliseconds).isSome ↔
      (summary.removed.mapM Path.toString?).isSome ∧
        (summary.failures.mapM failureJson?).isSome ∧
        (dependenciesJson? summary.dump).isSome := by
    rw [statusJson?]
    cases summary.removed.mapM Path.toString? <;> cases summary.failures.mapM failureJson? <;>
      cases dependenciesJson? summary.dump <;> simp
  rw [hparts, hremoved, hfailures, hdump]
  constructor
  · rintro ⟨hremoved, hfailures, hlibraries⟩
    exact ⟨hremoved, hfailures, hlibraries⟩
  · intro h
    exact ⟨h.removed, h.failures, h.libraries⟩

theorem Tells.text {told : Told} (h : Tells told summary) : told.text = statusText summary := by
  obtain ⟨hdryRun, hunits, hartifacts, hdump⟩ := h
  have hempty : told.units.isEmpty = summary.outOfDate.isEmpty := by
    rw [hunits, List.isEmpty_map, Std.TreeMap.isEmpty_toList]
  have hnone : summary.removed.isEmpty = told.artifacts.isEmpty := by
    rw [← hartifacts, List.isEmpty_map]
  have hlines : summary.removed.map (fun p => "  " ++ p.display ++ "\n") =
      told.artifacts.map fun artifact => "  " ++ artifact ++ "\n" := by
    rw [← hartifacts, List.map_map]
    refine List.map_congr_left ?_
    intro artifact _
    rw [Function.comp_apply, Path.display_ofString]
  rw [Told.text, statusText, outOfDateText, removedText, hempty, hnone, hlines, hdump, hdryRun,
    hunits, List.map_map]
  rfl

/-- The units of a document are those that are out of date. -/
theorem unitsTold_outOfDateJson (stale : OutOfDate) :
    (outOfDateJson stale).items?.bind (·.mapM unitTold?) =
      some (stale.toList.map fun unit => (unit.1, unit.2.message)) := by
  have hrows : outOfDateJson stale =
      .array ((stale.toList.map fun unit => (unit.1, unit.2.message)).map fun row =>
        .object [("unit", .text row.1), ("reason", .text row.2)]) := by
    rw [List.map_map]
    rfl
  have hread : ∀ row : String × String,
      unitTold? (.object [("unit", .text row.1), ("reason", .text row.2)]) = some row := by
    intro row
    rfl
  rw [hrows]
  exact mapM_map _ _ hread _

theorem exists_told (h : statusJson? summary milliseconds = some document) :
    ∃ told, told? document = some told ∧ Tells told summary := by
  obtain ⟨artifacts, hartifacts, h⟩ := Option.bind_eq_some_iff.mp h
  obtain ⟨failures, -, h⟩ := Option.bind_eq_some_iff.mp h
  obtain ⟨dependencies, hdependencies, h⟩ := Option.bind_eq_some_iff.mp h
  obtain rfl := Option.some.inj h
  rw [mapM_eq_some_iff fun _ _ => Path.toString?_eq_some_iff] at hartifacts
  refine ⟨⟨summary.dryRun, _, artifacts, summary.dump⟩, ?_, rfl, rfl, hartifacts.symm, rfl⟩
  cases hdump : summary.dump with
  | none =>
      rw [hdump] at hdependencies
      obtain rfl := Option.some.inj hdependencies
      simp [told?, Json.member?, Json.members?, List.lookup, Json.flag?, unitsTold_outOfDateJson,
        Json.texts?_ofTexts]
  | some d =>
      rw [hdump] at hdependencies
      obtain ⟨dump, hjson, rfl⟩ := Option.map_eq_some_iff.mp hdependencies
      simp [told?, Json.member?, Json.members?, List.lookup, Json.flag?, unitsTold_outOfDateJson,
        Json.texts?_ofTexts, GraphDump.told?_of_json? hjson]

/-- A report as JSON tells what a report for a reader tells, if all paths in it are texts.
Otherwise it is an empty object. -/
theorem status_json_tells (summary : RunSummary) (milliseconds : Nat) :
    (Textual summary ∧ ∃ document told,
      Json.read? (status .json summary milliseconds) = some document ∧
        told? document = some told ∧ Tells told summary ∧
        told.text = status .text summary milliseconds) ∨
    (¬Textual summary ∧ status .json summary milliseconds = "\x7b\x7d") := by
  have hjson : status .json summary milliseconds =
      documentText (statusJson? summary milliseconds) := rfl
  rw [← @isSome_statusJson?_iff summary milliseconds, hjson]
  cases hdocument : statusJson? summary milliseconds with
  | none => exact Or.inr ⟨by simp, rfl⟩
  | some document =>
      obtain ⟨told, htold, htells⟩ := exists_told hdocument
      exact Or.inl ⟨rfl, document, told, Json.read?_pretty document, htold, htells, htells.text⟩

/-- A unit is out of date, and the name of its artifact is no text. -/
def strayByte : RunSummary where
  outOfDate := Std.TreeMap.empty.insert "A" .sourceNewer
  removed := [⟨[0xFF]⟩]
  failures := []
  dump := none
  stats := {}
  dryRun := true

theorem not_status_json_told :
    ¬∀ summary : RunSummary, summary.dryRun = true → ∀ milliseconds, ∃ document told,
      Json.read? (status .json summary milliseconds) = some document ∧
        told? document = some told ∧
        told.units = (summary.outOfDate.toList.map fun stale => (stale.1, stale.2.message)) ∧
        told.artifacts.length = summary.removed.length := by
  intro h
  obtain ⟨document, told, hread, htold, -⟩ := h strayByte rfl 0
  have hnone : statusJson? strayByte 0 = none := by
    rw [statusJson?]
    decide
  have hstatus : status .json strayByte 0 = (Json.object []).pretty := by
    rw [status, hnone, documentText, Json.pretty, Json.render]
  rw [hstatus, Json.read?_pretty] at hread
  obtain rfl := Option.some.inj hread
  cases htold

end Report
end Freshness
