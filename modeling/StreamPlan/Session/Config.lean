import StreamPlan.Diagnostics.Report
import StreamPlan.Stage.Pipeline
import StreamPlan.Text.Toml.Document

/-!
# Configuration of a session

A profile, which names the stages a session plans for, and the settings of every
conversion. The start stage must be one of the profile, and a window must be
split into at least two panes.

* `Profile.ofName?`: a profile by one of its names, in any case.
* `Profile.ofWord?`: a profile by its exact name.
* `SessionError`: why a session, or its configuration, refused.
* `Config.validate`: whether a configuration can be used.
* `Config.ofToml`, `Config.toToml`: a configuration as text.
-/

namespace StreamPlan

/-- Which stages a session plans for. -/
inductive Profile where
  | streamOnly
  | streamAndDatabase
  | full
  | databaseOnly
  deriving DecidableEq, Repr

namespace Profile

/-- The exact name. -/
def display : Profile → String
  | streamOnly => "stream_only"
  | streamAndDatabase => "stream_and_database"
  | full => "full"
  | databaseOnly => "database_only"

/-- The profile as one capitalised word. -/
def word : Profile → String
  | streamOnly => "StreamOnly"
  | streamAndDatabase => "StreamAndDatabase"
  | full => "Full"
  | databaseOnly => "DatabaseOnly"

/-- The names of a profile, in lower case. -/
def names : Profile → List String
  | streamOnly => ["stream_only", "stream-only", "stream"]
  | streamAndDatabase => ["stream_and_database", "stream-and-database", "default"]
  | full => ["full"]
  | databaseOnly => ["database_only", "database-only", "database"]

/-- Every profile. -/
def all : List Profile := [streamOnly, streamAndDatabase, full, databaseOnly]

/-- The profile of a name in any case. -/
def ofName? (name : String) : Option Profile :=
  all.find? fun profile => profile.names.contains (name.map Char.toLower)

/-- The profile of an exact name. -/
def ofWord? (name : String) : Option Profile := all.find? fun profile => profile.display == name

/-- The stages of a profile. -/
def pipeline : Profile → Pipeline
  | streamOnly => ⟨[.stream "stream"], by decide⟩
  | streamAndDatabase => .streamAndDatabase
  | full => ⟨[.stream "stream", .database "database", .server "server"], by decide⟩
  | databaseOnly => ⟨[.database "database"], by decide⟩

/-- The names of the stages, in order. -/
def stageNames (profile : Profile) : List String := profile.pipeline.stages.map Stage.name

end Profile

/-- Why a session refused. -/
inductive SessionError where
  | plan (error : PlanError)
  | catalog (error : CatalogError)
  | selection (error : SelectionError)
  | unknownProfile (name : String)
  /-- A start stage that is not in the profile. -/
  | unknownStage (profile : Profile) (stage : String)
  /-- Fewer panes than split a window. -/
  | tooFewPanes (panes : Nat)
  /-- A configuration text that cannot be read. -/
  | malformed
  | queryExists (name : String)
  | queryNotFound (name : String)
  deriving DecidableEq, Repr

namespace SessionError

/-- The code of a session error. -/
def code : SessionError → String
  | plan error => error.code
  | catalog error => error.code
  | selection error => error.code
  | unknownStage .. => "STR-4004"
  | queryExists _ => "STR-1101"
  | queryNotFound _ => "STR-1100"
  | unknownProfile _ | tooFewPanes _ | malformed => "STR-9000"

/-- What a session error says. -/
def message : SessionError → String
  | plan error => error.report.display
  | catalog error => error.report.display
  | selection error => error.report.display
  | unknownProfile name => s!"Profile error: unknown profile name: {name}"
  | unknownStage profile stage =>
    "Profile error: profile '" ++ profile.display ++ s!"' has no stage '{stage}'"
  | tooFewPanes panes => s!"Config error: sliding_window_panes must be at least 2, got {panes}"
  | malformed => "TOML error"
  | queryExists name => s!"query '{name}' already exists"
  | queryNotFound name => s!"query '{name}' not found"

end SessionError

/-- The configuration of a session. -/
structure Config where
  profile : Profile
  settings : PlanSettings
  deriving DecidableEq, Repr

namespace Config

/-- The configuration unless another is given. -/
def default : Config := ⟨.streamAndDatabase, .default⟩

/-- Whether a configuration can be used. -/
def validate (config : Config) : Except SessionError Unit := do
  match config.settings.startStage with
  | some stage =>
    if !config.profile.stageNames.contains stage then throw (.unknownStage config.profile stage)
  | none => pure ()
  if config.settings.panes < 2 then throw (.tooFewPanes config.settings.panes)

/-- The setting of a name as `f` takes it, or the given one if there is none. -/
def settingOr {α : Type} (entries : Toml.Entries) (name : String) (unset : α)
    (f : Toml.Value → Option α) : Except SessionError α :=
  match entries.lookup name with
  | none => .ok unset
  | some value =>
    match f value with
    | some a => .ok a
    | none => .error .malformed

/-- A profile: its word, or a table with its word as the only name, which
holds nothing. -/
def profile? : Toml.Value → Option Profile
  | .text word => Profile.ofWord? word
  | .table _ [(word, held)] => if held.isEmptyContainer then Profile.ofWord? word else none
  | _ => none

/-- A number of panes, which has 32 bits. -/
def panes? : Toml.Value → Option Nat
  | .integer n => if 0 ≤ n ∧ n < 0x100000000 then some n.toNat else none
  | _ => none

/-- A truth value. -/
def flag? : Toml.Value → Option Bool
  | .boolean b => some b
  | _ => none

/-- A text. -/
def text? : Toml.Value → Option String
  | .text s => some s
  | _ => none

/-- The configuration of a document. Other names are of no concern. -/
def ofEntries (entries : Toml.Entries) : Except SessionError Config := do
  let unset := default.settings
  let profile ← settingOr entries "profile" default.profile profile?
  let allowStageChange ← settingOr entries "allow_stage_change" unset.allowStageChange flag?
  let panes ← settingOr entries "sliding_window_panes" unset.panes panes?
  let startStage ← settingOr entries "start_stage" none fun v => (text? v).map some
  return ⟨profile, ⟨allowStageChange, panes, startStage⟩⟩

/-- The configuration of a text, if it can be used. -/
def ofToml (text : String) : Except SessionError Config := do
  match Toml.read? text with
  | none => throw .malformed
  | some entries =>
    let config ← ofEntries entries
    config.validate
    return config

/-- The configuration as text. -/
def toToml (config : Config) : String :=
  "profile = \"" ++ config.profile.display ++ "\"\n"
    ++ s!"allow_stage_change = {config.settings.allowStageChange}\n"
    ++ s!"sliding_window_panes = {config.settings.panes}\n"
    ++ match config.settings.startStage with
      | some stage => "start_stage = \"" ++ stage ++ "\"\n"
      | none => ""

/-- The configuration with its field names. -/
def display (config : Config) : String :=
  Text.record "CompilerConfig" [
    ("profile", config.profile.word),
    ("converter", Text.record "ConverterConfig" [
      ("allow_stage_change", toString config.settings.allowStageChange),
      ("sliding_window_panes", toString config.settings.panes),
      ("start_stage", Text.optional (config.settings.startStage.map Text.quoted))])]

end Config

end StreamPlan
