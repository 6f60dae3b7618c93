import DocGraft.Comment.Layout
import DocGraft.Docs.Labels
import DocGraft.Text.Numeral

/-!
# Merge configuration

The settings of a merge are taken from environment variables, and settings given explicitly win over
those.
-/

namespace DocGraft

open Text

/-- The settings of a merge. -/
structure MergeConfig where
  docEncoding : Text := "utf-8".toList
  sourceEncoding : Text := "utf-8".toList
  outputEncoding : Text := "utf-8".toList
  jobs : Int := 1
  layout : LayoutSettings := {}
  wrap : WrapSettings := {}
  labels : LabelVocabulary := {}
deriving DecidableEq, Repr

/-- The style of the comments made under the settings. -/
def MergeConfig.style (config : MergeConfig) : Style :=
  ⟨config.layout, config.wrap⟩

/-- Settings that are given explicitly. -/
structure ConfigOverrides where
  docEncoding : Option Text := none
  sourceEncoding : Option Text := none
  outputEncoding : Option Text := none
  jobs : Option Int := none
  layout : Option LayoutSettings := none
  wrap : Option WrapSettings := none
  labels : Option LabelVocabulary := none
  unknown : List Text := []
deriving DecidableEq, Repr

/-- What is wrong with settings. -/
inductive ConfigError where
  | notNumber (e : NumeralError)
  | unknownSetting (name : Text)
deriving DecidableEq, Repr

def ConfigError.message : ConfigError → Text
  | notNumber e => e.message
  | unknownSetting name => "unknown setting: ".toList ++ name

namespace MergeConfig

abbrev Environment := List (Text × Text)

/-- The value of the variable for a setting; an empty value counts as none. -/
def setting? (environment : Environment) (name : String) : Option Text :=
  (environment.lookup ("JAVADOC_MERGE_".toList ++ name.toList)).filter (· ≠ [])

/-- The value of the variable for a setting that is a number. -/
def number? (environment : Environment) (name : String) : Except ConfigError (Option Int) :=
  match setting? environment name with
  | none => .ok none
  | some text =>
    match toInt text with
    | .ok n => .ok (some n)
    | .error e => .error (.notNumber e)

/-- The settings from the environment, over which explicit ones win. A width in the environment
and an explicit layout each replace the whole layout. -/
def ofEnvironment (environment : Environment) (overrides : ConfigOverrides) :
    Except ConfigError MergeConfig := do
  let jobs ← number? environment "JOBS"
  let width ← number? environment "WRAP_WIDTH"
  let base : MergeConfig := {}
  let encoding (explicit : Option Text) (name : String) (default : Text) : Text :=
    (explicit.or (setting? environment name)).getD default
  match overrides.unknown with
  | name :: _ => .error (.unknownSetting name)
  | [] =>
    .ok {
      docEncoding := encoding overrides.docEncoding "DOC_ENCODING" base.docEncoding
      sourceEncoding := encoding overrides.sourceEncoding "SOURCE_ENCODING" base.sourceEncoding
      outputEncoding := encoding overrides.outputEncoding "OUTPUT_ENCODING" base.outputEncoding
      jobs := (overrides.jobs.or jobs).getD base.jobs
      layout :=
        (overrides.layout.or (width.map fun n => { initialWidth := some n })).getD base.layout
      wrap := overrides.wrap.getD base.wrap
      labels := overrides.labels.getD base.labels }

end MergeConfig

end DocGraft
