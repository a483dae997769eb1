import Schemata.Configuration.File
import Schemata.Configuration.Path
import Schemata.Instantiation.State
import Schemata.Json.Format
/-!
# Configuration

Limits and the format of output.  `Configuration.load?` lays files and environment variables over the defaults, each
layer winning over those before it: the standard files, the file of the user, a chosen file, the variables.
-/
namespace Schemata

/-- **The settings of the command line.** -/
structure Configuration where
  limits : Limits := {}
  format : Format := .pretty
  deriving DecidableEq, Repr

namespace Format

def word : Format → String
  | .pretty => "pretty"
  | .compact => "compact"

def ofWord? (word : String) : Option Format := [Format.pretty, Format.compact].find? (·.word == word)

end Format

namespace Configuration

/-! ## From entries -/

/-- What `read` makes of an entry, or a default where there is none. -/
def valueOr {α : Type} (read : Entry → Option α) (default : α) : Option Entry → Option α
  | some entry => read entry
  | none => some default

/-- The limits that an entry gives, each by itself or its default. -/
def limits? (entry : Entry) : Option Limits := do
  let standard : Limits := {}
  match ← entry.record? ["max_depth", "max_call_depth", "max_template_combinations"] with
  | [depth, callDepth, combinations] =>
    return {
      maxDepth := ← valueOr Entry.count? standard.maxDepth depth
      maxCallDepth := ← valueOr Entry.count? standard.maxCallDepth callDepth
      maxTemplateCombinations := ← valueOr Entry.count? standard.maxTemplateCombinations combinations }
  | _ => none

/-- The format that an entry gives, or the default. -/
def format? (entry : Entry) : Option Format := do
  match ← entry.record? ["format"] with
  | [format] => valueOr (fun entry => entry.word?.bind Format.ofWord?) .pretty format
  | _ => none

/-- **The configuration that entries give.**  Unknown names count for nothing. -/
def ofEntries? (root : Fields Entry) : Option Configuration := do
  let limits ← valueOr limits? {} (root.get? "limits")
  let format ← valueOr format? .pretty (root.get? "output")
  return { limits, format }

/-! ## Environment variables -/

/-- How the names of environment variables begin, in any case. -/
def variableStart : String := "type_engine__"

/-- The key that the name of an environment variable spells; two underscores separate the steps of its path. -/
def variableKey? (name : String) : Option String :=
  let name := LetterCase.lower.apply name
  if name.startsWith variableStart then
    some (".".intercalate (((name.drop variableStart.length).toString).splitOn "__"))
  else none

def ofVariables (environment : List (String × String)) : Fields Entry :=
  Fields.ofList (environment.filterMap fun (name, value) => (variableKey? name).map (·, Entry.ofText value))

/-! ## Loading and saving -/

def standardFiles : List String := ["engine.toml", ".engine.toml", "config/engine.toml"]

/-- The value of an environment variable; the last one counts. -/
def lastValue? (environment : List (String × String)) (name : String) : Option String :=
  environment.reverse.lookup name

/-- The file of the user: in the directory for configuration, or in `.config` in the home directory. -/
def userFile? (environment : List (String × String)) : Option String :=
  let chosen := (lastValue? environment "XDG_CONFIG_HOME").filter (·.startsWith "/")
  let home := (lastValue? environment "HOME").filter (!·.isEmpty)
  (chosen.or (home.map (· ++ "/.config"))).map (· ++ "/type-engine/engine.toml")

/-- The entries of the file of the user, if there is one. -/
def userEntries? (read : String → Option String) (environment : List (String × String)) : Option (Fields Entry) :=
  match (userFile? environment).bind read with
  | some text => FileKind.toml.entries? text
  | none => some []

/-- **Loads the configuration** with files as `read` gives them.  A standard file may be missing, the chosen one may
not, and each that is there has to be valid. -/
def load? (read : String → Option String) (chosen : Option String) (environment : List (String × String)) :
    Option Configuration := do
  let standard ← standardFiles.mapM (ConfigurationFile.optional? read)
  let user ← userEntries? read environment
  let chosen ← chosen.toList.mapM (ConfigurationFile.required? read)
  ofEntries? ((standard ++ user :: chosen ++ [ofVariables environment]).foldl Entry.lay [])

def candidates (chosen : Option String) (environment : List (String × String)) : List String :=
  (standardFiles ++ chosen.toList).flatMap ConfigurationFile.candidates ++ (userFile? environment).toList

/-- **The text of a configuration file** with every setting. -/
def toText (c : Configuration) : String :=
  "[limits]\nmax_depth = " ++ toString c.limits.maxDepth
    ++ "\nmax_call_depth = " ++ toString c.limits.maxCallDepth
    ++ "\nmax_template_combinations = " ++ toString c.limits.maxTemplateCombinations
    ++ "\n\n[output]\nformat = \"" ++ c.format.word ++ "\"\n"

end Configuration
end Schemata
