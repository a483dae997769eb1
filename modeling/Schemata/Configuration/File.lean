import Schemata.Configuration.Ini
import Schemata.Configuration.Json5
import Schemata.Configuration.Ron
import Schemata.Configuration.Toml.Document
import Schemata.Configuration.Yaml
import Schemata.Json.Document
/-!
# Configuration files

A file is named with or without its extension, which tells what it is written in.  Files are given as a function from
names to texts, so that finding one is a function of what there is.
-/
namespace Schemata

/-- What a configuration file is written in. -/
inductive FileKind where
  | toml | json | yaml | ini | ron | json5
  deriving DecidableEq, Repr

namespace FileKind

def all : List FileKind := [.toml, .json, .yaml, .ini, .ron, .json5]

/-- How the names of files end, after a point. -/
def extensions : FileKind → List String
  | .toml => ["toml"]
  | .json => ["json"]
  | .yaml => ["yaml", "yml"]
  | .ini => ["ini"]
  | .ron => ["ron"]
  | .json5 => ["json5"]

/-- The extension in the name of a file; a point at the start of the name begins none. -/
def extensionOf? (name : String) : Option String :=
  match ((name.splitOn "/").getLastD "").splitOn "." with
  | [] | [_] | ["", _] => none
  | parts => parts.getLast?

def ofName? (name : String) : Option FileKind := 
  all.find? fun kind => (extensionOf? name).any kind.extensions.contains

/-- The entries of a JSON document, which has to be an object. -/
def jsonEntries? (text : String) : Option (Fields Entry) := do
  match ← (← Document.ofText? text).toJson? 127 with
  | .object fields => return Entry.ofJsonFields fields
  | _ => none

/-- **The entries in the text of a file.**  A byte order mark at its start is passed over. -/
def entries? (kind : FileKind) (text : String) : Option (Fields Entry) :=
  let text := match text.toList with
    | '\uFEFF' :: cs => String.ofList cs
    | _ => text
  match kind with
  | .toml => Toml.entries? text
  | .json => jsonEntries? text
  | .yaml => Yaml.entries? text
  | .ini => Ini.entries? text
  | .ron => Ron.entries? text
  | .json5 => Json5.entries? text

end FileKind

namespace ConfigurationFile

/-- The name that an extension is added to: without slashes and single points at the end of the path.  A name for a
directory alone, such as one that ends in two points, is none. -/
def stem? (name : String) : Option String :=
  let steps := ((name.splitOn "/").reverse.dropWhile fun step => step == "" || step == ".").reverse
  match steps.getLast? with
  | none | some ".." => none
  | some _ => some ("/".intercalate steps)

/-- The names of the files that a name may mean where there is no file of that very name. -/
def extended (name : String) : List (FileKind × String) :=
  match stem? name with
  | some stem => FileKind.all.flatMap fun kind => kind.extensions.map fun extension => (kind, stem ++ "." ++ extension)
  | none => []

/-- **The file that a name means**: its kind and text.  A file of that very name comes first, but its extension has to
be known. -/
def find? (read : String → Option String) (name : String) : Option (FileKind × String) :=
  match read name with
  | some text => (FileKind.ofName? name).map (·, text)
  | none => (extended name).findSome? fun (kind, name) => (read name).map (kind, ·)

/-- **The entries of a file that may be missing**; one that is there has to be valid. -/
def optional? (read : String → Option String) (name : String) : Option (Fields Entry) :=
  match find? read name with
  | some (kind, text) => kind.entries? text
  | none => some []

/-- **The entries of a file that has to exist.** -/
def required? (read : String → Option String) (name : String) : Option (Fields Entry) := do
  let (kind, text) ← find? read name
  kind.entries? text

/-- The names of all files that are looked for under a name. -/
def candidates (name : String) : List String := name :: (extended name).map Prod.snd

end ConfigurationFile
end Schemata
