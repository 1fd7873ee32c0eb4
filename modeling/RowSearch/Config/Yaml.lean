import RowSearch.Config
import RowSearch.Yaml.Library
/-!
# Settings files

Settings are kept in a file as a YAML mapping. A setting that is missing has its standard value, a
name that is no setting is passed over, and a setting given twice is an error, as is one of the wrong
type. An empty file sets nothing. Written out, a configuration has a field for each setting.
-/

namespace RowSearch.Config

open Yaml (Library Scalar)

inductive Setting where
  | caseSensitive (value : Bool)
  | extendedOperators (value : Bool)
  | maxDepth (value : UInt64)
  | maxHeight (value : UInt64)
deriving DecidableEq, Repr

namespace Setting

def name : Setting → String
  | caseSensitive _ => "case_sensitive"
  | extendedOperators _ => "extended_operators"
  | maxDepth _ => "max_depth"
  | maxHeight _ => "max_height"

def scalar : Setting → Scalar
  | caseSensitive value => .flag value
  | extendedOperators value => .flag value
  | maxDepth value => .whole value
  | maxHeight value => .whole value

def apply (config : Config) : Setting → Config
  | caseSensitive value => { config with caseSensitive := value }
  | extendedOperators value => { config with extendedOperators := value }
  | maxDepth value => { config with maxDepth := value }
  | maxHeight value => { config with maxHeight := value }

def field (setting : Setting) : String × Scalar :=
  (setting.name, setting.scalar)

end Setting

/-! ### Reading a file -/

def Setting.ofFlag? (set : Bool → Setting) : Option Scalar → Option Setting
  | some (.flag value) => some (set value)
  | _ => none

def Setting.ofWhole? (set : UInt64 → Setting) : Option Scalar → Option Setting
  | some (.whole value) => some (set value)
  | _ => none

/-- The setting of a field of a document; a field under another name sets nothing. -/
def settingOf? (field : String × Option Scalar) : Option (Option Setting) :=
  if field.1 = "case_sensitive" then (Setting.ofFlag? .caseSensitive field.2).map some
  else if field.1 = "extended_operators" then (Setting.ofFlag? .extendedOperators field.2).map some
  else if field.1 = "max_depth" then (Setting.ofWhole? .maxDepth field.2).map some
  else if field.1 = "max_height" then (Setting.ofWhole? .maxHeight field.2).map some
  else some none

/-- The settings of the fields of a document, none of them set twice. -/
def ofFields? (fields : List (String × Option Scalar)) : Option Config := do
  let settings := (← fields.mapM settingOf?).filterMap id
  if (settings.map Setting.name).Nodup then some (settings.foldl Setting.apply standard) else none

/-- The settings in a text, checked. -/
def ofYaml (text : String) (library : Library := Yaml.reader) : Except ConfigError Config :=
  match (library.read text).bind ofFields? with
  | some config => config.validate
  | none => .error .malformed

/-- The settings in a file of a path, of which the contents are given if there is such a file. -/
def load (path : String) (contents : Option ByteArray) (library : Library := Yaml.reader) :
    Except ConfigError Config :=
  match contents.bind String.fromUTF8? with
  | some text => ofYaml text library
  | none => .error (.unreadable path)

/-! ### Writing a file -/

/-- The settings of a configuration, in the order in which they are written. -/
def settings (config : Config) : List Setting :=
  [.caseSensitive config.caseSensitive, .extendedOperators config.extendedOperators,
    .maxDepth config.maxDepth, .maxHeight config.maxHeight]

def toYaml (config : Config) (library : Library := Yaml.reader) : String :=
  library.write (config.settings.map Setting.field)

end RowSearch.Config
