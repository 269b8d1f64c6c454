import Callable.Config.Basic
import Callable.Files
import Callable.Text.Utf8
import Callable.Toml.Reader
/-!
Where configurations come from: a JSON value, a TOML text, or a file whose path is given, taken from
the environment, or the default one.
-/
namespace Callable.Config

/-- A configuration whose settings could be read, if they can be meant. -/
def accept (outcome : Wire.Result Config) : Except ConfigError Config :=
  match outcome with
  | .error _ => .error .unreadable
  | .ok config =>
    match config.check with
    | .error fault => .error (.invalid fault)
    | .ok () => .ok config

def ofJson (value : Json) : Except ConfigError Config := accept (Wire.config .value (.ofJson value))

def ofToml (text : String) : Except ConfigError Config :=
  match Toml.parse? text with
  | none => .error .unreadable
  | some entries => accept (Wire.config .toml (Toml.table .header entries).draft)

def defaultPath : String := "exposed.toml"

def maxFileBytes : Nat := 1048576

def maxPathBytes : Nat := 4096

def maxSegmentBytes : Nat := 255

def bytes (text : String) : Bytes := text.toUTF8.toList

/-- A path is measured as it is shown, with replacements for what is not UTF-8. -/
def checkPath (path : Bytes) : Except ConfigFault Unit := do
  let shownBytes (part : Bytes) : Nat := Text.byteLength (Text.lossy part)
  if maxPathBytes < shownBytes path then throw .longPath
  if (Text.splitAt Files.slash path).any (maxSegmentBytes < shownBytes ·) then
    throw .longPathSegment

/-- The path to read: one that is given, else one that the environment names in UTF-8, else the
default. -/
def resolvePath (path environment : Option Bytes) : Bytes :=
  let isText (bytes : Bytes) : Bool := (String.fromUTF8? ⟨bytes.toArray⟩).isSome
  (path.or (environment.filter isText)).getD (bytes defaultPath)

def fileText (files : Files) (path : Bytes) : Except ConfigError String := do
  match checkPath path with
  | .error fault => throw (.invalid fault)
  | .ok () =>
    let some content := files.read? path | throw .noFile
    if maxFileBytes < content.size then throw (.invalid .largeFile)
    let some text := String.fromUTF8? content | throw (.invalid .notUtf8)
    return text

def loadedEvent (config : Config) (path : Bytes) : Event :=
  ⟨.debug, "loaded exposure config",
    [("path", .text (String.ofList (Text.lossy path))),
      ("context", .text config.references.context),
      ("named_types", .count config.references.namedTypes.length),
      ("aliases", .count config.references.aliases.length)]⟩

/-- Reads the configuration from a file, and notes it. -/
def load (files : Files) (path environment : Option Bytes) : Logged ConfigError Config := do
  let path := resolvePath path environment
  let text ← .ofExcept (fileText files path)
  let config ← .ofExcept (ofToml text)
  .note (loadedEvent config path)
  return config

def sample : String :=
  let lines := ["[codec]", "context_id = \"app\"", "max_type_ref_bytes = 4096", "max_nesting = 32",
    "named_types = [\"shapes.Widget\", \"numpy.ndarray\"]", "", "[codec.aliases]",
    "Vector = \"List[float]\"", "WidgetMap = \"Dict[str, shapes.Widget]\"", "", "[docstring]",
    "style = \"auto\"", "extend_defaults = true", "", "[docstring.sections]",
    "Notes = \"summary\"", "Yields = \"returns\""]
  String.join (lines.map (· ++ "\n"))

end Callable.Config
