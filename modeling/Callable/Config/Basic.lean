import Callable.Docs.Style
import Callable.Registry
import Callable.Wire.Records
/-!
The configuration of a context: which types it knows, how large references may be, and how
docstrings are read. Settings that are left out have defaults; names that are no settings are
refused, and so are settings that could not mean anything.
-/
namespace Callable

structure ReferenceSettings where
  context : String := "default"
  limits : Reference.Limits := {}
  /-- Types registered under their own paths. -/
  namedTypes : List String := []
  /-- Names with the references they stand for. -/
  aliases : Table String := []
  deriving DecidableEq, Repr

structure DocstringSettings where
  style : Docs.StyleChoice := none
  /-- Keeps the standard headers beside those in `sections`. -/
  extendDefaults : Bool := true
  sections : SectionSet := []
  deriving DecidableEq, Repr

structure Config where
  references : ReferenceSettings := {}
  docstrings : DocstringSettings := {}
  deriving DecidableEq, Repr

inductive ConfigFault where
  | blankContext
  | referenceBytes
  | nesting
  | tooManyTypes
  | blankType
  | blankAlias (name : String)
  | noSections
  | badHeader (header : String)
  | namedType (error : RegistryError)
  | aliasTarget (name : String) (error : TypeError)
  | aliasName (name : String) (error : RegistryError)
  | longPath
  | longPathSegment
  | largeFile
  | notUtf8
  deriving DecidableEq, Repr

namespace ReferenceSettings

def smallestMaxBytes : Nat := 64

def largestMaxBytes : Nat := 65536

def largestMaxDepth : Nat := 128

/-- How many types and aliases may be given together. -/
def typeLimit : Nat := 4096

end ReferenceSettings

open ReferenceSettings in
def ConfigFault.text : ConfigFault → String
  | blankContext => "codec.context_id must be non-empty"
  | referenceBytes =>
    "codec.max_type_ref_bytes must be between " ++ toString smallestMaxBytes ++ " and " ++
      toString largestMaxBytes
  | nesting => "codec.max_nesting must be between 1 and " ++ toString largestMaxDepth
  | tooManyTypes => "codec registers more than " ++ toString typeLimit ++ " types"
  | blankType => "codec.named_types entries must be non-empty"
  | blankAlias name => "codec.aliases." ++ name ++ " must be non-empty"
  | noSections => "docstring.extend_defaults=false requires docstring.sections"
  | badHeader header =>
    "docstring.sections." ++ header ++ " must be capitalised words without a colon"
  | namedType error => "codec.named_types: " ++ error.message
  | aliasTarget name error => "codec.aliases." ++ name ++ ": " ++ error.message
  | aliasName name error => "codec.aliases." ++ name ++ ": " ++ error.message
  | longPath => "config path exceeds max length"
  | longPathSegment => "config path component too long"
  | largeFile => "config file exceeds size limit"
  | notUtf8 => "config file must be utf-8"

/-- Why there is no configuration. -/
inductive ConfigError where
  /-- There is no file to read. -/
  | noFile
  /-- What was read are not settings. -/
  | unreadable
  | invalid (fault : ConfigFault)
  deriving DecidableEq, Repr

def ConfigFault.message (fault : ConfigFault) : String := "invalid config: " ++ fault.text

/-- The first fault among the settings, in the order in which they are declared. -/
def ReferenceSettings.check (s : ReferenceSettings) : Except ConfigFault Unit := do
  if Text.isBlankString s.context then throw .blankContext
  if s.limits.maxBytes < smallestMaxBytes ∨ largestMaxBytes < s.limits.maxBytes then
    throw .referenceBytes
  if s.limits.maxDepth < 1 ∨ largestMaxDepth < s.limits.maxDepth then throw .nesting
  if typeLimit < s.namedTypes.length + s.aliases.length then throw .tooManyTypes
  if s.namedTypes.any Text.isBlankString then throw .blankType
  match s.aliases.find? fun entry => Text.isBlankString entry.2 with
  | some (name, _) => throw (.blankAlias name)
  | none => return ()

/-- Whether a header can be set: it has words, and these are capitalised. -/
def isSettableHeader (header : String) : Bool := header ≠ "" && Docs.isTitle header.toList

def DocstringSettings.check (s : DocstringSettings) : Except ConfigFault Unit := do
  if !s.extendDefaults && s.sections.isEmpty then throw .noSections
  match s.sections.find? fun entry => !isSettableHeader entry.1 with
  | some (header, _) => throw (.badHeader header)
  | none => return ()

namespace Config

def check (c : Config) : Except ConfigFault Unit := do
  c.references.check
  c.docstrings.check

/-- The headers by which docstrings are read. -/
def sections (c : Config) : SectionSet :=
  let start := if c.docstrings.extendDefaults then SectionSet.standard else []
  c.docstrings.sections.foldl (fun set (header, kind) => set.put header kind) start

def reader (c : Config) : Docs.Reader := .styled c.docstrings.style c.sections

end Config

namespace Wire

variable (origin : Origin)

def referenceSettings (draft : Json.Draft) : Result ReferenceSettings := do
  let fields ← record origin [.of "context_id" string, .of "max_type_ref_bytes" natural,
    .of "max_nesting" natural, .of "named_types" (list string), .of "aliases" (table string)]
    true draft
  let absent : ReferenceSettings := {}
  let context ← fields.getD "context_id" string absent.context
  let maxBytes ← fields.getD "max_type_ref_bytes" natural absent.limits.maxBytes
  let maxDepth ← fields.getD "max_nesting" natural absent.limits.maxDepth
  let namedTypes ← fields.getD "named_types" (list string) absent.namedTypes
  let aliases ← fields.getD "aliases" (table string) absent.aliases
  return { context, limits := ⟨maxBytes, maxDepth⟩, namedTypes, aliases }

def docstringSettings (draft : Json.Draft) : Result DocstringSettings := do
  let headers := table (sectionKind origin)
  let fields ← record origin [.of "style" (styleChoice origin), .of "extend_defaults" boolean,
    .of "sections" headers] true draft
  let absent : DocstringSettings := {}
  let style ← fields.getD "style" (styleChoice origin) absent.style
  let extendDefaults ← fields.getD "extend_defaults" boolean absent.extendDefaults
  let sections ← fields.getD "sections" headers absent.sections
  return { style, extendDefaults, sections }

def config (draft : Json.Draft) : Result Config := do
  let fields ← record origin [.of "codec" (referenceSettings origin),
    .of "docstring" (docstringSettings origin)] true draft
  let references ← fields.getD "codec" (referenceSettings origin) {}
  let docstrings ← fields.getD "docstring" (docstringSettings origin) {}
  return { references, docstrings }

end Wire
end Callable
