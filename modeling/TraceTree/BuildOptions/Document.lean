import TraceTree.Json.Record
import TraceTree.Text
import TraceTree.Toml.Document

/-!
The options of a reconstruction, as data and in TOML documents, where they have the same names.
Every option has a default, so a document need only tell those that differ, and entries with other
names are passed over.
-/
namespace TraceTree

/-- What a reconstruction records, and how many scopes may be open at a time. -/
structure BuildOptions where
  includeLocals : Bool := true
  trackGasPerLine : Bool := true
  includeGenerated : Bool := false
  maxScopeDepth : Nat := 2048
  deriving DecidableEq, Inhabited

namespace BuildOptions

/-! ### Data -/

def toJson (o : BuildOptions) : Json :=
  .object [("include_locals", .bool o.includeLocals),
    ("track_gas_per_line", .bool o.trackGasPerLine),
    ("debug_generated_sources", .bool o.includeGenerated),
    ("max_scope_depth", .nat o.maxScopeDepth)]

def ofJson? (j : Json) : Option BuildOptions := do
  let default : BuildOptions := {}
  let fs ← j.fields? ["include_locals", "track_gas_per_line", "debug_generated_sources",
    "max_scope_depth"]
  let includeLocals ← fs.withDefault "include_locals" Json.readBool default.includeLocals
  let trackGasPerLine ← fs.withDefault "track_gas_per_line" Json.readBool default.trackGasPerLine
  let includeGenerated ←
    fs.withDefault "debug_generated_sources" Json.readBool default.includeGenerated
  let maxScopeDepth ← fs.withDefault "max_scope_depth" Json.readNat64 default.maxScopeDepth
  return { includeLocals, trackGasPerLine, includeGenerated, maxScopeDepth }

end BuildOptions

/-! ### Documents -/

/-- Why there are no options in a file. -/
inductive OptionsError where
  /-- The file cannot be read. -/
  | unreadable (path reason : String)
  /-- The text is no TOML, or an option has a value of another kind. -/
  | malformed
  deriving DecidableEq

namespace OptionsError

/-- The reason for which a file that is not there cannot be read. -/
def noSuchFile : String := "No such file or directory (os error 2)"

def message : OptionsError → String
  | unreadable path reason => "failed to read " ++ path ++ ": " ++ reason
  | malformed => "malformed options"

end OptionsError

namespace BuildOptions

/-- The value of an entry, or its default when there is none. -/
def entryOr {α : Type} (es : Toml.Entries) (name : String) (read : Toml → Option α)
    (default : α) : Option α :=
  match es.lookup name with
  | none => some default
  | some v => read v

/-- Options from the entries of a document. -/
def ofToml? (es : Toml.Entries) : Option BuildOptions := do
  let default : BuildOptions := {}
  return {
    includeLocals := ← entryOr es "include_locals" Toml.asBool? default.includeLocals
    trackGasPerLine := ← entryOr es "track_gas_per_line" Toml.asBool? default.trackGasPerLine
    includeGenerated := ←
      entryOr es "debug_generated_sources" Toml.asBool? default.includeGenerated
    maxScopeDepth := ←
      entryOr es "max_scope_depth" (Toml.asNat? Text.bound64) default.maxScopeDepth }

/-- Options from the text of a document. -/
def ofText (text : String) : Except OptionsError BuildOptions :=
  match (Toml.ofText? text).bind ofToml? with
  | some options => .ok options
  | none => .error .malformed

/-- Options from a file, given what came of reading it. -/
def ofFile (path : String) (content : Except String String) : Except OptionsError BuildOptions :=
  match content with
  | .ok text => ofText text
  | .error reason => .error (.unreadable path reason)

end BuildOptions

end TraceTree
