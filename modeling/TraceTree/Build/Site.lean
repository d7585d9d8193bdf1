import TraceTree.Artifact
import TraceTree.Build.Error
import TraceTree.BuildOptions.Document
import TraceTree.Recording

/-!
What a reconstruction asks of its surroundings, and what it learns about one step before it looks at
the scopes that are open.
-/
namespace TraceTree.Build

/-- Finds the compiled artifact of the code at an address; none is known for some addresses, and the
search itself may fail with a reason. -/
abbrev Resolver := Address → Except String (Option Artifact)

/-- A search in a table of artifacts, which never fails. -/
def Resolver.ofTable (table : SortedMap Address Artifact) : Resolver :=
  fun address => .ok (table.find? address)

/-- Turns a location into lines and columns, given the artifact and the bytecode of a step. -/
abbrev LineConverter := Artifact → Bytecode → SourceLocation → Option LineColumnRange

/-- Where a reconstruction takes its knowledge from. Without a converter no step has lines, and no
line has gas. -/
structure Sources where
  context : TraceContext
  resolver : Resolver
  converter : Option LineConverter := some Artifact.lineColumn?
  options : BuildOptions := {}

/-- A step with its successor, the code and artifact that it runs, and its source location. -/
structure Site where
  step : Nat
  current : TraceStep
  next : Option TraceStep
  code : CodeAddress
  artifact : Artifact
  raw : SourceLocation
  isValid : Bool

namespace Sources

/-- The code at a step. -/
def codeAt (src : Sources) (step : Nat) : Except BuildError CodeAddress :=
  (src.context.codeAt step).mapError fun reason => .context step reason

/-- The length of the stack before a step. -/
def stackLengthAt (src : Sources) (step : Nat) : Except BuildError Nat :=
  ((src.context.stackAt step).map List.length).mapError fun reason => .context step reason

/-- The artifact of the code that runs at a step. -/
def artifactAt (src : Sources) (step : Nat) (address : Address) : Except BuildError Artifact :=
  match src.resolver address with
  | .error reason => .error (.resolver step address reason)
  | .ok none => .error (.missingArtifact step address)
  | .ok (some artifact) => .ok artifact

/-- Learns about a step: its code first, then the artifact, then the location. -/
def siteAt (src : Sources) (step : Nat) (current : TraceStep) (next : Option TraceStep) :
    Except BuildError Site := do
  let code ← src.codeAt step
  let artifact ← src.artifactAt step code.address
  let bytecode := artifact.bytecode code.isCreation
  let raw ← (bytecode.locate current.pc).mapError fun source =>
    .unresolvableLocation step code.address source
  let isValid := artifact.isValidLocation raw bytecode src.options.includeGenerated
  return { step, current, next, code, artifact, raw, isValid }

end Sources

namespace Site

/-- The bytecode that runs. -/
def bytecode (site : Site) : Bytecode := site.artifact.bytecode site.code.isCreation

/-- The gas charged for the step. -/
def gas (site : Site) : Nat := site.current.cost site.next

/-- Whether the next step runs deeper. -/
def goesDeeper (site : Site) : Bool := site.next.any fun n => site.current.depth < n.depth

/-- Whether the next step runs less deep. -/
def comesBack (site : Site) : Bool := site.next.any fun n => n.depth < site.current.depth

/-- The constructor in whose text the step lies. -/
def constructor? (site : Site) : Option FunctionDefinition := do
  let range ← site.raw.range?
  let f ← site.artifact.functionContaining? range
  guard f.isConstructor
  return f

end Site

end TraceTree.Build
