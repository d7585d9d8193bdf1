import TraceTree.CallTree

/-!
Call trees as JSON. Maps are objects whose member names are the written keys.
-/
namespace TraceTree.CallTree

/-- A number as the name of a member. -/
def natKey (n : Nat) : String := String.ofList (Text.digits n)

def toJson (t : CallTree) : Json :=
  .object [("scopes", Json.ofMap ScopeId.toString Scope.toJson t.scopes),
    ("scope_starts", Json.ofMap natKey ScopeId.toJson t.scopeStarts),
    ("activations", Json.ofMap ScopeId.toString FunctionActivation.toJson t.activations),
    ("variables",
      Json.ofMap natKey (fun (id, name) => .array [id.toJson, .string name]) t.variableIndex),
    ("gas_per_line", Json.ofMap natKey (Json.ofMap natKey LineGas.toJson) t.gasPerLine),
    ("reduced_trace", Json.list Json.nat t.reducedTrace.toList),
    ("locations", Json.list StepLocation.toJson t.locations.toList),
    ("step_count", .nat t.stepCount)]

def ofJson? (j : Json) : Option CallTree := do
  let fs ← j.fields? ["scopes", "scope_starts", "activations", "variables", "gas_per_line",
    "reduced_trace", "locations", "step_count"]
  let scopes ← fs.required "scopes" (Json.readMap ScopeId.ofString? Scope.ofJson?)
  let scopeStarts ← fs.required "scope_starts"
    (Json.readMap (Json.readNatKey Text.bound64) ScopeId.ofJson?)
  let activations ← fs.required "activations"
    (Json.readMap ScopeId.ofString? FunctionActivation.ofJson?)
  let variableIndex ← fs.required "variables"
    (Json.readMap (Json.readNatKey Text.bound64) (Json.readPair ScopeId.ofJson? Json.readString))
  let gasPerLine ← fs.required "gas_per_line"
    (Json.readMap (Json.readNatKey Text.bound32)
      (Json.readMap (Json.readNatKey Text.bound64) LineGas.ofJson?))
  let reducedTrace ← fs.required "reduced_trace" (Json.readList Json.readNat64)
  let locations ← fs.required "locations" (Json.readList StepLocation.ofJson?)
  let stepCount ← fs.required "step_count" Json.readNat64
  return { scopes, scopeStarts, activations, variableIndex, gasPerLine,
           reducedTrace := reducedTrace.toArray, locations := locations.toArray, stepCount }

end TraceTree.CallTree
