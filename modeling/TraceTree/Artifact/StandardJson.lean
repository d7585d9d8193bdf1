import TraceTree.Artifact

/-!
Taking one contract out of the compiler's standard JSON. Contents come from the compiler's input,
ids and syntax trees from its output. Of several faults the first in this order counts: a missing
contract, missing sources, a source without an id, the interface, the creation code, the running
code.
-/
namespace TraceTree.Artifact

/-- Why a contract cannot be taken out. -/
inductive StandardJsonError where
  | missingContract (path name : String)
  | missingSources
  | sourceWithoutId (path : String)
  | malformed
  deriving DecidableEq

def StandardJsonError.message : StandardJsonError → String
  | .missingContract path name => "contract " ++ path ++ ":" ++ name ++ " not in compiler output"
  | .missingSources => "no sources in output"
  | .sourceWithoutId path => "source " ++ path ++ " has no id"
  | .malformed => "malformed compiler output"

/-- A member that may be missing or `null`. -/
def orDefault {α : Type} (read : Json → Option α) (default : α) (j : Json) :
    Except StandardJsonError α :=
  match Json.readOption read j with
  | none => .error .malformed
  | some value => .ok (value.getD default)

/-- The source of one path. -/
def standardSource (input : Json) (path : String) (source : Json) :
    Except StandardJsonError (Nat × SourceFile) :=
  match (source.get "id").asNat? Text.bound32 with
  | none => .error (.sourceWithoutId path)
  | some id =>
    let content := (((input.get "sources").get path).get "content").asString?.getD ""
    .ok (id, { id, path, content, ast := source.get "ast" })

/-- The sources of the output; of two with one id the later path counts. -/
def standardSources (input output : Json) : Except StandardJsonError (SortedMap Nat SourceFile) :=
  match output.get "sources" with
  | .object members =>
    (members.mapM fun (path, source) => standardSource input path source).map .ofList
  | _ => .error .missingSources

/-- One contract of the compiler's output. -/
def ofStandardJson (input output : Json) (path name : String) :
    Except StandardJsonError Artifact := do
  let contract := ((output.get "contracts").get path).get name
  match contract with
  | .null => .error (.missingContract path name)
  | _ =>
    let sources ← standardSources input output
    let abi ← orDefault Json.asArray? [] (contract.get "abi")
    let code := contract.get "evm"
    let creation ← orDefault Bytecode.ofJson? {} (code.get "bytecode")
    let deployed ← orDefault Bytecode.ofJson? {} (code.get "deployedBytecode")
    return { contractName := name, abi, sources, creation, deployed }

end TraceTree.Artifact
