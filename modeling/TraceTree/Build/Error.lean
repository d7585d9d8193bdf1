import TraceTree.Address
import TraceTree.Bytecode

/-!
Why a reconstruction stops. Each error tells the step that it belongs to. In messages addresses are
written with their checksum.
-/
namespace TraceTree

/-- What stops a reconstruction at a step. -/
inductive BuildError where
  | unresolvableLocation (step : Nat) (address : Address) (source : LocationError)
  | missingArtifact (step : Nat) (address : Address)
  | resolver (step : Nat) (address : Address) (reason : String)
  | context (step : Nat) (reason : String)
  | recursionLimitExceeded (step limit : Nat)
  deriving DecidableEq

/-- Why there is nothing to reconstruct from. -/
inductive NotReadyReason where
  | emptyTrace
  | missingRootArtifact (address : Address)
  deriving DecidableEq

namespace BuildError

/-- The step that the error belongs to. -/
def step : BuildError → Nat
  | unresolvableLocation step _ _ => step
  | missingArtifact step _ => step
  | resolver step _ _ => step
  | context step _ => step
  | recursionLimitExceeded step _ => step

/-- The name of the cause. -/
def name : BuildError → String
  | unresolvableLocation _ _ _ => "UnresolvableLocation"
  | missingArtifact _ _ => "MissingArtifact"
  | resolver _ _ _ => "Resolver"
  | context _ _ => "Context"
  | recursionLimitExceeded _ _ => "RecursionLimitExceeded"

/-- The failed location behind the error. -/
def source? : BuildError → Option LocationError
  | unresolvableLocation _ _ source => some source
  | _ => none

def message : BuildError → String
  | unresolvableLocation step address source =>
    "unresolvable source location at step " ++ toString step ++ " in " ++ address.checksummed
      ++ ": " ++ source.message
  | missingArtifact step address =>
    "no compiled artifact for " ++ address.checksummed ++ " reached at step " ++ toString step
  | resolver step address reason =>
    "artifact lookup for " ++ address.checksummed ++ " failed at step " ++ toString step ++ ": "
      ++ reason
  | context step reason =>
    "trace context query failed at step " ++ toString step ++ ": " ++ reason
  | recursionLimitExceeded step limit =>
    "scope nesting exceeded " ++ toString limit ++ " frames at step " ++ toString step

end BuildError

namespace NotReadyReason

/-- The name of the reason. -/
def name : NotReadyReason → String
  | emptyTrace => "EmptyTrace"
  | missingRootArtifact _ => "MissingRootArtifact"

def message : NotReadyReason → String
  | emptyTrace => "trace is empty"
  | missingRootArtifact address => "no artifact for root code " ++ address.checksummed

end NotReadyReason

end TraceTree
