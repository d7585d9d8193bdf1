import TraceTree.Build.Pass

/-!
Rebuilding the call tree of a trace. What comes of it is a tree, an error with the step that it
belongs to, or the reason why there is nothing to build from.
-/
namespace TraceTree.Build

/-- How a reconstruction ends. -/
inductive Outcome where
  | ready (tree : CallTree)
  | failed (error : BuildError)
  | notReady (reason : NotReadyReason)
  deriving DecidableEq

namespace Outcome

def isReady : Outcome → Bool
  | ready _ => true
  | _ => false

def tree? : Outcome → Option CallTree
  | ready tree => some tree
  | _ => none

def error? : Outcome → Option BuildError
  | failed error => some error
  | _ => none

end Outcome

/-- The tree of a trace that starts in the code `root`. -/
def Sources.tree (src : Sources) (root : CodeAddress) : Except BuildError CallTree :=
  let steps := src.context.trace.steps
  (Pass.run src 0 steps (.start root steps.length)).map Pass.close

/-- Rebuilds the call tree. An empty trace and a missing artifact of the first code are no errors
but leave nothing to build from. -/
def Sources.build (src : Sources) : Outcome :=
  if src.context.trace.steps.isEmpty then .notReady .emptyTrace
  else match src.codeAt 0 with
    | .error error => .failed error
    | .ok root =>
      match src.artifactAt 0 root.address with
      | .error (.missingArtifact _ address) => .notReady (.missingRootArtifact address)
      | .error error => .failed error
      | .ok _ =>
        match src.tree root with
        | .ok tree => .ready tree
        | .error error => .failed error

end TraceTree.Build
