import CommandScript.Source.Plant
import CommandScript.World

/-!
Loading programs: a source text is flattened, read as statements, and planted in a scope.
-/
namespace CommandScript.Program

/-- Whether reading a flat text would go too deep: blocks nested or spaces in front of a segment
beyond the limit. -/
def isTooDeep (limit : Nat) (flat : Text) : Bool :=
  let (trees, last) := Tree.parse flat
  limit < Tree.depthAll trees ||
    ((flat.splitOn ';').take (last + 1)).any fun segment => limit < Spelled.leadingSpaces segment

/-- Plants the statements of a flat text in a scope. The result is the program and the position of
the last segment that was read. -/
def loadFlat (limit : Nat) (scope : Ref .scope) (interactive : Bool) (flat : Text) :
    Run (Ref .node × Nat) := do
  if isTooDeep limit flat then throw .tooDeep
  let (trees, last) := Tree.parse flat
  return (← Run.alloc (·.plantProgram scope interactive trees), last)

def statements (st : Store) : Nat → Ref .node → List (Ref .node)
  | 0, r => [r]
  | n + 1, r => r :: (st.node r).children.flatMap (statements st n)

def scopes (st : Store) (program : Ref .node) : List (Ref .scope) :=
  ((statements st st.nodes.size program).map fun r => (st.node r).scope).eraseDups

def load (limit : Nat) (scope : Ref .scope) (interactive : Bool) (source : Text) :
    Run (Ref .node) := do
  return (← loadFlat limit scope interactive (Layout.flatten source)).1

end CommandScript.Program
