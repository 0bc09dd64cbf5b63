import CommandScript.Source.Tree
import CommandScript.Store.Scope

/-!
Trees become statements in a store. Each block has a scope of its own inside the scope around it;
all other statements run in the scope of the block that they stand in.
-/
namespace CommandScript.Store

mutual

def plant (scope : Ref .scope) (interactive : Bool) : Tree → Store → Ref .node × Store
  | .leaf command index, st => st.newNode { command, index, children := [], scope, interactive }
  | .block command index body, st =>
    let (inner, st) := st.newScope (some scope)
    let (children, st) := plantAll inner interactive body st
    st.newNode { command, index, children, scope := inner, interactive }

def plantAll (scope : Ref .scope) (interactive : Bool) :
    List Tree → Store → List (Ref .node) × Store
  | [], st => ([], st)
  | t :: rest, st =>
    let (r, st) := plant scope interactive t st
    let (rs, st) := plantAll scope interactive rest st
    (r :: rs, st)

end

/-- Makes a program: a statement without a command above all others. -/
def plantProgram (scope : Ref .scope) (interactive : Bool) (trees : List Tree) (st : Store) :
    Ref .node × Store :=
  let (children, st) := plantAll scope interactive trees st
  st.newNode { command := [], index := 0, children, scope, interactive }

end CommandScript.Store
