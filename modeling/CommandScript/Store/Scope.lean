import CommandScript.Store.Basic

/-!
Finding variables by name: a name means the variable of that name in the nearest scope that has
one, going outward.
-/
namespace CommandScript.Store

def outward (st : Store) : Nat → Ref .scope → List (Ref .scope)
  | 0, r => [r]
  | n + 1, r =>
    match (st.scope r).parent with
    | none => [r]
    | some parent => r :: outward st n parent

def ancestors (st : Store) (r : Ref .scope) : List (Ref .scope) := st.outward st.scopes.size r

def root (st : Store) (r : Ref .scope) : Ref .scope := (st.ancestors r).getLast?.getD r

def resolve (st : Store) (scope : Ref .scope) (name : Text) : Option (Ref .scope × Ref .variable) :=
  (st.ancestors scope).findSome? fun s => ((st.tableOf s).find? name).map (s, ·)

/-- Whether the part of a name before the first point is bound. -/
def isVisible (st : Store) (scope : Ref .scope) (name : Text) : Bool :=
  (st.resolve scope (name.before '.')).isSome

/-- Where a global declaration goes: the nearest scope that is sealed or has nothing around it. -/
def globalOf (st : Store) (scope : Ref .scope) : Ref .scope :=
  ((st.ancestors scope).find? fun s => (st.scope s).isSealed || (st.scope s).parent.isNone).getD
    scope

end CommandScript.Store
