import CommandScript.Store.Basic

/-!
Equality, order and truth of values. Numbers are compared by size, lists element by element;
functions are equal only to themselves, and variables in a list when all their parts agree. What
is held at some spot is equal to itself there, also a NaN, which otherwise is equal to nothing.
-/
namespace CommandScript

def Item.isNaN : Item → Bool
  | .bare (.float x) => x.isNaN
  | _ => false

namespace Store

def elements (st : Store) (r : Ref .list) : List (Spot × Item) :=
  (st.list r).toList.zipIdx.map fun (item, i) => (.element r i, item)

def entries (st : Store) (r : Ref .record) : List (Key × Spot × Item) :=
  (st.record r).entries.map fun (key, item) => (key, .entry r key, item)

/-- Compares what is held at two spots: two NaNs are equal if they are one. -/
def sameAt (st : Store) (same : Item → Item → Except Fault Bool) :
    Spot × Item → Spot × Item → Except Fault Bool
  | (p, i), (q, j) => if i.isNaN && j.isNaN then .ok (st.sameNaN p q) else same i j

/-- Holds of two rows of equal length whose members agree in pairs; stops at the first that do not.
-/
def allPairs {α : Type} (same : α → α → Except Fault Bool) : List α → List α → Except Fault Bool
  | [], [] => .ok true
  | a :: as, b :: bs => do if ← same a b then allPairs same as bs else return false
  | _, _ => .ok false

def allKeys {κ α : Type} [BEq κ] (same : α → α → Except Fault Bool) (others : List (κ × α)) :
    List (κ × α) → Except Fault Bool
  | [] => .ok true
  | (key, a) :: rest =>
    match others.lookup key with
    | none => .ok false
    | some b => do if ← same a b then allKeys same others rest else return false

def sameItem (st : Store) : Nat → Item → Item → Except Fault Bool
  | 0, _, _ => .error .tooDeep
  | fuel + 1, .held a, .held b =>
    if a = b then .ok true else
      let v := st.var a
      let w := st.var b
      if v.members.isSome = w.members.isSome ∧ v.name = w.name ∧ v.home = w.home then do
        if ← st.sameAt (st.sameItem fuel) (.content a, .bare v.content)
          (.content b, .bare w.content) then
          return v.tag = w.tag && v.members = w.members
        else return false
      else .ok false
  | fuel + 1, .bare v, .bare w =>
    match v.number?, w.number? with
    | some a, some b => .ok (Number.compare? a b == some .eq)
    | _, _ =>
      match v, w with
      | .nothing, .nothing => .ok true
      | .text s, .text t => .ok (s = t)
      | .node a, .node b => .ok (a = b)
      | .list a, .list b =>
        if a = b then .ok true else
          if (st.list a).size = (st.list b).size then
            allPairs (st.sameAt (st.sameItem fuel)) (st.elements a) (st.elements b)
          else .ok false
      | .record a, .record b =>
        if a = b then .ok true else
          let x := st.record a
          let y := st.record b
          let bodies := match x.body, y.body with
            | none, none => .ok true
            | some (vars, node), some (vars', node') =>
              if vars = vars' then .ok (node = node' : Bool) else
                let table := st.table vars
                let table' := st.table vars'
                if table.length = table'.length then do
                  if ← allKeys (fun r r' => st.sameItem fuel (.held r) (.held r')) table' table then
                    return node = node'
                  else return false
                else .ok false
            | _, _ => .ok false
          if x.size = y.size then do
            if ← bodies then allKeys (st.sameAt (st.sameItem fuel)) (st.entries b) (st.entries a)
              else return false
          else .ok false
      | _, _ => .ok false
  | _ + 1, _, _ => .ok false

/-- Rows are ordered by the first place where they differ; a row comes before its extensions. -/
def firstDifference {α : Type} (same less : α → α → Except Fault Bool) :
    List α → List α → Except Fault Bool
  | [], [] => .ok false
  | [], _ :: _ => .ok true
  | _ :: _, [] => .ok false
  | a :: as, b :: bs => do if ← same a b then firstDifference same less as bs else less a b

/-- Whether one element comes before another; only numbers, texts and lists have an order, each
among themselves. -/
def lessItem (st : Store) : Nat → Item → Item → Except Fault Bool
  | 0, _, _ => .error .tooDeep
  | fuel + 1, .bare v, .bare w =>
    match v.number?, w.number? with
    | some a, some b => .ok (Number.compare? a b == some .lt)
    | _, _ =>
      match v, w with
      | .text s, .text t => .ok (decide (s < t))
      | .list a, .list b =>
        if a = b then .ok false
        else firstDifference (st.sameAt (st.sameItem fuel)) (fun x y => st.lessItem fuel x.2 y.2)
          (st.elements a) (st.elements b)
      | _, _ => .error .wrongKind
  | _ + 1, _, _ => .error .wrongKind

/-- Whether a value counts as true in a condition: everything does but nothing, `false`, zero,
and what is empty. -/
def isTrue (st : Store) : Value → Bool
  | .nothing => false
  | .bool b => b
  | .int n => n != 0
  | .float x => x != 0.0
  | .text s => !s.isEmpty
  | .list r => !(st.list r).isEmpty
  | .node _ => true
  | .record r => (st.record r).size != 0

end Store

end CommandScript
