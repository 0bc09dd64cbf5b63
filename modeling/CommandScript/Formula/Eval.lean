import CommandScript.Eval.Convert
import CommandScript.Formula.Parser
import CommandScript.Store.Compare
import CommandScript.Store.Show

/-!
The value of a formula. Formulas compute with literals; of the program they see the variables of
the scope in which they stand, the words of their command, and the name of the file. The lists
that they make are put into a copy of the store.
-/
namespace CommandScript.Formula

abbrev Scratch := StateT Store (Except Fault)

def Scratch.ofExcept {α : Type} (e : Except Fault α) : Scratch α := fun st => return (← e, st)

def newList (items : Array Item) : Scratch Value :=
  modifyGet fun st => (st.newList items).map .list id

def combine (sign : Text) (a b : Value) : Scratch Value := do
  match a.number?, b.number? with
  | some x, some y =>
    let op := if sign = ['+'] then Number.add else if sign = ['-'] then Number.sub
      else if sign = ['*'] then Number.mul else if sign = ['/'] then Number.div else Number.floorDiv
    return .ofNumber (← Scratch.ofExcept (op x y))
  | _, _ =>
    match a, b with
    | .text s, .text t => if sign = ['+'] then return .text (s ++ t) else throw .wrongKind
    | .list s, .list t =>
      if sign = ['+'] then
        let st ← get
        newList (st.list s ++ st.list t)
      else throw .wrongKind
    | .text s, .int n =>
      if sign = ['*'] then return .text (List.replicate n.toNat s).flatten else throw .wrongKind
    | .int n, .text s =>
      if sign = ['*'] then return .text (List.replicate n.toNat s).flatten else throw .wrongKind
    | _, _ => throw .wrongKind

def apply (fuel : Nat) (function : Text) (arguments : List Value) : Scratch Value := do
  match arguments with
  | [v] =>
    if function = "int".toList then return .int (← Scratch.ofExcept v.toInt)
    else if function = "float".toList then return .float (← Scratch.ofExcept v.toFloat)
    else if function = "len".toList then return .int (← Scratch.ofExcept ((← get).length v))
    else return .text (← Scratch.ofExcept ((← get).showValue fuel v))
  | _ => throw .wrongKind

def functions : List Text := ["int".toList, "float".toList, "len".toList, "str".toList]

def isVariables : Formula → Bool
  | .member (.member (.name s) m) v =>
    s == "self".toList && m == "memory".toList && v == "variables".toList
  | _ => false

structure Frame where
  fuel : Nat
  scope : Ref .scope
  file : Text
  words : List Text

mutual

def eval (frame : Frame) : Formula → Scratch Value
  | .int n => return .int n
  | .float x => return .float x
  | .text s => return .text s
  | .name s =>
    if s = "True".toList then return .bool true
    else if s = "False".toList then return .bool false
    else if s = "None".toList then return .nothing
    else if s = "file".toList then return .text frame.file
    else if s = "commands".toList then newList
      (frame.words.map fun word => .bare (.text word)).toArray
    else if s ∈ functions then throw .wrongKind
    else throw .unknownName
  | .list fs => do
    let vs ← evalAll frame fs
    newList (vs.map Item.bare).toArray
  | .minus f => do
    match (← eval frame f).number? with
    | some (.int n) => return .int (-n)
    | some (.float x) => return .float (-x)
    | none => throw .wrongKind
  | .plus f => do
    match (← eval frame f).number? with
    | some n => return .ofNumber n
    | none => throw .wrongKind
  | .binary sign f g => do
    let a ← eval frame f
    let b ← eval frame g
    if sign = "==".toList then
      return .bool (← Scratch.ofExcept ((← get).sameItem frame.fuel (.bare a) (.bare b)))
    else combine sign a b
  | .call f fs =>
    match f with
    | .name s => do
      if s ∈ functions then apply frame.fuel s (← evalAll frame fs) else throw .unknownName
    | _ => do
      let _ ← eval frame f
      throw .wrongKind
  | .member (.index f key) s =>
    if isVariables f && s == "value".toList then do
      let k ← eval frame key
      match k with
      | .text n =>
        match ((← get).tableOf frame.scope).find? n with
        | some r => Scratch.ofExcept ((← get).var r).reading
        | none => throw .missingKey
      | _ => throw .missingKey
    else do
      let _ ← eval frame f
      throw .missingPart
  | .member f _ => do
    let _ ← eval frame f
    throw .missingPart
  | .index f key => do
    let a ← eval frame f
    let k ← eval frame key
    match a, k with
    | .list r, .int i =>
      match (Index.position? i ((← get).list r).size).bind (((← get).list r)[·]?) with
      | some (.bare v) => return v
      | some (.held r) => Scratch.ofExcept ((← get).var r).reading
      | none => throw .badIndex
    | .text s, .int i =>
      match (Index.position? i s.length).bind (s[·]?) with
      | some c => return .text [c]
      | none => throw .badIndex
    | _, _ => throw .wrongKind

def evalAll (frame : Frame) : List Formula → Scratch (List Value)
  | [] => return []
  | f :: fs => do
    let v ← eval frame f
    return v :: (← evalAll frame fs)

end

def compute (frame : Frame) (text : Text) : Scratch Value :=
  match parse? text with
  | some f => eval frame f
  | none => throw .badFormula

end CommandScript.Formula
