import CommandScript.Source.Layout

/-!
Statement trees. The segments of a flat text between semicolons are read from left to right;
a segment that begins with a block word opens a block, and `endblock` closes the innermost one.
An `endblock` with no open block ends the reading.
-/
namespace CommandScript

inductive Tree where
  | leaf (command : Text) (index : Nat)
  | block (command : Text) (index : Nat) (body : List Tree)

namespace Tree

def blockWords : List Text :=
  ["if".toList, "repeat".toList, "while".toList, "def".toList, "class".toList]

inductive Role where
  | opens
  | closes
  | plain
deriving DecidableEq, Repr

def Role.of (segment : Text) : Role :=
  let word := segment.before ' '
  if word ∈ blockWords then .opens else if word = Layout.closing then .closes else .plain

/-- The command of a segment: double spaces become single ones, once. -/
def commandOf (segment : Text) : Text := Text.replace "  ".toList " ".toList segment

/-- A block that is still open: its command, its position, and the statements before it in the
block around it, the last one first. -/
structure Pending where
  command : Text
  index : Nat
  earlier : List Tree

/-- The statements read so far in the innermost open block, the last one first, and the open
blocks, the innermost first. -/
structure Reading where
  current : List Tree
  pending : List Pending

namespace Reading

def close? (r : Reading) : Option Reading :=
  match r.pending with
  | [] => none
  | p :: rest => some ⟨.block p.command p.index r.current.reverse :: p.earlier, rest⟩

def closeAll (current : List Tree) : List Pending → List Tree
  | [] => current.reverse
  | p :: rest => closeAll (.block p.command p.index current.reverse :: p.earlier) rest

end Reading

/-- Reads the segments from position `index` on. The result is the statements at the top and the
position of the segment at which the reading ended. -/
def readFrom (r : Reading) (index : Nat) : List Text → List Tree × Nat
  | [] => (Reading.closeAll r.current r.pending, index - 1)
  | segment :: rest =>
    let segment := Spelled.dropSpaces segment
    match Role.of segment with
    | .opens => readFrom ⟨[], ⟨commandOf segment, index, r.current⟩ :: r.pending⟩ (index + 1) rest
    | .closes =>
      match r.close? with
      | some closed => readFrom closed (index + 1) rest
      | none => (Reading.closeAll r.current r.pending, index)
    | .plain => readFrom ⟨.leaf (commandOf segment) index :: r.current, r.pending⟩ (index + 1) rest

def parse (flat : Text) : List Tree × Nat := readFrom ⟨[], []⟩ 0 (flat.splitOn ';')

mutual

def depth : Tree → Nat
  | leaf .. => 0
  | block _ _ body => depthAll body + 1

def depthAll : List Tree → Nat
  | [] => 0
  | t :: rest => max (depth t) (depthAll rest)

end

end Tree

end CommandScript
