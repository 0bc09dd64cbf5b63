import CommandScript.Source.Tree
import Mathlib.Data.List.Basic

/-! Reading a flat text loses nothing, doubles nothing and attaches every statement to the right
block. Which blocks are open at a segment is said here by counting alone: a block is open as long as
the segments after its own close no more blocks than they open. -/
namespace CommandScript.Tree

def roles (segments : List Text) : List Role :=
  segments.map fun segment => Role.of (Spelled.dropSpaces segment)

def Role.change : Role → Int
  | opens => 1
  | closes => -1
  | plain => 0

def change : List Role → Int
  | [] => 0
  | role :: rest => role.change + change rest

def balance (rs : List Role) (start stop : Nat) : Int := change ((rs.take stop).drop start)

/-- The block that the segment at `j` opens is still open at the segment at `i`. -/
def OpenAt (rs : List Role) (j i : Nat) : Prop :=
  rs[j]? = some .opens ∧ j < i ∧ ∀ k, j < k → k ≤ i → 0 ≤ balance rs (j + 1) k

/-- The segment at `i` closes a block although none is open. -/
def Stray (rs : List Role) (i : Nat) : Prop :=
  rs[i]? = some .closes ∧ ∀ j, ¬ OpenAt rs j i

/-- The innermost block that is open at `i`; nothing if none is. -/
def Innermost (rs : List Role) (i : Nat) : Option Nat → Prop
  | some j => OpenAt rs j i ∧ ∀ k, OpenAt rs k i → k ≤ j
  | none => ∀ k, ¬ OpenAt rs k i

/-- Reading ends at the first stray segment, or at the last segment if there is none. -/
def EndsAt (rs : List Role) (last : Nat) : Prop :=
  (Stray rs last ∨ last + 1 = rs.length) ∧ ∀ i < last, ¬ Stray rs i

structure Statement where
  index : Nat
  command : Text
  parent : Option Nat
  isBlock : Bool
deriving DecidableEq

mutual

def preorder (parent : Option Nat) : Tree → List Statement
  | leaf command index => [⟨index, command, parent, false⟩]
  | block command index body => ⟨index, command, parent, true⟩ :: preorderAll (some index) body

def preorderAll (parent : Option Nat) : List Tree → List Statement
  | [] => []
  | t :: rest => preorder parent t ++ preorderAll parent rest

end

private theorem preorderAll_append (parent : Option Nat) (first second : List Tree) :
    preorderAll parent (first ++ second) =
      preorderAll parent first ++ preorderAll parent second := by
  induction first with
  | nil => rfl
  | cons t rest ih => simp only [List.cons_append, preorderAll, ih, List.append_assoc]

private theorem preorderAll_singleton (parent : Option Nat) (t : Tree) :
    preorderAll parent [t] = preorder parent t := by
  simp only [preorderAll, List.append_nil]

/-! ### Open blocks by counting -/

private theorem change_append (first second : List Role) :
    change (first ++ second) = change first + change second := by
  induction first with
  | nil => exact (Int.zero_add _).symm
  | cons role rest ih => simp only [List.cons_append, change, ih, Int.add_assoc]

private theorem balance_self (rs : List Role) (i : Nat) : balance rs i i = 0 := by
  have empty : (rs.take i).drop i = [] := by simp
  rw [balance, empty]
  rfl

private theorem balance_succ (rs : List Role) (start i : Nat) (role : Role) (within : start ≤ i)
    (here : rs[i]? = some role) : balance rs start (i + 1) = balance rs start i + role.change := by
  obtain ⟨bound, rfl⟩ := List.getElem?_eq_some_iff.mp here
  have taken : rs.take (i + 1) = rs.take i ++ [rs[i]] := by rw [List.take_append_getElem]
  have size : start ≤ (rs.take i).length := by rw [List.length_take]; omega
  rw [balance, taken, List.drop_append_of_le_length size, change_append]
  simp [balance, change]

private theorem balance_split (rs : List Role) (start middle stop : Nat) (first : start ≤ middle)
    (second : middle ≤ stop) :
    balance rs start stop = balance rs start middle + balance rs middle stop := by
  have cut : (rs.take stop).drop start =
      (rs.take middle).drop start ++ (rs.take stop).drop middle := by
    have whole := List.take_append_drop middle (rs.take stop)
    rw [List.take_take, Nat.min_eq_left second] at whole
    conv_lhs => rw [← whole]
    rw [List.drop_append, List.length_take]
    rcases Nat.le_total middle rs.length with inside | outside
    · rw [Nat.min_eq_left inside, Nat.sub_eq_zero_of_le first, List.drop_zero]
    · have empty : (rs.take stop).drop middle = [] := by
        apply List.drop_eq_nil_of_le
        rw [List.length_take]
        omega
      rw [empty, List.drop_nil]
  rw [balance, cut, change_append]
  rfl

private theorem balance_beyond (rs : List Role) (start i : Nat) (outside : rs[i]? = none) :
    balance rs start (i + 1) = balance rs start i := by
  have size : rs.length ≤ i := List.getElem?_eq_none_iff.mp outside
  rw [balance, balance, List.take_of_length_le size,
    List.take_of_length_le (Nat.le_succ_of_le size)]

private theorem openAt_succ_self (rs : List Role) (i : Nat) :
    OpenAt rs i (i + 1) ↔ rs[i]? = some .opens := by
  refine ⟨fun isOpen => isOpen.1, fun here => ⟨here, Nat.lt_succ_self i, ?_⟩⟩
  intro k after upTo
  have same : k = i + 1 := by omega
  rw [same]
  exact Int.le_of_eq (balance_self rs (i + 1)).symm

private theorem openAt_succ_iff (rs : List Role) {j i : Nat} (earlier : j < i) :
    OpenAt rs j (i + 1) ↔ OpenAt rs j i ∧ 0 ≤ balance rs (j + 1) (i + 1) := by
  constructor
  · rintro ⟨opened, _, counted⟩
    exact ⟨⟨opened, earlier, fun k after upTo => counted k after (by omega)⟩,
      counted (i + 1) (by omega) (Nat.le_refl _)⟩
  · rintro ⟨⟨opened, _, counted⟩, final⟩
    refine ⟨opened, by omega, ?_⟩
    intro k after upTo
    rcases Nat.lt_or_eq_of_le upTo with below | rfl
    · exact counted k after (by omega)
    · exact final

def openStack (rs : List Role) : Nat → List Nat
  | 0 => []
  | i + 1 =>
    match rs[i]? with
    | some .opens => i :: openStack rs i
    | some .closes => (openStack rs i).tail
    | _ => openStack rs i

private theorem openStack_opens (rs : List Role) (i : Nat) (here : rs[i]? = some .opens) :
    openStack rs (i + 1) = i :: openStack rs i := by
  simp only [openStack, here]

private theorem openStack_closes (rs : List Role) (i : Nat) (here : rs[i]? = some .closes) :
    openStack rs (i + 1) = (openStack rs i).tail := by
  simp only [openStack, here]

theorem openStack_plain (rs : List Role) (i : Nat) (here : rs[i]? = some .plain) :
    openStack rs (i + 1) = openStack rs i := by
  simp only [openStack, here]

private theorem openStack_beyond (rs : List Role) (i : Nat) (outside : rs[i]? = none) :
    openStack rs (i + 1) = openStack rs i := by
  simp only [openStack, outside]

private theorem openStack_lt (rs : List Role) (i : Nat) : ∀ j ∈ openStack rs i, j < i := by
  induction i with
  | zero => simp [openStack]
  | succ i ih =>
    intro j member
    simp only [openStack] at member
    split at member
    · rcases List.mem_cons.mp member with rfl | inner
      · exact Nat.lt_succ_self _
      · exact Nat.lt_succ_of_lt (ih j inner)
    · exact Nat.lt_succ_of_lt (ih j (List.mem_of_mem_tail member))
    · exact Nat.lt_succ_of_lt (ih j member)

private theorem openStack_sorted (rs : List Role) (i : Nat) :
    (openStack rs i).Pairwise (· > ·) := by
  induction i with
  | zero => exact List.Pairwise.nil
  | succ i ih =>
    simp only [openStack]
    split
    · exact List.Pairwise.cons (fun j member => openStack_lt rs i j member) ih
    · exact List.Pairwise.tail ih
    · exact ih

/-- An open block has as many open blocks inside it as its segments leave open. -/
theorem openStack_balance (rs : List Role) (i : Nat) :
    ∀ (k : Nat) (j : Nat), (openStack rs i)[k]? = some j → balance rs (j + 1) i = k := by
  induction i with
  | zero => simp [openStack]
  | succ i ih =>
    intro k j place
    have below : ∀ k', (openStack rs i)[k']? = some j → j + 1 ≤ i := fun k' found =>
      openStack_lt rs i j (List.mem_of_getElem? found)
    rcases role : rs[i]? with _ | _ | _ | _
    · rw [openStack_beyond rs i role] at place
      rw [balance_beyond rs _ i role, ih k j place]
    · rw [openStack_opens rs i role] at place
      cases k with
      | zero =>
        rw [List.getElem?_cons_zero, Option.some.injEq] at place
        subst place
        exact balance_self rs (i + 1)
      | succ k =>
        rw [List.getElem?_cons_succ] at place
        rw [balance_succ rs _ i .opens (below k place) role, ih k j place]
        rfl
    · rw [openStack_closes rs i role, List.getElem?_tail] at place
      rw [balance_succ rs _ i .closes (below (k + 1) place) role, ih (k + 1) j place]
      change ((k + 1 : Nat) : Int) + -1 = k
      omega
    · rw [openStack_plain rs i role] at place
      rw [balance_succ rs _ i .plain (below k place) role, ih k j place]
      simp [Role.change]

private theorem mem_openStack_succ_of_lt {rs : List Role} {i j : Nat} (earlier : j < i)
    (before : j ∈ openStack rs i ↔ OpenAt rs j i) :
    j ∈ openStack rs (i + 1) ↔ OpenAt rs j (i + 1) := by
  have counted : j ∈ openStack rs i → 0 ≤ balance rs (j + 1) i := fun member =>
    (before.mp member).2.2 i earlier (Nat.le_refl _)
  rw [openAt_succ_iff rs earlier, ← before]
  rcases role : rs[i]? with _ | _ | _ | _
  · rw [openStack_beyond rs i role, balance_beyond rs _ i role]
    exact ⟨fun member => ⟨member, counted member⟩, fun both => both.1⟩
  · rw [openStack_opens rs i role, balance_succ rs _ i .opens earlier role, List.mem_cons]
    constructor
    · rintro (same | member)
      · omega
      · have enough := counted member
        exact ⟨member, by change 0 ≤ balance rs (j + 1) i + 1; omega⟩
    · exact fun both => Or.inr both.1
  · -- Only the top of the stack is taken off: the one block with nothing open inside it.
    rw [openStack_closes rs i role, balance_succ rs _ i .closes earlier role]
    constructor
    · intro member
      obtain ⟨k, place⟩ := List.mem_iff_getElem?.mp member
      rw [List.getElem?_tail] at place
      have inside := openStack_balance rs i (k + 1) j place
      exact ⟨List.mem_of_getElem?
        place, by rw [inside]; change 0 ≤ ((k + 1 : Nat) : Int) + -1; omega⟩
    · rintro ⟨member, enough⟩
      obtain ⟨k, place⟩ := List.mem_iff_getElem?.mp member
      rw [openStack_balance rs i k j place] at enough
      cases k with
      | zero => simp [Role.change] at enough
      | succ k => exact List.mem_of_getElem? (List.getElem?_tail ▸ place)
  · rw [openStack_plain rs i role, balance_succ rs _ i .plain earlier role]
    refine ⟨fun member => ⟨member, ?_⟩, fun both => both.1⟩
    simpa [Role.change] using counted member

private theorem mem_openStack_succ_of_ge {rs : List Role} {i j : Nat} (reached : i ≤ j) :
    j ∈ openStack rs (i + 1) ↔ OpenAt rs j (i + 1) := by
  have absent : j ∉ openStack rs i := fun member => absurd (openStack_lt rs i j member) (by omega)
  have late : rs[i]? ≠ some .opens → ¬ OpenAt rs j (i + 1) := by
    rintro different ⟨opened, before, _⟩
    have same : j = i := by omega
    exact different (same ▸ opened)
  rcases role : rs[i]? with _ | _ | _ | _
  · rw [openStack_beyond rs i role]
    exact iff_of_false absent (late (by simp [role]))
  · rw [openStack_opens rs i role, List.mem_cons]
    constructor
    · rintro (rfl | member)
      · exact (openAt_succ_self rs j).mpr role
      · exact absurd member absent
    · exact fun isOpen => Or.inl (by have := isOpen.2.1; omega)
  · rw [openStack_closes rs i role]
    exact iff_of_false (fun member => absent (List.mem_of_mem_tail member)) (late (by simp [role]))
  · rw [openStack_plain rs i role]
    exact iff_of_false absent (late (by simp [role]))

theorem mem_openStack_iff (rs : List Role) (i j : Nat) : j ∈ openStack rs i ↔ OpenAt rs j i := by
  induction i with
  | zero => simp [openStack, OpenAt]
  | succ i ih =>
    rcases Nat.lt_or_ge j i with earlier | reached
    · exact mem_openStack_succ_of_lt earlier ih
    · exact mem_openStack_succ_of_ge reached

theorem innermost_iff (rs : List Role) (i : Nat) (found : Option Nat) :
    Innermost rs i found ↔ found = (openStack rs i).head? := by
  have members := mem_openStack_iff rs i
  have sorted := openStack_sorted rs i
  cases stack : openStack rs i with
  | nil =>
    rw [stack] at members
    cases found with
    | none => simp [Innermost, ← members]
    | some j => simp [Innermost, ← members]
  | cons top rest =>
    rw [stack] at members sorted
    cases found with
    | none =>
      simp only [Innermost, List.head?_cons, reduceCtorEq, iff_false]
      exact fun none_open => none_open top ((members top).mp (by simp))
    | some j =>
      simp only [Innermost, List.head?_cons, Option.some.injEq, ← members]
      constructor
      · rintro ⟨member, greatest⟩
        have least := greatest top (by simp)
        rcases List.mem_cons.mp member with same | inner
        · exact same
        · exact absurd (List.rel_of_pairwise_cons sorted inner) (by omega)
      · rintro rfl
        refine ⟨by simp, ?_⟩
        intro k member
        rcases List.mem_cons.mp member with same | inner
        · exact Nat.le_of_eq same
        · exact Nat.le_of_lt (List.rel_of_pairwise_cons sorted inner)

theorem innermost_congr (rs : List Role) {i k : Nat} (same : ∀ j, OpenAt rs j i ↔ OpenAt rs j k)
    (found : Option Nat) : Innermost rs i found ↔ Innermost rs k found := by
  cases found <;> simp only [Innermost, same]

/-- Behind the segment that closes a block, the same blocks are open as before the one that opened
it. -/
theorem openAt_after_close (rs : List Role) (j k : Nat) (closing : rs[k]? = some .closes)
    (inside : Innermost rs k (some j)) (m : Nat) : OpenAt rs m (k + 1) ↔ OpenAt rs m j := by
  obtain ⟨⟨opening, before, counted⟩, greatest⟩ := inside
  have entered : balance rs j (j + 1) = 1 := by
    rw [balance_succ rs j j .opens (Nat.le_refl j) opening, balance_self]
    rfl
  have left : balance rs (j + 1) (k + 1) = balance rs (j + 1) k - 1 :=
    balance_succ rs _ k .closes before closing
  constructor
  · intro isOpen
    have different : m ≠ k := fun same => by
      have contrary := isOpen.1
      rw [same, closing] at contrary
      simp at contrary
    have earlier : m < k := by have := isOpen.2.1; omega
    obtain ⟨openBefore, final⟩ := (openAt_succ_iff rs earlier).mp isOpen
    have outer : m ≤ j := greatest m openBefore
    -- The innermost block has nothing open inside it, so that the closing segment leaves its
    -- balance below zero.
    have proper : m ≠ j := by
      rintro rfl
      have top : (openStack rs k).head? = some m :=
        ((innermost_iff rs k (some m)).mp ⟨openBefore, greatest⟩).symm
      have none_inside := openStack_balance rs k 0 m (by rw [← List.head?_eq_getElem?, top])
      rw [left, none_inside] at final
      simp at final
    exact ⟨isOpen.1, by omega, fun i after upTo => isOpen.2.2 i after (by omega)⟩
  · rintro ⟨opened, outer, countedBefore⟩
    refine ⟨opened, by omega, ?_⟩
    intro i after upTo
    rcases Nat.lt_or_ge j i with beyond | within
    · have split := balance_split rs (m + 1) j i (by omega) (by omega)
      have splitInside := balance_split rs j (j + 1) i (by omega) (by omega)
      have start := countedBefore j outer (Nat.le_refl j)
      rcases Nat.lt_or_eq_of_le upTo with below | rfl
      · have inner := counted i beyond (by omega)
        omega
      · have inner := counted k before (Nat.le_refl k)
        omega
    · exact countedBefore i after within

theorem stray_iff (rs : List Role) (i : Nat) :
    Stray rs i ↔ rs[i]? = some .closes ∧ openStack rs i = [] := by
  rw [Stray, List.eq_nil_iff_forall_not_mem]
  simp only [mem_openStack_iff]

/-! ### The statements that were read -/

namespace Reading

def enclosing (pending : List Pending) : Option Nat := pending.head?.map Pending.index

def listing (current : List Tree) : List Pending → List Statement
  | [] => preorderAll none current.reverse
  | p :: rest =>
    listing p.earlier rest ++ ⟨p.index, p.command, enclosing rest, true⟩ :: preorderAll
      (some p.index) current.reverse

private theorem listing_push (t : Tree) (current : List Tree) (pending : List Pending) :
    listing (t :: current) pending = listing current pending ++ preorder (enclosing pending) t := by
  cases pending with
  | nil =>
    simp only [listing, List.reverse_cons, preorderAll_append, preorderAll_singleton, enclosing,
      List.head?_nil, Option.map_none]
  | cons p rest =>
    simp only [listing, List.reverse_cons, preorderAll_append, preorderAll_singleton, enclosing,
      List.head?_cons, Option.map_some, List.append_assoc, List.cons_append]

private theorem listing_close (p : Pending) (current : List Tree) (rest : List Pending) :
    listing (.block p.command p.index current.reverse :: p.earlier) rest =
      listing current (p :: rest) := by
  rw [listing_push]
  rfl

private theorem preorderAll_closeAll (current : List Tree) (pending : List Pending) :
    preorderAll none (closeAll current pending) = listing current pending := by
  induction pending generalizing current with
  | nil => rfl
  | cons p rest ih => rw [closeAll, ih, listing_close]

end Reading

def statementAt (segments : List Text) (i : Nat) : Statement where
  index := i
  command := commandOf (Spelled.dropSpaces (segments.getD i []))
  parent := (openStack (roles segments) i).head?
  isBlock := (roles segments)[i]? = some .opens

def statementPositions (segments : List Text) (i : Nat) : List Nat :=
  (List.range i).filter fun k => (roles segments)[k]? ≠ some .closes

theorem statementPositions_closes (segments : List Text) (i : Nat)
    (here : (roles segments)[i]? = some .closes) :
    statementPositions segments (i + 1) = statementPositions segments i := by
  simp [statementPositions, List.range_succ, List.filter_append, here]

theorem statementPositions_keeps (segments : List Text) (i : Nat)
    (here : (roles segments)[i]? ≠ some .closes) :
    statementPositions segments (i + 1) = statementPositions segments i ++ [i] := by
  simp [statementPositions, List.range_succ, List.filter_append, here]

structure Reading.Follows (segments : List Text) (r : Reading) (i : Nat) : Prop where
  stack : r.pending.map Pending.index = openStack (roles segments) i
  listed : listing r.current r.pending = (statementPositions segments i).map (statementAt segments)
  noStray : ∀ k < i, ¬ Stray (roles segments) k

namespace Reading.Follows

variable {segments : List Text} {r : Reading} {i : Nat} {segment : Text}

private theorem enclosing_eq (follows : r.Follows segments i) :
    enclosing r.pending = (openStack (roles segments) i).head? := by
  rw [← follows.stack, List.head?_map]
  rfl

private theorem role_at (here : segments[i]? = some segment) :
    (roles segments)[i]? = some (Role.of (Spelled.dropSpaces segment)) := by
  rw [roles, List.getElem?_map, here]
  rfl

private theorem noStray_succ (follows : r.Follows segments i) (fits : ¬ Stray (roles segments) i) :
    ∀ k < i + 1, ¬ Stray (roles segments) k := by
  intro k bound
  rcases Nat.lt_or_eq_of_le (Nat.le_of_lt_succ bound) with before | rfl
  · exact follows.noStray k before
  · exact fits

theorem opened (follows : r.Follows segments i) (here : segments[i]? = some segment)
    (role : Role.of (Spelled.dropSpaces segment) = .opens) :
    Follows segments ⟨[], ⟨commandOf (Spelled.dropSpaces segment), i, r.current⟩ :: r.pending⟩
      (i + 1) := by
  have known := role_at here
  rw [role] at known
  refine ⟨?_, ?_, follows.noStray_succ ?_⟩
  · rw [openStack_opens _ _ known, List.map_cons, follows.stack]
  · rw [statementPositions_keeps _ _ (by simp [known]), List.map_append, ← follows.listed]
    simp [listing, preorderAll, statementAt, known, here, follows.enclosing_eq]
  · rw [stray_iff, known]
    simp

theorem placed (follows : r.Follows segments i) (here : segments[i]? = some segment)
    (role : Role.of (Spelled.dropSpaces segment) = .plain) :
    Follows segments ⟨.leaf (commandOf (Spelled.dropSpaces segment)) i :: r.current, r.pending⟩
      (i + 1) := by
  have known := role_at here
  rw [role] at known
  refine ⟨?_, ?_, follows.noStray_succ ?_⟩
  · rw [openStack_plain _ _ known]
    exact follows.stack
  · rw [statementPositions_keeps _ _ (by simp [known]), List.map_append, ← follows.listed,
      listing_push]
    simp [preorder, statementAt, known, here, follows.enclosing_eq]
  · rw [stray_iff, known]
    simp

theorem closed {after : Reading} (follows : r.Follows segments i)
    (here : segments[i]? = some segment) (role : Role.of (Spelled.dropSpaces segment) = .closes)
    (some_open : r.close? = some after) : after.Follows segments (i + 1) := by
  have known := role_at here
  rw [role] at known
  obtain ⟨current, pending⟩ := r
  cases pending with
  | nil => simp [close?] at some_open
  | cons p rest =>
    simp only [close?, Option.some.injEq] at some_open
    subst some_open
    refine ⟨?_, ?_, follows.noStray_succ ?_⟩
    · rw [openStack_closes _ _ known, ← follows.stack]
      rfl
    · rw [statementPositions_closes _ _ known, ← follows.listed]
      exact listing_close p current rest
    · rw [stray_iff, ← follows.stack]
      simp

theorem stray (follows : r.Follows segments i) (here : segments[i]? = some segment)
    (role : Role.of (Spelled.dropSpaces segment) = .closes) (none_open : r.close? = none) :
    Stray (roles segments) i := by
  have known := role_at here
  rw [role] at known
  rw [stray_iff, ← follows.stack]
  refine ⟨known, ?_⟩
  cases pending : r.pending with
  | nil => rfl
  | cons p rest => simp [close?, pending] at none_open

end Reading.Follows

structure ReadUpTo (segments : List Text) (result : List Tree × Nat) : Prop where
  ends : EndsAt (roles segments) result.2
  listed : preorderAll none result.1 = (statementPositions segments (result.2 + 1)).map
    (statementAt segments)

private theorem readFrom_readUpTo (segments rest : List Text) (r : Reading) (i : Nat)
    (nonempty : segments ≠ []) (left : segments.drop i = rest) (follows : r.Follows segments i)
    (within : i ≤ segments.length) : ReadUpTo segments (readFrom r i rest) := by
  -- `Follows` is what every segment keeps; the segments that are left are those from `i` on.
  induction rest generalizing r i with
  | nil =>
    have size : i = segments.length := Nat.le_antisymm within (List.drop_eq_nil_iff.mp left)
    have positive : 0 < segments.length := List.length_pos_iff.mpr nonempty
    have restored : i - 1 + 1 = i := by omega
    refine ⟨⟨Or.inr ?_, ?_⟩, ?_⟩
    · change i - 1 + 1 = (roles segments).length
      rw [restored, roles, List.length_map, size]
    · intro k bound
      exact follows.noStray k (by simp only [readFrom] at bound; omega)
    · simp only [readFrom, restored]
      rw [Reading.preorderAll_closeAll, follows.listed]
  | cons segment rest ih =>
    have here : segments[i]? = some segment := by
      rw [← List.head?_drop, left]
      rfl
    have later : segments.drop (i + 1) = rest := by
      rw [← List.drop_drop, left]
      rfl
    have further : i + 1 ≤ segments.length := by
      have := (List.getElem?_eq_some_iff.mp here).1
      omega
    rcases role : Role.of (Spelled.dropSpaces segment) with _ | _ | _
    · simp only [readFrom, role]
      exact ih _ _ later (follows.opened here role) further
    · simp only [readFrom, role]
      cases closing : r.close? with
      | some after => exact ih _ _ later (follows.closed here role closing) further
      | none =>
        have lone := follows.stray here role closing
        refine ⟨⟨Or.inl lone, follows.noStray⟩, ?_⟩
        rw [Reading.preorderAll_closeAll, follows.listed, statementPositions_closes _ _ lone.1]
    · simp only [readFrom, role]
      exact ih _ _ later (follows.placed here role) further

theorem parse_readUpTo (flat : Text) : ReadUpTo (flat.splitOn ';') (parse flat) := by
  refine readFrom_readUpTo _ _ _ 0 (List.splitOn_ne_nil _ _) rfl ⟨rfl, rfl, ?_⟩ (Nat.zero_le _)
  intro k bound
  exact absurd bound (Nat.not_lt_zero k)

/-- Reading ends at the first segment that closes a block when none is open, or else at the last
segment. A walk over the trees meets exactly the segments up to there that close no block, each once
and in their order, and every statement stands in the innermost block that is open at its segment.
-/
theorem parse_exact (flat : Text) :
    EndsAt (roles (flat.splitOn ';')) (parse flat).2 ∧
    (preorderAll none (parse flat).1).map (fun e => (e.index, e.command)) =
      ((List.range ((parse flat).2 + 1)).filter fun i => (roles (flat.splitOn ';'))[i]? ≠
        some .closes).map
        (fun i => (i, commandOf (Spelled.dropSpaces ((flat.splitOn ';').getD i [])))) ∧
    ∀ e ∈ preorderAll none (parse flat).1, Innermost (roles (flat.splitOn ';')) e.index e.parent ∧
      (e.isBlock = true ↔ (roles (flat.splitOn ';'))[e.index]? = some .opens) := by
  obtain ⟨ends, listed⟩ := parse_readUpTo flat
  refine ⟨ends, ?_, ?_⟩
  · rw [listed, List.map_map]
    rfl
  · intro e member
    rw [listed] at member
    obtain ⟨i, _, rfl⟩ := List.mem_map.mp member
    exact ⟨(innermost_iff _ _ _).mpr rfl, by simp [statementAt]⟩

end CommandScript.Tree
