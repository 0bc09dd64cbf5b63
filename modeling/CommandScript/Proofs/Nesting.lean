import CommandScript.Proofs.RoundTrip
import CommandScript.Proofs.Sequencing

/-! Blocks at the front of a program. Whatever was read before and whichever blocks are open,
segments whose own blocks are closed are read as they are alone. So a block has below it the
statements that stand between its braces, and behind it the statements that stand behind it, all
with their positions moved on. -/
namespace CommandScript.Tree

/-! ### Reading on from anywhere -/

namespace Reading

def step (r : Reading) (i : Nat) (segment : Text) : Option Reading :=
  match Role.of (Spelled.dropSpaces segment) with
  | .opens => some ⟨[], ⟨commandOf (Spelled.dropSpaces segment), i, r.current⟩ :: r.pending⟩
  | .closes => r.close?
  | .plain => some ⟨.leaf (commandOf (Spelled.dropSpaces segment)) i :: r.current, r.pending⟩

private theorem readFrom_step {r next : Reading} {i : Nat} {segment : Text}
    (stepped : r.step i segment = some next) (rest : List Text) :
    readFrom r i (segment :: rest) = readFrom next (i + 1) rest := by
  unfold step at stepped
  rcases role : Role.of (Spelled.dropSpaces segment) with _ | _ | _
  · rw [role] at stepped
    cases stepped
    simp only [readFrom, role]
  · rw [role] at stepped
    simp only [readFrom, role, stepped]
  · rw [role] at stepped
    cases stepped
    simp only [readFrom, role]

theorem Follows.step {segments : List Text} {r : Reading} {i : Nat} {segment : Text}
    (follows : r.Follows segments i) (here : segments[i]? = some segment)
    (noStray : ¬ Stray (roles segments) i) :
    ∃ next, r.step i segment = some next ∧ next.Follows segments (i + 1) := by
  unfold Reading.step
  rcases role : Role.of (Spelled.dropSpaces segment) with _ | _ | _
  · exact ⟨_, rfl, follows.opened here role⟩
  · cases closing : r.close? with
    | none => exact absurd (follows.stray here role closing) noStray
    | some closed => exact ⟨closed, rfl, follows.closed here role closing⟩
  · exact ⟨_, rfl, follows.placed here role⟩

section On

variable (base : Reading) (n : Nat)

/-- What has been read, as it stands on top of what was read of `n` segments before. -/
def on (current : List Tree) : List Pending → Reading
  | [] => ⟨shiftAll n current ++ base.current, base.pending⟩
  | p :: rest =>
    let outer := on p.earlier rest
    ⟨shiftAll n current, ⟨p.command, n + p.index, outer.current⟩ :: outer.pending⟩

private theorem on_push (t : Tree) (current : List Tree) (pending : List Pending) :
    on base n (t :: current) pending =
      ⟨shift n t :: (on base n current pending).current, (on base n current pending).pending⟩ := by
  cases pending <;> rfl

private theorem step_on {r next : Reading} {i : Nat} {segment : Text}
    (stepped : r.step i segment = some next) :
    (on base n r.current r.pending).step (n + i) segment =
      some (on base n next.current next.pending) := by
  unfold step at stepped ⊢
  rcases role : Role.of (Spelled.dropSpaces segment) with _ | _ | _
  · rw [role] at stepped
    cases stepped
    rfl
  · rw [role] at stepped
    obtain ⟨current, pending⟩ := r
    cases pending with
    | nil => cases stepped
    | cons p rest =>
      cases stepped
      simp only [on, on_push, close?, shift, shiftAll_eq_map, List.map_reverse]
  · rw [role] at stepped
    cases stepped
    rw [on_push]
    rfl

end On

/-- The first segments of a row without stray ones are read on top of whatever was read before as
they are read alone. -/
theorem readFrom_take {segments : List Text} (noStray : ∀ i, ¬ Stray (roles segments) i) (k : Nat)
    (within : k ≤ segments.length) :
    ∃ after : Reading, after.Follows segments k ∧
    (∀ more, readFrom ⟨[], []⟩ 0 (segments.take k ++ more) = readFrom after k more) ∧
      ∀ base n more, readFrom base n (segments.take k ++ more) =
        readFrom (on base n after.current after.pending) (n + k) more := by
  induction k with
  | zero =>
    exact ⟨⟨[], []⟩, ⟨rfl, rfl, fun k bound => absurd bound (Nat.not_lt_zero k)⟩, fun _ => rfl,
      fun _ _ _ => rfl⟩
  | succ k ih =>
    obtain ⟨after, follows, alone, onTop⟩ := ih (Nat.le_of_succ_le within)
    have here : segments[k]? = some (segments[k]) := List.getElem?_eq_getElem within
    obtain ⟨next, stepped, follows⟩ := follows.step here (noStray k)
    have cut : ∀ more, segments.take (k + 1) ++ more = segments.take k ++ segments[k] :: more := by
      intro more
      rw [← List.take_append_getElem within, List.append_assoc, List.singleton_append]
    refine ⟨next, follows, fun more => ?_, fun base n more => ?_⟩
    · rw [cut, alone, readFrom_step stepped]
    · rw [cut, onTop, readFrom_step (step_on base n stepped), Nat.add_assoc]

end Reading

/-! ### A block and what follows it -/

/-- The flat form of a text that is empty or ends in a semicolon or a brace has an empty segment at
its end. If something stands behind the text, up to the next semicolon, it stands in the place of
that segment. -/
theorem segments_of_cut {inside : Text} (cut : Layout.IsCut inside) : ∃ segments : List Text,
    (Layout.flatten inside).splitOn ';' = segments ++ [[]] ∧
      ∀ last rest, ';' ∉ last → (Layout.flatten inside ++ (last ++ ';' :: rest)).splitOn ';' =
        segments ++ last :: rest.splitOn ';' := by
  have ends := Layout.IsCut.flatten cut
  obtain ⟨opening, closing⟩ := Layout.brace_not_mem_flatten inside
  generalize Layout.flatten inside = flat at ends opening closing
  rcases List.eq_nil_or_concat' flat with rfl | ⟨front, c, rfl⟩
  · exact ⟨[], rfl, fun last rest whole => Text.splitOn_append_cons whole rest⟩
  · have semicolon : c = ';' := by
      have stop : c ∈ Layout.stops := ends c List.getLast?_concat
      simp only [Layout.stops, List.mem_cons, List.not_mem_nil, or_false] at stop
      rcases stop with rfl | rfl | rfl
      · rfl
      · simp at opening
      · simp at closing
    subst semicolon
    refine ⟨front.splitOn ';', splitOn_semicolon front [], fun last rest whole => ?_⟩
    rw [List.append_assoc, List.singleton_append, splitOn_semicolon, Text.splitOn_append_cons whole]

private theorem role_nil : Role.of (Spelled.dropSpaces []) = .plain := by decide

private theorem role_closing (gap : Text) :
    Role.of (Spelled.dropSpaces (Layout.margin gap ++ Layout.closing)) = .closes := by
  rw [Layout.dropSpaces_margin gap (by decide)]
  decide

/-- A text that can stand between the braces of a block: it ends where a statement or a block ends,
the blocks that it opens are closed in it, and it is read as the given trees, which take so many
segments, before an empty statement at its end. -/
structure IsBody (inside : Text) (trees : List Tree) (size : Nat) : Prop where
  cut : Layout.IsCut inside
  balanced : Balanced (roles ((Layout.flatten inside).splitOn ';'))
  read : parse (Layout.flatten inside) = (trees ++ [.leaf [] size], size)

/-- A block, its statements and what follows it: below the block stand the statements that are read
between its braces, and behind it those that are read behind it. -/
theorem parse_block {head inside : Text} {trees : List Tree} {size : Nat}
    (opens : Role.of (Spelled.dropSpaces head) = .opens) (whole : ';' ∉ head)
    (body : IsBody inside trees size) (gap rest : Text) :
    parse (head ++ ';' :: (Layout.flatten inside ++
      (Layout.margin gap ++ Layout.closing ++ ';' :: rest))) =
      (.block (commandOf (Spelled.dropSpaces head)) 0 (shiftAll 1 trees) :: shiftAll (size + 2)
        (parse rest).1, size + 2 + (parse rest).2) := by
  obtain ⟨cut, balanced, read⟩ := body
  obtain ⟨segments, alone, split⟩ := segments_of_cut cut
  have closingWhole : ';' ∉ Layout.margin gap ++ Layout.closing := by
    rw [List.mem_append, not_or]
    exact ⟨fun member => absurd (Layout.eq_of_mem_margin member) (by decide), by decide⟩
  rw [alone] at balanced
  rw [parse, alone] at read
  -- When the segments inside have been read, none of their blocks is open.
  obtain ⟨⟨current, pending⟩, follows, here, onTop⟩ :=
    Reading.readFrom_take balanced.noStray segments.length (by simp)
  rw [List.take_left] at here onTop
  have closed : pending = [] := by
    have last : (roles (segments ++ [[]]))[segments.length]? = some .plain := by
      rw [roles, List.getElem?_map, List.getElem?_concat_length, Option.map_some, role_nil]
    have stack := balanced.openStack_eq
    have count : (roles (segments ++ [[]])).length = segments.length + 1 := by simp [roles]
    rw [count, openStack_plain _ _ last, ← follows.stack] at stack
    exact List.map_eq_nil_iff.mp stack
  subst closed
  have known : current.reverse = trees ∧ segments.length = size := by
    have placed : (⟨current, []⟩ : Reading).step segments.length [] =
      some ⟨.leaf [] segments.length :: current, []⟩ := rfl
    rw [here, Reading.readFrom_step placed, readFrom, Reading.closeAll, List.reverse_cons] at read
    obtain ⟨row, last⟩ := Prod.mk.inj read
    exact ⟨(List.append_inj' row rfl).1, last⟩
  obtain ⟨rfl, rfl⟩ := known
  let opened : Reading := ⟨[], [⟨commandOf (Spelled.dropSpaces head), 0, []⟩]⟩
  have entered : (⟨[], []⟩ : Reading).step 0 head = some opened := by rw [Reading.step, opens]
  let done : Reading :=
    ⟨[.block (commandOf (Spelled.dropSpaces head)) 0 (shiftAll 1 current.reverse)], []⟩
  have left : (Reading.on opened 1 current []).step (1 + segments.length)
      (Layout.margin gap ++ Layout.closing) = some done := by
    rw [Reading.step, role_closing]
    simp [Reading.on, Reading.close?, opened, done, shiftAll_eq_map]
  have behind := readFrom_behind done.current (segments.length + 2) ⟨[], []⟩ 0 (rest.splitOn ';')
    (.inl (List.splitOn_ne_nil _ _))
  rw [parse, Text.splitOn_append_cons whole, split _ rest closingWhole,
    Reading.readFrom_step entered, onTop, Reading.readFrom_step left]
  have count : 1 + segments.length + 1 = segments.length + 2 + 0 := by omega
  rw [count]
  exact behind

end CommandScript.Tree
