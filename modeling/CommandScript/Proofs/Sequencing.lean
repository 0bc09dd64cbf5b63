import CommandScript.Execution
import CommandScript.Proofs.Cutting
import CommandScript.Proofs.Exec
import CommandScript.Proofs.Flattening
import CommandScript.Proofs.Planting

/-! Programs one after the other. A semicolon between two source texts keeps them apart: if all
blocks of the first are closed in it, the statements of both are read as they are alone, and running
the whole is running the first and, if it ends normally, the second. -/
namespace CommandScript

/-! ### Reading -/

private theorem Layout.flatten_join (first second : Text) :
    Layout.flatten (first ++ ';' :: second) =
      Layout.flatten first ++ ';' :: Layout.flatten second :=
  flatten_append_cons (by simp [replacements]) first second

theorem Program.isTooDeep_eq (limit : Nat) (flat : Text) :
    isTooDeep limit flat = (decide (limit < Tree.depthAll (Tree.parse flat).1) ||
      ((flat.splitOn ';').take ((Tree.parse flat).2 + 1)).any fun segment =>
        limit < Spelled.leadingSpaces segment) := rfl

namespace Tree

mutual

def shift (n : Nat) : Tree → Tree
  | leaf command index => .leaf command (n + index)
  | block command index body => .block command (n + index) (shiftAll n body)

def shiftAll (n : Nat) : List Tree → List Tree
  | [] => []
  | t :: rest => shift n t :: shiftAll n rest

end

theorem shiftAll_eq_map (n : Nat) (trees : List Tree) : shiftAll n trees = trees.map (shift n) := by
  induction trees with
  | nil => rfl
  | cons t rest ih => rw [shiftAll, List.map_cons, ih]

mutual

private theorem depth_shift (n : Nat) (t : Tree) : depth (shift n t) = depth t := by
  cases t with
  | leaf command index => rfl
  | block command index body => rw [shift, depth, depth, depthAll_shiftAll n body]

private theorem depthAll_shiftAll (n : Nat) (trees : List Tree) :
    depthAll (shiftAll n trees) = depthAll trees := by
  cases trees with
  | nil => rfl
  | cons t rest => rw [shiftAll, depthAll, depthAll, depth_shift n t, depthAll_shiftAll n rest]

end

private theorem depthAll_append (first second : List Tree) :
    depthAll (first ++ second) = max (depthAll first) (depthAll second) := by
  induction first with
  | nil => simp [depthAll]
  | cons t rest ih => rw [List.cons_append, depthAll, depthAll, ih, Nat.max_assoc]

/-- Every block that a row of segments opens is closed in it, and no segment closes a block that is
not open. -/
structure Balanced (rs : List Role) : Prop where
  noStray : ∀ i, ¬ Stray rs i
  noneOpen : ∀ j, ¬ OpenAt rs j rs.length

theorem Balanced.openStack_eq {rs : List Role} (balanced : Balanced rs) :
    openStack rs rs.length = [] := by
  rw [List.eq_nil_iff_forall_not_mem]
  intro j member
  exact balanced.noneOpen j ((mem_openStack_iff rs _ j).mp member)

private theorem balanced_iff (rs : List Role) :
    Balanced rs ↔ (∀ i < rs.length, rs[i]? = some .closes → openStack rs i ≠ []) ∧
    openStack rs rs.length = [] := by
  constructor
  · intro balanced
    refine ⟨fun i _ closes none => ?_, balanced.openStack_eq⟩
    exact balanced.noStray i ((stray_iff rs i).mpr ⟨closes, none⟩)
  · rintro ⟨closing, closed⟩
    refine ⟨fun i stray => ?_, fun j opened => ?_⟩
    · obtain ⟨closes, none⟩ := (stray_iff rs i).mp stray
      exact closing i (List.getElem?_eq_some_iff.mp closes).1 closes none
    · have member := (mem_openStack_iff rs _ j).mpr opened
      rw [closed] at member
      exact absurd member List.not_mem_nil

instance (rs : List Role) : Decidable (Balanced rs) := decidable_of_iff _ (balanced_iff rs).symm

namespace Reading

section Behind

variable (base : List Tree) (n : Nat)

def behind (current : List Tree) : List Pending → Reading
  | [] => ⟨shiftAll n current ++ base, []⟩
  | p :: rest =>
    let outer := behind p.earlier rest
    ⟨shiftAll n current, ⟨p.command, n + p.index, outer.current⟩ :: outer.pending⟩

private theorem behind_push (t : Tree) (current : List Tree) (pending : List Pending) :
    behind base n (t :: current) pending =
      ⟨shift n t :: (behind base n current pending).current,
        (behind base n current pending).pending⟩ := by
  cases pending <;> rfl

private theorem close?_behind (r : Reading) :
    (behind base n r.current r.pending).close? = r.close?.map fun closed =>
      behind base n closed.current closed.pending := by
  obtain ⟨current, pending⟩ := r
  cases pending with
  | nil => rfl
  | cons p rest =>
    simp only [close?, Option.map_some, behind, behind_push, shift, shiftAll_eq_map,
      List.map_reverse]

private theorem closeAll_behind (current : List Tree) (pending : List Pending) :
    closeAll (behind base n current pending).current (behind base n current pending).pending =
      base.reverse ++ shiftAll n (closeAll current pending) := by
  induction pending generalizing current with
  | nil => simp only [behind, closeAll, shiftAll_eq_map, List.reverse_append, List.map_reverse]
  | cons p rest ih =>
    rw [closeAll, ← ih, behind_push]
    simp only [behind, closeAll, shift, shiftAll_eq_map, List.map_reverse]

end Behind

end Reading

/-- Segments that are read behind others give the trees that they give alone, with their positions
moved on. -/
theorem readFrom_behind (base : List Tree) (n : Nat) (r : Reading) (i : Nat) (segments : List Text)
    (counted : segments ≠ [] ∨ 0 < i) :
    readFrom (Reading.behind base n r.current r.pending) (n + i) segments =
      (base.reverse ++ shiftAll n (readFrom r i segments).1, n + (readFrom r i segments).2) := by
  induction segments generalizing r i with
  | nil =>
    have positive : 0 < i := counted.resolve_left fun other => other rfl
    rw [readFrom, readFrom, Reading.closeAll_behind, Nat.add_sub_assoc positive]
  | cons segment rest ih =>
    have next : rest ≠ [] ∨ 0 < i + 1 := .inr (Nat.succ_pos i)
    rcases role : Role.of (Spelled.dropSpaces segment) with _ | _ | _
    · have inner := ih ⟨[], ⟨commandOf (Spelled.dropSpaces segment), i, r.current⟩ :: r.pending⟩
        (i + 1) next
      simp only [readFrom, role]
      exact inner
    · simp only [readFrom, role, Reading.close?_behind]
      cases closing : r.close? with
      | none => simp only [Option.map_none, Reading.closeAll_behind]
      | some closed => exact ih closed (i + 1) next
    · have inner := ih ⟨.leaf (commandOf (Spelled.dropSpaces segment)) i :: r.current, r.pending⟩
        (i + 1) next
      simp only [readFrom, role]
      rw [Reading.behind_push] at inner
      exact inner

/-- Segments none of which is stray are read before all that follows them. -/
theorem readFrom_append (segments rest : List Text) (r : Reading) (i : Nat)
    (left : segments.drop i = rest) (follows : r.Follows segments i)
    (noStray : ∀ k, ¬ Stray (roles segments) k) (within : i ≤ segments.length) :
    ∃ after : Reading, after.Follows segments segments.length ∧
      ∀ more, readFrom r i (rest ++ more) = readFrom after segments.length more := by
  induction rest generalizing r i with
  | nil =>
    obtain rfl : i = segments.length := Nat.le_antisymm within (List.drop_eq_nil_iff.mp left)
    exact ⟨r, follows, fun more => rfl⟩
  | cons segment rest ih =>
    have here : segments[i]? = some segment := by
      rw [← List.head?_drop, left]
      rfl
    have later : segments.drop (i + 1) = rest := by
      rw [← List.drop_drop, left]
      rfl
    have further : i + 1 ≤ segments.length := (List.getElem?_eq_some_iff.mp here).1
    rcases role : Role.of (Spelled.dropSpaces segment) with _ | _ | _
    · obtain ⟨after, follows, same⟩ := ih _ _ later (follows.opened here role) further
      refine ⟨after, follows, fun more => ?_⟩
      rw [List.cons_append, readFrom, role]
      exact same more
    · cases closing : r.close? with
      | none => exact absurd (follows.stray here role closing) (noStray i)
      | some closed =>
        obtain ⟨after, follows, same⟩ := ih _ _ later (follows.closed here role closing) further
        refine ⟨after, follows, fun more => ?_⟩
        rw [List.cons_append, readFrom, role]
        simp only [closing]
        exact same more
    · obtain ⟨after, follows, same⟩ := ih _ _ later (follows.placed here role) further
      refine ⟨after, follows, fun more => ?_⟩
      rw [List.cons_append, readFrom, role]
      exact same more

private theorem readFrom_balanced {segments : List Text} (balanced : Balanced (roles segments))
    (more : List Text) :
    readFrom ⟨[], []⟩ 0 (segments ++ more) =
      readFrom ⟨(readFrom ⟨[], []⟩ 0 segments).1.reverse, []⟩ segments.length more := by
  have start : Reading.Follows segments ⟨[], []⟩ 0 :=
    ⟨rfl, rfl, fun k bound => absurd bound (Nat.not_lt_zero k)⟩
  obtain ⟨⟨current, pending⟩, follows, same⟩ :=
    readFrom_append segments segments _ 0 rfl start balanced.noStray (Nat.zero_le _)
  have closed : pending = [] := by
    have size : segments.length = (roles segments).length := (List.length_map _).symm
    have stack := follows.stack
    rw [size, balanced.openStack_eq] at stack
    exact List.map_eq_nil_iff.mp stack
  subst closed
  have alone := same []
  rw [List.append_nil] at alone
  rw [alone, same more, readFrom, Reading.closeAll, List.reverse_reverse]

theorem splitOn_semicolon (first second : Text) :
    (first ++ ';' :: second).splitOn ';' = first.splitOn ';' ++ second.splitOn ';' :=
      Text.splitOn_append ';' first second

section Join

variable {first : Text} (balanced : Balanced (roles (first.splitOn ';'))) (second : Text)
include balanced

/-- The trees of a text whose blocks are closed come before those of the text behind it. -/
theorem parse_join :
    parse (first ++ ';' :: second) =
      ((parse first).1 ++ shiftAll (first.splitOn ';').length (parse second).1,
        (first.splitOn ';').length + (parse second).2) := by
  have behind := readFrom_behind (parse first).1.reverse (first.splitOn ';').length ⟨[], []⟩ 0
    (second.splitOn ';')
    (.inl (List.splitOn_ne_nil _ _))
  rw [List.reverse_reverse] at behind
  rw [parse, splitOn_semicolon, readFrom_balanced balanced]
  exact behind

omit second in
private theorem parse_last : (parse first).2 + 1 = (first.splitOn ';').length := by
  rcases (parse_readUpTo first).ends.1 with stray | last
  · exact absurd stray (balanced.noStray _)
  · rw [last, roles, List.length_map]

/-- Reading the whole goes too deep exactly if reading one of the texts does. -/
theorem isTooDeep_join (limit : Nat) :
    Program.isTooDeep limit (first ++ ';' :: second) =
      (Program.isTooDeep limit first || Program.isTooDeep limit second) := by
  have taken : ((first ++ ';' :: second).splitOn ';').take
    ((parse (first ++ ';' :: second)).2 + 1) =
      (first.splitOn ';').take ((parse first).2 + 1) ++ (second.splitOn ';').take
        ((parse second).2 + 1) := by
    rw [splitOn_semicolon, parse_join balanced, parse_last balanced, List.take_length,
      Nat.add_assoc, List.take_length_add_append]
  have deep : decide (limit < depthAll (parse (first ++ ';' :: second)).1) =
      (decide (limit < depthAll (parse first).1) ||
        decide (limit < depthAll (parse second).1)) := by
    rw [parse_join balanced, depthAll_append, depthAll_shiftAll, ← Bool.decide_or, decide_eq_decide]
    omega
  rw [Program.isTooDeep_eq, Program.isTooDeep_eq, Program.isTooDeep_eq, taken, deep,
    List.any_append]
  simp only [Bool.or_assoc, Bool.or_left_comm]

end Join

end Tree

/-! ### Planting -/

namespace Store

private theorem plantAll_append (scope : Ref .scope) (interactive : Bool)
    (first second : List Tree) (st : Store) :
    plantAll scope interactive (first ++ second) st =
      ((plantAll scope interactive first st).1 ++
        (plantAll scope interactive second (plantAll scope interactive first st).2).1,
        (plantAll scope interactive second (plantAll scope interactive first st).2).2) := by
  induction first generalizing st with
  | nil => rfl
  | cons t rest ih => simp only [List.cons_append, plantAll, ih]

def MadeBetween (st later : Store) (s : Ref .scope) : Prop :=
  ¬ st.scopes.Holds s ∧ later.scopes.Holds s

theorem MadeBetween.mono {st middle later last : Store} {s : Ref .scope}
    (made : middle.MadeBetween later s) (first : st.scopes.size ≤ middle.scopes.size)
    (second : later.scopes.size ≤ last.scopes.size) : st.MadeBetween last s :=
  ⟨fun old => made.1 (Nat.lt_of_lt_of_le old first), Nat.lt_of_lt_of_le made.2 second⟩

mutual

/-- The statements of a planted tree run in the scope in which it is planted or in one that was made
for it. -/
theorem plant_scopes (scope : Ref .scope) (interactive : Bool) (t : Tree) (st later : Store)
    (fuel : Nat) (extended : (plant scope interactive t st).2.Extends later) (r : Ref .node)
    (below : r ∈ Program.statements later fuel (plant scope interactive t st).1) :
    (later.node r).scope = scope ∨
    st.MadeBetween (plant scope interactive t st).2 (later.node r).scope := by
  cases t with
  | leaf command index =>
    have cell : later.node (plant scope interactive (.leaf command index) st).1 =
        ⟨command, index, [], scope, interactive⟩ :=
      newNode_read extended
    have same : r = (plant scope interactive (.leaf command index) st).1 := by
      cases fuel with
      | zero => exact List.mem_singleton.mp below
      | succ fuel => simpa [Program.statements, cell] using below
    exact .inl (by rw [same, cell])
  | block command index body =>
    simp only [plant] at extended below ⊢
    have cell := newNode_read extended
    have fresh := (st.has_newScope (some scope) _).mpr (.inr rfl)
    have own :
      st.MadeBetween (plantAll (st.newScope (some scope)).1 interactive body
        (st.newScope (some scope)).2).2
        (st.newScope (some scope)).1 :=
      ⟨Nat.lt_irrefl _, fresh.mono (extends_plantAll _ _ _ _).grows⟩
    have wider := (st.extends_newScope (some scope)).grows .scope
    cases fuel with
    | zero =>
      rw [List.mem_singleton.mp below, cell]
      exact .inr own
    | succ fuel =>
      rw [Program.statements, cell] at below
      rcases List.mem_cons.mp below with rfl | deeper
      · rw [cell]
        exact .inr own
      · rcases plantAll_scopes _ interactive body _ later fuel
          ((extends_newNode _ _).trans extended) r deeper with same | made
        · rw [same]
          exact .inr own
        · exact .inr (made.mono wider (Nat.le_refl _))

private theorem plantAll_scopes (scope : Ref .scope) (interactive : Bool) (trees : List Tree)
    (st later : Store) (fuel : Nat)
    (extended : (plantAll scope interactive trees st).2.Extends later) (r : Ref .node)
    (below : r ∈ (plantAll scope interactive trees st).1.flatMap (Program.statements later fuel)) :
    (later.node r).scope = scope ∨
    st.MadeBetween (plantAll scope interactive trees st).2 (later.node r).scope := by
  cases trees with
  | nil => cases below
  | cons t rest =>
    simp only [plantAll, List.flatMap_cons, List.mem_append] at extended below ⊢
    have first := (extends_plant scope interactive t st).grows .scope
    have second :=
      (extends_plantAll scope interactive rest (plant scope interactive t st).2).grows .scope
    rcases below with here | there
    · refine (plant_scopes scope interactive t st later fuel
        ((extends_plantAll _ _ _ _).trans extended) r here).imp_right fun made => ?_
      exact made.mono (Nat.le_refl _) second
    · refine (plantAll_scopes scope interactive rest _ later fuel extended r there).imp_right
        fun made => ?_
      exact made.mono first (Nat.le_refl _)

end

/-- The statements right below a program are those of two parts, and these share no scope but the
one around both. -/
structure Joins (st : Store) (program : Ref .node) (scope : Ref .scope)
    (first second : List (Ref .node)) : Prop where
  children : (st.node program).children = first ++ second
  apart : ∀ fuel, ∀ r ∈ first.flatMap (Program.statements st fuel),
    ∀ q ∈ second.flatMap (Program.statements st fuel), (st.node r).scope = (st.node q).scope →
      (st.node r).scope = scope

private theorem plantProgram_append (scope : Ref .scope) (interactive : Bool)
    (first second : List Tree) (st : Store) :
    let planted := plantAll scope interactive first st
    let added := plantAll scope interactive second planted.2
    let program := st.plantProgram scope interactive (first ++ second)
    added.2.Extends program.2 ∧ program.2.Joins program.1 scope planted.1 added.1 := by
  intro planted added program
  have both : plantAll scope interactive (first ++ second) st = (planted.1 ++ added.1, added.2) :=
    plantAll_append scope interactive first second st
  have extended : added.2.Extends program.2 := by
    have plain : program = (plantAll scope interactive (first ++ second) st).2.newNode _ := rfl
    rw [plain, both]
    exact extends_newNode _ _
  refine ⟨extended, ?_, fun fuel r here q there same => ?_⟩
  · have cell : program.2.node program.1 =
        ⟨[], 0, (plantAll scope interactive (first ++ second) st).1, scope, interactive⟩ :=
      newNode_read (.refl _)
    rw [cell, both]
  · have old : planted.2.Extends program.2 := (extends_plantAll _ _ _ _).trans extended
    rcases plantAll_scopes scope interactive first st _ fuel old r here with outer | made
    · exact outer
    · rcases plantAll_scopes scope interactive second _ _ fuel extended q there with outer | apart
      · exact same.trans outer
      · exact absurd (same ▸ made.2) apart.1

end Store

/-! ### Running -/

theorem runAll_append (ev : Evaluator) (file : Text) (first second : List (Ref .node)) :
    runAll ev file (first ++ second) = runAll ev file first >>= fun outcome => match outcome with
      | .done => runAll ev file second
      | other => pure other := by
  induction first with
  | nil => rfl
  | cons r rest ih =>
    simp only [List.cons_append, runAll, bind_assoc]
    congr 1
    funext outcome
    cases outcome with
    | done => exact ih
    | failed => rfl
    | stopped v => rfl

theorem exec_runAll_append {ev : Evaluator} {file : Text} {first second : List (Ref .node)}
    {w middle : World} {outcome : Except Fault Outcome}
    (ran : (runAll ev file first).exec w = (outcome, middle)) :
    (outcome = .ok .done → (runAll ev file (first ++ second)).exec w =
      (runAll ev file second).exec middle) ∧
    (outcome ≠ .ok .done → (runAll ev file (first ++ second)).exec w = (outcome, middle)) := by
  rw [runAll_append, Run.exec_bind, ran]
  constructor
  · rintro rfl
    rfl
  · intro ended
    cases outcome with
    | error e => rfl
    | ok result =>
      cases result with
      | done => exact absurd rfl ended
      | failed => rfl
      | stopped v => rfl

namespace Program

variable (limits : Limits) (scope : Ref .scope) (interactive : Bool)
  (file source : Text) (w : World)

theorem exec_loadFlat (limit : Nat) (flat : Text) :
    (loadFlat limit scope interactive flat).exec w =
      if isTooDeep limit flat then (.error .tooDeep, w) else
        (.ok ((w.store.plantProgram scope interactive (Tree.parse flat).1).1, (Tree.parse flat).2),
          { w with store := (w.store.plantProgram scope interactive (Tree.parse flat).1).2 }) := by
  unfold loadFlat
  generalize isTooDeep limit flat = deep
  generalize Tree.parse flat = parsed
  cases deep <;> rfl

/-- Running a source text is planting its statements and running them in a row, unless reading it
goes too deep. -/
theorem exec_run :
    (run limits scope interactive file source).exec w =
      if isTooDeep (2 * limits.nesting) (Layout.flatten source) then (.error .tooDeep, w) else
        (runAll (.ofLimits limits) file
          (Store.plantAll scope interactive (Tree.parse (Layout.flatten source)).1 w.store).1).exec
          { w with store := (w.store.plantProgram scope interactive
            (Tree.parse (Layout.flatten source)).1).2 } := by
  have loaded := exec_loadFlat scope interactive w (2 * limits.nesting) (Layout.flatten source)
  have parts : run limits scope interactive file source =
      loadFlat (2 * limits.nesting) scope interactive (Layout.flatten source) >>= fun loaded =>
        execute limits loaded.1 file := by
    simp only [run, load, bind_assoc, pure_bind]
  rw [parts]
  generalize Tree.parse (Layout.flatten source) = parsed at loaded ⊢
  split
  · next deep =>
    rw [if_pos deep] at loaded
    exact Run.exec_bind_error w loaded
  · next fits =>
    rw [if_neg fits] at loaded
    have cell : (w.store.plantProgram scope interactive parsed.1).2.node
      (w.store.plantProgram scope interactive parsed.1).1 =
        ⟨[], 0, (Store.plantAll scope interactive parsed.1 w.store).1, scope, interactive⟩ :=
          Store.newNode_read (.refl _)
    rw [Run.exec_bind_ok w loaded, execute, runBody, Run.exec_bind_ok _ (Run.exec_getStore _), cell]

end Program

/-- Two source texts with a semicolon between them, the blocks of the first closed in it, are one
program after the other: its trees come first and those of the second behind them, their positions
moved on; they are planted side by side and share only the scope around them; and the second part
runs exactly if the first ends normally, from where it ended. -/
theorem run_join (limits : Limits) (scope : Ref .scope) (interactive : Bool)
    (file first second : Text) (w : World) :
    Layout.flatten (first ++ ';' :: second) = Layout.flatten first ++ ';' :: Layout.flatten second ∧
    (Tree.Balanced (Tree.roles ((Layout.flatten first).splitOn ';')) →
      let size := ((Layout.flatten first).splitOn ';').length
      let before := Tree.parse (Layout.flatten first)
      let behind := Tree.parse (Layout.flatten second)
      let whole := Tree.parse (Layout.flatten (first ++ ';' :: second))
      let planted := Store.plantAll scope interactive before.1 w.store
      let added := Store.plantAll scope interactive (Tree.shiftAll size behind.1) planted.2
      let program := w.store.plantProgram scope interactive whole.1
      let tooDeep := Program.isTooDeep (2 * limits.nesting)
      whole = (before.1 ++ Tree.shiftAll size behind.1, size + behind.2) ∧
      added.2.Extends program.2 ∧ program.2.Joins program.1 scope planted.1 added.1 ∧
      (tooDeep (Layout.flatten first) || tooDeep (Layout.flatten second) →
        (Program.run limits scope interactive file (first ++ ';' :: second)).exec w =
          (.error .tooDeep, w)) ∧
      (tooDeep (Layout.flatten first) = false → tooDeep (Layout.flatten second) = false →
        ∀ outcome middle, (runAll (.ofLimits limits) file planted.1).exec
          { w with store := program.2 } = (outcome, middle) →
          (outcome = .ok .done →
            (Program.run limits scope interactive file (first ++ ';' :: second)).exec w =
            (runAll (.ofLimits limits) file added.1).exec middle) ∧
          (outcome ≠ .ok .done → (Program.run limits scope interactive file
            (first ++ ';' :: second)).exec w = (outcome, middle)))) := by
  refine ⟨Layout.flatten_join first second, fun balanced => ?_⟩
  have run := Program.exec_run limits scope interactive file (first ++ ';' :: second) w
  rw [Layout.flatten_join, Tree.isTooDeep_join balanced, Tree.parse_join balanced] at run
  rw [Layout.flatten_join, Tree.parse_join balanced]
  generalize Layout.flatten first = front at run balanced ⊢
  generalize Layout.flatten second = back at run ⊢
  intro size before behind whole planted added program tooDeep
  obtain ⟨extended, joins⟩ := Store.plantProgram_append scope interactive before.1
    (Tree.shiftAll size behind.1) w.store
  refine ⟨rfl, extended, joins, ?_, ?_⟩
  · intro deep
    rw [run, if_pos deep]
  · intro fits also outcome middle ran
    have shallow : (tooDeep front || tooDeep back) = false := by rw [fits, also, Bool.or_self]
    have row :
        (Store.plantAll scope interactive (before.1 ++ Tree.shiftAll size behind.1) w.store).1 =
          planted.1 ++ added.1 := by
      rw [Store.plantAll_append]
    rw [shallow, if_neg Bool.false_ne_true, row] at run
    rw [run]
    exact exec_runAll_append ran

theorem run_join_block :
    let first := "while 1 == 2 \x7b\n\x7d".toList
    let second := "print 'b';\x7d print 2;".toList
    let start : World := { store := (({} : Store).newScope none).2 }
    Tree.Balanced (Tree.roles ((Layout.flatten first).splitOn ';')) ∧
    ∃ last, (Program.run ⟨6, 4⟩ ⟨0⟩ false [] (first ++ ';' :: second)).exec start =
      (.ok .done, last) ∧ last.output = ['b'] := by
  intro first second start
  have balanced : Tree.Balanced (Tree.roles ((Layout.flatten first).splitOn ';')) := by decide
  have cut : (Layout.flatten first).splitOn ';' =
    ["while 1==2".toList, "endblock".toList, []] := by rfl
  have front : Tree.parse (Layout.flatten first) =
    ([.block "while 1==2".toList 0 [], .leaf [] 2], 2) := by rfl
  have cut' : (Layout.flatten second).splitOn ';' =
    ["print 'b'".toList, "endblock".toList, " print 2".toList, []] := by rfl
  have back : Tree.parse (Layout.flatten second) = ([.leaf "print 'b'".toList 0], 1) := by rfl
  have shallow : Program.isTooDeep 12 (Layout.flatten first) = false ∧
      Program.isTooDeep 12 (Layout.flatten second) = false := by
    rw [Program.isTooDeep_eq, Program.isTooDeep_eq, front, cut, back, cut']
    simp [Tree.depthAll, Tree.depth, Spelled.leadingSpaces, Spells.spells]
  obtain ⟨trees, -, -, -, runs⟩ := (run_join ⟨6, 4⟩ ⟨0⟩ false [] first second start).2 balanced
  have runs := runs shallow.1 shallow.2
  rw [trees, front, back, cut] at runs
  let loaded : World := { store := (start.store.plantProgram ⟨0⟩ false
    [.block "while 1==2".toList 0 [], .leaf [] 2, .leaf "print 'b'".toList 3]).2 }
  have tested : ((Evaluator.ofLimits ⟨6, 4⟩).run ⟨0⟩ []).exec loaded = (.ok .done, loaded) := by rfl
  have passed : ((Evaluator.ofLimits ⟨6, 4⟩).run ⟨1⟩ []).exec loaded = (.ok .done, loaded) := by rfl
  have printed : ((Evaluator.ofLimits ⟨6, 4⟩).run ⟨2⟩ []).exec loaded =
    (.ok .done, { loaded with printed := [['b']] }) := by rfl
  have before : (runAll (.ofLimits ⟨6, 4⟩) [] [⟨0⟩, ⟨1⟩]).exec loaded = (.ok .done, loaded) := by
    rw [runAll, Run.exec_bind_ok loaded tested, runAll, Run.exec_bind_ok loaded passed]
    rfl
  have behind : (runAll (.ofLimits ⟨6, 4⟩) [] [⟨2⟩]).exec loaded =
      (.ok .done, { loaded with printed := [['b']] }) := by
    rw [runAll, Run.exec_bind_ok loaded printed]
    rfl
  have ran := (runs (.ok .done) loaded before).1 rfl
  exact ⟨balanced, _, ran.trans behind, rfl⟩

end CommandScript
