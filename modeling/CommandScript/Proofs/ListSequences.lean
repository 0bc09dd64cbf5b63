import CommandScript.Proofs.ListCommands

/-! Lists as sequences. A list that is stored under a new name is a sequence of values, and whatever
names a row of commands uses, it reads the elements and lengths of this one sequence, as long as no
index has to come round too often. -/
namespace CommandScript

/-! ### New lists -/

structure Arrays (line name : Text) (texts : List Text) : Prop where
  verb : (Command.of line).verb? = some .array
  spread : (Command.of line).spread = "array".toList :: name :: texts
  listed : texts ≠ []

/-- The expressions for the elements of a new list: none if the first of them is the word for an
empty list. -/
def elementTexts (texts : List Text) : List Text :=
  if texts.head? = some "none".toList then [] else texts

def creating (ev : Evaluator) (scope : Ref .scope) (isGlobal : Bool) (name : Text)
    (texts : List Text) : Run Outcome := do
  let vs ← texts.mapM (ev.valueOf scope)
  let l ← Run.alloc (·.newList (vs.map Item.bare).toArray)
  assign ev scope isGlobal name (.bare (.list l))
  return .done

/-- Storing a new list is evaluating its elements and assigning the list. -/
theorem Site.exec_arrays {t : Site} {line name : Text} {texts : List Text}
    (command : t.command = .of line) (arrays : Arrays line name texts)
    (notLocal : name ≠ "local".toList) (w : World) :
    t.act.exec w = (creating t.ev t.scope true name (elementTexts texts)).exec w := by
  obtain ⟨second, more, rfl⟩ := List.exists_cons_of_ne_nil arrays.listed
  have spread : t.command.spread = "array".toList :: name :: second :: more := by
    rw [command, arrays.spread]
  have elements : (if second = "none".toList then [] else second :: more) =
      elementTexts (second :: more) := by
    simp only [elementTexts, List.head?_cons, Option.some.injEq]
  rw [Site.act, command, arrays.verb]
  change t.array.exec w = _
  rw [Site.array, spread, Run.exec_bind_ok w (Run.exec_nth rfl w),
    Run.exec_bind_ok w (Run.exec_nth rfl w)]
  simp only [notLocal, if_false, List.drop_succ_cons, List.drop_zero, elements, newList,
    bind_assoc, pure_bind]
  rfl

namespace Store

variable {st later : Store} {scope : Ref .scope}

def withList (st : Store) (vs : List Value) : Store := (st.newList (vs.map Item.bare).toArray).2

private theorem resolve_withList (vs : List Value) (scope : Ref .scope) (name : Text) :
    (st.withList vs).resolve scope name = st.resolve scope name := by
  have scopes : (st.withList vs).scopes = st.scopes := rfl
  have tables : (st.withList vs).tables = st.tables := rfl
  exact resolve_congr scopes tables scope name

private theorem targetOf_withList (st : Store) (vs : List Value) (scope : Ref .scope)
    (isGlobal : Bool) : (st.withList vs).targetOf scope isGlobal = st.targetOf scope isGlobal := by
  have scopes : (st.withList vs).scopes = st.scopes := rfl
  simp only [targetOf, globalOf, ancestors_congr scopes, Store.scope, scopes]

private theorem list_withList (st : Store) (vs : List Value) :
    (st.withList vs).list ⟨st.lists.size⟩ = (vs.map Item.bare).toArray :=
  Arena.read_alloc_fresh st.lists _

private theorem has_withList (st : Store) (vs : List Value) :
    (st.withList vs).Has (Ref.cell (k := .list) ⟨st.lists.size⟩) :=
  Arena.holds_alloc_fresh st.lists _

private theorem mem_list_withList {v : Value} {vs : List Value}
    (member : .bare v ∈ ((st.withList vs).list ⟨st.lists.size⟩).toList) : v ∈ vs := by
  rw [list_withList, List.mem_map] at member
  obtain ⟨u, given, same⟩ := member
  cases same
  exact given

theorem Closed.withList (closed : st.Closed) {vs : List Value}
    (known : ∀ v ∈ vs, st.HasAll v.cells) : (st.withList vs).Closed := by
  refine closed.newList fun c member => ?_
  obtain ⟨item, listed, edge⟩ := List.mem_flatMap.mp member
  obtain ⟨v, given, rfl⟩ := List.mem_map.mp listed
  exact known v given c edge

theorem Wrappable.withList {v : Value} (wrappable : st.Wrappable v) (closed : st.Closed)
    (known : st.HasAll v.cells) (vs : List Value) : (st.withList vs).Wrappable v := by
  have unchanged : ∀ l : Ref .list, st.Has l.cell → (st.withList vs).list l = st.list l :=
    fun l held =>
    Arena.read_alloc_of_holds st.lists _ l held
  induction wrappable with
  | @settled v settled =>
    cases settled with
    | list l held =>
      refine .settled (.list l ?_)
      rwa [unchanged l (known _ List.mem_cons_self)]
    | bool b => exact .settled (.bool b)
    | int n => exact .settled (.int n)
    | float x => exact .settled (.float x)
    | text s quoted two => exact .settled (.text s quoted two)
    | node r => exact .settled (.node r)
    | record q => exact .settled (.record q)
  | @list l bare ih =>
    have held : st.Has l.cell := known _ List.mem_cons_self
    refine .list fun v member => ?_
    rw [unchanged l held] at member
    exact ih v member (closed.item held member)

/-- A new list whose elements have become variables represents the values that they were made of. -/
theorem Wraps.represents {vs : List Value} (wraps : (st.withList vs).Wraps later)
    (closed : (st.withList vs).Closed) (after : later.Closed) (inside : later.Has scope.cell)
    (held : ∀ item ∈ (later.list ⟨st.lists.size⟩).toList, ∃ r, item = .held r) :
    later.Represents scope ⟨st.lists.size⟩ ⟨[], vs.map Value.asRead⟩ := by
  refine ⟨after, inside, fun _ member => absurd member List.not_mem_nil, ?_, fun i v there => ?_⟩
  · rw [wraps.list_size, list_withList]
    simp
  · obtain ⟨u, given, rfl⟩ : ∃ u, vs[i]? = some u ∧ u.asRead = v := by
      rw [List.getElem?_map] at there
      exact Option.map_eq_some_iff.mp there
    have was : ((st.withList vs).list ⟨st.lists.size⟩)[i]? = some (.bare u) := by
      rw [list_withList, List.getElem?_toArray, List.getElem?_map, given]
      rfl
    rcases wraps.items ⟨st.lists.size⟩ i with same | ⟨_, r, bare, now, new, has, reads⟩
    -- no element is bare any more
    · obtain ⟨r, same⟩ := held _ (Array.mem_toList_iff.mpr (Array.mem_of_getElem? (same.trans was)))
      cases same
    · cases was.symm.trans bare
      exact ⟨.held r, now, reads, has, wraps.not_isBound closed (.inr new)⟩

end Store

section Creation

variable (rounds n : Nat) {scope : Ref .scope} (isGlobal : Bool) {w middle : World} {name : Text}
  {texts : List Text}
  (identifier : Identifier name) {vs : List Value}
  (values : (texts.mapM ((Evaluator.ofRoom rounds (n + 2)).valueOf scope)).exec w =
    (.ok vs, middle))
  (unknown : middle.store.resolve scope name = none)
include identifier values unknown

/-- The new list is assigned to the name, which is declared. -/
theorem exec_creating :
    let listed : World := { middle with store := middle.store.withList vs }
    (creating (.ofRoom rounds (n + 2)) scope isGlobal name texts).exec w =
      (declaring (.ofRoom rounds (n + 2)) (middle.store.targetOf scope isGlobal) name
        (.list ⟨middle.store.lists.size⟩) >>= fun _ =>
        pure Outcome.done).exec listed := by
  intro listed
  have made : (Run.alloc (·.newList (vs.map Item.bare).toArray)).exec middle =
    (.ok ⟨middle.store.lists.size⟩, listed) := rfl
  have still : listed.store.resolve scope name = none :=
    (Store.resolve_withList vs scope name).trans unknown
  have assigned := exec_assign_new (v := .list ⟨middle.store.lists.size⟩) listed
    (.ofRoom rounds (n + 2)) isGlobal
    identifier.newName.single identifier.nonempty identifier.newName.noElement still
  rw [creating, Run.exec_bind_ok w values, Run.exec_bind_ok middle made, Run.exec_bind,
    assigned, ← Run.exec_bind, middle.store.targetOf_withList]

/-- A list of numbers and texts can always be stored. Its elements become variables, and no other
list changes. -/
theorem exec_creating_scalars (scalars : ∀ v ∈ vs, v.IsScalar) :
    let listed : World := { middle with store := middle.store.withList vs }
    let target := middle.store.targetOf scope isGlobal
    let l : Ref .list := ⟨middle.store.lists.size⟩
    ∃ after, listed.Wraps (some target) after ∧
    (∀ k : Ref .list, k ≠ l → after.store.list k = listed.store.list k) ∧
      (creating (.ofRoom rounds (n + 2)) scope isGlobal name texts).exec w =
        (.ok .done, { after with
        store := after.store.bindName target name { name := some name, home := some target,
                                                    content := .list l, tag := .list } }) := by
  intro listed target l
  have scalars : ∀ v, .bare v ∈ (listed.store.list l).toList → v.IsScalar :=
    fun v member => scalars v (Store.mem_list_withList member)
  obtain ⟨after, evaluated, wraps, others⟩ := evaluate_scalars rounds n (some target) scalars
  exact ⟨after, wraps, others, (exec_creating rounds n isGlobal identifier values unknown).trans
    (Run.exec_bind_ok listed (declaring_list rounds (n + 1) (.of_scalars scalars) evaluated))⟩

variable (closed : middle.store.Closed) (inside : middle.store.Has scope.cell)
  (known : ∀ v ∈ vs, middle.store.HasAll v.cells)
include closed inside known

/-- A new list represents the values of its elements, under the one name that it is stored under. -/
theorem represents_of_creating (wrappable : ∀ v ∈ vs, middle.store.Wrappable v)
    {outcome : Outcome} {later : World}
    (performed : (creating (.ofRoom rounds (n + 2)) scope isGlobal name texts).exec w =
      (.ok outcome, later)) :
    ∃ l, later.store.Represents scope l ⟨[name], vs.map Value.asRead⟩ := by
  let listed : World := { middle with store := middle.store.withList vs }
  let l : Ref .list := ⟨middle.store.lists.size⟩
  have wrappable : listed.store.Wrappable (.list l) := by
    refine .list fun v member => ?_
    have given := Store.mem_list_withList member
    exact (wrappable v given).withList closed (known v given) vs
  have grows : middle.store.Grows listed.store := (middle.store.extends_newList _).grows
  have before : listed.store.Closed := closed.withList known
  rw [exec_creating rounds n isGlobal identifier values unknown] at performed
  obtain ⟨_, final, declared, ended⟩ := Run.exec_bind_inv listed performed
  cases ended
  -- the list is evaluated before the name is bound, so that its elements are variables by then
  obtain ⟨v, after, evaluated, _⟩ := Run.exec_bind_inv listed declared
  rw [declaring_list rounds (n + 1) wrappable evaluated] at declared
  cases declared
  obtain ⟨_, wraps, held⟩ := evaluate_wraps rounds (n + 2) wrappable evaluated
  have chain : middle.store.targetOf scope isGlobal ∈ listed.store.ancestors scope := by
    rw [← middle.store.targetOf_withList vs]
    exact listed.store.targetOf_mem_ancestors scope isGlobal
  have target := before.ancestors (inside.mono grows) chain
  have closed := wraps.closed before fun h same => Option.some.inj same ▸ target
  have rep := wraps.store.represents before closed ((inside.mono grows).mono wraps.store.grows) held
  have fresh : after.store.Has l.cell := (middle.store.has_withList vs).mono wraps.store.grows
  have inner : middle.store.targetOf scope isGlobal ∈ after.store.ancestors scope := by
    rw [Store.ancestors_congr wraps.store.scopes]
    exact chain
  have still : after.store.resolve scope name = none := by
    rw [wraps.store.resolve, Store.resolve_withList, unknown]
  exact ⟨l, rep.declare fresh identifier inner still⟩

end Creation

section Arrays

variable (rounds n : Nat) (node : Ref .node) {scope : Ref .scope} (file : Text) {w middle : World}
  {line name : Text}
  {texts : List Text} (arrays : Arrays line name texts) (identifier : Identifier name)
  {vs : List Value}
  (values : ((elementTexts texts).mapM ((Evaluator.ofRoom rounds (n + 2)).valueOf scope)).exec w =
    (.ok vs, middle))
  (unknown : middle.store.resolve scope name = none)
include arrays identifier values unknown

private theorem exec_arrays_operands (operands : ∀ v ∈ vs, v.IsOperand) :
    ∃ later, (Site.mk (.ofRoom rounds (n + 2)) node scope file (.of line)).act.exec w =
      (.ok .done, later) := by
  rw [Site.exec_arrays rfl arrays identifier.newName.notLocal]
  obtain ⟨_, _, _, performed⟩ :=
    exec_creating_scalars rounds n true identifier values unknown fun v given =>
      (operands v given).scalar
  exact ⟨_, performed⟩

private theorem represents_of_arrays (closed : middle.store.Closed)
    (inside : middle.store.Has scope.cell) (known : ∀ v ∈ vs, middle.store.HasAll v.cells)
    (wrappable : ∀ v ∈ vs, middle.store.Wrappable v) {outcome : Outcome} {later : World}
    (performed : (Site.mk (.ofRoom rounds (n + 2)) node scope file (.of line)).act.exec w =
      (.ok outcome, later)) :
    ∃ l, later.store.Represents scope l ⟨[name], vs.map Value.asRead⟩ := by
  rw [Site.exec_arrays rfl arrays identifier.newName.notLocal] at performed
  exact represents_of_creating rounds n true identifier values unknown closed inside known
    wrappable performed

end Arrays

/-! ### Rows of commands -/

/-- What is done with a list: another name for it, a value at its end, a value for an element, and
questions for an element and for the length. With an expression for a value or an index comes what
it gives. -/
inductive ListStep where
  | share (new old : Text)
  | append (name text : Text) (v : Value)
  | put (name index text : Text) (i : Int) (v : Value)
  | read (name index : Text) (i : Int)
  | measure (into name : Text)

namespace SharedList

def next (s : SharedList) : ListStep → SharedList
  | .share new _ => { s with names := new :: s.names }
  | .append _ _ v => { s with elements := s.elements ++ [v] }
  | .put _ _ _ i v => { s with elements := s.elements.set (s.place i) v }
  | .read .. | .measure .. => s

def answer (s : SharedList) : ListStep → Option Value
  | .read _ _ i => s.elements[s.place i]?
  | .measure .. => some (.int s.elements.length)
  | .share .. | .append .. | .put .. => none

def answers : SharedList → List ListStep → List (Option Value)
  | _, [] => []
  | s, step :: rest => s.answer step :: (s.next step).answers rest

end SharedList

def ListStep.perform (ev : Evaluator) (node : Ref .node) (scope : Ref .scope) (file : Text) :
    ListStep → Run (Option Value)
  | share new old => command (setting new old)
  | append name text _ => command (appending name text)
  | put name index text _ _ => command (setting (indexing name index) text)
  | read name index _ => some <$> ev.valueOf scope (indexing name index)
  | measure into name => do
    let _ ← command (measuring into name)
    some <$> ev.valueOf scope into
where
  command (line : Text) : Run (Option Value) := do
    let _ ← (Site.mk ev node scope file (.of line)).act
    return none

section Steps

variable (rounds n : Nat) (node : Ref .node) (scope : Ref .scope) (file : Text)

/-- A step is about a name of the list and is given what it needs: a name that can be declared, a
number or a text to store, or an index that is not below the first element and not, where an element
is written to, beyond the last one. -/
inductive ListStep.Fits (w : World) (s : SharedList) : ListStep → Prop where
  | share {new old : Text} (known : old ∈ s.names) (identifier : Identifier new)
      (unknown : w.store.resolve scope new = none) :
      Fits w s (.share new old)
  | append {name text : Text} {v : Value} (known : name ∈ s.names) (operand : v.IsOperand)
      (value : ((Evaluator.ofRoom rounds (n + 3)).valueOf scope (text.before ' ')).exec w =
        (.ok v, w)) : Fits w s (.append name text v)
  | put {name index text : Text} {i : Int} {u v : Value} (known : name ∈ s.names)
      (operand : v.IsOperand)
      (value : ((Evaluator.ofRoom rounds (n + 3)).valueOf scope text).exec w = (.ok v, w))
      (front : text.head? ≠ some ' ')
      (back : text.getLast? ≠ some ' ') (plain : ∀ c ∈ index, c ∉ [' ', '=', '['])
      (hidden : w.store.isVisible scope (indexing name index) = false)
      (given : ((Evaluator.ofRoom rounds (n + 3)).valueOf scope index).exec w = (.ok u, w))
      (whole : u.toInt = .ok i)
      (above : -s.elements.length ≤ i) (below : i < s.elements.length) :
      Fits w s (.put name index text i v)
  | read {name index : Text} {i : Int} {u : Value} (known : name ∈ s.names) (flat : '[' ∉ index)
      (given : ((Evaluator.ofRoom rounds (n + 2)).valueOf scope index).exec w = (.ok u, w))
      (whole : u.toInt = .ok i)
      (positive : 0 < s.elements.length) (above : -s.elements.length ≤ i)
      (near : i < s.elements.length * (2 * (n + 2) + 1)) :
      Fits w s (.read name index i)
  | measure {into name : Text} (known : name ∈ s.names) (identifier : Identifier into)
      (free : w.store.resolve scope into = none ∨ w.store.IsNumeric scope into) :
      Fits w s (.measure into name)

def ListStep.Fitting : List ListStep → World → SharedList → Prop
  | [], _, _ => True
  | step :: rest, w, s => step.Fits rounds n scope w s ∧
    Fitting rest ((step.perform (.ofRoom rounds (n + 3)) node scope file).exec w).2 (s.next step)

variable {w : World} {l : Ref .list} {s : SharedList}

private theorem ListStep.exec_command {ev : Evaluator} {line : Text} {later : World}
    (performed : (Site.mk ev node scope file (.of line)).act.exec w = (.ok .done, later)) :
    (ListStep.perform.command ev node scope file line).exec w = (.ok none, later) :=
      Run.exec_bind_ok w performed

private theorem ListStep.exec_question {x : Run Value} {v : Value} (given : x.exec w = (.ok v, w)) :
    (some <$> x).exec w = (.ok (some v), w) := by
  rw [map_eq_pure_bind]
  exact Run.exec_bind_ok w given

/-- A step that fits does to the list what it does to the sequence. -/
theorem ListStep.Fits.represents {step : ListStep} (fits : step.Fits rounds n scope w s)
    (rep : w.store.Represents scope l s) :
    ∃ later, (step.perform (.ofRoom rounds (n + 3)) node scope file).exec w =
      (.ok (s.answer step), later) ∧
      later.store.Represents scope l (s.next step) := by
  cases fits with
  | share known identifier unknown =>
    obtain ⟨later, performed, after⟩ := rep.exec_sharing rounds (n + 1) known identifier unknown
    exact ⟨later, exec_command node scope file performed, after⟩
  | append known operand value =>
    obtain ⟨_, _, found⟩ := rep.names _ known
    exact ⟨_, exec_command node scope file (rep.exec_appending known value),
      rep.push operand (found.has_list rep.closed rep.inside)⟩
  | put known operand value front back plain hidden given whole above below =>
    obtain ⟨later, performed, after⟩ :=
      rep.exec_putting rounds (n + 1) known operand value front back plain hidden given
        whole above below
    exact ⟨later, exec_command node scope file performed, after⟩
  | read known flat given whole positive above near =>
    obtain ⟨v, there, value⟩ :=
      rep.exec_reading rounds (n + 2) known flat given whole positive above (by exact_mod_cast near)
    refine ⟨w, ?_, rep⟩
    rw [SharedList.answer, there]
    exact exec_question value
  | measure known identifier free =>
    obtain ⟨later, performed, after, value⟩ :=
      rep.exec_counting rounds (n + 1) known identifier free
    exact ⟨later, (Run.exec_bind_ok w (exec_command node scope file performed)).trans
      (exec_question value), after⟩

/-- A row of steps does to the list what it does to the sequence. -/
theorem ListStep.Fitting.represents {steps : List ListStep}
    (fitting : ListStep.Fitting rounds n node scope file steps w s)
    (rep : w.store.Represents scope l s) :
    ∃ later, (steps.mapM (ListStep.perform (.ofRoom rounds (n + 3)) node scope file)).exec w =
      (.ok (s.answers steps), later) ∧
      later.store.Represents scope l (steps.foldl SharedList.next s) := by
  induction steps generalizing w s with
  | nil => exact ⟨w, rfl, rep⟩
  | cons step rest ih =>
    obtain ⟨fits, others⟩ := fitting
    obtain ⟨middle, performed, after⟩ := fits.represents rounds n node scope file rep
    rw [performed] at others
    obtain ⟨later, answered, final⟩ := ih others after
    refine ⟨later, ?_, final⟩
    rw [List.mapM_cons, Run.exec_bind_ok w performed, Run.exec_bind_ok middle answered]
    rfl

end Steps

/-- A list that is stored under a new name is a sequence of the values that its elements were made
of, provided that variables can be made of them as they are; and a list of numbers and texts is
always stored. From then on, whatever row of steps uses it under whichever of its names, the
elements that are read and the lengths that are stored are those of the sequence, to which values
are added at the end and in which they are replaced. An element is not read if the index would have
to come round more often than twice the levels that are left. Appending takes the value of the first
word of the expression, whatever it is; and if that is a text that lost its quotes, the list cannot
be given another name afterwards. -/
theorem list_variables_share_sequence (rounds n : Nat) (node : Ref .node) (scope : Ref .scope)
    (file : Text) :
    let ev := Evaluator.ofRoom rounds (n + 3)
    let run := fun line => (Site.mk ev node scope file (.of line)).act.exec
    (∀ w middle line name texts vs, Arrays line name texts → Identifier name →
      ((elementTexts texts).mapM (ev.valueOf scope)).exec w = (.ok vs, middle) →
        middle.store.Closed → middle.store.Has scope.cell →
      middle.store.resolve scope name = none →
        (∀ v ∈ vs, middle.store.HasAll v.cells ∧ middle.store.Wrappable v) →
      ((∀ v ∈ vs, v.IsOperand) → ∃ later, run line w = (.ok .done, later)) ∧
      ∀ outcome later, run line w = (.ok outcome, later) →
        ∃ l, later.store.Represents scope l ⟨[name], vs.map Value.asRead⟩) ∧
    ∀ w l s, w.store.Represents scope l s →
      (∀ steps, ListStep.Fitting rounds n node scope file steps w s →
        ∃ later, (steps.mapM (ListStep.perform ev node scope file)).exec w =
          (.ok (s.answers steps), later) ∧
          later.store.Represents scope l (steps.foldl SharedList.next s)) ∧
      (∀ name index u i, name ∈ s.names → '[' ∉ index →
        ((Evaluator.ofRoom rounds (n + 2)).valueOf scope index).exec w = (.ok u, w) →
        u.toInt = .ok i → s.elements.length * (2 * (n + 2) + 1) ≤ i →
        (ev.valueOf scope (indexing name index)).exec w = (.error .tooDeep, w)) ∧
      (∀ name text v, name ∈ s.names → (ev.valueOf scope (text.before ' ')).exec w = (.ok v, w) →
        run (appending name text) w = (.ok .done, { w with store := w.store.push l v })) ∧
      ∀ name new t, name ∈ s.names → Identifier new → w.store.resolve scope new = none →
        w.store.Unreadable (w.store.targetOf scope (!file.isEmpty)) t →
        (run (setting new name) { w with store := w.store.push l (.text t) }).1 =
          .error .badValue := by
  intro ev run
  refine ⟨fun w middle line name texts vs arrays identifier values closed inside unknown each =>
    ⟨fun operands => ?_, ?_⟩, ?_⟩
  · exact exec_arrays_operands rounds (n + 1) node file arrays identifier values unknown operands
  · intro outcome later performed
    exact represents_of_arrays rounds (n + 1) node file arrays identifier values unknown
      closed inside
      (fun v given => (each v given).1) (fun v given => (each v given).2) performed
  intro w l s rep
  refine ⟨fun steps fitting => fitting.represents rounds n node scope file rep, ?_, ?_, ?_⟩
  · intro name index u i known flat given whole far
    exact rep.exec_reading_far rounds (n + 2) known flat given whole (by exact_mod_cast far)
  · intro name text v known value
    exact rep.exec_appending known value
  · intro name new t known identifier unknown unreadable
    exact rep.sharing_unreadable rounds n known identifier unknown unreadable

@[irreducible] def Store.lone : Store where
  scopes := ⟨#[{ parent := none, table := ⟨0⟩ }]⟩
  tables := ⟨#[[]]⟩

/-- A list gets a second name, a third element through it, and another first element through the
first name; then the fifth element comes round to the second one. -/
theorem list_variables_share_sequence_two_names :
    let ev := Evaluator.ofRoom 0 3
    let made := (Site.mk ev ⟨0⟩ ⟨0⟩ [] (.of "array x = 1 'a'".toList)).act.exec
      { store := Store.lone }
    let steps : List ListStep :=
      [.share ['y'] ['x'], .append ['y'] ['2'] (.int 2), .put ['x'] "-3".toList "'b'".toList (-3)
      (.text "'b'".toList), .read ['y'] ['4'] 4, .measure ['m'] ['y']]
    made.1.isOk = true ∧ ((steps.mapM (ListStep.perform ev ⟨0⟩ ⟨0⟩ [])).exec made.2).1 =
      .ok [none, none, none, some (.text "'a'".toList), some (.int 3)] := by
  intro ev made steps
  have identifier : Identifier ['x'] ∧ Identifier ['y'] ∧ Identifier ['m'] := by
    refine ⟨?_, ?_, ?_⟩ <;> exact ⟨by decide, by simp, by decide, by decide, by decide⟩
  have number : ∀ (text : Text) (i : Int), Number.readInt? text = some i → Denotes text (.int i) :=
    fun _ _ numeral => .int numeral
  have quoted : ∀ c : Char, Denotes ['\'', c, '\''] (.text ['\'', c, '\'']) :=
    fun c => .quoted rfl (by simp)
  obtain ⟨creation, running⟩ := list_variables_share_sequence 0 0 ⟨0⟩ ⟨0⟩ []
  have values : ((elementTexts [['1'], "'a'".toList]).mapM (ev.valueOf ⟨0⟩)).exec
    { store := Store.lone } =
      (.ok [.int 1, .text "'a'".toList], { store := Store.lone }) := by
    have first := (number ['1'] 1 (by decide)).exec_valueOf 0 1 ⟨0⟩ { store := Store.lone }
    have second : (ev.valueOf ⟨0⟩ "'a'".toList).exec { store := Store.lone } =
        (.ok (.text "'a'".toList), { store := Store.lone }) :=
      (quoted 'a').exec_valueOf 0 1 ⟨0⟩ _
    have elements : elementTexts [['1'], "'a'".toList] = [['1'], "'a'".toList] := rfl
    rw [elements, List.mapM_cons, Run.exec_bind_ok _ first, List.mapM_cons, bind_assoc,
      Run.exec_bind_ok _ second]
    rfl
  have operands : ∀ v ∈ [Value.int 1, .text "'a'".toList], v.IsOperand :=
    List.forall_mem_cons.mpr ⟨.int 1, List.forall_mem_singleton.mpr (.text ['a'])⟩
  obtain ⟨possible, represented⟩ :=
    creation { store := Store.lone } { store := Store.lone } "array x = 1 'a'".toList ['x']
    [['1'], "'a'".toList] _ ⟨by decide, by decide, by simp⟩ identifier.1 values (by decide +kernel)
      (by decide +kernel) (by decide +kernel)
    fun v given => ⟨(operands v given).scalar.cells ▸ Store.hasAll_nil _,
      .settled ((operands v given).scalar.settled _)⟩
  obtain ⟨later, performed⟩ := possible operands
  have place : later = made.2 := (congrArg Prod.snd performed).symm
  obtain ⟨l, rep⟩ := represented _ _ performed
  rw [place] at rep
  have fitting : ListStep.Fitting 0 0 ⟨0⟩ ⟨0⟩ [] steps made.2
      ⟨[['x']], [.int 1, .text "'a'".toList]⟩ := by
    refine ⟨.share List.mem_cons_self identifier.2.1 (by decide +kernel),
      .append List.mem_cons_self (.int 2) ?_,
      .put (by decide) (.text ['b']) ((quoted 'b').exec_valueOf 0 1 _ _) (by decide) (by decide)
        (by simp) (by decide +kernel)
        ((number _ (-3) (by decide)).exec_valueOf 0 1 _ _) rfl (by decide) (by decide),
      .read List.mem_cons_self (by decide) ((number _ 4 (by decide)).exec_valueOf 0 0 _ _) rfl
        (by decide) (by decide) (by decide),
      .measure List.mem_cons_self identifier.2.2 (.inl (by decide +kernel)), trivial⟩
    exact (number ['2'] 2 (by decide)).exec_valueOf 0 1 _ _
  obtain ⟨_, answered, _⟩ := (running made.2 l _ rep).1 steps fitting
  have ok : made.1 = .ok .done := congrArg Prod.fst performed
  refine ⟨by rw [ok]; rfl, ?_⟩
  rw [answered]
  rfl

end CommandScript
