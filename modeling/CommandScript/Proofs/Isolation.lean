import CommandScript.Proofs.Regions
import CommandScript.Proofs.Settings

/-! Objects are isolated. The call of a class gives a copy of all that can be reached from the
class, made of new cells. So two objects of a class have nothing in common, and whatever is assigned
to members of one of them is seen through it alone. -/
namespace CommandScript

/-- A name means a class, and the outermost scope of the class has no shared variable. -/
structure Store.MeansClass (st : Store) (scope : Ref .scope) (cls : Text)
    (q : Ref .record) : Prop where
  means : ∃ r, st.findPath scope cls = some r ∧ (st.var r).reading = .ok (.record q)
  body : ∃ table node, (st.record q).body = some (table, node) ∧
    (st.tableOf (st.root (st.node node).scope)).find? sharedName = none

theorem Store.MeansClass.has {st : Store} {scope : Ref .scope} {cls : Text} {q : Ref .record}
    (means : st.MeansClass scope cls q) (closed : st.Closed) (held : st.Has scope.cell) :
    st.Has q.cell := by
  obtain ⟨r, found, reads⟩ := means.means
  have inside := closed.findPath held found
  have content : (st.var r).content = .record q := by
    unfold Variable.reading at reads
    split at reads
    · split at reads <;> cases reads
    · exact Except.ok.inj reads
  have known := closed.content inside
  rw [content] at known
  exact known _ (List.mem_singleton.mpr rfl)

private theorem Evaluator.room_ofRoom (rounds n : Nat) : (ofRoom rounds n).room = n := by
  induction n with
  | zero => rfl
  | succ n ih => exact congrArg (· + 1) ih

theorem Evaluator.slack_ofRoom (rounds n : Nat) : (ofRoom rounds n).slack = 2 * n := by
  rw [slack, room_ofRoom]

def called (cls : Text) : Text := cls ++ ['(', ')']

private theorem before_called {cls : Text} (noCall : '(' ∉ cls) : (called cls).before '(' = cls :=
  Text.before_append_self noCall _

section Construction

variable {w : World} {scope : Ref .scope} {cls : Text} {q : Ref .record}

theorem exec_copyClass (ev : Evaluator) (q : Ref .record) (w : World) :
    (copyClass ev q).exec w =
      if ev.slack < (w.store.walkFrom q.cell).deepest then (.error .tooDeep, w)
      else (.ok (w.store.clone q).1, { w with store := (w.store.clone q).2 }) := by
  unfold copyClass
  rw [Run.exec_bind_ok w (Run.exec_getStore w)]
  split
  · rfl
  · rfl

private theorem exec_instantiate (ev : Evaluator) (means : w.store.MeansClass scope cls q) :
    (instantiate ev q).exec w =
      if ev.slack < (w.store.walkFrom q.cell).deepest then (.error .tooDeep, w)
      else (.ok (.record (w.store.clone q).1), { w with store := (w.store.clone q).2 }) := by
  obtain ⟨table, node, body, unshared⟩ := means.body
  unfold instantiate
  rw [Run.exec_bind_ok w (Run.exec_getStore w), body]
  change ((w.store.table (w.store.scope (w.store.root (w.store.node node).scope)).table).find?
    sharedName) = none at unshared
  simp only [unshared]
  rw [Run.exec_bind, exec_copyClass]
  by_cases deep : ev.slack < (w.store.walkFrom q.cell).deepest
  · simp only [if_pos deep]
  · simp only [if_neg deep, Run.exec_pure]

/-- The call of a class gives a clone, unless what it has to copy is nested too deep. -/
theorem exec_construction (rounds n : Nat) (noCall : '(' ∉ cls)
    (means : w.store.MeansClass scope cls q) :
    ((Evaluator.ofRoom rounds (n + 1)).valueOf scope (called cls)).exec w =
      if 2 * n < (w.store.walkFrom q.cell).deepest then (.error .tooDeep, w)
      else (.ok (.record (w.store.clone q).1), { w with store := (w.store.clone q).2 }) := by
  obtain ⟨r, found, reads⟩ := means.means
  have call : (called cls).getLast? = some ')' ∧
      w.store.isVisible scope ((called cls).before '(') = true := by
    rw [before_called noCall]
    exact ⟨by simp [called], Store.isVisible_of_findPath found⟩
  have held : (heldItem (.held r)).exec w = (.ok r, w) := rfl
  change (valueStep (Evaluator.ofRoom rounds n) scope (called cls)).exec w = _
  unfold valueStep
  rw [Run.exec_bind_ok w (Run.exec_getStore w), if_pos call, before_called noCall,
    Run.exec_bind_ok w (lookup_findPath _ found), Run.exec_bind_ok w held,
    Run.exec_bind_ok w ((Run.exec_readVariable r w).trans (by rw [reads]))]
  rw [← Evaluator.slack_ofRoom rounds n]
  exact exec_instantiate _ means

end Construction

/-! ### Declaring objects -/

def declaration (name cls : Text) : Text := setting name (called cls)

section Declaration

variable {name cls : Text}

def declarationSite (rounds n : Nat) (node : Ref .node) (scope : Ref .scope)
    (file name cls : Text) : Site :=
  { ev := .ofRoom rounds (n + 1), node, scope, file, command := .of (declaration name cls) }

@[irreducible] def Store.construct (st : Store) (scope : Ref .scope) (isGlobal : Bool)
    (name : Text) (q : Ref .record) : Store :=
  let made := (st.clone q).2
  let target := made.targetOf scope isGlobal
  made.bindName target name (Variable.ofValue made name (some target) (.record (st.clone q).1))

private theorem exec_declaration (rounds n : Nat) {w : World} {node : Ref .node}
    {scope : Ref .scope} {file : Text} {q : Ref .record} (new : NewName name) (noCall : '(' ∉ cls)
    (front : cls.head? ≠ some ' ') (means : w.store.MeansClass scope cls q)
    (unknown : (w.store.clone q).2.resolve scope name = none) :
    (2 * n < (w.store.walkFrom q.cell).deepest ∧
        (declarationSite rounds n node scope file name cls).act.exec w = (.error .tooDeep, w)) ∨
      (w.store.walkFrom q.cell).deepest ≤ 2 * n ∧
        (declarationSite rounds n node scope file name cls).act.exec w =
          (.ok .done, { w with store := w.store.construct scope (!file.isEmpty) name q }) := by
  let s := declarationSite rounds n node scope file name cls
  have flush : (called cls).head? ≠ some ' ' := by
    cases cls with
    | nil => decide
    | cons c rest => exact front
  have back : (called cls).getLast? ≠ some ' ' := by
    simp [called]
  have stores : ∀ made : World, made.store = (w.store.clone q).2 →
      (assign s.ev scope (!file.isEmpty) name (.bare (.record (w.store.clone q).1))).exec made =
        (.ok (), { made with store := w.store.construct scope (!file.isEmpty) name q }) := by
    intro made same
    rw [← same] at unknown
    have assigned := assign_new rounds n made (!file.isEmpty) new.single new.nonempty new.noElement
      (.record (w.store.clone q).1) unknown
    rw [same] at assigned
    rw [Store.construct]
    exact assigned
  have opened : s.act.exec w = (s.valueOf (called cls) >>= fun v =>
      assign s.ev scope (!file.isEmpty) name (.bare v) >>= fun _ => pure Outcome.done).exec w :=
    Site.exec_setting rfl new flush back w
  have value : (s.valueOf (called cls)).exec w = _ := exec_construction rounds n noCall means
  by_cases deep : 2 * n < (w.store.walkFrom q.cell).deepest
  · rw [if_pos deep] at value
    exact .inl ⟨deep, opened.trans (Run.exec_bind_error w value)⟩
  · rw [if_neg deep] at value
    refine .inr ⟨Nat.le_of_not_lt deep, opened.trans ((Run.exec_bind_ok w value).trans ?_)⟩
    exact Run.exec_bind_ok _ (stores _ rfl)

end Declaration

/-! ### The store after a declaration -/

namespace Store

variable {st : Store} {q : Ref .record}

/-- The members of the variable for an object are in the object. -/
theorem members_ofRecord {name : Text} {home : Option (Ref .scope)} {m : Ref .scope}
    (known : (Variable.ofValue st name home (.record q)).members = some m) :
    st.Reaches q.cell m.cell := by
  obtain ⟨⟨table, node⟩, body, rfl⟩ := Option.map_eq_some_iff.mp known
  have statement : node.cell ∈ st.edges q.cell := by
    change node.cell ∈ (st.record q).cells
    simp [Record.cells, body]
  have around : (st.node node).scope.cell ∈ st.edges node.cell := by
    change (st.node node).scope.cell ∈ (st.node node).cells
    simp [Node.cells]
  exact .step (.step .refl statement) around

private theorem cells_ofRecord {name : Text} {target : Ref .scope} {d : Cell}
    (member : d ∈ (Variable.ofValue st name (some target) (.record q)).cells) :
    d = target.cell ∨ st.Reaches q.cell d := by
  rcases List.mem_append.mp member with outer | inside
  · rcases List.mem_append.mp outer with home | content
    · exact .inl (List.mem_singleton.mp home)
    · exact .inr (List.mem_singleton.mp content ▸ .refl)
  · obtain ⟨m, known, rfl⟩ := Option.map_eq_some_iff.mp (Option.mem_toList.mp inside)
    exact .inr (members_ofRecord known)

def holder (st : Store) (q : Ref .record) : Ref .variable := ⟨(st.clone q).2.vars.size⟩

private theorem var_construct (scope : Ref .scope) (isGlobal : Bool) (name : Text) :
    (st.construct scope isGlobal name q).var (st.holder q) =
      Variable.ofValue (st.clone q).2 name (some ((st.clone q).2.targetOf scope isGlobal))
        (.record (st.clone q).1) := by
  rw [construct]
  exact var_bindName_fresh _ _ _

private theorem content_construct (scope : Ref .scope) (isGlobal : Bool) (name : Text) :
    ((st.construct scope isGlobal name q).var (st.holder q)).content = .record (st.clone q).1 := by
  rw [var_construct]
  rfl

private theorem not_has_fresh (st : Store) : ¬ st.Has (⟨st.vars.size⟩ : Ref .variable).cell :=
  Nat.lt_irrefl st.vars.size

private theorem holder_new (st : Store) (q : Ref .record) :
    ¬ (st.clone q).2.Has (st.holder q).cell := by
  rw [holder]
  exact not_has_fresh _

private theorem record_bindName (st : Store) (target : Ref .scope) (name : Text) (x : Variable) :
    (st.bindName target name x).record = st.record := rfl

private theorem node_bindName (st : Store) (target : Ref .scope) (name : Text) (x : Variable) :
    (st.bindName target name x).node = st.node :=
  rfl

private theorem record_construct (scope : Ref .scope) (isGlobal : Bool) (name : Text) :
    (st.construct scope isGlobal name q).record = (st.clone q).2.record := by
  rw [construct, record_bindName]

private theorem node_construct (scope : Ref .scope) (isGlobal : Bool) (name : Text) :
    (st.construct scope isGlobal name q).node = (st.clone q).2.node := by
  rw [construct, node_bindName]

private theorem has_holder (scope : Ref .scope) (isGlobal : Bool) (name : Text) :
    (st.construct scope isGlobal name q).Has (st.holder q).cell := by
  rw [construct]
  exact Arena.holds_alloc_fresh (st.clone q).2.vars _

private theorem resolve_construct {scope : Ref .scope} (isGlobal : Bool) {name : Text}
    (closed : (st.clone q).2.Closed) (inside : (st.clone q).2.Has scope.cell)
    (unknown : (st.clone q).2.resolve scope name = none) :
    ∃ owner, (st.construct scope isGlobal name q).resolve scope name =
      some (owner, st.holder q) := by
  rw [construct]
  exact resolve_bindName_new closed _ inside (targetOf_mem_ancestors _ scope isGlobal) unknown

section Construct

variable (closed : st.Closed) (held : st.Has q.cell) {scope : Ref .scope} {isGlobal : Bool}
  (name : Text)
  (target : st.Has ((st.clone q).2.targetOf scope isGlobal).cell)
include closed held target

/-- The table in which the new name is put was there before. -/
private theorem has_target_table :
    st.Has ((st.clone q).2.scope ((st.clone q).2.targetOf scope isGlobal)).table.cell := by
  have same : (st.clone q).2.scope _ = st.scope _ := ((extends_clone closed held).scopes _ target).2
  rw [same]
  exact closed.table target

private theorem closed_construct : (st.construct scope isGlobal name q).Closed := by
  obtain ⟨made, copy⟩ := closed.clone held
  rw [construct]
  refine made.bindName ?_
  intro d member
  rcases cells_ofRecord member with rfl | reached
  · exact target.mono (extends_clone closed held).grows
  · exact reached.has made copy

omit closed held target in
private theorem grows_clone_construct :
    (st.clone q).2.Grows (st.construct scope isGlobal name q) := by
  rw [construct]
  exact grows_bindName _ _ _ _

omit target in
private theorem grows_construct : st.Grows (st.construct scope isGlobal name q) :=
  (extends_clone closed held).grows.trans (grows_clone_construct name)

omit target in
private theorem keeps_construct : st.Keeps (st.construct scope isGlobal name q) [name] := by
  have wider := (extends_clone closed held).grows
  have copied := (Keeps.refl st).extend (Grows.refl st) closed (extends_clone closed held)
  rw [construct]
  exact copied.bind wider _ name _

private theorem guarded_construct :
    Guarded (st.clone q).2 (st.construct scope isGlobal name q) (st.Made (st.clone q).2)
      (st.holder q).cell := by
  have table := has_target_table closed held target
  rw [construct]
  exact (guarded_clone closed held _).bindName name (table.mono (extends_clone closed held).grows)
    (fun made => made.2 table)
    (.inl rfl)

private theorem Guarded.construct {base : Store} {region : Cell → Prop} {door : Cell}
    (guarded : Guarded base st region door)
    (outer : ∀ c : Cell, c = ((st.clone q).2.targetOf scope isGlobal).cell ∨
      c = ((st.clone q).2.scope ((st.clone q).2.targetOf scope isGlobal)).table.cell → ¬ region c) :
    Guarded base (st.construct scope isGlobal name q) region door := by
  have table := has_target_table closed held target
  rw [Store.construct]
  refine (guarded.clone closed held).bindName name (table.mono (extends_clone closed held).grows)
    (outer _ (.inr rfl)) (.inr ?_)
  intro d member
  rcases cells_ofRecord member with rfl | reached
  · exact outer _ (.inl rfl)
  · intro inside
    exact ((reaches_clone_iff closed held d).mp reached).2 (guarded.has d inside)

end Construct

end Store

/-! ### Assignments -/

structure Assignment where
  scope : Ref .scope
  isGlobal : Bool
  name : Text
  value : Value

namespace Assignment

def runAll (ev : Evaluator) (steps : List Assignment) : Run Unit :=
  steps.forM fun a => assign ev a.scope a.isGlobal a.name (.bare a.value)

/-- A scalar is assigned to a member, at whatever depth, of what a variable holds. -/
structure WritesMember (st : Store) (x : Ref .variable) (a : Assignment) : Prop where
  scalar : a.value.IsScalar
  member : ∃ first second rest owner r, a.name.splitOn '.' = first :: second :: rest ∧
    st.resolve a.scope first = some (owner, x) ∧ st.find a.scope first (second :: rest) = some r

theorem exec_assign_path (rounds n : Nat) {w : World} {scope : Ref .scope} {name : Text}
    {r : Ref .variable} (isGlobal : Bool) {v : Value} (scalar : v.IsScalar)
    (found : w.store.findPath scope name = some r) (held : w.store.Has r.cell) :
    (assign (.ofRoom rounds (n + 1)) scope isGlobal name (.bare v)).exec w =
      (.ok (), { w with store := w.store.overwrite r v }) := by
  unfold assign
  rw [Run.exec_bind_ok w (Run.exec_readItem_bare w v), Run.exec_bind_ok w (Run.exec_getStore w),
    Store.isVisible_of_findPath found, if_pos rfl, Run.exec_bind_ok w (lookup_findPath _ found)]
  exact assignVariable_settled rfl (scalar.settled _) held

/-- Assignments of scalars to variables in a sealed region succeed, change nothing outside of it,
and leave to all names their meaning. -/
theorem exec_runAll (rounds n : Nat) {region : Cell → Prop} (steps : List Assignment) (w : World)
    (closed : w.store.Sealed region)
    (each : ∀ a ∈ steps, a.value.IsScalar ∧ ∃ r, w.store.findPath a.scope a.name = some r ∧
      region r.cell) :
    ∃ last, (runAll (.ofRoom rounds (n + 1)) steps).exec w = (.ok (), { w with store := last }) ∧
      (∀ s name, last.findPath s name = w.store.findPath s name) ∧
      ∀ c, ¬ region c → last.content c = w.store.content c := by
  induction steps generalizing w with
  | nil => exact ⟨w.store, rfl, fun _ _ => rfl, fun _ _ => rfl⟩
  | cons a steps ih =>
    obtain ⟨scalar, r, found, inside⟩ := each a List.mem_cons_self
    have first := exec_assign_path rounds n a.isGlobal scalar found (closed.has _ inside)
    have paths : ∀ s name, (w.store.overwrite r a.value).findPath s name =
        w.store.findPath s name := by
      intro s name
      simp only [Store.findPath, Store.find_overwrite]
    obtain ⟨last, ran, meaning, frame⟩ :=
      ih { w with store := w.store.overwrite r a.value } (closed.overwrite scalar) (by
      intro b member
      rw [paths]
      exact each b (List.mem_cons_of_mem _ member))
    refine ⟨last, ?_, ?_, ?_⟩
    · exact (Run.exec_bind_ok w first).trans ran
    · intro s name
      exact (meaning s name).trans (paths s name)
    · intro c outer
      exact (frame c outer).trans (closed.content_overwrite inside a.value outer)

section Door

variable {w : World} {base : Store} {region : Cell → Prop} {x : Ref .variable}
  (guarded : Store.Guarded base w.store region x.cell)
  (members : ∀ m, (w.store.var x).members = some m → region m.cell)
include guarded members

/-- Behind the door of a region there is only the region. -/
theorem WritesMember.inside {a : Assignment} (writes : a.WritesMember w.store x) :
    ∃ r, w.store.findPath a.scope a.name = some r ∧ region r.cell := by
  obtain ⟨name, next, rest, owner, r, parts, resolved, found⟩ := writes.member
  refine ⟨r, ?_, ?_⟩
  · rw [Store.findPath, parts]
    exact found
  · obtain ⟨_, y, known, ⟨none, _⟩ | ⟨member, more, inner, same, below, onward⟩⟩ :=
      Store.find_inv found
    · cases none
    · cases same
      rw [resolved] at known
      cases known
      exact guarded.sealed.find (members inner below) onward

/-- Assignments of scalars to members of what the door of a region holds succeed, and neither the
cells outside of the region change nor what is read without going through the door. -/
theorem exec_runAll_door (rounds n : Nat) (closed : w.store.Closed) (steps : List Assignment)
    (writes : ∀ a ∈ steps, a.WritesMember w.store x) :
    ∃ last, (runAll (.ofRoom rounds (n + 1)) steps).exec w = (.ok (), { w with store := last }) ∧
      (∀ c, ¬ region c → last.content c = w.store.content c) ∧
      ∀ (m : Nat) (s : Ref .scope) (name : Text) (y : Ref .variable), w.store.Has s.cell →
        ¬ region s.cell → PlainPath name →
        ¬ w.store.GoesThrough s name x → w.store.findPath s name = some y →
        ((Evaluator.ofRoom rounds (m + 2)).valueOf s name).exec w = ((w.store.var y).reading, w) ∧
        ((Evaluator.ofRoom rounds (m + 2)).valueOf s name).exec { w with store := last } =
          ((w.store.var y).reading, { w with store := last }) := by
  obtain ⟨last, ran, meaning, frame⟩ := exec_runAll rounds n steps w guarded.sealed
    fun a member => ⟨(writes a member).scalar, (writes a member).inside guarded members⟩
  refine ⟨last, ran, frame, ?_⟩
  intro m s name y has outer plain avoids found
  have out : ¬ region y.cell := by
    unfold Store.findPath at found
    split at found
    · next start rest parts =>
      refine guarded.find closed has outer ?_ found
      intro k less through
      exact avoids ⟨start, rest, k, parts, less, through⟩
    · cases found
  have same : last.var y = w.store.var y := Content.var.inj (frame y.cell out)
  have still : last.findPath s name = some y := (meaning s name).trans found
  refine ⟨read_path rounds m plain found, ?_⟩
  rw [← same]
  exact read_path rounds m plain still

end Door

end Assignment

/-! ### Two objects -/

structure Store.Ready (st : Store) (scope : Ref .scope) (q : Ref .record)
    (first second : Text) : Prop where
  closed : st.Closed
  rooted : st.Rooted
  inside : st.Has scope.cell
  held : st.Has q.cell
  distinct : second ≠ first
  newFirst : st.resolve scope first = none
  newSecond : st.resolve scope second = none

namespace Store.Ready

variable {st : Store} {scope : Ref .scope} {q : Ref .record} {first second : Text}
  (ready : st.Ready scope q first second)
  (isGlobal : Bool)
include ready

private theorem has_targetOf {later : Store} {new : List Text} (keeps : st.Keeps later new) :
    st.Has (later.targetOf scope isGlobal).cell := by
  have member := targetOf_mem_ancestors later scope isGlobal
  rw [keeps.ancestors ready.closed ready.inside (ready.rooted scope ready.inside)] at member
  exact ready.closed.ancestors ready.inside member

private theorem keeps_clone : st.Keeps (st.clone q).2 [] :=
  (Keeps.refl st).extend (Grows.refl st) ready.closed (extends_clone ready.closed ready.held)

theorem target : st.Has ((st.clone q).2.targetOf scope isGlobal).cell :=
  ready.has_targetOf isGlobal ready.keeps_clone

private theorem closed_first : (st.construct scope isGlobal first q).Closed :=
  closed_construct ready.closed ready.held first (ready.target isGlobal)

private theorem grows_first : st.Grows (st.construct scope isGlobal first q) :=
  grows_construct ready.closed ready.held first

private theorem keeps_first : st.Keeps (st.construct scope isGlobal first q) [first] :=
  keeps_construct ready.closed ready.held first

private theorem held_first : (st.construct scope isGlobal first q).Has q.cell :=
  ready.held.mono (ready.grows_first isGlobal)

private theorem keeps_clone_second :
    st.Keeps ((st.construct scope isGlobal first q).clone q).2 [first] :=
  (ready.keeps_first isGlobal).extend (ready.grows_first isGlobal) (ready.closed_first isGlobal)
    (extends_clone (ready.closed_first isGlobal) (ready.held_first isGlobal))

private theorem target_second :
    st.Has (((st.construct scope isGlobal first q).clone q).2.targetOf scope isGlobal).cell :=
  ready.has_targetOf isGlobal (ready.keeps_clone_second isGlobal)

private theorem unknown_second :
    ((st.construct scope isGlobal first q).clone q).2.resolve scope second = none := by
  have other : second ∉ [first] := by simpa using ready.distinct
  rw [(ready.keeps_clone_second isGlobal).resolve ready.closed ready.inside
    (ready.rooted scope ready.inside) other]
  exact ready.newSecond

private theorem unknown_first : (st.clone q).2.resolve scope first = none := by
  rw [ready.keeps_clone.resolve ready.closed ready.inside (ready.rooted scope ready.inside)
    List.not_mem_nil]
  exact ready.newFirst

private theorem keeps_second : (st.construct scope isGlobal first q).Keeps
    ((st.construct scope isGlobal first q).construct scope isGlobal second q) [second] :=
  keeps_construct (ready.closed_first isGlobal) (ready.held_first isGlobal) second

private theorem ends_first :
    ((st.construct scope isGlobal first q).scope
      ((st.construct scope isGlobal first q).root scope)).parent = none := by
  have outermost := ready.closed.ancestors ready.inside (root_mem_ancestors scope)
  have same := ((ready.keeps_first isGlobal).scopes _ outermost).2
  rw [(ready.keeps_first isGlobal).root ready.closed ready.inside (ready.rooted scope ready.inside),
    Store.scope, same]
  exact ready.rooted scope ready.inside

/-- Both names mean their objects in the end. -/
theorem find_first :
    ((st.construct scope isGlobal first q).construct scope isGlobal second q).find scope first [] =
    some (st.holder q) := by
  obtain ⟨owner, meaning⟩ := resolve_construct isGlobal (ready.closed.clone ready.held).1
    (ready.inside.mono (extends_clone ready.closed ready.held).grows) ready.unknown_first
  have other : first ∉ [second] := by simpa using ready.distinct.symm
  rw [find, (ready.keeps_second isGlobal).resolve (ready.closed_first isGlobal)
    (ready.inside.mono (ready.grows_first isGlobal))
    (ready.ends_first isGlobal) other, meaning]
  rfl

private theorem find_second :
    ((st.construct scope isGlobal first q).construct scope isGlobal second q).find scope second [] =
    some ((st.construct scope isGlobal first q).holder q) := by
  have copied := extends_clone (ready.closed_first isGlobal) (ready.held_first isGlobal)
  obtain ⟨owner, meaning⟩ :=
    resolve_construct isGlobal ((ready.closed_first isGlobal).clone (ready.held_first isGlobal)).1
    (ready.inside.mono ((ready.grows_first isGlobal).trans copied.grows))
    (ready.unknown_second isGlobal)
  rw [find, meaning]
  rfl

/-- The first object is a guarded region in the end. -/
theorem guarded_first :
    Guarded (st.clone q).2 ((st.construct scope isGlobal first q).construct scope isGlobal second q)
    (st.Made (st.clone q).2) (st.holder q).cell := by
  have guarded := guarded_construct ready.closed ready.held first (ready.target isGlobal)
  have target := ready.target_second isGlobal
  refine Guarded.construct (ready.closed_first isGlobal) (ready.held_first isGlobal) second
    (target.mono (ready.grows_first isGlobal)) guarded ?_
  rintro c (rfl | rfl) made
  · exact made.2 target
  · have same := ((ready.keeps_clone_second isGlobal).scopes _ target).2
    change _ = st.scope _ at same
    refine made.2 ?_
    change st.Has (((st.construct scope isGlobal first q).clone q).2.scopes.read _).table.cell
    rw [same]
    exact ready.closed.table target

private theorem guarded_second : Guarded ((st.construct scope isGlobal first q).clone q).2
    ((st.construct scope isGlobal first q).construct scope isGlobal second q)
    ((st.construct scope isGlobal first q).Made ((st.construct scope isGlobal first q).clone q).2)
    ((st.construct scope isGlobal first q).holder q).cell :=
  guarded_construct (ready.closed_first isGlobal) (ready.held_first isGlobal) second
    ((ready.target_second isGlobal).mono (ready.grows_first isGlobal))

private theorem closed_second :
    ((st.construct scope isGlobal first q).construct scope isGlobal second q).Closed :=
  closed_construct (ready.closed_first isGlobal) (ready.held_first isGlobal) second
    ((ready.target_second isGlobal).mono (ready.grows_first isGlobal))

end Store.Ready

/-- The class means the same after the first declaration. -/
theorem Store.MeansClass.construct {st : Store} {scope : Ref .scope} {cls : Text}
    {q : Ref .record} {first second : Text} (means : st.MeansClass scope cls q)
    (ready : st.Ready scope q first second) (isGlobal : Bool)
    (unmentioned : first ∉ cls.splitOn '.') (unshared : first ≠ sharedName) :
    (st.construct scope isGlobal first q).MeansClass scope cls q := by
  have keeps := ready.keeps_first isGlobal
  obtain ⟨r, found, reads⟩ := means.means
  obtain ⟨table, node, body, absent⟩ := means.body
  constructor
  · have old : ∀ part ∈ cls.splitOn '.', part ∉ [first] := by
      intro part member same
      exact unmentioned (List.mem_singleton.mp same ▸ member)
    refine ⟨r, ?_, ?_⟩
    · rw [keeps.findPath ready.closed ready.rooted ready.inside old]
      exact found
    · rw [keeps.vars r (ready.closed.findPath ready.inside found)]
      exact reads
  · have copied := extends_clone ready.closed ready.held
    have statement := (ready.closed.body ready.held body).2
    have around := ready.closed.nodeScope statement
    have record : (st.construct scope isGlobal first q).record q = st.record q := by
      rw [record_construct]
      exact (copied.records q ready.held).2
    have sameNode : (st.construct scope isGlobal first q).node node = st.node node := by
      rw [node_construct]
      exact (copied.nodes node statement).2
    have outermost := ready.closed.ancestors around (root_mem_ancestors _)
    refine ⟨table, node, (congrArg Record.body record).trans body, ?_⟩
    rw [sameNode, keeps.root ready.closed around (ready.rooted _ around), keeps.tables _ outermost]
    · exact absent
    · simpa using unshared.symm

/-- Two different names that are new in a scope; the first one does not stand in the name of a class
and is not the shared one. -/
structure Store.NewPair (st : Store) (scope : Ref .scope) (cls first second : Text) : Prop where
  names : NewName first ∧ NewName second
  distinct : second ≠ first
  unknown : st.resolve scope first = none ∧ st.resolve scope second = none
  unmentioned : first ∉ cls.splitOn '.'
  unshared : first ≠ sharedName

namespace Store.Ready

variable {st : Store} {scope : Ref .scope} {q : Ref .record} {first second : Text}
  (ready : st.Ready scope q first second)
  (isGlobal : Bool)
include ready

/-- What is reached from the first object in the end is what was made for it. -/
theorem reaches_first (c : Cell) :
    ((st.construct scope isGlobal first q).construct scope isGlobal second q).Reaches
    (st.clone q).1.cell c ↔ st.Made (st.clone q).2 c := by
  have whole := reaches_clone_iff ready.closed ready.held
  have guarded := ready.guarded_first isGlobal
  have start : st.Made (st.clone q).2 (st.clone q).1.cell := (whole _).mp .refl
  constructor
  · intro reached
    exact guarded.sealed.reaches start reached
  · intro made
    exact (guarded.reaches start ((whole c).mpr made)).2

private theorem reaches_second {c : Cell}
    (reached : ((st.construct scope isGlobal first q).construct scope isGlobal second q).Reaches
      ((st.construct scope isGlobal first q).clone q).1.cell c) :
    ¬ (st.construct scope isGlobal first q).Has c := by
  have whole := reaches_clone_iff (ready.closed_first isGlobal) (ready.held_first isGlobal)
  exact ((ready.guarded_second isGlobal).sealed.reaches ((whole _).mp .refl) reached).2

/-- The first object has nothing older, neither of the two variables and nothing of the second
object. -/
theorem apart {c : Cell} (made : st.Made (st.clone q).2 c) :
    ¬ st.Has c ∧ c ≠ (st.holder q).cell ∧
    c ≠ ((st.construct scope isGlobal first q).holder q).cell ∧
      ¬ ((st.construct scope isGlobal first q).construct scope isGlobal second q).Reaches
        ((st.construct scope isGlobal first q).clone q).1.cell c := by
  have inFirst : (st.construct scope isGlobal first q).Has c :=
    made.1.mono (grows_clone_construct first)
  refine ⟨made.2, ?_, ?_, ?_⟩
  · rintro rfl
    exact holder_new st q made.1
  · rintro rfl
    exact holder_new _ q
      (inFirst.mono (extends_clone (ready.closed_first isGlobal) (ready.held_first isGlobal)).grows)
  · intro reached
    exact ready.reaches_second isGlobal reached inFirst

private theorem var_first :
    ((st.construct scope isGlobal first q).construct scope isGlobal second q).var (st.holder q) =
    Variable.ofValue (st.clone q).2 first (some ((st.clone q).2.targetOf scope isGlobal))
      (.record (st.clone q).1) := by
  rw [(ready.keeps_second isGlobal).vars _ (has_holder scope isGlobal first), var_construct]

private theorem members_first (m : Ref .scope)
    (known : (((st.construct scope isGlobal first q).construct scope isGlobal second q).var
      (st.holder q)).members = some m) :
    st.Made (st.clone q).2 m.cell := by
  rw [ready.var_first isGlobal] at known
  exact (reaches_clone_iff ready.closed ready.held _).mp (members_ofRecord known)

private theorem content_first :
    (((st.construct scope isGlobal first q).construct scope isGlobal second q).var
      (st.holder q)).content =
    .record (st.clone q).1 := by
  rw [ready.var_first isGlobal]
  rfl

/-- No name that begins with the second object leads to the variable of the first one. -/
theorem find_second_ne (path : List Text) :
    ((st.construct scope isGlobal first q).construct scope isGlobal second q).find scope second
      path ≠ some (st.holder q) := by
  intro found
  have known := ready.find_second isGlobal
  have old : (st.construct scope isGlobal first q).Has (st.holder q).cell :=
    has_holder scope isGlobal first
  obtain ⟨owner, y, resolved, ⟨rfl, rfl⟩ | ⟨member, more, members, rfl, inside, onward⟩⟩ :=
    find_inv found
  · rw [found] at known
    have same : (st.holder q).cell = ((st.construct scope isGlobal first q).holder q).cell :=
      congrArg Ref.cell (Option.some.inj known)
    rw [same] at old
    exact holder_new _ q
      (old.mono (extends_clone (ready.closed_first isGlobal) (ready.held_first isGlobal)).grows)
  · rw [find, resolved] at known
    obtain rfl : y = (st.construct scope isGlobal first q).holder q := Option.some.inj known
    rw [var_construct] at inside
    have reached :=
      (reaches_clone_iff (ready.closed_first isGlobal) (ready.held_first isGlobal) _).mp
        (members_ofRecord inside)
    exact ((ready.guarded_second isGlobal).sealed.find reached onward).2 old

end Store.Ready

/-- The call of a class gives an object that is a picture of the class, with all that can be reached
from it, in new cells, and changes nothing; it fails exactly if what can be reached is nested too
deep to be copied, and changes nothing then either. The same holds of each of two declarations of
new names with objects of a class. When both have been made, the first object is in no way reached
from the second one. Scalars can then be assigned to members of the first object in any order; all
cells outside of this object stay as they are, and every name that does not go through the first
object, from any scope outside of it, reads as before. -/
theorem objects_isolated (rounds n : Nat) (w : World) (closed : w.store.Closed)
    (rooted : w.store.Rooted) (scope : Ref .scope) (inside : w.store.Has scope.cell) (cls : Text)
    (noCall : '(' ∉ cls) (q : Ref .record) (means : w.store.MeansClass scope cls q) :
    ((Evaluator.ofRoom rounds (n + 1)).valueOf scope (called cls)).exec w =
      (if 2 * n < (w.store.walkFrom q.cell).deepest then (.error .tooDeep, w)
      else (.ok (.record (w.store.clone q).1), { w with store := (w.store.clone q).2 })) ∧
    w.store.Extends (w.store.clone q).2 ∧
    (∃ names, Store.Pictures w.store q.cell (w.store.clone q).2 (w.store.clone q).1.cell names) ∧
    (∀ c, (w.store.clone q).2.Reaches (w.store.clone q).1.cell c → ¬ w.store.Has c) ∧
    ∀ (node other : Ref .node) (file first second : Text), cls.head? ≠ some ' ' →
      w.store.NewPair scope cls first second →
      (2 * n < (w.store.walkFrom q.cell).deepest ∧
        (declarationSite rounds n node scope file first cls).act.exec w = (.error .tooDeep, w)) ∨
      (w.store.walkFrom q.cell).deepest ≤ 2 * n ∧
      ∃ w₁, (declarationSite rounds n node scope file first cls).act.exec w = (.ok .done, w₁) ∧
        ((2 * n < (w₁.store.walkFrom q.cell).deepest ∧
            (declarationSite rounds n other scope file second cls).act.exec w₁ =
              (.error .tooDeep, w₁)) ∨
          (w₁.store.walkFrom q.cell).deepest ≤ 2 * n ∧
          ∃ w₂ x₁ x₂ q₁ q₂, (declarationSite rounds n other scope file second cls).act.exec w₁ =
            (.ok .done, w₂) ∧
            w₂.store.find scope first [] = some x₁ ∧ (w₂.store.var x₁).content = .record q₁ ∧
            w₂.store.find scope second [] = some x₂ ∧ (w₂.store.var x₂).content = .record q₂ ∧
            (∀ c, w₂.store.Reaches q₁.cell c → ¬ w.store.Has c ∧ c ≠ x₁.cell ∧ c ≠ x₂.cell ∧
              ¬ w₂.store.Reaches q₂.cell c) ∧
            (∀ path, w₂.store.find scope second path ≠ some x₁) ∧
            ∀ steps : List Assignment, (∀ a ∈ steps, a.WritesMember w₂.store x₁) →
              ∃ last, (Assignment.runAll (.ofRoom rounds (n + 1)) steps).exec w₂ =
                (.ok (), { w₂ with store := last }) ∧
                (∀ c, ¬ w₂.store.Reaches q₁.cell c → last.content c = w₂.store.content c) ∧
                ∀ (m : Nat) (s : Ref .scope) (name : Text) (y : Ref .variable),
                  w₂.store.Has s.cell →
                  ¬ w₂.store.Reaches q₁.cell s.cell → PlainPath name →
                    ¬ w₂.store.GoesThrough s name x₁ →
                  w₂.store.findPath s name = some y →
                  ((Evaluator.ofRoom rounds (m + 2)).valueOf s name).exec w₂ =
                    ((w₂.store.var y).reading, w₂) ∧
                  ((Evaluator.ofRoom rounds (m + 2)).valueOf s name).exec
                    { w₂ with store := last } =
                    ((w₂.store.var y).reading, { w₂ with store := last })) := by
  have held := means.has closed inside
  refine ⟨exec_construction rounds n noCall means, Store.extends_clone closed held, ?_, ?_, ?_⟩
  · obtain ⟨names, copied, same⟩ := Store.clone_copied closed held
    rw [same]
    exact ⟨names, copied.pictures closed held⟩
  · intro c reached
    exact ((Store.reaches_clone_iff closed held c).mp reached).2
  · intro node other file first second front pair
    have ready : w.store.Ready scope q first second :=
      ⟨closed, rooted, inside, held, pair.distinct, pair.unknown.1, pair.unknown.2⟩
    have meansStill := means.construct ready (!file.isEmpty) pair.unmentioned pair.unshared
    refine (exec_declaration rounds n pair.names.1 noCall front means ready.unknown_first).imp_right
      fun ⟨shallow, ran⟩ => ⟨shallow, _, ran, ?_⟩
    refine (exec_declaration (w := { w with
      store := w.store.construct scope (!file.isEmpty) first q }) rounds n pair.names.2 noCall front
      meansStill (ready.unknown_second (!file.isEmpty))).imp_right
      fun ⟨shallowStill, ranStill⟩ => ?_
    refine ⟨shallowStill, _, w.store.holder q,
      (w.store.construct scope (!file.isEmpty) first q).holder q, (w.store.clone q).1,
      ((w.store.construct scope (!file.isEmpty) first q).clone q).1, ranStill,
      ready.find_first (!file.isEmpty), ready.content_first (!file.isEmpty),
      ready.find_second (!file.isEmpty), Store.content_construct scope (!file.isEmpty) second, ?_,
      ready.find_second_ne (!file.isEmpty), ?_⟩
    · intro c reached
      exact ready.apart (!file.isEmpty) ((ready.reaches_first (!file.isEmpty) c).mp reached)
    · intro steps writes
      simp only [ready.reaches_first (!file.isEmpty)]
      exact Assignment.exec_runAll_door (ready.guarded_first (!file.isEmpty))
        (ready.members_first (!file.isEmpty)) rounds n
        (ready.closed_second (!file.isEmpty)) steps writes

@[irreducible] def Store.withClass : Store where
  scopes := ⟨#[{ parent := none, table := ⟨0⟩ }, { parent := some ⟨0⟩, table := ⟨1⟩ }]⟩
  tables := ⟨#[[(['C'], ⟨0⟩)], [(['f'], ⟨1⟩)]]⟩
  vars := ⟨#[{ name := some ['C'], home := some ⟨0⟩, content := .record ⟨0⟩, tag := .object,
               members := some ⟨1⟩ },
    { name := some ['f'], home := some ⟨1⟩, content := .int 1, tag := .int }]⟩
  records := ⟨#[{ body := some (⟨1⟩, ⟨0⟩) }]⟩
  nodes := ⟨#[{ command := "class C()".toList, index := 0, children := [], scope := ⟨1⟩,
                interactive := false }]⟩

private theorem Store.withClass_means : Store.withClass.MeansClass ⟨0⟩ ['C'] ⟨0⟩ where
  means := ⟨⟨0⟩, by decide +kernel, by unfold Store.withClass; rfl⟩
  body := ⟨⟨1⟩, ⟨0⟩, by decide +kernel, by decide +kernel⟩

def readNumber : Except Fault Value → Option Int
  | .ok (.int n) => some n
  | _ => none

private theorem eq_of_readNumber {given : Except Fault Value} {n : Int}
    (known : readNumber given = some n) : given = .ok (.int n) := by
  unfold readNumber at known
  split at known
  · rw [Option.some.inj known]
  · cases known

private theorem newName_letter {c : Char} (letter : c ∈ ['a', 'b']) : NewName [c] := by
  rcases List.mem_pair.mp letter with rfl | rfl <;> constructor <;> decide

private theorem Store.withClass_newPair : Store.withClass.NewPair ⟨0⟩ ['C'] ['a'] ['b'] where
  names := ⟨newName_letter (by decide), newName_letter (by decide)⟩
  distinct := by decide
  unknown := ⟨by decide +kernel, by decide +kernel⟩
  unmentioned := by decide
  unshared := by decide

@[irreducible] def World.afterFirst : World :=
  ((declarationSite 0 40 ⟨0⟩ ⟨0⟩ ['m'] ['a'] ['C']).act.exec { store := Store.withClass }).2

@[irreducible] def World.afterSecond : World :=
  ((declarationSite 0 40 ⟨0⟩ ⟨0⟩ ['m'] ['b'] ['C']).act.exec World.afterFirst).2

private theorem plainPath_member : PlainPath ['b', '.', 'f'] := by
  constructor <;> decide +kernel

theorem objects_isolated_members :
    ∃ last, (Assignment.runAll (.ofRoom 0 41) [⟨⟨0⟩, true, ['a', '.', 'f'], .int 5⟩]).exec
      World.afterSecond =
        (.ok (), { World.afterSecond with store := last }) ∧
      ((Evaluator.ofRoom 0 2).valueOf ⟨0⟩ ['b', '.', 'f']).exec
        { World.afterSecond with store := last } =
        (.ok (.int 1), { World.afterSecond with store := last }) := by
  obtain ⟨_, _, _, _, objects⟩ :=
    objects_isolated 0 40 { store := Store.withClass } (by decide +kernel) (by decide +kernel) ⟨0⟩
    (by decide +kernel) ['C'] (by decide) ⟨0⟩ Store.withClass_means
  obtain ⟨deep, -⟩ | ⟨-, w₁, ran₁, objects⟩ :=
    objects ⟨0⟩ ⟨0⟩ ['m'] ['a'] ['b'] (by decide) Store.withClass_newPair
  · exact absurd deep (by decide +kernel)
  obtain rfl : World.afterFirst = w₁ := by
    rw [World.afterFirst, ran₁]
  obtain ⟨deep, -⟩ | ⟨-, w₂, x₁, x₂, q₁, q₂, ran₂, found₁, _, found₂, _, apart, avoids, assigns⟩ :=
    objects
  · exact absurd deep (by decide +kernel)
  obtain rfl : World.afterSecond = w₂ := by
    rw [World.afterSecond, ran₂]
  have owned : ∃ owner, World.afterSecond.store.resolve ⟨0⟩ ['a'] = some (owner, x₁) := by
    obtain ⟨⟨owner, y⟩, known, rfl⟩ := Option.map_eq_some_iff.mp found₁
    exact ⟨owner, known⟩
  obtain ⟨owner, known⟩ := owned
  have member : World.afterSecond.store.find ⟨0⟩ ['a'] [['f']] = some ⟨2⟩ := by decide +kernel
  obtain ⟨last, ran, _, reads⟩ := assigns [⟨⟨0⟩, true, ['a', '.', 'f'], .int 5⟩] (by
    intro a listed
    obtain rfl := List.mem_singleton.mp listed
    exact ⟨.int 5, ['a'], ['f'], [], owner, ⟨2⟩, by decide, known, member⟩)
  have outer : ¬ World.afterSecond.store.Reaches q₁.cell (Ref.cell (⟨0⟩ : Ref .scope)) := by
    intro reached
    exact (apart _ reached).1 (by decide +kernel)
  have direct : ¬ World.afterSecond.store.GoesThrough ⟨0⟩ ['b', '.', 'f'] x₁ := by
    rintro ⟨first, rest, k, parts, less, found⟩
    obtain ⟨rfl, rfl⟩ : ['b'] = first ∧ [['f']] = rest := List.cons.inj parts
    exact avoids _ found
  have read := reads 0 ⟨0⟩ ['b', '.', 'f'] ⟨5⟩ (by decide +kernel) outer plainPath_member direct
    (by decide +kernel)
  have one : (World.afterSecond.store.var ⟨5⟩).reading = .ok (.int 1) :=
    eq_of_readNumber (by decide +kernel)
  refine ⟨last, ran, ?_⟩
  rw [read.2, one]

end CommandScript
