import CommandScript.Proofs.Isolation
import CommandScript.Proofs.Literals
import CommandScript.Proofs.Members

/-! The names of classes. What the body of a class sets and defines becomes a member, and so does
what is assigned to a name of the class, unless it escapes. -/
namespace CommandScript

structure Defines (line : Text) (verb : Verb) (name : Text) : Prop where
  verb : (Command.of line).verb? = some verb
  word : ∃ word : Text, line.words[1]? = some word ∧ word.before '(' = name

private theorem Site.exec_definedName {s : Site} {line name : Text} {verb : Verb}
    (command : s.command = .of line) (defines : Defines line verb name) (w : World) :
    s.definedName.exec w = (.ok name, w) := by
  obtain ⟨word, there, rfl⟩ := defines.word
  have second : (s.word 1).exec w = (.ok word, w) := by
    rw [Site.word, command]
    exact Run.exec_nth there w
  rw [Site.definedName, Run.exec_bind_ok w second]
  rfl

namespace Store

variable {st : Store} {inner : Ref .scope} {r : Ref .node} {m : Member}

/-- A statement in the body of a class makes a member: it sets a name to a literal in the scope of
the class, or it defines a function whose scope is inside of that one. -/
inductive Makes (st : Store) (inner : Ref .scope) : Ref .node → Member → Prop where
  | field {r : Ref .node} {name text : Text} {v : Value} (scope : (st.node r).scope = inner)
      (sets : Sets (st.node r).command name text) (denotes : Denotes text v) (single : '.' ∉ name)
      (nonempty : name ≠ [])
      (noElement : name.getLast? ≠ some ']') : Makes st inner r (.field name v)
  | method {r : Ref .node} {name : Text} (around : (st.scope (st.node r).scope).parent = some inner)
      (plain : (st.scope (st.node r).scope).isSealed = false)
      (defines : Defines (st.node r).command .defFunction name)
      (single : '.' ∉ name) : Makes st inner r (.method name r)

theorem Makes.congr {later : Store} (makes : st.Makes inner r m) (nodes : later.nodes = st.nodes)
    (scopes : later.scopes = st.scopes) : later.Makes inner r m := by
  have node : later.node r = st.node r := by
    rw [Store.node, nodes]
    rfl
  have scope : later.scope = st.scope := by
    funext s
    rw [Store.scope, scopes]
    rfl
  cases makes with
  | field scope sets denotes single nonempty noElement =>
    rw [← node] at scope sets
    exact .field scope sets denotes single nonempty noElement
  | method around plain defines single =>
    rw [← node, ← scope] at around plain
    rw [← node] at defines
    exact .method around plain defines single

theorem Makes.fits (makes : st.Makes inner r m) (held : st.Has r.cell) : st.Fits m := by
  cases makes with
  | field _ _ denotes => exact denotes.scalar
  | method => exact held

/-- No scope is around itself. -/
theorem Rooted.parent_ne (rooted : st.Rooted) (held : st.Has inner.cell) :
    (st.scope inner).parent ≠ some inner := by
  intro above
  have same : ∀ n, ∀ a ∈ st.outward n inner, a = inner := by
    intro n
    induction n with
    | zero => simp [outward]
    | succ n ih =>
      rw [outward, above]
      simpa using ih
  have ends := rooted inner held
  rw [same _ _ (root_mem_ancestors inner), above] at ends
  cases ends

theorem Makes.sealing (makes : st.Makes inner r m) (rooted : st.Rooted) (held : st.Has inner.cell) :
    (st.sealing inner true).Makes inner r m := by
  cases makes with
  | field scope sets denotes single nonempty noElement =>
    exact .field scope sets denotes single nonempty noElement
  | method around plain defines single =>
    have other : (st.node r).scope ≠ inner := by
      intro same
      rw [same] at around
      exact rooted.parent_ne held around
    have scope : (st.sealing inner true).scope (st.node r).scope = st.scope (st.node r).scope :=
      scope_sealing_elsewhere other true
    exact .method (scope ▸ around) (scope ▸ plain) defines single

private theorem fits_of_makes {nodes : List (Ref .node)} {members : List Member}
    (makes : List.Forall₂ (st.Makes inner) nodes members) (held : ∀ r ∈ nodes, st.Has r.cell) :
    ∀ m ∈ members, st.Fits m := by
  induction makes with
  | nil => simp
  | cons first _ ih =>
    simp only [List.mem_cons, forall_eq_or_imp] at held ⊢
    exact ⟨first.fits held.1, ih held.2⟩

private theorem globalOf_sealed (ends : (st.scope (st.root inner)).parent = none)
    (isSealed : (st.scope inner).isSealed = true) : st.globalOf inner = inner :=
  (globalOf_first ends).unique (.here (.inl isSealed))

/-- Functions that are defined in the body of a class are declared in its scope. -/
theorem globalOf_inside {s : Ref .scope} (ends : (st.scope (st.root s)).parent = none)
    (isSealed : (st.scope inner).isSealed = true) (around : (st.scope s).parent = some inner)
    (plain : (st.scope s).isSealed = false) : st.globalOf s = inner := by
  refine (globalOf_first ends).unique (.outer ?_ around (.here (.inl isSealed)))
  simp [TakesGlobals, plain, around]

private theorem assigned_sealed (ends : (st.scope (st.root inner)).parent = none)
    (isSealed : (st.scope inner).isSealed = true) (isGlobal : Bool) (name : Text) (v : Value) :
    st.assigned inner isGlobal name v = st.assigned inner false name v := by
  cases isGlobal with
  | false => rfl
  | true =>
    unfold assigned targetOf
    rw [if_pos rfl, globalOf_sealed ends isSealed]
    rfl

end Store

section Body

variable (rounds n : Nat) (file : Text) {w : World} {inner : Ref .scope} {r : Ref .node}
  {m : Member}

/-- In a sealed scope, a statement makes its member. -/
theorem exec_member (registered : w.store.Registered) (held : w.store.Has inner.cell)
    (isSealed : (w.store.scope inner).isSealed = true) (inside : w.store.Has r.cell)
    (makes : w.store.Makes inner r m) :
    ((Evaluator.ofRoom rounds (n + 3)).run r file).exec w =
      (.ok .done, { w with store := w.store.withMember inner m }) := by
  change (runStep (.ofRoom rounds (n + 2)) r file).exec w = _
  rw [runStep_exec]
  cases makes with
  | @field name text v scope sets denotes single nonempty noElement =>
    let s := Site.ofNode (.ofRoom rounds (n + 2)) w.store r file
    have given : (s.valueOf text).exec w = (.ok v, w) := denotes.exec_valueOf rounds n s.scope w
    have assigned : (assign s.ev s.scope (!s.file.isEmpty) name (.bare v)).exec w =
        (.ok (), { w with store := w.store.assigned inner false name v }) := by
      have place : s.scope = inner := scope
      rw [place, ← Store.assigned_sealed (registered.rooted inner held) isSealed (!s.file.isEmpty)]
      exact assign_scalar rounds (n + 1) w registered.closed held _ single nonempty noElement
        denotes.scalar
    rw [s.exec_sets rfl sets, Run.exec_bind_ok w given, Run.exec_bind_ok w assigned]
    rfl
  | @method name around plain defines single =>
    let s := Site.ofNode (.ofRoom rounds (n + 2)) w.store r file
    have ends := registered.rooted s.scope (registered.closed.nodeScope inside)
    have target : w.store.globalOf s.scope = inner :=
      Store.globalOf_inside ends isSealed around plain
    have declared : (declareGlobal s.ev s.scope name (.bare (.node s.node))).exec w =
        (.ok (), { w with store := w.store.declared inner name (.node r) }) := by
      rw [declareGlobal, Run.exec_bind_ok w (Run.exec_getStore w), target]
      exact declare_settled rounds (n + 1) w single (.node r)
    unfold Site.act
    rw [show s.command.verb? = some .defFunction from defines.verb]
    change s.defFunction.exec w = _
    rw [Site.defFunction, Run.exec_bind_ok w (s.exec_definedName rfl defines w),
      Run.exec_bind_ok w declared]
    rfl

private theorem exec_members {nodes : List (Ref .node)} {members : List Member}
    (registered : w.store.Registered) (held : w.store.Has inner.cell)
    (isSealed : (w.store.scope inner).isSealed = true) (inside : ∀ r ∈ nodes, w.store.Has r.cell)
    (makes : List.Forall₂ (w.store.Makes inner) nodes members) :
    (runAll (.ofRoom rounds (n + 3)) file nodes).exec w =
      (.ok .done, { w with store := w.store.withMembers inner members }) := by
  induction nodes generalizing w members with
  | nil =>
    cases makes
    rfl
  | cons r rest ih =>
    cases makes with
    | @cons _ m _ others first following =>
      have here := inside r List.mem_cons_self
      obtain ⟨scopes, nodes, grows⟩ := w.store.withMember_rest inner m
      let next : World := { w with store := w.store.withMember inner m }
      have done : ((Evaluator.ofRoom rounds (n + 3)).run r file).exec w = (.ok .done, next) :=
        exec_member rounds n file registered held isSealed here first
      rw [runAll, Run.exec_bind_ok w done]
      have again : (next.store.scope inner).isSealed = true := by
        rw [Store.scope, scopes]
        exact isSealed
      refine ih (registered.withMember held (first.fits here)) (held.mono grows) again ?_ ?_
      · intro q listed
        exact (inside q (List.mem_cons_of_mem r listed)).mono grows
      · exact following.imp fun _ _ makes => makes.congr nodes scopes

/-- The statements of a body are run with the scope sealed. -/
theorem exec_sealed {nodes : List (Ref .node)} {members : List Member}
    (registered : w.store.Registered) (held : w.store.Has inner.cell)
    (inside : ∀ r ∈ nodes, w.store.Has r.cell)
    (makes : List.Forall₂ (w.store.Makes inner) nodes members) :
    (runAll (.ofRoom rounds (n + 3)) file nodes).exec
      { w with store := w.store.sealing inner true } =
      (.ok .done, { w with store := (w.store.sealing inner true).withMembers inner members }) := by
  have grows : w.store.Grows (w.store.sealing inner true) := w.store.grows_updateScope inner _
  have isSealed : ((w.store.sealing inner true).scope inner).isSealed = true := by
    rw [Store.scope_sealing_here held]
  apply exec_members rounds n file (registered.sealing inner true) (held.mono grows) isSealed
  · intro r below
    exact (inside r below).mono grows
  · exact makes.imp fun _ _ makes => makes.sealing registered.rooted held

end Body

/-! ### Classes -/

namespace Store

variable {st : Store} {inner : Ref .scope} {m : Member}

/-- A statement defines a class, and each statement in its body makes a member. -/
structure DefinesClass (st : Store) (node : Ref .node) (inner around : Ref .scope) (name : Text)
    (members : List Member) : Prop where
  held : st.Has node.cell
  scope : (st.node node).scope = inner
  around : (st.scope inner).parent = some around
  plain : (st.scope inner).isSealed = false
  defines : Defines (st.node node).command .defClass name
  single : '.' ∉ name
  body : List.Forall₂ (st.Makes inner) (st.node node).children members

def classFilled (st : Store) (inner : Ref .scope) (members : List Member) : Store :=
  (st.sealing inner true).withMembers inner members

def classMade (st : Store) (node : Ref .node) (inner : Ref .scope) (members : List Member) :
    Ref .record × Store :=
  let filled := st.classFilled inner members
  let (q, made) := filled.newRecord { body := some ((filled.scope inner).table, node) }
  (q, made.sealing inner false)

def classDefined (st : Store) (node : Ref .node) (inner : Ref .scope) (name : Text)
    (members : List Member) : Store :=
  let (q, made) := st.classMade node inner members
  made.declared (made.globalOf inner) name (.record q)

private theorem scope_classFilled (st : Store) (inner : Ref .scope) (members : List Member)
    (s : Ref .scope) :
    (st.classFilled inner members).scope s = (st.sealing inner true).scope s := by
  rw [Store.scope, classFilled, ((st.sealing inner true).withMembers_rest inner members).1]
  rfl

private theorem node_classMade (st : Store) (node : Ref .node) (inner : Ref .scope)
    (members : List Member) (r : Ref .node) :
    (st.classMade node inner members).2.node r = st.node r := by
  change (st.classFilled inner members).nodes.read r = _
  rw [classFilled, ((st.sealing inner true).withMembers_rest inner members).2.1]
  rfl

private theorem grows_classFilled (st : Store) (inner : Ref .scope) (members : List Member) :
    st.Grows (st.classFilled inner members) :=
  (st.grows_updateScope inner _).trans ((st.sealing inner true).withMembers_rest inner members).2.2

private theorem grows_classMade (st : Store) (node : Ref .node) (inner : Ref .scope)
    (members : List Member) :
    (st.classFilled inner members).Grows (st.classMade node inner members).2 :=
  ((st.classFilled inner members).extends_newRecord _).grows.trans (grows_updateScope _ inner _)

private theorem record_classMade (st : Store) (node : Ref .node) (inner : Ref .scope)
    (members : List Member) :
    (st.classMade node inner members).2.record (st.classMade node inner members).1 =
      { body := some ((st.scope inner).table, node) } := by
  have table : ((st.classFilled inner members).scope inner).table = (st.scope inner).table := by
    rw [scope_classFilled, (st.sealing_kept inner inner true).2]
  rw [← table]
  exact Arena.read_alloc_fresh _ _

namespace DefinesClass

variable {node : Ref .node} {around : Ref .scope} {name : Text} {members : List Member}
  (registered : st.Registered)
  (cls : st.DefinesClass node inner around name members)
include registered cls

private theorem held_inner : st.Has inner.cell := cls.scope ▸ registered.closed.nodeScope cls.held

theorem fits : ∀ m ∈ members, (st.sealing inner true).Fits m := by
  intro m listed
  have known :=
    fits_of_makes cls.body (fun r below => registered.closed.child cls.held below) m listed
  exact known.mono (st.grows_updateScope inner _)

private theorem registered_filled : (st.classFilled inner members).Registered :=
  (registered.sealing inner true).withMembers
    ((cls.held_inner registered).mono (st.grows_updateScope inner _)) (cls.fits registered)

/-- The scopes are as before once the class is made. -/
theorem scope_made (s : Ref .scope) : (st.classMade node inner members).2.scope s = st.scope s := by
  have held := cls.held_inner registered
  let made :=
    ((st.classFilled inner members).newRecord
      { body := some (((st.classFilled inner members).scope inner).table, node) }).2
  have scope : ∀ t, made.scope t = (st.sealing inner true).scope t :=
    st.scope_classFilled inner members
  change (made.sealing inner false).scope s = _
  by_cases here : s = inner
  · subst here
    have inside : made.Has s.cell :=
      held.mono ((st.grows_classFilled s members).trans (extends_newRecord _ _).grows)
    rw [scope_sealing_here inside, scope, scope_sealing_here held, ← cls.plain]
  · rw [scope_sealing_elsewhere here, scope, scope_sealing_elsewhere here]

private theorem registered_made : (st.classMade node inner members).2.Registered := by
  have filled := cls.registered_filled registered
  have grows := st.grows_classFilled inner members
  refine (filled.newRecord ?_).sealing inner false
  intro c member
  simp only [Record.cells, List.flatMap_nil, List.append_nil, List.mem_cons, List.not_mem_nil,
    or_false] at member
  rcases member with rfl | rfl
  · exact filled.closed.table ((cls.held_inner registered).mono grows)
  · exact cls.held.mono grows

private theorem held_made : (st.classMade node inner members).2.Has inner.cell :=
  (cls.held_inner registered).mono
    ((st.grows_classFilled inner members).trans (st.grows_classMade node inner members))

/-- The class is declared in the nearest scope around it that takes in the global declarations. -/
theorem target_first :
    st.FirstOutward st.TakesGlobals around
      ((st.classMade node inner members).2.globalOf inner) := by
  have made := cls.registered_made registered
  have held := cls.held_made registered
  have scope := cls.scope_made registered
  have first := globalOf_first (made.rooted inner held)
  generalize (st.classMade node inner members).2.globalOf inner = target at first ⊢
  cases first with
  | here takes => simp [TakesGlobals, scope, cls.plain, cls.around] at takes
  | outer _ above next =>
    rw [scope, cls.around] at above
    obtain rfl := Option.some.inj above
    refine next.congr made.closed ?_ (fun s => by rw [scope]) fun s _ => by
      rw [TakesGlobals, TakesGlobals, scope]
    apply made.closed.parent held
    rw [scope, cls.around]

private theorem target_ne : (st.classMade node inner members).2.globalOf inner ≠ inner := by
  intro same
  have takes := (cls.target_first registered).holds
  simp [same, TakesGlobals, cls.plain, cls.around] at takes

private theorem held_target :
    (st.classMade node inner members).2.Has
      ((st.classMade node inner members).2.globalOf inner).cell :=
  (cls.registered_made registered).closed.ancestors (cls.held_made registered)
    (globalOf_mem_ancestors inner)

private theorem registered_defined : (st.classDefined node inner name members).Registered := by
  apply (cls.registered_made registered).declared (cls.held_target registered) name
  exact hasAll_cons.mpr ⟨Arena.holds_alloc_fresh _ _, hasAll_nil _⟩

/-- Once the members are made, only the name of the class changes. -/
theorem changes_defined :
    (st.classFilled inner members).ChangesOnly (st.classDefined node inner name members)
      fun s label =>
    s = (st.classMade node inner members).2.globalOf inner ∧ label = name := by
  let made := (st.classFilled inner members).newRecord
    { body := some (((st.classFilled inner members).scope inner).table, node) }
  have declared := (cls.registered_made registered).changesOnly_bindName
    (cls.held_target registered) name
    (.ofValue (made.2.sealing inner false) name (some ((made.2.sealing inner false).globalOf inner))
      (.record made.1))
  apply ((changesOnly_newRecord _ _).trans
    ((made.2.changesOnly_sealing inner false).trans declared)).mono
  rintro s label (new | opened | named)
  · exact new
  · exact opened
  · exact named

/-- If no member escapes, the members are names of the class, and nothing else changes but the name
of the class itself. -/
theorem contained (contains : st.Contains inner [] members) :
    (∀ m ∈ members, (st.classDefined node inner name members).Declares m.name inner) ∧
      st.ChangesOnly (st.classDefined node inner name members) fun s label =>
        s = inner ∧ label ∈ members.map Member.name ∨
        s = (st.classMade node inner members).2.globalOf inner ∧ label = name := by
  have held := cls.held_inner registered
  obtain ⟨filled, _⟩ := (registered.filled inner).members registered held
    (cls.fits registered) contains
  have changes := cls.changes_defined registered
  refine ⟨?_, filled.changes.trans changes⟩
  intro m listed
  rw [Declares, changes.names inner (held.mono filled.changes.grows) m.name fun both =>
    cls.target_ne registered both.1.symm]
  exact filled.declared m.name (List.mem_map_of_mem listed)

/-- A member that is new to the class and declared once has its value in the end. -/
theorem value {before after : List Member} (split : members = before ++ m :: after)
    (contains : st.Contains inner [] members) (first : m.name ∉ before.map Member.name)
    (last : m.name ∉ after.map Member.name) (absent : ¬ st.Declares m.name inner) :
    ∃ x, ((st.classDefined node inner name members).tableOf inner).find? m.name = some x ∧
      ((st.classDefined node inner name members).var x).reading = .ok m.value.asRead := by
  subst split
  have held := cls.held_inner registered
  have fits := cls.fits registered
  have changes := cls.changes_defined registered
  obtain ⟨containsBefore, stays, containsAfter⟩ := contains_append contains
  obtain ⟨filled, _⟩ := (registered.filled inner).members registered held
    (fun m listed => fits m (List.mem_append_left _ listed)) containsBefore
  rw [List.nil_append] at filled stays containsAfter
  let cur := (st.sealing inner true).withMembers inner before
  have grows : (st.sealing inner true).Grows cur :=
    ((st.sealing inner true).withMembers_rest inner before).2.2
  have fitsHere : cur.Fits m := (fits m (List.mem_append_right _ List.mem_cons_self)).mono grows
  obtain ⟨x, bound, reading⟩ := filled.fresh registered held fitsHere stays first absent
  obtain ⟨next, _⟩ := filled.member registered held fitsHere stays
  have fitsAfter : ∀ p ∈ after, (cur.withMember inner m).Fits p := by
    intro p listed
    have known := fits p (List.mem_append_right _ (List.mem_cons_of_mem m listed))
    exact known.mono (grows.trans (cur.withMember_rest inner m).2.2)
  obtain ⟨_, rest⟩ := next.members registered held fitsAfter containsAfter
  have whole : st.classFilled inner (before ++ m :: after) =
      (cur.withMember inner m).withMembers inner after :=
    withMembers_append _ inner before (m :: after)
  rw [← whole] at rest
  have other : ¬ (inner = inner ∧ m.name ∈ after.map Member.name ∨
      inner = (st.classMade node inner (before ++ m :: after)).2.globalOf inner ∧
      m.name = name) := by
    rintro (⟨_, listed⟩ | ⟨same, _⟩)
    · exact last listed
    · exact cls.target_ne registered same.symm
  obtain ⟨still, same⟩ :=
    next.registered.kept (rest.trans changes) (held.mono next.changes.grows) other bound
  exact ⟨x, still, same ▸ reading⟩

end DefinesClass

end Store

section Class

variable (rounds n : Nat) (file : Text) {w : World} {inner : Ref .scope} {node : Ref .node}
  {around : Ref .scope} {name : Text}
  {members : List Member} (registered : w.store.Registered)
  (cls : w.store.DefinesClass node inner around name members)
include registered cls

/-- Defining a class makes its members, then the class, and then its name. -/
theorem exec_class :
    ((Evaluator.ofRoom rounds (n + 4)).run node file).exec w =
      (.ok .done, { w with store := w.store.classDefined node inner name members }) := by
  let st := w.store
  let s := Site.ofNode (.ofRoom rounds (n + 3)) st node file
  let started : World := { w with store := st.sealing inner true }
  let filled : World := { w with store := st.classFilled inner members }
  have held := cls.held_inner registered
  have place : s.scope = inner := cls.scope
  have body : s.body.exec started = (.ok .done, filled) := by
    rw [Site.body, runBody, Run.exec_bind_ok started (Run.exec_getStore started)]
    exact exec_sealed rounds n file registered held
      (fun r below => registered.closed.child cls.held below) cls.body
  let made := st.classMade node inner members
  have declared : (declareGlobal s.ev s.scope name (.bare (.record made.1))).exec
    { w with store := made.2 } =
      (.ok (), { w with store := st.classDefined node inner name members }) := by
    rw [declareGlobal, Run.exec_bind_ok _ (Run.exec_getStore _), place]
    exact declare_settled rounds (n + 2) _ cls.single (.record made.1)
  change (runStep (.ofRoom rounds (n + 3)) node file).exec w = _
  rw [runStep_exec]
  unfold Site.act
  rw [show s.command.verb? = some .defClass from cls.defines.verb]
  change s.defClass.exec w = _
  rw [Site.defClass, Run.exec_bind_ok w (s.exec_definedName rfl cls.defines w),
    Run.exec_bind_ok w (Run.exec_changeStore w _), place]
  let body' : Record := { body := some ((filled.store.scope inner).table, node) }
  have allocated : (Run.alloc (·.newRecord body')).exec filled =
    (.ok made.1, { w with store := (filled.store.newRecord body').2 }) := rfl
  refine (Run.exec_bind_ok started body).trans
    ((Run.exec_bind_ok filled (Run.exec_getStore filled)).trans ?_)
  refine (Run.exec_bind_ok filled allocated).trans
    ((Run.exec_bind_ok _ (Run.exec_changeStore _ _)).trans ?_)
  rw [place] at declared
  exact Run.exec_bind_ok _ declared

/-- The first member that escapes is written to a variable outside of the class when its statement
is run. -/
theorem exec_escape (fails : ¬ w.store.Contains inner [] members) :
    ∃ before label v after owner x cur, members = before ++ .field label v :: after ∧
    owner ≠ inner ∧
      w.store.FirstOutward (w.store.Declares label) inner owner ∧
      (w.store.tableOf owner).find? label = some x ∧
      (runAll (.ofRoom rounds (n + 3)) file
        ((w.store.node node).children.take (before.length + 1))).exec
          { w with store := w.store.sealing inner true } = (.ok .done, { w with store := cur }) ∧
      cur.var x = { w.store.var x with content := v.asRead } ∧ ¬ cur.Declares label inner := by
  have held := cls.held_inner registered
  have fits := cls.fits registered
  obtain ⟨before, m, after, split, contained, escapes⟩ := Store.exists_escape fails
  cases m with
  | method => cases escapes
  | field label v =>
    have listed : ∀ m ∈ before, (w.store.sealing inner true).Fits m := by
      intro m member
      apply fits
      rw [split]
      exact List.mem_append_left _ member
    obtain ⟨filled, _⟩ := (registered.filled inner).members registered held listed contained
    obtain ⟨owner, x, outside, nearest, bound, written, hidden⟩ :=
      filled.escape registered held escapes
    have first : members.take (before.length + 1) = before ++ [.field label v] := by
      have whole : members = (before ++ [.field label v]) ++ after := by simp [split]
      rw [whole]
      exact List.take_left' (by simp)
    have ran := exec_sealed rounds n file registered held
      (fun r below => registered.closed.child cls.held (List.mem_of_mem_take below))
      (List.forall₂_take (before.length + 1) cls.body)
    rw [first, Store.withMembers_append] at ran
    exact ⟨before, label, v, after, owner, x, _, split, outside, nearest, bound, ran,
      written, hidden⟩

end Class

/-! ### Assignments to names of a class -/

private theorem Store.resolve_root_none {st : Store} {s : Ref .scope} {name : Text}
    (ends : (st.scope (st.root s)).parent = none) (unknown : st.resolve s name = none) :
    st.resolve (st.root s) name = none := by
  have alone : ∀ n, st.outward n (st.root s) = [st.root s] := by
    intro n
    cases n with
    | zero => rfl
    | succ n => rw [outward, ends]
  rw [resolve_eq_none, ancestors, alone]
  intro a member
  rw [List.mem_singleton.mp member]
  exact resolve_eq_none.mp unknown _ (root_mem_ancestors s)

structure Store.AssignsMember (st : Store) (node : Ref .node) (name member text : Text)
    (c : Ref .variable) (inner : Ref .scope) : Prop where
  held : st.Has node.cell
  sets : Sets (st.node node).command (name ++ '.' :: member) text
  single : '.' ∉ name
  known : ∃ owner, st.resolve (st.node node).scope name = some (owner, c)
  members : (st.var c).members = some inner
  plain : PlainName member
  noCondition : isCondition member = false
  oneWord : ' ' ∉ member

private theorem Store.AssignsMember.held_inner {st : Store} {node : Ref .node}
    {name member text : Text} {c : Ref .variable} {inner : Ref .scope}
    (assigns : st.AssignsMember node name member text c inner) (registered : st.Registered) :
    st.Has inner.cell := by
  obtain ⟨owner, known⟩ := assigns.known
  have place := registered.closed.nodeScope assigns.held
  exact registered.closed.members (registered.closed.resolve place known).2 assigns.members

section Assignment

variable (rounds n : Nat) (file : Text) {w : World} {node : Ref .node} {name member text : Text}
  {c : Ref .variable} {inner : Ref .scope}
  {v : Value} (assigns : w.store.AssignsMember node name member text c inner)
include assigns

private theorem splitOn_member : (name ++ '.' :: member).splitOn '.' = [name, member] := by
  rw [Text.splitOn_append_cons assigns.single, List.splitOn_eq_singleton assigns.plain.single]

private theorem findPath_member :
    w.store.findPath (w.store.node node).scope (name ++ '.' :: member) =
    (w.store.resolve inner member).map (·.2) := by
  obtain ⟨owner, known⟩ := assigns.known
  simp only [Store.findPath, splitOn_member assigns, Store.find, known, Option.bind_some,
    assigns.members]

/-- A name that means nothing in the scope of the members is looked up in vain. -/
theorem lookup_new_member (ends : (w.store.scope (w.store.root inner)).parent = none)
    (unknown : w.store.resolve inner member = none) :
    (lookup (.ofRoom rounds (n + 1)) (w.store.node node).scope (name ++ '.' :: member)).exec w =
      (.ok (.bare .nothing), w) := by
  obtain ⟨owner, known⟩ := assigns.known
  have trimmed : Spelled.trimSpaces member = member := by
    apply Spelled.trimSpaces_flush
    · exact fun first => assigns.oneWord (List.mem_of_mem_head? first)
    · exact fun last => assigns.oneWord (List.mem_of_getLast? last)
  have nothing :
      (evaluate (.ofRoom rounds (n + 1)) (some (w.store.root inner)) (.bare (.text member))).exec
        w = (.ok .nothing, w) := by
    rw [evaluate_name rounds n w assigns.plain assigns.noCondition, trimmed, Store.readName,
      Store.resolve_root_none ends unknown]
  unfold lookup
  rw [splitOn_member assigns]
  change (lookupFrom _ _ name [member]).exec w = _
  rw [lookupFrom, Run.exec_bind_ok w (Run.exec_getStore w), known]
  simp only [assigns.members]
  rw [lookupFrom, Run.exec_bind_ok w (Run.exec_getStore w), unknown]
  exact Run.exec_bind_ok w nothing

private theorem declare_member (settled : v.Settled w.store) :
    (declare (.ofRoom rounds (n + 1)) (w.store.node node).scope (name ++ '.' :: member)
      (.bare v)).exec w =
      (.ok (), { w with store := w.store.declared inner member v }) := by
  obtain ⟨owner, known⟩ := assigns.known
  have found : (lookupFrom (.ofRoom rounds (n + 1)) (w.store.node node).scope name []).exec w =
      (.ok (.held c), w) := by
    rw [lookupFrom, Run.exec_bind_ok w (Run.exec_getStore w), known]
    rfl
  have held : (heldItem (.held c)).exec w = (.ok c, w) := rfl
  have declared : (declare (.ofRoom rounds (n + 1)) inner member (.bare v)).exec w =
      (.ok (), { w with store := w.store.declared inner member v }) :=
        declare_settled rounds n w assigns.plain.single settled
  unfold declare at declared ⊢
  rw [List.splitOn_eq_singleton assigns.plain.single] at declared
  rw [splitOn_member assigns]
  change (declareFrom _ _ name (.bare v) [member]).exec w = _
  rw [declareFrom, Run.exec_bind_ok w found, Run.exec_bind_ok w held,
    Run.exec_bind_ok w (Run.exec_getStore w), assigns.members]
  exact declared

/-- The assignment does what a field in the body of a class does. -/
theorem exec_assign_member (registered : w.store.Registered) (isGlobal : Bool)
    (scalar : v.IsScalar) :
    (assign (.ofRoom rounds (n + 1)) (w.store.node node).scope isGlobal (name ++ '.' :: member)
      (.bare v)).exec w =
      (.ok (), { w with store := w.store.withMember inner (.field member v) }) := by
  obtain ⟨owner, known⟩ := assigns.known
  have inside := assigns.held_inner registered
  have path := findPath_member assigns
  cases found : w.store.resolve inner member with
  | some meaning =>
    rw [found] at path
    rw [Store.withMember_known v found]
    exact Assignment.exec_assign_path rounds n isGlobal scalar path
      (registered.closed.resolve inside found).2
  | none =>
    have visible : w.store.isVisible (w.store.node node).scope (name ++ '.' :: member) = true := by
      rw [Store.isVisible, Text.before_append_self assigns.single, known]
      rfl
    rw [Store.withMember_unknown v found]
    unfold assign
    rw [Run.exec_bind_ok w (Run.exec_readItem_bare w v), Run.exec_bind_ok w (Run.exec_getStore w),
      visible, if_pos rfl, Run.exec_bind_ok w
      (lookup_new_member rounds n assigns (registered.rooted inner inside) found)]
    exact declare_member rounds n assigns (scalar.settled _)

private theorem exec_memberSetting (registered : w.store.Registered) (denotes : Denotes text v) :
    ((Evaluator.ofRoom rounds (n + 3)).run node file).exec w =
      (.ok .done, { w with store := w.store.withMember inner (.field member v) }) := by
  let s := Site.ofNode (.ofRoom rounds (n + 2)) w.store node file
  have given : (s.valueOf text).exec w = (.ok v, w) := denotes.exec_valueOf rounds n s.scope w
  have assigned := exec_assign_member rounds (n + 1) assigns registered
    (!s.file.isEmpty) denotes.scalar
  change (runStep (.ofRoom rounds (n + 2)) node file).exec w = _
  rw [runStep_exec, s.exec_sets rfl assigns.sets, Run.exec_bind_ok w given]
  exact Run.exec_bind_ok w assigned

end Assignment

/-- Where all variables are registered, a class is defined whose body sets names to literals and
defines functions. Its name is declared in the nearest scope around it that takes in global
declarations, and has its scope for members. If no field escapes, all names set and defined there
are members, those that are new and declared once with their values, and nothing else changes.
Otherwise the first field that escapes is written to a variable of a scope around the class and is
no member. In the same way a literal that is assigned to a name of a class becomes a member, and
nothing else changes, exactly if the name does not escape and no member of that name was made for
text. -/
theorem class_names_contained (rounds n : Nat) (file : Text) (w : World)
    (registered : w.store.Registered) :
    let st := w.store
    (∀ node inner around name members, st.DefinesClass node inner around name members →
      ∃ last target c q, ((Evaluator.ofRoom rounds (n + 4)).run node file).exec w =
        (.ok .done, { w with store := last }) ∧
        last.Registered ∧ st.FirstOutward st.TakesGlobals around target ∧
        (last.tableOf target).find? name = some c ∧
        last.var c =
          { name := some name, home := some target, content := .record q, tag := .object,
            members := some inner } ∧
        (last.record q).body = some ((st.scope inner).table, node) ∧
        (st.Contains inner [] members →
          (∀ m ∈ members, last.Declares m.name inner) ∧
          (∀ before m after, members = before ++ m :: after → m.name ∉ before.map Member.name →
            m.name ∉ after.map Member.name →
            ¬ st.Declares m.name inner →
            ∃ x, (last.tableOf inner).find? m.name = some x ∧
            (last.var x).reading = .ok m.value.asRead) ∧
          st.ChangesOnly last fun s label => s = inner ∧ label ∈ members.map Member.name ∨
          s = target ∧ label = name) ∧
        (¬ st.Contains inner [] members →
          ∃ before label v after owner x cur, members = before ++ .field label v :: after ∧
          owner ≠ inner ∧
            st.FirstOutward (st.Declares label) inner owner ∧
            (st.tableOf owner).find? label = some x ∧
            (runAll (.ofRoom rounds (n + 3)) file
              ((st.node node).children.take (before.length + 1))).exec
                { w with store := st.sealing inner true } = (.ok .done, { w with store := cur }) ∧
            cur.var x = { st.var x with content := v.asRead } ∧ ¬ cur.Declares label inner)) ∧
    ∀ node name member text c inner v, st.AssignsMember node name member text c inner →
      Denotes text v →
      ∃ last, ((Evaluator.ofRoom rounds (n + 3)).run node file).exec w =
        (.ok .done, { w with store := last }) ∧ last.Registered ∧
        (((∃ x, (last.tableOf inner).find? member = some x ∧ (last.var x).reading = .ok v) ∧
            st.ChangesOnly last fun s label => s = inner ∧ label = member) ↔
          ¬ st.Escapes inner [] (.field member v) ∧ ∀ x, (st.tableOf inner).find? member = some x →
            (st.var x).tag ≠ .text) := by
  intro st
  constructor
  · intro node inner around name members cls
    let made := st.classMade node inner members
    let target := made.2.globalOf inner
    refine ⟨st.classDefined node inner name members, target, ⟨made.2.vars.size⟩, made.1,
      exec_class rounds n file registered cls, cls.registered_defined registered,
      cls.target_first registered, ?_, ?_, ?_, ?_, exec_escape rounds n file registered cls⟩
    · exact (cls.registered_made registered).find?_declared (cls.held_target registered) name _
    · change (made.2.declared target name (.record made.1)).var _ = _
      rw [Store.declared, Store.var_bindName_fresh]
      simp only [made, Variable.ofValue, Store.record_classMade, Option.map_some,
        Store.node_classMade]
      rw [cls.scope]
    · exact congrArg Record.body (st.record_classMade node inner members)
    · intro contains
      obtain ⟨declared, changes⟩ := cls.contained registered contains
      refine ⟨declared, ?_, changes⟩
      intro before m after split first last absent
      exact cls.value registered split contains first last absent
  · intro node name member text c inner v assigns denotes
    have held := assigns.held_inner registered
    have iff := registered.field_iff held member denotes.scalar
    rw [denotes.asRead] at iff
    exact ⟨_, exec_memberSetting rounds n file assigns registered denotes,
      registered.withMember held denotes.scalar, iff⟩

def Store.classes : Store where
  scopes :=
    ⟨#[{ parent := none, table := ⟨0⟩ }, { parent := some ⟨0⟩, table := ⟨1⟩ },
      { parent := some ⟨1⟩, table := ⟨2⟩ },
    { parent := some ⟨0⟩, table := ⟨3⟩ }, { parent := some ⟨0⟩, table := ⟨4⟩ }]⟩
  tables := ⟨#[[(['x'], ⟨0⟩), (['C'], ⟨1⟩)], [], [], [(['f'], ⟨2⟩)], []]⟩
  vars := ⟨#[{ name := some ['x'], home := some ⟨0⟩, content := .int 1, tag := .int },
    { name := some ['C'], home := some ⟨0⟩, content := .record ⟨0⟩, tag := .object,
      members := some ⟨3⟩ },
    { name := some ['f'], home := some ⟨3⟩, content := .int 1, tag := .int }]⟩
  records := ⟨#[{ body := some (⟨3⟩, ⟨4⟩) }]⟩
  nodes :=
    ⟨#[{ command := "class D()".toList, index := 0, children := [⟨1⟩,
      ⟨2⟩], scope := ⟨1⟩, interactive := false },
    { command := "var y = 2".toList, index := 0, children := [], scope := ⟨1⟩,
      interactive := false },
    { command := "def m()".toList, index := 1, children := [], scope := ⟨2⟩, interactive := false },
    { command := "var C.f = 5".toList, index := 1, children := [], scope := ⟨0⟩,
      interactive := false },
    { command := "class C()".toList, index := 2, children := [], scope := ⟨3⟩,
      interactive := false },
    { command := "class E()".toList, index := 3, children := [⟨6⟩], scope := ⟨4⟩,
      interactive := false },
    { command := "var x = 2".toList, index := 0, children := [], scope := ⟨4⟩,
      interactive := false }]⟩

namespace Store

private theorem classes_registered : classes.Registered := by decide

private theorem denotes_two : Denotes ['2'] (.int 2) := .int (by decide +kernel)

private theorem classes_defines :
    classes.DefinesClass ⟨0⟩ ⟨1⟩ ⟨0⟩ ['D'] [.field ['y'] (.int 2), .method ['m'] ⟨2⟩] where
  held := by decide
  scope := rfl
  around := rfl
  plain := rfl
  defines := ⟨by decide +kernel, _, rfl, rfl⟩
  single := by decide
  body := by
    have sets : Sets "var y = 2".toList ['y'] ['2'] :=
      ⟨by decide +kernel, ⟨_, rfl, by decide, rfl⟩, rfl⟩
    have method : classes.Makes ⟨1⟩ ⟨2⟩ (.method ['m'] ⟨2⟩) :=
      .method rfl rfl ⟨by decide +kernel, _, rfl, rfl⟩ (by decide)
    exact .cons (.field rfl sets denotes_two (by decide) (by decide) (by decide))
      (.cons method .nil)

private theorem classes_contains :
    classes.Contains ⟨1⟩ [] [.field ['y'] (.int 2), .method ['m'] ⟨2⟩] := by
  refine ⟨?_, id, trivial⟩
  rintro ⟨_, _, a, first⟩
  exact not_first_of_unknown rfl rfl a first

private theorem classes_escapes : classes.DefinesClass ⟨5⟩ ⟨4⟩ ⟨0⟩ ['E'] [.field ['x'] (.int 2)] ∧
    ¬ classes.Contains ⟨4⟩ [] [.field ['x'] (.int 2)] := by
  have sets : Sets "var x = 2".toList ['x'] ['2'] :=
    ⟨by decide +kernel, ⟨_, rfl, by decide, rfl⟩, rfl⟩
  refine ⟨⟨by decide, rfl, rfl, rfl, ⟨by decide +kernel, _, rfl, rfl⟩, by decide, ?_⟩, ?_⟩
  · exact .cons (.field rfl sets denotes_two (by decide) (by decide) (by decide)) .nil
  · rintro ⟨stays, _⟩
    exact stays ⟨List.not_mem_nil, by decide, ⟨0⟩, .outer (by decide) rfl (.here (by decide))⟩

private theorem classes_assigns : classes.AssignsMember ⟨3⟩ ['C'] ['f'] ['5'] ⟨1⟩ ⟨3⟩ where
  held := by decide
  sets := ⟨by decide +kernel, ⟨_, rfl, by decide, rfl⟩, rfl⟩
  single := by decide
  known := ⟨_, rfl⟩
  members := rfl
  plain := by constructor <;> decide
  noCondition := by decide
  oneWord := by decide

end Store

/-- The class `D` keeps its names to itself, and so does `C`; the class `E` writes to the variable
`x`. -/
theorem class_names_contained_but_x :
    let w : World := { store := Store.classes }
    (∃ last, ((Evaluator.ofRoom 0 4).run ⟨0⟩ []).exec w = (.ok .done, { w with store := last }) ∧
      last.Declares ['y'] ⟨1⟩ ∧ last.Declares ['m'] ⟨1⟩ ∧ last.var ⟨0⟩ = Store.classes.var ⟨0⟩) ∧
    (∃ last, ((Evaluator.ofRoom 0 3).run ⟨3⟩ []).exec w = (.ok .done, { w with store := last }) ∧
      ∃ x, (last.tableOf ⟨3⟩).find? ['f'] = some x ∧ (last.var x).reading = .ok (.int 5)) ∧
    ∃ cur : Store, (runAll (.ofRoom 0 3) [] [⟨6⟩]).exec
      { w with store := Store.classes.sealing ⟨4⟩ true } =
        (.ok .done, { w with store := cur }) ∧
      (cur.var ⟨0⟩).content = .int 2 ∧ ¬ cur.Declares ['x'] ⟨4⟩ := by
  intro w
  obtain ⟨classes, assignments⟩ := class_names_contained 0 0 [] w Store.classes_registered
  refine ⟨?_, ?_, ?_⟩
  · obtain ⟨last, target, c, q, ran, _, _, _, _, _, contained, _⟩ :=
      classes _ _ _ _ _ Store.classes_defines
    obtain ⟨declared, _, changes⟩ := contained Store.classes_contains
    have method : Member.method ['m'] ⟨2⟩ ∈ [.field ['y'] (.int 2), .method ['m'] ⟨2⟩] := by simp
    refine ⟨last, ran, declared _ List.mem_cons_self, declared _ method, ?_⟩
    have other : ¬ ((⟨0⟩ : Ref .scope) = ⟨1⟩ ∧ ['x'] ∈ [['y'], ['m']] ∨ ⟨0⟩ = target ∧
      ['x'] = ['D']) := by simp
    exact (Store.classes_registered.kept changes (by decide) other rfl).2
  · obtain ⟨last, ran, _, iff⟩ :=
      assignments _ _ _ _ _ _ (.int 5) Store.classes_assigns (.int (by decide +kernel))
    refine ⟨last, ran, (iff.mpr ⟨?_, ?_⟩).1⟩
    · rintro ⟨_, absent, _⟩
      exact absent (by decide)
    · rintro x ⟨⟩
      decide
  · obtain ⟨_, _, _, _, _, _, _, _, _, _, _, escapes⟩ := classes _ _ _ _ _ Store.classes_escapes.1
    obtain ⟨before, label, v, after, owner, x, cur, split, _, nearest, bound, ran, written,
      hidden⟩ := escapes Store.classes_escapes.2
    cases before with
    | cons => simp at split
    | nil =>
      cases split
      obtain rfl : owner = ⟨0⟩ := nearest.unique (.outer (by decide) rfl (.here (by decide)))
      cases bound
      exact ⟨cur, ran, congrArg Variable.content written, hidden⟩

end CommandScript
