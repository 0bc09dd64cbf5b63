import CommandScript.Proofs.Calls
import CommandScript.Proofs.Stillness

/-! Updates that fail. A statement that sets a variable, or converts it, evaluates and reads first,
then writes the variable, and only then makes a variable of what was written, which may fail as
well. What fails before the first write leaves the store as it was; what fails after it leaves the
new tag or the new content behind. -/
namespace CommandScript

/-! ### Assignments that fail -/

def Store.written (st : Store) (r : Ref .variable) (v : Value) : Store :=
  st.updateVariable r fun x => { x with content := v }

private theorem Store.isVisible_written (st : Store) (r : Ref .variable) (v : Value)
    (scope : Ref .scope) (name : Text) :
    (st.written r v).isVisible scope name = st.isVisible scope name := by
  rw [isVisible, written, resolve_updateVariable, isVisible]

theorem Store.Passive.written {st : Store} (passive : st.Passive) {r : Ref .variable}
    (held : st.Has r.cell) {v : Value} (inert : st.Inert v) : (st.written r v).Passive := by
  refine passive.changed rfl rfl rfl (fun q other => var_updateVariable_elsewhere _ _ other)
    fun u read => ?_
  rw [Store.written, var_updateVariable_here _ held] at read
  exact Inert.of_reading (x := { st.var r with content := v }) inert read

/-- A value of which no variable can be made in a scope: it is nothing, or it is a text that only a
name can be, and the name is not visible there. -/
inductive Value.Unknown (st : Store) (home : Ref .scope) : Value → Prop where
  | nothing : Unknown st home .nothing
  | text (s : Text) (isOpen : s.IsOpen) (plain : isCondition s = false)
      (hidden : st.isVisible home (Spelled.trimSpaces s) = false) :
    Unknown st home (.text s)

/-- A value of which a variable can be made without looking anything up: one that evaluation can
give, or a numeral. -/
inductive Value.Storable (st : Store) : Value → Prop where
  | settled {v : Value} (settled : v.Settled st) : Storable st v
  | integer {s : Text} {k : Int} (unquoted : Spelled.isQuoted s = false)
      (read : Number.readInt? s = some k) : Storable st (.text s)
  | decimal {s : Text} {x : Float} (unquoted : Spelled.isQuoted s = false)
      (noInt : Number.readInt? s = none)
    (read : Number.readFloat? s = some x) : Storable st (.text s)

theorem Value.Storable.congr {st later : Store} {v : Value} (storable : v.Storable st)
    (lists : later.lists = st.lists) : v.Storable later := by
  cases storable with
  | settled settled => exact .settled (settled.congr lists)
  | integer unquoted read => exact .integer unquoted read
  | decimal unquoted noInt read => exact .decimal unquoted noInt read

section Failing

variable {rounds n : Nat} {r : Ref .variable} {v : Value} {w later : World} {e : Fault}

/-- What is left of an assignment after the content of a variable is written: a variable is made of
the value, and what it reads as is evaluated for the namesake. -/
def reportContent (ev : Evaluator) (x : Variable) (v : Value) : Run Unit :=
  match x.home with
  | some scope => do
    let y ← ev.bind (some scope) nameless false v
    update ev scope x.name (do return .bare (← y.read))
  | none => pure ()

private theorem assignVariable_eq (ev : Evaluator) (held : w.store.Has r.cell) :
    (assignVariable ev r (.bare v)).exec w = (reportContent ev (w.store.var r) v).exec
      { w with store := w.store.written r v } := by
  have content : (w.store.written r v).var r = { w.store.var r with content := v } :=
    Store.var_updateVariable_here _ held
  unfold assignVariable
  rw [Run.exec_bind_ok w (Run.exec_readItem_bare w v),
    Run.exec_bind_ok w (Run.exec_changeStore w _)]
  change (Run.getStore >>= _).exec { w with store := w.store.written r v } = _
  rw [Run.exec_bind_ok _ (Run.exec_getStore _), content]
  rfl

private theorem update_fails {home : Ref .scope} {name : Option Text} {y : Variable}
    (elements : w.store.InertElements) (inert : ∀ u, y.reading = .ok u → w.store.Inert u)
    (failed : (update (.ofRoom rounds n) home name (y.read >>= fun u => pure (.bare u))).exec w =
      (.error e, later)) :
    w.store.Retains later.store := by
  unfold update at failed
  cases name with
  | none => cases failed
  | some name =>
    rw [Run.exec_bind_ok w (Run.exec_getStore w)] at failed
    split at failed
    · cases failed
    · next owner _ _ =>
      rw [bind_assoc, Run.exec_bind, Variable.exec_read] at failed
      cases read : y.reading with
      | error fault =>
        rw [read] at failed
        cases failed
        exact .refl _
      | ok u =>
        rw [read] at failed
        simp only [pure_bind] at failed
        have kept : (evaluate (.ofRoom rounds n) (some owner) (.bare u)).Retains w.store :=
          evaluate_retains rounds n elements (inert u read)
        rcases ran : (evaluate (.ofRoom rounds n) (some owner) (.bare u)).exec w
          with ⟨fault | result, after⟩
        · rw [Run.exec_bind_error w ran] at failed
          cases failed
          exact kept.after rfl ran
        · rw [Run.exec_bind_ok w ran] at failed
          cases failed

/-- An assignment that fails has written, and then changed no variable. -/
theorem assignVariable_fails (held : w.store.Has r.cell) (passive : (w.store.written r v).Passive)
    (inert : w.store.Inert v)
    (failed : (assignVariable (.ofRoom rounds n) r (.bare v)).exec w = (.error e, later)) :
    (w.store.written r v).Retains later.store := by
  rw [assignVariable_eq _ held, reportContent] at failed
  split at failed
  · next scope _ =>
    have made := Evaluator.ofRoom_retains rounds n (some scope) nameless false v _ passive.elements
      (inert.congr rfl rfl)
    rcases ran : ((Evaluator.ofRoom rounds n).bind (some scope) nameless false v).exec
      { w with store := w.store.written r v } with
      ⟨fault | y, middle⟩
    · rw [Run.exec_bind_error _ ran] at failed
      cases failed
      exact made.after rfl ran
    · rw [Run.exec_bind_ok _ ran] at failed
      have first := made.after rfl ran
      refine first.trans (update_fails (passive.elements.retained first) (fun u read => ?_) failed)
      exact (inert_of_bind passive ran read).congr first.scopes first.tables
  · cases failed

variable (rounds n) in
/-- No variable can be made of what is unknown, so that the assignment of it fails with the content
written. -/
theorem assignVariable_unknown (held : w.store.Has r.cell) {home : Ref .scope}
    (at_ : (w.store.var r).home = some home) (unknown : v.Unknown w.store home) :
    ∃ fault later, (assignVariable (.ofRoom rounds n) r (.bare v)).exec w = (.error fault, later) ∧
    later.store = w.store.written r v := by
  let filled : World := { w with store := w.store.written r v }
  have fails : ∀ (ev : Evaluator) (name : Option Text), ∃ fault later,
      (bindName.unknown ev (some home) false name filled.store).exec filled =
        (.error fault, later) ∧ later.store = filled.store := by
    intro ev name
    have silent : ((bindName.unknown ev (some home) false name filled.store).exec filled).2.store =
        filled.store :=
      unknown_silent false name filled.store filled
    rcases ran : (bindName.unknown ev (some home) false name filled.store).exec filled
      with ⟨fault | x, later⟩
    · rw [ran] at silent
      exact ⟨fault, later, rfl, silent⟩
    · unfold bindName.unknown at ran
      rw [if_neg Bool.false_ne_true] at ran
      obtain ⟨_, _, -, ran⟩ := Run.exec_bind_inv _ ran
      obtain ⟨_, _, -, ran⟩ := Run.exec_bind_inv _ ran
      cases ran
  have made : ∃ fault later, ((Evaluator.ofRoom rounds n).bind (some home) nameless false v).exec
    filled = (.error fault, later) ∧
      later.store = filled.store := by
    cases n with
    | zero => exact ⟨.tooDeep, filled, rfl, rfl⟩
    | succ n =>
      cases unknown with
      | nothing => exact fails _ none
      | text s isOpen plain hidden =>
        have invisible : filled.store.isVisible home (Spelled.trimSpaces s) = false := by
          rw [Store.isVisible_written, hidden]
        change ∃ fault later, (bindText (.ofRoom rounds n) (some home) nameless false s).exec
          filled = (.error fault, later) ∧ _
        unfold bindText
        rw [if_neg (by simp [isOpen.unquoted]), isOpen.noInt, isOpen.noFloat,
          if_neg (by simp [plain])]
        unfold bindName
        rw [Run.exec_bind_ok _ (Run.exec_getStore _)]
        simp only [invisible, Bool.false_eq_true, if_false]
        exact fails _ _
  obtain ⟨fault, later, ran, same⟩ := made
  refine ⟨fault, later, ?_, same⟩
  rw [assignVariable_eq _ held, reportContent, at_]
  exact Run.exec_bind_error _ ran

private theorem bind_storable {home : Option (Ref .scope)} {name : Text} {lenient : Bool}
    (storable : v.Storable w.store) :
    ∃ y u, ((Evaluator.ofRoom rounds (n + 1)).bind home name lenient v).exec w = (.ok y, w) ∧
    y.reading = .ok u ∧
      u.Settled w.store := by
  cases storable with
  | settled settled =>
    exact ⟨_, _, bind_settled rfl home name lenient settled,
      Variable.reading_ofValue name home settled, settled.asRead⟩
  | @integer s k unquoted read =>
    refine ⟨{ name := some name, home, content := .int k, tag := .int }, .int k, ?_, rfl, .int k⟩
    change (bindText _ home name lenient s).exec w = _
    unfold bindText
    rw [if_neg (by simp [unquoted]), read]
    rfl
  | @decimal s x unquoted noInt read =>
    refine ⟨{ name := some name, home, content := .float x, tag := .float }, .float x, ?_,
      rfl, .float x⟩
    change (bindText _ home name lenient s).exec w = _
    unfold bindText
    rw [if_neg (by simp [unquoted]), noInt, read]
    rfl

variable (rounds n) in
/-- The assignment of a value of which a variable can be made succeeds. -/
theorem assignVariable_storable (held : w.store.Has r.cell) (storable : v.Storable w.store) :
    ∃ later, (assignVariable (.ofRoom rounds (n + 1)) r (.bare v)).exec w = (.ok (), later) := by
  rw [assignVariable_eq _ held, reportContent]
  split
  · next home _ =>
    let filled : World := { w with store := w.store.written r v }
    obtain ⟨y, u, made, read, settled⟩ := bind_storable (w := filled) (storable.congr rfl)
    have given : (do return Item.bare (← y.read) : Run Item).exec filled =
        (.ok (.bare u), filled) := by
      refine Run.exec_bind_ok filled ?_
      rw [Variable.exec_read, read]
    exact ⟨_, (Run.exec_bind_ok filled made).trans (update_settled rfl settled given)⟩
  · exact ⟨_, rfl⟩

end Failing

/-! ### What the variables of a scope hold -/

namespace Store

variable {st later : Store} {scope : Ref .scope} {name : Text} {rest : List Text}
  {r : Ref .variable}

def holdings (st : Store) (scope : Ref .scope) : List (Text × Tag × Value) :=
  (st.tableOf scope).map fun entry => (entry.1, (st.var entry.2).tag, (st.var entry.2).content)

def SameVariables (st later : Store) : Prop := ∀ scope, later.holdings scope = st.holdings scope

private theorem exists_owner (found : st.find scope name rest = some r) :
    ∃ owner piece, (piece, r) ∈ st.tableOf owner := by
  induction rest generalizing scope name with
  | nil =>
    obtain ⟨owner, q, known, ⟨_, rfl⟩ | ⟨_, _, _, same, _⟩⟩ := find_inv found
    · exact ⟨owner, name, Table.mem_of_find? (resolve_inv known).2⟩
    · cases same
  | cons member more ih =>
    obtain ⟨owner, q, known, ⟨same, _⟩ | ⟨_, _, members, same, inside, found⟩⟩ := find_inv found
    · cases same
    · cases same
      exact ih found

/-- A variable that a name means is held by some scope, so that a change of its tag or content is
seen there. -/
theorem not_sameVariables (found : st.findPath scope name = some r)
    (scopes : later.scopes = st.scopes) (tables : later.tables = st.tables)
    (differs : (later.var r).tag ≠ (st.var r).tag ∨ (later.var r).content ≠ (st.var r).content) :
    ¬ st.SameVariables later := by
  intro same
  unfold findPath at found
  split at found
  · obtain ⟨owner, piece, member⟩ := exists_owner found
    have unmoved : later.tableOf owner = st.tableOf owner := by
      unfold tableOf table Store.scope
      rw [scopes, tables]
    have here := same owner
    rw [holdings, holdings, unmoved] at here
    have equal := List.map_inj_left.mp here (piece, r) member
    simp only [Prod.mk.injEq, true_and] at equal
    rcases differs with tag | content
    · exact tag equal.1
    · exact content equal.2
  · cases found

end Store

/-! ### Conversions -/

structure Converts (line : Text) (kind : Tag) (name : Text) : Prop where
  verb : (Command.of line).verb? = some .convert
  target : line.words[1]? = some kind.name
  known : kind = .int ∨ kind = .float ∨ kind = .text
  variable_ : line.words[2]? = some name

def Tag.convert (st : Store) (fuel : Nat) (u : Value) : Tag → Except Fault Value
  | .int => (Site.unquoted u).toInt.map .int
  | .float => (Site.unquoted u).toFloat.map .float
  | .text => (st.showValue fuel u).map .text
  | _ => .error .wrongKind

def Store.retagged (st : Store) (r : Ref .variable) (tag : Tag) : Store :=
  st.updateVariable r fun x => { x with tag }

private theorem Store.has_retagged {st : Store} {r : Ref .variable} (held : st.Has r.cell)
    (tag : Tag) : (st.retagged r tag).Has r.cell :=
  held.mono (st.grows_updateVariable r fun x => { x with tag })

private theorem Store.var_retagged {st : Store} {r : Ref .variable} (held : st.Has r.cell)
    (tag : Tag) :
    (st.retagged r tag).var r = { st.var r with tag } := var_updateVariable_here _ held

/-- Between the new tag and the new content a text may be left without its quotes, but not after the
content is written. -/
theorem Store.Passive.retagged_written {st : Store} (passive : st.Passive) {r : Ref .variable}
    (held : st.Has r.cell) (tag : Tag) {v : Value} (inert : st.Inert v) :
    ((st.retagged r tag).written r v).Passive := by
  refine passive.changed (r := r) rfl rfl rfl (fun q other => ?_) fun u read => ?_
  · rw [Store.written, var_updateVariable_elsewhere _ _ other]
    exact var_updateVariable_elsewhere _ _ other
  · rw [Store.written, var_updateVariable_here _ (has_retagged held tag)] at read
    exact Inert.of_reading (x := { (st.retagged r tag).var r with content := v }) inert read

def Site.writeConverted (s : Site) (r : Ref .variable) (kind : Tag) (u : Value) : Run Outcome := do
  Run.changeStore (·.retagged r kind)
  let v ← Run.ofExcept (kind.convert (← Run.getStore) s.ev.slack u)
  assignVariable s.ev r (.bare v)
  return .done

private theorem Site.exec_converts {s : Site} {line name : Text} {kind : Tag} {r : Ref .variable}
    {w : World} (command : s.command = .of line) (converts : Converts line kind name)
    (found : w.store.findPath s.scope name = some r) :
    s.act.exec w = (readVariable r >>= s.writeConverted r kind).exec w := by
  have second : (s.word 1).exec w = (.ok kind.name, w) := by
    rw [Site.word, command]
    exact Run.exec_nth converts.target w
  have third : (s.word 2).exec w = (.ok name, w) := by
    rw [Site.word, command]
    exact Run.exec_nth converts.variable_ w
  have meant : (s.variableOf name).exec w = (.ok r, w) :=
    Run.exec_bind_ok w (lookup_findPath s.ev found)
  have retags : ∀ convert : Value → Run Value,
    (∀ u m, (convert u).exec m = (kind.convert m.store s.ev.slack u, m)) →
      (s.retag kind convert >>= fun _ => pure Outcome.done).exec w =
        (readVariable r >>= s.writeConverted r kind).exec w := by
    intro convert converted
    unfold Site.retag
    simp only [bind_assoc]
    rw [Run.exec_bind_ok w third, Run.exec_bind_ok w meant, Run.exec_bind,
      Run.exec_bind w (readVariable r), Run.exec_readVariable]
    cases (w.store.var r).reading with
    | error fault => rfl
    | ok u =>
      let m : World := { w with store := w.store.retagged r kind }
      change (convert u >>= fun v => assignVariable s.ev r (.bare v) >>= fun _ =>
        pure Outcome.done).exec m =
        (Run.ofExcept (kind.convert m.store s.ev.slack u) >>= fun v =>
          assignVariable s.ev r (.bare v) >>= fun _ => pure Outcome.done).exec m
      rw [Run.exec_bind, converted, Run.exec_bind]
      cases kind.convert m.store s.ev.slack u <;> rfl
  unfold Site.act
  rw [command, converts.verb]
  change s.convert.exec w = _
  unfold Site.convert
  rw [Run.exec_bind_ok w second]
  rcases converts.known with rfl | rfl | rfl
  · rw [if_pos rfl]
    refine retags _ fun u m => ?_
    change (Run.ofExcept (Site.unquoted u).toInt >>= fun k => pure (Value.int k)).exec m =
      ((Site.unquoted u).toInt.map .int, m)
    cases (Site.unquoted u).toInt <;> rfl
  · rw [if_neg (by decide), if_pos rfl]
    refine retags _ fun u m => ?_
    change (Run.ofExcept (Site.unquoted u).toFloat >>= fun x => pure (Value.float x)).exec m =
      ((Site.unquoted u).toFloat.map .float, m)
    cases (Site.unquoted u).toFloat <;> rfl
  · rw [if_neg (by decide), if_neg (by decide), if_pos rfl]
    refine retags _ fun u m => ?_
    change (Run.ofExcept (m.store.showValue s.ev.slack u) >>= fun t => pure (Value.text t)).exec m =
      ((m.store.showValue s.ev.slack u).map .text, m)
    cases m.store.showValue s.ev.slack u <;> rfl

/-- What a variable holds as its tag says can be converted to that tag. -/
theorem Tag.convert_own {x : Variable} {u : Value} (describes : x.tag.describes x.content = true)
    (read : x.reading = .ok u) (st : Store) (fuel : Nat)
    (known : x.tag = .int ∨ x.tag = .float ∨ x.tag = .text) :
    ∃ v, x.tag.convert st fuel u = .ok v := by
  obtain ⟨name, home, content, tag, members⟩ := x
  simp only at known describes
  rcases known with rfl | rfl | rfl
  · cases content with
    | int k =>
      cases read
      exact ⟨_, rfl⟩
    | _ => cases describes
  · cases content with
    | float y =>
      cases read
      exact ⟨_, rfl⟩
    | _ => cases describes
  · cases content with
    | text s =>
      cases read
      exact ⟨_, rfl⟩
    | _ => cases describes

private theorem Tag.ne_of_convert_fails {x : Variable} {u : Value} {kind : Tag} {st : Store}
    {fuel : Nat} {fault : Fault} (describes : x.tag.describes x.content = true)
    (read : x.reading = .ok u) (known : kind = .int ∨ kind = .float ∨ kind = .text)
    (failed : kind.convert st fuel u = .error fault) : x.tag ≠ kind := by
  rintro rfl
  obtain ⟨v, ok⟩ := convert_own describes read st fuel known
  rw [ok] at failed
  cases failed

private theorem Run.exec_done (x : Run Unit) (w : World) :
    (x >>= fun _ => pure Outcome.done).exec w =
      ((x.exec w).1.map fun _ => Outcome.done, (x.exec w).2) := by
  rw [Run.exec_bind]
  rcases x.exec w with ⟨_ | _, _⟩ <;> rfl

/-! ### Statements that fail -/

/-- The three ways in which a statement can end that has come to the assignment of a value. -/
theorem assignVariable_done (rounds n : Nat) {w : World} {r : Ref .variable}
    (held : w.store.Has r.cell) (v : Value) :
    let ran := (assignVariable (.ofRoom rounds n) r (.bare v) >>= fun _ => pure Outcome.done).exec w
    (v.Storable w.store → n ≠ 0 → ran.1 = .ok .done) ∧
    (∀ home, (w.store.var r).home = some home → v.Unknown w.store home →
      ∃ fault, ran.1 = .error fault ∧ ran.2.store = w.store.written r v) ∧
    ∀ fault, ran.1 = .error fault → (w.store.written r v).Passive → w.store.Inert v →
      (w.store.written r v).Retains ran.2.store := by
  intro ran
  have whole : ran = _ := Run.exec_done _ w
  refine ⟨fun storable room => ?_, fun home at_ unknown => ?_, fun fault failed passive inert => ?_⟩
  · obtain ⟨k, rfl⟩ := Nat.exists_eq_succ_of_ne_zero room
    obtain ⟨later, assigned⟩ := assignVariable_storable rounds k held storable
    rw [whole, assigned]
    rfl
  · obtain ⟨fault, later, assigned, same⟩ := assignVariable_unknown rounds n held at_ unknown
    rw [whole, assigned]
    exact ⟨fault, rfl, same⟩
  · rw [whole] at failed ⊢
    rcases assigned : (assignVariable (.ofRoom rounds n) r (.bare v)).exec w with ⟨e | _, later⟩
    · exact assignVariable_fails held passive inert assigned
    · rw [assigned] at failed
      cases failed

section Statements

variable {rounds n : Nat} {w : World} {scope : Ref .scope} {name : Text} {r : Ref .variable}
  {node : Ref .node} {file : Text}
  (found : w.store.findPath scope name = some r)
include found

private theorem assign_findPath (ev : Evaluator) (isGlobal : Bool) (v : Value) :
    (assign ev scope isGlobal name (.bare v)).exec w = (assignVariable ev r (.bare v)).exec w := by
  unfold assign
  rw [Run.exec_bind_ok w (Run.exec_readItem_bare w v), Run.exec_bind_ok w (Run.exec_getStore w),
    Store.isVisible_of_findPath found, if_pos rfl, Run.exec_bind_ok w (lookup_findPath ev found)]

/-- Setting a variable is evaluating the expression, which changes nothing, and then assigning to
the variable. -/
theorem exec_setVariable {line text : Text} (sets : Sets line name text)
    (stands : w.store.IsStatement node scope line) (free : w.store.CallFree text) :
    ((Evaluator.ofRoom rounds (n + 1)).run node file).exec w =
      ((Evaluator.ofRoom rounds n).valueOf scope text >>= fun v =>
        assignVariable (.ofRoom rounds n) r (.bare v) >>= fun _ => pure Outcome.done).exec w := by
  let s := Site.ofNode (.ofRoom rounds n) w.store node file
  have place : s.scope = scope := stands.scope
  change (runStep (.ofRoom rounds n) node file).exec w = _
  rw [runStep_exec]
  change s.act.exec w = _
  have value : (s.valueOf text).exec w =
      ((Evaluator.ofRoom rounds n).valueOf scope text).exec w := by
    rw [Site.valueOf, place]
    rfl
  have still := (Evaluator.ofRoom_still rounds n free).valueOf scope text .self w rfl
  rw [Site.exec_sets (congrArg Command.of stands.command) sets]
  rcases ran : ((Evaluator.ofRoom rounds n).valueOf scope text).exec w with ⟨fault | v, later⟩
  · rw [Run.exec_bind_error w (value.trans ran), Run.exec_bind_error w ran]
  · rw [ran] at still
    have there : later.store.findPath scope name = some r := by
      rw [still, found]
    rw [Run.exec_bind_ok w (value.trans ran), Run.exec_bind_ok w ran, Run.exec_done, Run.exec_done,
      place, assign_findPath there]
    rfl

private theorem exec_convertVariable {line : Text} {kind : Tag} (converts : Converts line kind name)
    (stands : w.store.IsStatement node scope line) :
    ((Evaluator.ofRoom rounds (n + 1)).run node file).exec w =
      (readVariable r >>= (Site.ofNode (.ofRoom rounds n) w.store node file).writeConverted r
        kind).exec w := by
  let s := Site.ofNode (.ofRoom rounds n) w.store node file
  have place : s.scope = scope := stands.scope
  change (runStep (.ofRoom rounds n) node file).exec w = _
  rw [runStep_exec]
  exact Site.exec_converts (congrArg Command.of stands.command) converts
    (by rw [← place] at found; exact found)

/-- Once the variable is read, its tag is changed, and then the value is converted and assigned. -/
theorem exec_convertVariable_read {line : Text} {kind : Tag} (converts : Converts line kind name)
    (stands : w.store.IsStatement node scope line) {u : Value}
    (read : (w.store.var r).reading = .ok u) :
    ((Evaluator.ofRoom rounds (n + 1)).run node file).exec w =
      (Run.ofExcept (kind.convert (w.store.retagged r kind) (Evaluator.ofRoom rounds n).slack u) >>=
        fun v =>
        assignVariable (.ofRoom rounds n) r (.bare v) >>= fun _ => pure Outcome.done).exec
          { w with store := w.store.retagged r kind } := by
  rw [exec_convertVariable found converts stands, Run.exec_bind, Run.exec_readVariable, read]
  rfl

private theorem Store.Retains.not_sameVariables {st later : Store} {v : Value}
    (retains : (st.written r v).Retains later) (scopes : st.scopes = w.store.scopes)
    (tables : st.tables = w.store.tables) (held : st.Has r.cell)
    (differs : (st.var r).tag ≠ (w.store.var r).tag ∨ v ≠ (w.store.var r).content) :
    ¬ w.store.SameVariables later := by
  have still := held.mono (st.grows_updateVariable r fun x => { x with content := v })
  have kept : later.var r = { st.var r with content := v } :=
    (retains.vars r still).2.trans (Store.var_updateVariable_here _ held)
  refine Store.not_sameVariables found (retains.scopes.trans scopes)
    (retains.tables.trans tables) ?_
  rw [kept]
  exact differs

end Statements

/-- A statement sets a variable to the value of an expression without calls, or converts it. The
evaluation of the expression changes nothing, so that where it fails all is as before. Once the
value is written to the variable, the statement can still fail: not if a variable can be made of the
value, but always if the value is nothing or the name of nothing, and then the variable is left with
the value. A conversion that cannot be done leaves the new tag behind. -/
theorem failed_updates (rounds n : Nat) (w : World) (closed : w.store.Closed) (scope : Ref .scope)
    (held : w.store.Has scope.cell) (name : Text) (r : Ref .variable)
    (found : w.store.findPath scope name = some r) (node : Ref .node) (file : Text) :
    let ev := Evaluator.ofRoom rounds n
    let ran := ((Evaluator.ofRoom rounds (n + 1)).run node file).exec w
    let x := w.store.var r
    (∀ line text, Sets line name text → w.store.IsStatement node scope line →
      w.store.CallFree text →
      let evaluated := (ev.valueOf scope text).exec w
      evaluated.2.store = w.store ∧
      (∀ fault, evaluated.1 = .error fault → ran = (.error fault, evaluated.2)) ∧
      ∀ v, evaluated.1 = .ok v →
        (v.Storable w.store → ran.1 = .ok .done) ∧
        (∀ home, x.home = some home → v.Unknown w.store home →
          ∃ fault, ran.1 = .error fault ∧ ran.2.store = w.store.written r v) ∧
        ∀ fault, ran.1 = .error fault → w.store.Passive → w.store.Inert v →
          (w.store.written r v).Retains ran.2.store ∧
          (v ≠ x.content → ¬ w.store.SameVariables ran.2.store)) ∧
    ∀ line kind, Converts line kind name → w.store.IsStatement node scope line →
      let retagged := w.store.retagged r kind
      (∀ fault, x.reading = .error fault → ran = (.error fault, w)) ∧
      ∀ u, x.reading = .ok u →
        (∀ fault, kind.convert retagged ev.slack u = .error fault →
          ran = (.error fault, { w with store := retagged }) ∧
          (x.tag.describes x.content = true → ¬ w.store.SameVariables ran.2.store)) ∧
        ∀ v, kind.convert retagged ev.slack u = .ok v →
          (v.Storable w.store → n ≠ 0 → ran.1 = .ok .done) ∧
          ∀ fault, ran.1 = .error fault → w.store.Passive → w.store.Inert v →
            (retagged.written r v).Retains ran.2.store ∧
              (kind ≠ x.tag ∨ v ≠ x.content → ¬ w.store.SameVariables ran.2.store) := by
  intro ev ran x
  have cell : w.store.Has r.cell := closed.findPath held found
  constructor
  · intro line text sets stands free evaluated
    have whole : ran = _ := exec_setVariable found sets stands free
    have still : evaluated.2.store = w.store :=
      (Evaluator.ofRoom_still rounds n free).valueOf scope text .self w rfl
    refine ⟨still, fun fault failed => ?_, fun v given => ?_⟩
    · rw [whole, Run.exec_bind_error w (Prod.ext failed rfl)]
    · have room : n ≠ 0 := by
        rintro rfl
        cases given
      have rest : ran = _ := whole.trans (Run.exec_bind_ok w (Prod.ext given rfl))
      obtain ⟨stored, unknown, failed⟩ :=
        assignVariable_done rounds n (w := evaluated.2) (still ▸ cell) v
      rw [still] at stored unknown failed
      rw [rest]
      refine ⟨fun storable => stored storable room, unknown, fun fault fails passive inert => ?_⟩
      have retains := failed fault fails (passive.written cell inert) inert
      exact ⟨retains, fun differs => retains.not_sameVariables found rfl rfl cell (.inr differs)⟩
  · intro line kind converts stands retagged
    have whole : ran = _ := exec_convertVariable found converts stands
    refine ⟨fun fault failed => ?_, fun u read => ?_⟩
    · rw [whole, Run.exec_bind, Run.exec_readVariable, failed]
    · let m : World := { w with store := retagged }
      have rest : ran = _ := exec_convertVariable_read found converts stands read
      refine ⟨fun fault failed => ?_, fun v given => ?_⟩
      · have stopped : ran = (.error fault, m) := by
          rw [rest, failed]
          rfl
        refine ⟨stopped, fun describes => ?_⟩
        rw [stopped]
        refine Store.not_sameVariables found rfl rfl (.inl ?_)
        rw [Store.var_retagged cell]
        exact (Tag.ne_of_convert_fails describes read converts.known failed).symm
      · have rest :
            ran = (assignVariable ev r (.bare v) >>= fun _ => pure Outcome.done).exec m := by
          rw [rest, given]
          rfl
        have there := Store.has_retagged cell kind
        obtain ⟨stored, _, failed⟩ := assignVariable_done rounds n (w := m) there v
        rw [rest]
        refine ⟨fun storable room => stored (storable.congr rfl) room,
          fun fault fails passive inert => ?_⟩
        have retains := failed fault fails (passive.retagged_written cell kind inert)
          (inert.congr rfl rfl)
        refine ⟨retains, fun differs => retains.not_sameVariables found rfl rfl there ?_⟩
        rw [Store.var_retagged cell]
        exact differs

@[irreducible] def Store.withUpdates : Store :=
  ((Store.single (.text "abc".toList) .text).newNode
    { command := "convert int x".toList, index := 0, children := [], scope := ⟨0⟩,
      interactive := false }).2.newNode
    { command := "var x = y".toList, index := 1, children := [], scope := ⟨0⟩,
      interactive := false } |>.2

private theorem Store.closed_withUpdates : Store.withUpdates.Closed := by
  unfold withUpdates
  refine Closed.newNode (Closed.newNode (closed_single .text rfl) ?_) ?_
  · decide +kernel
  · decide +kernel

theorem failed_updates_text :
    let w : World := { store := Store.withUpdates }
    let converted := ((Evaluator.ofRoom 0 3).run ⟨0⟩ []).exec w
    let set := ((Evaluator.ofRoom 0 3).run ⟨1⟩ []).exec w
    (converted.1 = .error .badValue ∧ ¬ w.store.SameVariables converted.2.store) ∧
      ∃ fault, set.1 = .error fault ∧ ¬ w.store.SameVariables set.2.store := by
  intro w converted set
  have found : w.store.findPath ⟨0⟩ ['x'] = some ⟨0⟩ := by decide +kernel
  have held : w.store.Has (Ref.cell (⟨0⟩ : Ref .scope)) := by decide +kernel
  have variable_ : w.store.var ⟨0⟩ =
      { name := some ['x'], home := some ⟨0⟩, content := .text "abc".toList, tag := .text } := by
    change Store.withUpdates.var ⟨0⟩ = _
    unfold Store.withUpdates
    rfl
  constructor
  · obtain ⟨_, conversion⟩ := failed_updates 0 2 w Store.closed_withUpdates ⟨0⟩ held ['x']
      ⟨0⟩ found ⟨0⟩ []
    have converts : Converts "convert int x".toList .int ['x'] :=
      ⟨by decide +kernel, by decide +kernel, .inl rfl, by decide +kernel⟩
    obtain ⟨_, outcomes⟩ := conversion _ _ converts ⟨by decide +kernel, by decide +kernel⟩
    have noNumeral : Number.readInt? "abc".toList = none := by decide +kernel
    have fails : (Site.unquoted (.text (Text.encloseSingle "abc".toList))).toInt =
        .error .badValue := by
      rw [Site.unquoted, if_pos (Spelled.isQuoted_encloseSingle _), Spelled.inner_encloseSingle,
        Value.toInt, noNumeral]
    obtain ⟨ran, changed⟩ :=
      (outcomes (.text (Text.encloseSingle "abc".toList)) (by rw [variable_]; rfl)).1 .badValue
      (congrArg (Except.map Value.int) fails)
    refine ⟨congrArg Prod.fst ran, changed ?_⟩
    rw [variable_]
    rfl
  · obtain ⟨setting, _⟩ := failed_updates 0 2 w Store.closed_withUpdates ⟨0⟩ held ['x']
      ⟨0⟩ found ⟨1⟩ []
    have sets : Sets "var x = y".toList ['x'] ['y'] :=
      ⟨by decide +kernel, ⟨['x'], by decide +kernel, by decide +kernel, by decide +kernel⟩, by
        decide +kernel⟩
    obtain ⟨_, _, outcomes⟩ := setting _ _ sets ⟨by decide +kernel, by decide +kernel⟩
      (.of_not_mem (by decide) _)
    obtain ⟨_, unknown, _⟩ := outcomes .nothing (by
      change (((Evaluator.ofRoom 0 2).valueOf ⟨0⟩ ['y']).exec { store := Store.withUpdates }).1 = _
      unfold Store.withUpdates
      rfl)
    obtain ⟨fault, failed, same⟩ := unknown ⟨0⟩ (by rw [variable_]) .nothing
    refine ⟨fault, failed, ?_⟩
    rw [same]
    refine Store.not_sameVariables found rfl rfl (.inr ?_)
    rw [Store.written, Store.var_updateVariable_here _ (by decide +kernel), variable_]
    simp

end CommandScript
