import CommandScript.Execution
import CommandScript.Proofs.Statements

/-! Cautious runs. A cautious evaluator stops before a statement that would find a described store
and not leave it so. Whatever is run with it either ends as it does without caution, or stops in a
world in which there is such a statement; and where it ends, the store is described. -/
namespace CommandScript

namespace Run

/-- A run does what another one does, or stops in one of the given worlds. -/
def Follows {α : Type} (stop : World → Prop) (cautious x : Run α) : Prop :=
  ∀ w, cautious.exec w = x.exec w ∨ ∃ stopped, cautious.exec w = (.error .unfinished, stopped) ∧
  stop stopped

namespace Follows

variable {α β : Type} {stop : World → Prop} {cautious x : Run α}

theorem refl (x : Run α) : x.Follows stop x := fun _ => .inl rfl

private theorem of_eq (same : cautious = x) : cautious.Follows stop x := by
  rw [same]
  exact refl x

theorem bind {cautiousNext next : α → Run β} (first : cautious.Follows stop x)
    (second : ∀ a, (cautiousNext a).Follows stop (next a)) :
    (cautious >>= cautiousNext).Follows stop (x >>= next) := by
  intro w
  rcases first w with same | ⟨stopped, ended, bad⟩
  · rw [exec_bind, exec_bind, same]
    rcases x.exec w with ⟨_ | a, middle⟩
    · exact .inl rfl
    · exact second a middle
  · exact .inr ⟨stopped, exec_bind_error w ended, bad⟩

/-- Only what comes after the first part is cautious. -/
theorem next {f g : α → Run β} (x : Run α) (second : ∀ a, (f a).Follows stop (g a)) :
    (x >>= f).Follows stop (x >>= g) :=
  (refl x).bind second

/-- Only the first part is cautious. -/
theorem before {f : α → Run β} (first : cautious.Follows stop x) :
    (cautious >>= f).Follows stop (x >>= f) :=
  first.bind fun _ => refl _

theorem forM {f g : α → Run PUnit} (xs : List α) (each : ∀ a, (f a).Follows stop (g a)) :
    (xs.forM f).Follows stop (xs.forM g) := by
  induction xs with
  | nil => exact refl _
  | cons a rest ih => exact (each a).bind fun _ => ih

theorem mapM {f g : α → Run β} (xs : List α) (each : ∀ a, (f a).Follows stop (g a)) :
    (xs.mapM f).Follows stop (xs.mapM g) := by
  induction xs with
  | nil => exact refl _
  | cons a rest ih =>
    rw [List.mapM_cons, List.mapM_cons]
    exact (each a).bind fun _ => ih.before

end Follows

end Run

structure Evaluator.Follows stop (cautious ev : Evaluator) : Prop where
  room : cautious.room = ev.room
  rounds : cautious.rounds = ev.rounds
  bind (home : Option (Ref .scope)) (name : Text) (lenient : Bool) (v : Value) :
    (cautious.bind home name lenient v).Follows stop (ev.bind home name lenient v)
  valueOf (scope : Ref .scope) (text : Text) :
    (cautious.valueOf scope text).Follows stop (ev.valueOf scope text)
  run (node : Ref .node) (file : Text) : (cautious.run node file).Follows stop (ev.run node file)

section Expressions

variable {stop : World → Prop} {cautious ev : Evaluator} (follows : cautious.Follows stop ev)
include follows

theorem Evaluator.Follows.slack : cautious.slack = ev.slack := by
  rw [Evaluator.slack, Evaluator.slack, follows.room]

private theorem evaluate_follows (home : Option (Ref .scope)) (item : Item) :
    (evaluate cautious home item).Follows stop (evaluate ev home item) := by
  rw [evaluate_eq, evaluate_eq]
  exact .next _ fun v => .next _ fun u => (follows.bind home nameless true u).before

private theorem lookupFrom_follows (scope : Ref .scope) (name : Text) (rest : List Text) :
    (lookupFrom cautious scope name rest).Follows stop (lookupFrom ev scope name rest) := by
  induction rest generalizing scope name with
  | nil =>
    refine .next _ fun st => ?_
    split
    · exact .refl _
    · exact (evaluate_follows follows _ _).before
  | cons member rest ih =>
    refine .next _ fun st => ?_
    split
    · split
      · exact ih _ _
      · exact .refl _
    · exact (evaluate_follows follows _ _).before

private theorem lookup_follows (scope : Ref .scope) (name : Text) :
    (lookup cautious scope name).Follows stop (lookup ev scope name) := by
  unfold lookup
  split
  · exact lookupFrom_follows follows _ _ _
  · exact .refl _

private theorem declareFrom_follows (scope : Ref .scope) (name : Text) (item : Item)
    (rest : List Text) :
    (declareFrom cautious scope name item rest).Follows stop
      (declareFrom ev scope name item rest) := by
  induction rest generalizing scope name with
  | nil => exact (evaluate_follows follows _ _).bind fun v => (follows.bind _ _ _ v).before
  | cons member rest ih =>
    refine (lookupFrom_follows follows scope name []).bind fun found => .next _ fun r =>
      .next _ fun st => ?_
    split
    · exact ih _ _
    · exact .refl _

private theorem declare_follows (scope : Ref .scope) (name : Text) (item : Item) :
    (declare cautious scope name item).Follows stop (declare ev scope name item) := by
  unfold declare
  split
  · exact declareFrom_follows follows _ _ _ _
  · exact .refl _

private theorem declareGlobal_follows (scope : Ref .scope) (name : Text) (item : Item) :
    (declareGlobal cautious scope name item).Follows stop (declareGlobal ev scope name item) :=
  .next _ fun _ => declare_follows follows _ _ _

private theorem update_follows (scope : Ref .scope) (name : Option Text) (source : Run Item) :
    (update cautious scope name source).Follows stop (update ev scope name source) := by
  unfold update
  cases name with
  | none => exact .refl _
  | some name =>
    refine .next _ fun st => ?_
    split
    · exact .refl _
    · exact .next _ fun item => (evaluate_follows follows _ _).before

private theorem assignVariable_follows (r : Ref .variable) (item : Item) :
    (assignVariable cautious r item).Follows stop (assignVariable ev r item) := by
  refine .next _ fun v => .next _ fun _ => .next _ fun st => ?_
  dsimp only
  split
  · exact (follows.bind _ _ _ v).bind fun _ => update_follows follows _ _ _
  · exact .refl _

private theorem setElement_follows (r : Ref .variable) (index : Value) (item : Item) :
    (setElement cautious r index item).Follows stop (setElement ev r index item) := by
  refine .next _ fun v => .next _ fun i => .next _ fun _ => .next _ fun st => ?_
  dsimp only
  split
  · exact update_follows follows _ _ _
  · exact .refl _

private theorem condition_follows (scope : Ref .scope) (text : Text) :
    (condition cautious scope text).Follows stop (condition ev scope text) := by
  unfold condition
  rw [follows.slack]
  split
  · refine .next _ fun left => (follows.valueOf scope left).bind fun a => ?_
    exact .next _ fun right => (follows.valueOf scope right).before
  · refine .next _ fun st => ?_
    split
    · exact (lookup_follows follows scope text).before
    · exact .refl _

private theorem bindName_follows (home : Option (Ref .scope)) (lenient : Bool)
    (name : Option Text) :
    (bindName cautious home lenient name).Follows stop (bindName ev home lenient name) := by
  have unknown : ∀ st, bindName.unknown cautious home lenient name st =
      bindName.unknown ev home lenient name st := by
    intro st
    unfold bindName.unknown
    rw [follows.slack]
  unfold bindName
  split
  · refine .next _ fun st => ?_
    split
    · split
      · exact (lookup_follows follows _ _).before
      · exact .of_eq (unknown st)
    · exact .of_eq (unknown st)
  · exact .refl _

private theorem settle_follows (home : Option (Ref .scope)) (l : Ref .list) :
    (settle cautious home l).Follows stop (settle ev home l) := by
  refine .next _ fun st => .forM _ fun i => .next _ fun st => ?_
  split
  · exact (follows.bind _ _ _ _).before
  · exact .refl _

private theorem bindText_follows (home : Option (Ref .scope)) (name : Text) (lenient : Bool)
    (s : Text) :
    (bindText cautious home name lenient s).Follows stop (bindText ev home name lenient s) := by
  unfold bindText
  split
  · exact .refl _
  · split
    · exact .refl _
    · split
      · exact .refl _
      · split
        · split
          · exact (condition_follows follows _ _).before
          · exact .refl _
        · exact bindName_follows follows _ _ _

theorem bindStep_follows (home : Option (Ref .scope)) (name : Text) (lenient : Bool) (v : Value) :
    (bindStep cautious home name lenient v).Follows stop (bindStep ev home name lenient v) := by
  cases v with
  | nothing => exact bindName_follows follows home lenient none
  | text s => exact bindText_follows follows home name lenient s
  | list l =>
    refine .next _ fun st => ?_
    rw [follows.slack]
    split
    · exact .refl _
    · exact (settle_follows follows home l).before
  | _ => exact .refl _

private theorem assign_follows (scope : Ref .scope) (isGlobal : Bool) (name : Text) (item : Item) :
    (assign cautious scope isGlobal name item).Follows stop
      (assign ev scope isGlobal name item) := by
  refine .next _ fun v => .next _ fun st => ?_
  split
  · refine (lookup_follows follows scope name).bind fun found => ?_
    split
    · exact assignVariable_follows follows _ _
    · exact declare_follows follows _ _ _
    · exact .refl _
    · exact .refl _
  · split
    · exact .refl _
    · refine (lookup_follows follows scope _).bind fun target => .next _ fun text => ?_
      exact (follows.valueOf scope text).bind fun index => .next _ fun r =>
        setElement_follows follows _ _ _
    · split
      · exact declareGlobal_follows follows _ _ _
      · exact declare_follows follows _ _ _

omit follows in
/-- The bodies may come from different files, if the statements follow each other across them. -/
theorem runAll_follows {file other : Text}
    (each : ∀ node, (cautious.run node file).Follows stop (ev.run node other))
    (nodes : List (Ref .node)) :
    (runAll cautious file nodes).Follows stop (runAll ev other nodes) := by
  induction nodes with
  | nil => exact .refl _
  | cons node rest ih =>
    refine (each node).bind fun outcome => ?_
    split
    · exact ih
    · exact .refl _

omit follows in
theorem runBody_follows {file other : Text}
    (each : ∀ node, (cautious.run node file).Follows stop (ev.run node other)) (node : Ref .node) :
    (runBody cautious node file).Follows stop (runBody ev node other) :=
  .next _ fun _ => runAll_follows each _

private theorem callFunction_follows (scope : Ref .scope) (text : Text) (node : Ref .node) :
    (callFunction cautious scope text node).Follows stop (callFunction ev scope text node) := by
  have passing : ∀ (callee : Ref .scope) (pairs : List (Text × Text)),
      (bindArguments cautious scope callee pairs).Follows stop
        (bindArguments ev scope callee pairs) := by
    intro callee pairs
    induction pairs with
    | nil => exact .refl _
    | cons pair rest ih =>
      exact (follows.valueOf _ _).bind fun v => (declare_follows follows _ _ _).bind fun _ => ih
  refine .next _ fun st => .next _ fun names => .next _ fun arguments => ?_
  exact (passing _ _).bind fun _ =>
    (runBody_follows (fun child => follows.run child []) node).before

private theorem instantiate_eq (r : Ref .record) : instantiate cautious r = instantiate ev r := by
  have copy : ∀ r, copyClass cautious r = copyClass ev r := by
    intro r
    rw [copyClass, copyClass, follows.slack]
  simp only [instantiate, copy]

theorem valueStep_follows (scope : Ref .scope) (text : Text) :
    (valueStep cautious scope text).Follows stop (valueStep ev scope text) := by
  refine .next _ fun st => ?_
  split
  · refine (lookup_follows follows scope _).bind fun found => .next _ fun r => .next _ fun v => ?_
    split
    · exact callFunction_follows follows _ _ _
    · exact .of_eq (instantiate_eq follows _)
    · exact .refl _
  · split
    · refine (lookup_follows follows scope _).bind fun target => .next _ fun index =>
        (follows.valueOf scope index).bind fun v => ?_
      refine .of_eq ?_
      simp only [element, follows.slack]
    · exact evaluate_follows follows _ _

end Expressions

section Statements

abbrev Site.under (s : Site) (ev : Evaluator) : Site := { s with ev }

abbrev Site.inFile (s : Site) (file : Text) : Site := { s with file }

variable {stop : World → Prop} {s : Site} {cautious : Evaluator}
  (follows : cautious.Follows stop s.ev)

private theorem loopTimes_follows {first second : Run Outcome} (each : first.Follows stop second)
    (times : Nat) : (loopTimes first times).Follows stop (loopTimes second times) := by
  induction times with
  | zero => exact .refl _
  | succ times ih =>
    refine each.bind fun outcome => ?_
    split
    · exact ih
    · exact .refl _

private theorem loopWhile_follows {first second : Run Outcome} {test other : Run Bool}
    (tests : test.Follows stop other) (each : first.Follows stop second) (rounds : Nat) :
    (loopWhile test first rounds).Follows stop (loopWhile other second rounds) := by
  induction rounds with
  | zero => exact .refl _
  | succ rounds ih =>
    refine tests.bind fun holds => ?_
    split
    · refine each.bind fun outcome => ?_
      split
      · exact ih
      · exact .refl _
    · exact .refl _

namespace Site

include follows

private theorem valueOf_follows (text : Text) :
    ((s.under cautious).valueOf text).Follows stop (s.valueOf text) :=
  follows.valueOf s.scope text

private theorem variableOf_follows (name : Text) :
    ((s.under cautious).variableOf name).Follows stop (s.variableOf name) :=
  (lookup_follows follows s.scope name).before

private theorem store_follows (name : Text) (v : Value) :
    ((s.under cautious).store name v).Follows stop (s.store name v) :=
  assign_follows follows _ _ _ _

private theorem storeItem_follows (name : Text) (item : Item) :
    ((s.under cautious).storeItem name item).Follows stop (s.storeItem name item) :=
  assign_follows follows _ _ _ _

private theorem storeLocal_follows (name : Text) (v : Value) :
    ((s.under cautious).storeLocal name v).Follows stop (s.storeLocal name v) :=
  assign_follows follows _ _ _ _

private theorem shown_follows (text : Text) :
    ((s.under cautious).shown text).Follows stop (s.shown text) := by
  unfold shown
  rw [follows.slack]
  exact (valueOf_follows follows text).before

private theorem print_follows : (s.under cautious).print.Follows stop s.print :=
  (Run.Follows.mapM _ (shown_follows follows)).before

private theorem putchar_follows : (s.under cautious).putchar.Follows stop s.putchar :=
  (valueOf_follows follows _).before

private theorem var_follows : (s.under cautious).var.Follows stop s.var := by
  refine .next _ fun first => ?_
  dsimp only
  split
  · exact .next _ fun name => (valueOf_follows follows _).bind fun v =>
      (storeLocal_follows follows _ v).before
  · exact (valueOf_follows follows _).bind fun v => (assign_follows follows _ _ _ (.bare v)).before

private theorem length_follows : (s.under cautious).length.Follows stop s.length := by
  refine .next _ fun name => .next _ fun source =>
    (variableOf_follows follows source).bind fun r => ?_
  exact .next _ fun v => .next _ fun st => .next _ fun n => (store_follows follows _ _).before

private theorem newList_follows (texts : List Text) :
    ((s.under cautious).newList texts).Follows stop (s.newList texts) :=
  (Run.Follows.mapM _ (valueOf_follows follows)).before

private theorem array_follows : (s.under cautious).array.Follows stop s.array := by
  refine .next _ fun second => .next _ fun first => (newList_follows follows _).bind fun v => ?_
  dsimp only
  split
  · exact (storeLocal_follows follows _ v).before
  · exact (store_follows follows _ v).before

private theorem append_follows : (s.under cautious).append.Follows stop s.append :=
  .next _ fun text => (valueOf_follows follows text).bind fun _ => .next _ fun name =>
    (variableOf_follows follows name).before

private theorem retag_follows (tag : Tag) (convert : Value → Run Value) :
    ((s.under cautious).retag tag convert).Follows stop (s.retag tag convert) := by
  refine .next _ fun name => (variableOf_follows follows name).bind fun r => .next _ fun v =>
    .next _ fun _ => ?_
  exact .next _ fun u => assignVariable_follows follows r _

private theorem convert_follows : (s.under cautious).convert.Follows stop s.convert := by
  refine .next _ fun target => ?_
  dsimp only
  rw [follows.slack]
  split
  · exact (retag_follows follows _ _).before
  · split
    · exact (retag_follows follows _ _).before
    · split
      · exact (retag_follows follows _ _).before
      · exact .refl _

private theorem tagOf_follows : (s.under cautious).tagOf.Follows stop s.tagOf := by
  refine .next _ fun source => (variableOf_follows follows source).bind fun r => .next _ fun st =>
    .next _ fun name => ?_
  exact (declare_follows follows _ _ _).before

private theorem random_follows : (s.under cautious).random.Follows stop s.random :=
  .next _ fun name => .next _ fun x =>
    (declare_follows follows s.scope name (.bare (.float x))).before

private theorem scene_under (w : World) : (s.under cautious).scene w = s.scene w := by
  unfold scene
  rw [follows.slack]

private theorem answer_under (text : Text) : (s.under cautious).answer text = s.answer text := by
  unfold answer
  refine bind_congr fun w => ?_
  rw [scene_under follows]

private theorem formula_follows : (s.under cautious).formula.Follows stop s.formula := by
  unfold formula
  rw [answer_under follows]
  exact .next _ fun name => .next _ fun item => (storeItem_follows follows name item).before

private theorem add_follows : (s.under cautious).add.Follows stop s.add := by
  refine .next _ fun left => (valueOf_follows follows left).bind fun a => .next _ fun a =>
    .next _ fun right => ?_
  refine (valueOf_follows follows right).bind fun b => .next _ fun b => .next _ fun name =>
    .next _ fun v => ?_
  exact (store_follows follows name v).before

private theorem reportOperands_eq (a b : Value) (operation : Text) :
    (s.under cautious).reportOperands a b operation = s.reportOperands a b operation := by
  unfold reportOperands
  rw [follows.slack]

private theorem arithmetic_follows (op : Arithmetic) :
    ((s.under cautious).arithmetic op).Follows stop (s.arithmetic op) := by
  refine .next _ fun left => (valueOf_follows follows left).bind fun a => .next _ fun right => ?_
  refine (valueOf_follows follows right).bind fun b => ?_
  split
  · exact .next _ fun n => .next _ fun name => (store_follows follows name _).before
  · exact .of_eq (reportOperands_eq follows _ _ _)

private theorem wave_follows (w : Wave) : ((s.under cautious).wave w).Follows stop (s.wave w) := by
  refine .next _ fun operand => (valueOf_follows follows operand).bind fun a => ?_
  split
  · exact .next _ fun n => .next _ fun name => (store_follows follows name _).before
  · exact .of_eq (reportOperands_eq follows _ _ _)

private theorem holds_follows (text : Text) :
    ((s.under cautious).holds text).Follows stop (s.holds text) :=
  (condition_follows follows s.scope text).before

private theorem defFunction_follows : (s.under cautious).defFunction.Follows stop s.defFunction :=
  .next _ fun name => (declareGlobal_follows follows s.scope name (.bare (.node s.node))).before

private theorem returnValue_follows : (s.under cautious).returnValue.Follows stop s.returnValue :=
  (valueOf_follows follows _).before

private theorem passArguments_follows (other : Text) (callee : Ref .scope)
    (arguments names : List Text) :
    ((s.under cautious).passArguments callee arguments names).Follows stop
      ((s.inFile other).passArguments callee arguments names) := by
  induction arguments generalizing names with
  | nil => exact .refl _
  | cons argument rest ih =>
    rw [passArguments, passArguments]
    refine (valueOf_follows follows argument).bind fun v => ?_
    cases names with
    | nil => exact .refl _
    | cons name names => exact (declare_follows follows _ _ _).bind fun _ => ih names

private theorem echo_follows : (s.under cautious).echo.Follows stop s.echo :=
  (Run.Follows.mapM _ (shown_follows follows)).before

private theorem importFile_follows : (s.under cautious).importFile.Follows stop s.importFile := by
  unfold importFile
  rw [follows.slack]
  exact .next _ fun name => .next _ fun w => .next _ fun path => .next _ fun source =>
    .next _ fun program =>
    (follows.run program path).before

private theorem useFile_follows : (s.under cautious).useFile.Follows stop s.useFile := by
  refine .next _ fun action => ?_
  dsimp only
  split
  · refine .next _ fun source => (valueOf_follows follows source).bind fun v => .next _ fun path =>
      .next _ fun name => ?_
    exact .next _ fun path => .next _ fun content => (declare_follows follows _ _ _).before
  · split
    · refine .next _ fun target => (valueOf_follows follows target).bind fun v =>
        .next _ fun path => .next _ fun source => ?_
      exact (valueOf_follows follows source).before
    · exact .refl _

private theorem request_under (ask : Request) : (s.under cautious).request ask = s.request ask := by
  unfold request
  simp only [scene_under follows]

private theorem discard_request_follows (ask : Request) :
    (discard ((s.under cautious).request ask)).Follows stop (discard (s.request ask)) := by
  rw [request_under follows]
  exact .refl _

private theorem startScreen_follows :
    (s.under cautious).startScreen.Follows stop s.startScreen := by
  unfold startScreen
  rw [request_under follows]
  exact .refl _

private theorem useDisplay_follows : (s.under cautious).useDisplay.Follows stop s.useDisplay := by
  refine .next _ fun action => ?_
  split
  · exact discard_request_follows follows _
  · split
    · refine .next _ fun width => (valueOf_follows follows width).bind fun a =>
        .next _ fun height => ?_
      refine (valueOf_follows follows height).bind fun b => ?_
      rw [request_under follows]
      exact .refl _
    · split
      · refine (valueOf_follows follows _).bind fun v => .next _ fun caption =>
          .next _ fun text => ?_
        exact discard_request_follows follows _
      · split
        · exact discard_request_follows follows _
        · exact .refl _

private theorem valuesAt_follows (places : List Nat) :
    ((s.under cautious).valuesAt places).Follows stop (s.valuesAt places) :=
  .mapM _ fun _ => .next _ fun text => valueOf_follows follows text

private theorem drawShape_follows : (s.under cautious).drawShape.Follows stop s.drawShape := by
  refine .next _ fun shape => ?_
  split
  · refine (valuesAt_follows follows _).bind fun color =>
      (valuesAt_follows follows _).bind fun box => .next _ fun _ => ?_
    exact discard_request_follows follows _
  · exact .refl _

private theorem useEvents_follows : (s.under cautious).useEvents.Follows stop s.useEvents := by
  refine .next _ fun action => ?_
  split
  · unfold takeEvents
    rw [request_under follows]
    refine .next _ fun events => .next _ fun rows => .next _ fun row => .next _ fun _ =>
      .next _ fun count => .next _ fun name => ?_
    exact store_follows follows name _
  · split
    · refine .next _ fun item => .next _ fun row => .next _ fun st => .next _ fun first =>
        .next _ fun event => .next _ fun _ => ?_
      refine .next _ fun name => .next _ fun kind =>
        (storeItem_follows follows name kind).bind fun _ => ?_
      exact .next _ fun name => .next _ fun key => storeItem_follows follows name key
    · exact .refl _

private theorem screen_follows : (s.under cautious).screen.Follows stop s.screen := by
  have uses : (s.under cautious).useScreen.Follows stop s.useScreen := by
    refine .next _ fun action => ?_
    split
    · exact startScreen_follows follows
    · split
      · exact discard_request_follows follows _
      · split
        · exact useDisplay_follows follows
        · split
          · exact drawShape_follows follows
          · split
            · exact useEvents_follows follows
            · exact .refl _
  unfold screen
  rw [request_under follows]
  exact .next _ fun _ => uses.before

section Bodies

variable {other : Text}
  (below : ∀ node, (cautious.run node s.file).Follows stop (s.ev.run node other))
include below

omit follows in
private theorem body_follows : (s.under cautious).body.Follows stop (s.inFile other).body :=
  runBody_follows below _

theorem ifTrue_follows : (s.under cautious).ifTrue.Follows stop (s.inFile other).ifTrue := by
  refine .next _ fun text => (holds_follows follows text).bind fun holds => ?_
  split
  · exact body_follows below
  · exact .refl _

theorem repeatTimes_follows :
    (s.under cautious).repeatTimes.Follows stop (s.inFile other).repeatTimes :=
  .next _ fun text => (valueOf_follows follows text).bind fun _ => .next _ fun times =>
    loopTimes_follows (body_follows below) times.toNat

theorem whileTrue_follows :
    (s.under cautious).whileTrue.Follows stop (s.inFile other).whileTrue := by
  unfold whileTrue
  rw [follows.rounds]
  exact loopWhile_follows (.next _ fun text => holds_follows follows text) (body_follows below) _

theorem defClass_follows : (s.under cautious).defClass.Follows stop (s.inFile other).defClass := by
  refine .next _ fun name => .next _ fun _ => (body_follows below).bind fun _ =>
    .next _ fun st => ?_
  exact .next _ fun r => .next _ fun _ => (declareGlobal_follows follows _ _ _).before

private theorem callOrAssign_follows (first : Text) :
    ((s.under cautious).callOrAssign first).Follows stop ((s.inFile other).callOrAssign first) := by
  refine (variableOf_follows follows _).bind fun r => .next _ fun st => ?_
  dsimp only
  split
  · refine .next _ fun v => ?_
    split
    · refine .next _ fun st => .next _ fun names => ?_
      exact (passArguments_follows follows other _ _ _).bind fun _ =>
        (runBody_follows below _).before
    · exact .refl _
  · exact (valueOf_follows follows _).bind fun v => (store_follows follows first v).before

theorem other_follows : (s.under cautious).other.Follows stop (s.inFile other).other := by
  refine .next _ fun st => .next _ fun first => ?_
  split
  · exact callOrAssign_follows follows below first
  · split
    · exact echo_follows follows
    · exact body_follows below

end Bodies

theorem runVerb_follows (verb : Verb) :
    ((s.under cautious).runVerb verb).Follows stop (s.runVerb verb) := by
  have below := fun node => follows.run node s.file
  cases verb with
  | print => exact print_follows follows
  | putchar => exact putchar_follows follows
  | var => exact var_follows follows
  | length => exact length_follows follows
  | array => exact array_follows follows
  | add => exact add_follows follows
  | arithmetic op => exact arithmetic_follows follows op
  | wave w => exact wave_follows follows w
  | formula => exact formula_follows follows
  | breakOff => exact .refl _
  | ifTrue => exact ifTrue_follows follows below
  | repeatTimes => exact repeatTimes_follows follows below
  | whileTrue => exact whileTrue_follows follows below
  | defFunction => exact defFunction_follows follows
  | defClass => exact defClass_follows follows below
  | append => exact append_follows follows
  | convert => exact convert_follows follows
  | tagOf => exact tagOf_follows follows
  | importFile => exact importFile_follows follows
  | returnValue => exact returnValue_follows follows
  | file => exact useFile_follows follows
  | random => exact random_follows follows
  | screen => exact screen_follows follows

end Site

theorem runStep_follows {stop : World → Prop} {cautious ev : Evaluator}
    (follows : cautious.Follows stop ev) (node : Ref .node) (file : Text) :
    (runStep cautious node file).Follows stop (runStep ev node file) := by
  refine .next _ fun st => ?_
  let s : Site := ⟨ev, node, (st.node node).scope, file, Command.of (st.node node).command⟩
  dsimp only
  split
  · exact Site.runVerb_follows (s := s) follows _
  · exact Site.other_follows (s := s) follows fun child => follows.run child file

end Statements

/-! ### Cautious evaluators -/

/-- Runs a statement, but stops before it if it finds a closed and described store and would not
leave it described. -/
def cautiously (node : Ref .node) (x : Run Outcome) : Run Outcome := do
  let w ← get
  match x.exec w with
  | (.error fault, later) => do
    set later
    throw fault
  | (.ok outcome, later) =>
    if w.store.Closed ∧ w.store.Has node.cell ∧ w.store.Described ∧
      ¬ later.store.Described then throw .unfinished
    else do
      set later
      return outcome

section Caution

variable {node : Ref .node} {x : Run Outcome} {w later : World}

private theorem exec_cautiously_error {fault : Fault} (failed : x.exec w = (.error fault, later)) :
    (cautiously node x).exec w = (.error fault, later) := by
  rw [cautiously, Run.exec_bind_ok w (Run.exec_get w), failed]
  rfl

private theorem exec_cautiously_ok {outcome : Outcome} (ok : x.exec w = (.ok outcome, later)) :
    (cautiously node x).exec w =
      if w.store.Closed ∧ w.store.Has node.cell ∧ w.store.Described ∧
        ¬ later.store.Described then (.error .unfinished, w)
      else (.ok outcome, later) := by
  rw [cautiously, Run.exec_bind_ok w (Run.exec_get w), ok]
  dsimp only
  split <;> rfl

/-- Where a cautious run ends, so does the run itself, and the store is described. -/
theorem cautiously_inv {outcome : Outcome}
    (ok : (cautiously node x).exec w = (.ok outcome, later)) :
    x.exec w = (.ok outcome, later) ∧
      (w.store.Closed → w.store.Has node.cell → w.store.Described → later.store.Described) := by
  rcases ran : x.exec w with ⟨fault | result, after⟩
  · rw [exec_cautiously_error ran] at ok
    cases ok
  · rw [exec_cautiously_ok ran] at ok
    split at ok
    · cases ok
    · next passed =>
      cases ok
      refine ⟨rfl, fun closed held described => ?_⟩
      by_contra broken
      exact passed ⟨closed, held, described, broken⟩

private theorem cautiously_sound {st : Store} (closed : st.Closed) (held : st.Has node.cell)
    (tame : x.Tame st Outcome.Kept) : (cautiously node x).Sound st Outcome.Kept := by
  constructor
  · intro w outcome later same ok
    exact tame w outcome later same (cautiously_inv ok).1
  · intro w outcome later same ok described
    subst same
    exact (cautiously_inv ok).2 closed held described

private theorem cautiously_follows {stop : World → Prop} {cautious : Run Outcome}
    (follows : cautious.Follows stop x)
    (stops : ∀ w outcome later, w.store.Closed → w.store.Has node.cell → w.store.Described →
      cautious.exec w = (.ok outcome, later) → ¬ later.store.Described → stop w) :
    (cautiously node cautious).Follows stop x := by
  intro w
  rcases follows w with same | ⟨stopped, ended, bad⟩
  · rcases ran : x.exec w with ⟨fault | outcome, later⟩
    · exact .inl (exec_cautiously_error (same.trans ran))
    · rw [exec_cautiously_ok (same.trans ran)]
      split
      · next failed =>
        obtain ⟨closed, held, described, broken⟩ := failed
        exact .inr ⟨w, rfl, stops w outcome later closed held described (same.trans ran) broken⟩
      · exact .inl rfl
  · exact .inr ⟨stopped, exec_cautiously_error ended, bad⟩

end Caution

structure Breaking (ev : Evaluator) (node : Ref .node) (file : Text) (w : World) : Prop where
  closed : w.store.Closed
  held : w.store.Has node.cell
  described : w.store.Described
  breaks : ∃ outcome later, (runStep ev node file).exec w = (.ok outcome, later) ∧
    ¬ later.store.Described

/-- With nothing nested in it breaking the description, a statement that does so itself stores or
converts. -/
theorem Breaking.not_calm {ev : Evaluator} {node : Ref .node} {file : Text} {w : World}
    (breaking : Breaking ev node file w) (sound : ev.Sound) :
    ¬ (Site.ofNode ev w.store node file).IsCalm w.store := by
  intro calm
  obtain ⟨outcome, later, ran, broken⟩ := breaking.breaks
  have kept := (runStep_sound sound file breaking.closed breaking.held calm).kept
  exact broken (kept w outcome later rfl ran breaking.described)

namespace Evaluator

def cautious (rounds : Nat) : Nat → Evaluator
  | 0 => exhausted rounds
  | n + 1 =>
    { (cautious rounds n).next with run := fun node file => cautiously node (runStep
      (cautious rounds n) node file) }

theorem cautious_sound (rounds n : Nat) : (cautious rounds n).Sound := by
  induction n with
  | zero =>
    exact ⟨fun _ _ _ _ _ _ => Run.Sound.throw _, fun _ _ _ => Run.Sound.throw _,
      fun _ _ _ => Run.Sound.throw _⟩
  | succ n ih =>
    refine ⟨?_, ?_, ?_⟩
    · intro _ _ name _ _ closed inside known
      exact bindStep_sound ih name closed inside known
    · intro _ _ text closed inside
      exact valueStep_sound ih text closed inside
    · intro _ _ file closed inside
      exact cautiously_sound closed inside (runStep_tame ih file closed inside)

/-- A cautious evaluator stops where some statement, with caution about what is nested in it, breaks
the description. -/
def StopsAt (rounds : Nat) (w : World) : Prop :=
  ∃ n node file, Breaking (cautious rounds n) node file w

private theorem cautious_follows (rounds n : Nat) :
    (cautious rounds n).Follows (StopsAt rounds) (ofRoom rounds n) := by
  induction n with
  | zero => exact ⟨rfl, rfl, fun _ _ _ _ => .refl _, fun _ _ => .refl _, fun _ _ => .refl _⟩
  | succ n ih =>
    refine ⟨congrArg (· + 1) ih.room, ih.rounds, bindStep_follows ih, valueStep_follows ih, ?_⟩
    intro node file
    -- What is nested in the statement follows by induction; here the caution is about the statement
    -- as a whole.
    refine cautiously_follows (runStep_follows ih node file) ?_
    intro w outcome later closed held described ran broken
    exact ⟨n, node, file, closed, held, described, outcome, later, ran, broken⟩

end Evaluator

namespace Program

def runCautiously (limits : Limits) (scope : Ref .scope) (interactive : Bool) (file source : Text) :
    Run Outcome := do
  let program ← load (2 * limits.nesting) scope interactive source
  runBody (Evaluator.cautious limits.rounds limits.nesting) program file

theorem runCautiously_follows (limits : Limits) (scope : Ref .scope) (interactive : Bool)
    (file source : Text) :
    (runCautiously limits scope interactive file source).Follows (Evaluator.StopsAt limits.rounds)
      (Program.run limits scope interactive file source) :=
  .next _ fun _ => runBody_follows
    (fun node => (Evaluator.cautious_follows limits.rounds limits.nesting).run node file) _

theorem runCautiously_sound {st : Store} {scope : Ref .scope} (limits : Limits)
    (interactive : Bool) (file source : Text) (closed : st.Closed) (inside : st.Has scope.cell) :
    (runCautiously limits scope interactive file source).Sound st Outcome.Kept := by
  refine (load_sound _ interactive source closed inside).bind ?_
  intro program later closed _ held
  exact runBody_sound (Evaluator.cautious_sound limits.rounds limits.nesting) file closed held

def runEach (run : Ref .scope → Bool → Text → Text → Run Outcome)
    (programs : List (Bool × Text × Text)) : Run Unit := do
  let scope ← Run.alloc (·.newScope none)
  programs.forM fun (interactive, file, source) => do let _ ← run scope interactive file source

theorem runEach_follows {stop : World → Prop}
    {cautious run : Ref .scope → Bool → Text → Text → Run Outcome}
    (follows : ∀ scope interactive file source,
      (cautious scope interactive file source).Follows stop (run scope interactive file source))
    (programs : List (Bool × Text × Text)) :
    (runEach cautious programs).Follows stop (runEach run programs) :=
  .next _ fun scope => .forM _ fun _ => (follows scope _ _ _).before

theorem runEach_sound {run : Ref .scope → Bool → Text → Text → Run Outcome} {st : Store}
    (closed : st.Closed)
    (each : ∀ {later : Store} {scope : Ref .scope} interactive file source, later.Closed →
      later.Has scope.cell → (run scope interactive file source).Sound later Outcome.Kept)
    (programs : List (Bool × Text × Text)) : (runEach run programs).Sound st fun _ _ => True := by
  have inside := (st.has_newScope none _).mpr (.inr rfl)
  have closedLater : (st.newScope none).2.Closed := closed.newScope fun _ above => nomatch above
  refine Run.Sound.alloc_bind (st.extends_newScope none).grows closedLater
    (fun described => described.newScope closed none) ?_
  refine Run.Sound.forM programs closedLater ?_
  intro program later closed grows
  refine (each _ _ _ closed (inside.mono grows)).bind ?_
  intro _ _ closed _ _
  exact Run.Sound.pure closed trivial

end Program

end CommandScript
