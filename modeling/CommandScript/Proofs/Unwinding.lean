import CommandScript.Proofs.Failure

/-! Leaving blocks. A statement that does not end normally is the last one to run of all the rows,
tests and loops that it stands in, whichever they are. A return so leaves the whole body of a
function, and the call has the value that it names. A break does no less: it leaves not only the
loop around it but every block up to the body of the function or the program. -/
namespace CommandScript

/-! ### Watching statements -/

/-- Something that is to be done at every statement and at every expression before it is run, such
as to note it down. -/
structure Watch where
  statement : Ref .node → Run Unit
  expression : Ref .scope → Text → Run Unit

def Watch.idle : Watch := ⟨fun _ => pure (), fun _ _ => pure ()⟩

namespace Evaluator

def watched (watch : Watch) (rounds : Nat) : Nat → Evaluator
  | 0 => exhausted rounds
  | n + 1 =>
    { (watched watch rounds n).next with
      valueOf := fun scope text => do
        watch.expression scope text
        valueStep (watched watch rounds n) scope text
      run := fun r file => do
        watch.statement r
        runStep (watched watch rounds n) r file }

private theorem watched_idle (rounds : Nat) : watched .idle rounds = ofRoom rounds := by
  funext n
  induction n with
  | zero => rfl
  | succ n ih =>
    rw [watched, ih]
    rfl

private theorem exec_watched {watch : Watch} {rounds n : Nat} {r : Ref .node} {file : Text}
    {w v : World} (noted : (watch.statement r).exec w = (.ok (), v)) :
    ((watched watch rounds (n + 1)).run r file).exec w =
      (Site.ofNode (watched watch rounds n) v.store r file).act.exec v := by
  change (watch.statement r >>= fun _ => runStep (watched watch rounds n) r file).exec w = _
  rw [Run.exec_bind_ok w noted, runStep_exec]

end Evaluator

theorem runStep_verb {ev : Evaluator} {r : Ref .node} {file : Text} {w : World} {verb : Verb}
    (found : (Command.of (w.store.node r).command).verb? = some verb) :
    (runStep ev r file).exec w = ((Site.ofNode ev w.store r file).runVerb verb).exec w := by
  have known : (Site.ofNode ev w.store r file).command.verb? = some verb := found
  rw [runStep_exec, Site.act, known]

private theorem Evaluator.exec_watched_verb {watch : Watch} {file : Text} {r : Ref .node}
    {w v : World} {verb : Verb} (rounds n : Nat)
    (noted : (watch.statement r).exec w = (.ok (), v))
    (found : (Command.of (v.store.node r).command).verb? = some verb) :
    ((watched watch rounds (n + 1)).run r file).exec w =
      ((Site.ofNode (watched watch rounds n) v.store r file).runVerb verb).exec v := by
  rw [exec_watched noted, ← runStep_exec, runStep_verb found]

/-! ### Rows, tests and loops -/

section Leaving

variable {result : Except Fault Outcome} (odd : result ≠ .ok .done) {later : World}
include odd

/-- What would follow a normal end does not run after any other. -/
private theorem exec_leave {x : Run Outcome} (rest : Run Outcome) {w : World}
    (ended : x.exec w = (result, later)) :
    (x >>= fun outcome => match outcome with
      | .done => rest
      | other => pure other).exec w = (result, later) := by
  rw [Run.exec_bind, ended]
  rcases result with fault | outcome
  · rfl
  · cases outcome with
    | done => exact absurd rfl odd
    | failed | stopped => rfl

theorem Row.exec {ev : Evaluator} {file : Text} {nodes : List (Ref .node)} {r : Ref .node}
    {w v : World} (row : Row ev file nodes w r v)
    (ended : (ev.run r file).exec v = (result, later)) :
    (runAll ev file nodes).exec w = (result, later) := by
  induction row with
  | here r rest w => exact exec_leave odd (runAll ev file rest) ended
  | later done next ih =>
    rw [runAll, Run.exec_bind_ok _ done]
    exact ih ended

theorem Rounds.exec {body : Run Outcome} {k times : Nat} {w v : World}
    (rounds : Rounds body k w v) (below : k < times) (ended : body.exec v = (result, later)) :
    (loopTimes body times).exec w = (result, later) := by
  induction rounds generalizing times with
  | zero w =>
    obtain ⟨rest, rfl⟩ := Nat.exists_eq_succ_of_ne_zero (Nat.ne_of_gt below)
    exact exec_leave odd (loopTimes body rest) ended
  | succ done next ih =>
    obtain ⟨rest, rfl⟩ := Nat.exists_eq_succ_of_ne_zero (Nat.ne_zero_of_lt below)
    rw [loopTimes, Run.exec_bind_ok _ done]
    exact ih (Nat.lt_of_succ_lt_succ below) ended

theorem Passes.exec {test : Run Bool} {body : Run Outcome} {rounds : Nat} {w v : World}
    (passes : Passes test body rounds w v) (ended : body.exec v = (result, later)) :
    (loopWhile test body rounds).exec w = (result, later) := by
  induction passes with
  | enter holds =>
    rw [loopWhile, Run.exec_bind_ok _ holds]
    exact exec_leave odd _ ended
  | again holds done next ih =>
    rw [loopWhile, Run.exec_bind_ok _ holds, if_pos rfl, Run.exec_bind_ok _ done]
    exact ih ended

theorem Site.EntersBy.exec {s : Site} {verb : Verb} {w v : World} (enters : s.EntersBy w v verb)
    (ended : s.body.exec v = (result, later)) : (s.runVerb verb).exec w = (result, later) := by
  cases verb with
  | ifTrue =>
    have split : s.ifTrue = s.test >>= fun b => if b then s.body else pure .done := by
      simp only [ifTrue, test, bind_assoc]
    rw [runVerb, split, Run.exec_bind_ok w enters]
    exact ended
  | repeatTimes =>
    obtain ⟨n, u, counted, k, below, rounds⟩ := enters
    have split : s.repeatTimes = s.times >>= loopTimes s.body := by
      simp only [repeatTimes, times, bind_assoc, pure_bind]
    rw [runVerb, split, Run.exec_bind_ok w counted]
    exact rounds.exec odd below ended
  | whileTrue => exact Passes.exec odd enters ended
  | _ => exact enters.elim

/-- A block ends as its body does if that does not end normally. -/
theorem Site.Enters.exec {s : Site} {w v : World} (enters : s.Enters w v)
    (ended : s.body.exec v = (result, later)) : s.act.exec w = (result, later) := by
  unfold Enters at enters
  unfold act
  revert enters
  rcases s.command.verb? with _ | verb
  · rintro ⟨rfl, silent, first, word, hidden⟩
    have named : (s.word 0).exec v = (.ok first, v) := by simp [Site.word, Run.nth, word]
    change (s.word 0 >>= fun first => if v.store.isVisible s.scope
      (first.before '(') then s.callOrAssign first
      else if (v.store.node s.node).interactive then s.echo else s.body).exec v = _
    rw [Run.exec_bind_ok v named, hidden, silent]
    exact ended
  · intro enters
    exact Site.EntersBy.exec odd enters ended

end Leaving

/-! ### Statements in statements -/

/-- A statement that is to run in a world leads to one that stands in it, through rows, tests and
loops only. Each comes with the levels of nesting that are left for it and with the world that it is
to run in. -/
inductive Leads (watch : Watch) (rounds : Nat) (file : Text) :
    Nat → Ref .node → World → Nat → Ref .node → World → Prop where
  | here (n : Nat) (r : Ref .node) (w : World) : Leads watch rounds file n r w n r w
  | inside {n m : Nat} {r p q : Ref .node} {w v u x y : World}
      (noted : (watch.statement r).exec w = (.ok (), v))
      (enters : (Site.ofNode (.watched watch rounds n) v.store r file).Enters v u)
      (row : Row (.watched watch rounds n) file (u.store.node r).children u p x)
      (deeper : Leads watch rounds file n p x m q y) : Leads watch rounds file (n + 1) r w m q y

namespace Leads

variable {watch : Watch} {rounds n m k : Nat} {file : Text} {r p q : Ref .node}
  {w v u later : World}
  {result : Except Fault Outcome}

theorem trans (first : Leads watch rounds file n r w k p v)
    (second : Leads watch rounds file k p v m q u) : Leads watch rounds file n r w m q u := by
  induction first with
  | here => exact second
  | inside noted enters row _ ih => exact .inside noted enters row (ih second)

/-- If a statement does not end normally, every statement that leads to it ends in the same way and
in the same world. -/
theorem exec (leads : Leads watch rounds file n r w m q u) (odd : result ≠ .ok .done)
    (ended : ((Evaluator.watched watch rounds m).run q file).exec u = (result, later)) :
    ((Evaluator.watched watch rounds n).run r file).exec w = (result, later) := by
  induction leads with
  | here => exact ended
  | inside noted enters row _ ih =>
    rw [Evaluator.exec_watched noted]
    exact enters.exec odd (row.exec odd (ih ended))

private theorem exec_body (leads : Leads watch rounds file n r w m q u) {body : Ref .node}
    (row : Row (.watched watch rounds n) file (v.store.node body).children v r w)
    (odd : result ≠ .ok .done)
    (ended : ((Evaluator.watched watch rounds m).run q file).exec u = (result, later)) :
    (runBody (.watched watch rounds n) body file).exec v = (result, later) :=
  row.exec odd (leads.exec odd ended)

end Leads

/-! ### Calls in expressions -/

/-- An expression is a call of a function, whose body starts in a world once the arguments are
passed. -/
inductive Invokes (ev : Evaluator) (scope : Ref .scope) (text : Text) (w : World) :
    Ref .node → World → Prop where
  | intro {r : Ref .variable} {callee : Ref .node} {names : List Text} {inside : Text} {u v : World}
      (closing : text.getLast? = some ')')
      (visible : w.store.isVisible scope (text.before '(') = true)
      (found : (lookup ev scope (text.before '(')).exec w = (.ok (.held r), u))
      (function : (readVariable r).exec u = (.ok (.node callee), u))
      (known : (parameters (u.store.node callee).command).exec u = (.ok names, u))
      (written : (bracketed '(' text).exec u = (.ok inside, u))
      (passed : (bindArguments ev scope (u.store.node callee).scope
        ((inside.splitOn ',').zip names)).exec u = (.ok (), v)) :
      Invokes ev scope text w callee v

theorem Invokes.exec {ev : Evaluator} {scope : Ref .scope} {text : Text} {w v : World}
    {callee : Ref .node} (invokes : Invokes ev scope text w callee v) :
    (valueStep ev scope text).exec w = (do return (← runBody ev callee []).value).exec v := by
  obtain ⟨closing, visible, found, function, known, written, passed⟩ := invokes
  rw [valueStep, Run.exec_bind_ok w (Run.exec_getStore w), if_pos ⟨closing, visible⟩,
    Run.exec_bind_ok w found]
  simp only [heldItem, pure_bind]
  rw [Run.exec_bind_ok _ function]
  simp only [callFunction]
  rw [Run.exec_bind_ok _ (Run.exec_getStore _), Run.exec_bind_ok _ known,
    Run.exec_bind_ok _ written, Run.exec_bind_ok _ passed]

/-! ### An instance -/

theorem Site.exec_test {s : Site} {w u : World} (text : Text) (v : Value)
    (word : s.command.bare[1]? = some text)
    (known : (condition s.ev s.scope text).exec w = (.ok v, u)) :
    s.test.exec w = (.ok (u.store.isTrue v), u) := by
  have named : (Run.nth s.command.bare 1).exec w = (.ok text, w) := by simp [Run.nth, word]
  rw [test, Run.exec_bind_ok w named, holds, Run.exec_bind_ok w known,
    Run.exec_bind_ok u (Run.exec_getStore u)]
  rfl

def Watch.dots : Watch := ⟨fun _ => Run.print ['.'], fun _ _ => pure ()⟩

def World.nested (leaf : Text) (dots : Nat) : World where
  store :=
    { scopes := ⟨#[{ parent := none, table := ⟨0⟩ }]⟩
      tables := ⟨#[[(['f'], ⟨0⟩)]]⟩
      vars := ⟨#[{ name := some ['f'], home := some ⟨0⟩, content := .node ⟨0⟩, tag := .function }]⟩
      nodes := ⟨#[
        { command := "def f()".toList, index := 0, children := [⟨1⟩,
          ⟨5⟩], scope := ⟨0⟩, interactive := false },
        { command := "while 1<2".toList, index := 1, children := [⟨2⟩,
          ⟨5⟩], scope := ⟨0⟩, interactive := false },
        { command := "repeat 3".toList, index := 2, children := [⟨3⟩,
          ⟨5⟩], scope := ⟨0⟩, interactive := false },
        { command := "if 1<2".toList, index := 3, children := [⟨4⟩,
          ⟨5⟩], scope := ⟨0⟩, interactive := false },
        { command := leaf, index := 4, children := [], scope := ⟨0⟩, interactive := false },
        { command := "print 7".toList, index := 5, children := [], scope := ⟨0⟩,
          interactive := false }]⟩ }
  printed := List.replicate dots ['.']

private theorem invokes_nested (leaf : Text) :
    Invokes (.watched .dots 1 6) ⟨0⟩ "f()".toList (.nested leaf 0) ⟨0⟩ (.nested leaf 0) :=
  .intro rfl rfl rfl rfl rfl rfl rfl

private theorem leads_outer (leaf : Text) :
    Leads .dots 1 [] 6 ⟨1⟩ (.nested leaf 0) 5 ⟨2⟩ (.nested leaf 1) := by
  have holds : (Site.ofNode (.watched .dots 1 5) (World.nested leaf 1).store ⟨1⟩ []).test.exec
    (.nested leaf 1) =
      (.ok true, .nested leaf 1) := Site.exec_test "1<2".toList (.bool true) rfl rfl
  exact .inside rfl (.enter holds) (.here _ _ _) (.here _ _ _)

private theorem leads_inner (leaf : Text) :
    Leads .dots 1 [] 5 ⟨2⟩ (.nested leaf 1) 3 ⟨4⟩ (.nested leaf 3) := by
  have count : (Site.ofNode (.watched .dots 1 4) (World.nested leaf 2).store ⟨2⟩ []).times.exec
    (.nested leaf 2) =
      (.ok 3, .nested leaf 2) := rfl
  have holds : (Site.ofNode (.watched .dots 1 3) (World.nested leaf 3).store ⟨3⟩ []).test.exec
    (.nested leaf 3) =
      (.ok true, .nested leaf 3) := Site.exec_test "1<2".toList (.bool true) rfl rfl
  refine .inside rfl ⟨3, .nested leaf 2, count, 0, by decide, .zero _⟩ (.here _ _ _) ?_
  exact .inside rfl holds (.here _ _ _) (.here _ _ _)

/-! ### Break -/

/-- A statement, such as a loop, leads to a break, which runs in the world `x`. Nothing else then
runs in the loop: it ends in that very world. But what follows it does not run either, so a row goes
on after the loop only if what follows ends at once in the same way. So it is for all that leads to
the loop, such as a loop around it: the break ends it. The body in which all this stands ends there
too; whatever handed over to this body goes on, and as an expression it has no value. This holds
under every watch, thus for every account of what is run. -/
theorem break_leaves_every_block (watch : Watch) (rounds k m : Nat) (file : Text)
    (loop leaf : Ref .node) (v y x : World)
    (inner : Leads watch rounds file k loop v (m + 1) leaf y)
    (noted : (watch.statement leaf).exec y = (.ok (), x))
    (breaks : (Command.of (x.store.node leaf).command).verb? = some .breakOff) :
    ((Evaluator.watched watch rounds k).run loop file).exec v = (.ok (.stopped .nothing), x) ∧
    (∀ after, (runAll (.watched watch rounds k) file (loop :: after)).exec v =
      (.ok (.stopped .nothing), x) ∧
      ((runAll (.watched watch rounds k) file (loop :: after)).exec v =
        (runAll (.watched watch rounds k) file after).exec x ↔
        (runAll (.watched watch rounds k) file after).exec x = (.ok (.stopped .nothing), x))) ∧
    (∀ n outer w, Leads watch rounds file n outer w k loop v →
      ∀ after, (runAll (.watched watch rounds n) file (outer :: after)).exec w =
        (.ok (.stopped .nothing), x)) ∧
    (∀ n body outer u w, Row (.watched watch rounds n) file (u.store.node body).children u outer w →
      Leads watch rounds file n outer w k loop v →
      (runBody (.watched watch rounds n) body file).exec u = (.ok (.stopped .nothing), x) ∧
      (∀ (s : Site) (a : World) (rest : Run Outcome),
        s.HandsOver a (runBody (.watched watch rounds n) body file) u rest → s.act.exec a =
          rest.exec x) ∧
      (file = [] → ∀ scope text a, Invokes (.watched watch rounds n) scope text a body u →
        (valueStep (.watched watch rounds n) scope text).exec a = (.ok .nothing, x))) ∧
    Evaluator.watched .idle rounds = .ofRoom rounds := by
  have odd : (.ok (.stopped .nothing) : Except Fault Outcome) ≠ .ok .done := nofun
  have left : ((Evaluator.watched watch rounds (m + 1)).run leaf file).exec y =
      (.ok (.stopped .nothing), x) :=
    Evaluator.exec_watched_verb rounds m noted breaks
  have row : ∀ after, (runAll (.watched watch rounds k) file (loop :: after)).exec v =
      (.ok (.stopped .nothing), x) := by
    intro after
    exact (Row.here loop after v).exec odd (inner.exec odd left)
  refine ⟨inner.exec odd left, ?_, ?_, ?_, Evaluator.watched_idle rounds⟩
  · intro after
    rw [row after]
    exact ⟨rfl, eq_comm⟩
  · intro n outer w around after
    exact (Row.here outer after w).exec odd ((around.trans inner).exec odd left)
  · intro n body outer u w started around
    have ended := (around.trans inner).exec_body started odd left
    refine ⟨ended, ?_, ?_⟩
    · intro s a rest hands
      exact hands.act_eq ended
    · rintro rfl scope text a invokes
      rw [invokes.exec, Run.exec_bind_ok u ended]
      rfl

/-- The break is the fourth and last statement that runs of all the loops, and the call has no
value. -/
theorem break_leaves_every_block_nested :
    let left : Except Fault Outcome × World := (.ok (.stopped .nothing), .nested "break".toList 4)
    ((Evaluator.watched .dots 1 5).run ⟨2⟩ []).exec (.nested "break".toList 1) = left ∧
      (runAll (.watched .dots 1 5) [] [⟨2⟩, ⟨5⟩]).exec (.nested "break".toList 1) = left ∧
      (runAll (.watched .dots 1 6) [] [⟨1⟩, ⟨5⟩]).exec (.nested "break".toList 0) = left ∧
      (valueStep (.watched .dots 1 6) ⟨0⟩ "f()".toList).exec (.nested "break".toList 0) =
        (.ok .nothing, left.2) := by
  obtain ⟨loop, row, around, body, _⟩ :=
    break_leaves_every_block .dots 1 5 2 [] ⟨2⟩ ⟨4⟩ _ _ (.nested "break".toList 4)
    (leads_inner _) rfl (by decide)
  have outer := leads_outer "break".toList
  have call := (body 6 ⟨0⟩ ⟨1⟩ _ _ (.here ⟨1⟩ [⟨5⟩] _) outer).2.2 rfl ⟨0⟩ "f()".toList _
    (invokes_nested _)
  exact ⟨loop, (row [⟨5⟩]).1, around 6 ⟨1⟩ _ outer [⟨5⟩], call⟩

/-! ### Return -/

/-- A function body leads to a return, which runs in the world `x`. Then the body as a whole is no
more than the evaluation of what is returned in that world, faults included: no other statement runs
after it, no loop goes round again and no test is made again. A call of the function in an
expression is this evaluation too, and a call that stands alone goes on with the world after it.
This holds under every watch, thus for every account of what is run. -/
theorem return_leaves_body (watch : Watch) (rounds n m : Nat) (file : Text)
    (callee first leaf : Ref .node) (v u y x : World)
    (row : Row (.watched watch rounds n) file (v.store.node callee).children v first u)
    (leads : Leads watch rounds file n first u (m + 1) leaf y)
    (noted : (watch.statement leaf).exec y = (.ok (), x))
    (returns : (Command.of (x.store.node leaf).command).verb? = some .returnValue) :
    let returned := (Evaluator.watched watch rounds m).valueOf (x.store.node leaf).scope
      (Text.unwords ((Command.of (x.store.node leaf).command).whole.drop 1))
    (runBody (.watched watch rounds n) callee file).exec v =
      (do return Outcome.stopped (← returned) : Run Outcome).exec x ∧
    (file = [] → ∀ scope text w, Invokes (.watched watch rounds n) scope text w callee v →
      (valueStep (.watched watch rounds n) scope text).exec w = returned.exec x) ∧
    (∀ (s : Site) (w later : World) (rest : Run Outcome) (value : Value),
      s.HandsOver w (runBody (.watched watch rounds n) callee file) v rest → returned.exec x =
        (.ok value, later) →
      s.act.exec w = rest.exec later) ∧
    Evaluator.watched .idle rounds = .ofRoom rounds := by
  intro returned
  have ran : ((Evaluator.watched watch rounds (m + 1)).run leaf file).exec y =
      (do return Outcome.stopped (← returned) : Run Outcome).exec x :=
    Evaluator.exec_watched_verb rounds m noted returns
  have left : (runBody (.watched watch rounds n) callee file).exec v =
      (do return Outcome.stopped (← returned) : Run Outcome).exec x := by
    rcases evaluated : returned.exec x with ⟨fault | value, later⟩
    · rw [Run.exec_bind_error x evaluated] at ran ⊢
      exact leads.exec_body row nofun ran
    · rw [Run.exec_bind_ok x evaluated] at ran ⊢
      exact leads.exec_body row nofun ran
  refine ⟨left, ?_, ?_, Evaluator.watched_idle rounds⟩
  · rintro rfl scope text w invokes
    rw [invokes.exec, Run.exec_bind, left, Run.exec_bind]
    rcases returned.exec x with ⟨fault | value, later⟩
    · rfl
    · rfl
  · intro s w later rest value hands evaluated
    refine hands.act_eq (o := .stopped value) ?_
    rw [left, Run.exec_bind_ok x evaluated]
    rfl

/-- The return is the fourth and last statement that runs, and the call has its value. -/
theorem return_leaves_body_nested :
    (valueStep (.watched .dots 1 6) ⟨0⟩ "f()".toList).exec (.nested "return 7".toList 0) =
      (.ok (.int 7), .nested "return 7".toList 4) := by
  have leads := (leads_outer "return 7".toList).trans (leads_inner _)
  obtain ⟨_, call, _⟩ := return_leaves_body .dots 1 6 2 [] ⟨0⟩ ⟨1⟩ ⟨4⟩
    (.nested "return 7".toList 0) _ _
    (.nested "return 7".toList 4) (.here ⟨1⟩ [⟨5⟩] _) leads rfl (by decide)
  rw [call rfl ⟨0⟩ "f()".toList _ (invokes_nested _)]
  rfl

end CommandScript
