import CommandScript.Proofs.Caution
import CommandScript.Proofs.Ending

/-! Failures of commands that compute. A program fails exactly if it comes, through tests and loops
only, to a command that meets an operand that is no number, and this command is then the last one.
What fails in the body of a function, in a class or in an imported file is lost: the statement that
ran it goes on. -/
namespace CommandScript

def World.say (w : World) (line : Text) : World :=
  { w with printed := (line ++ ['\n']) :: w.printed }

@[simp] theorem Run.exec_printLine (line : Text) (w : World) :
    (Run.printLine line).exec w = (.ok (), w.say line) :=
  rfl

namespace Site

/-- The operands of a command that computes, where one of them is no number, and the world after
their evaluation. -/
inductive Mistakes (s : Site) (w : World) : Value → Value → Text → World → Prop where
  | operation {op : Arithmetic} {x y : Text} {a b : Value} {u v : World}
      (verb : s.command.verb? = some (.arithmetic op))
      (first : s.command.whole[2]? = some x) (second : s.command.whole[3]? = some y)
      (left : (s.valueOf x).exec w = (.ok a, u)) (right : (s.valueOf y).exec u = (.ok b, v))
      (bad : a.number? = none ∨ b.number? = none) : Mistakes s w a b op.sign v
  | wave {f : Wave} {x : Text} {a : Value} {v : World} (verb : s.command.verb? = some (.wave f))
      (first : s.command.whole[2]? = some x) (only : (s.valueOf x).exec w = (.ok a, v))
      (bad : a.number? = none) :
      Mistakes s w a .nothing f.name v

def Fails (s : Site) (w later : World) : Prop :=
  ∃ a b sign v line, s.Mistakes w a b sign v ∧ Notice.notANumber v.store s.ev.slack a b sign =
    .ok line ∧ later = v.say line

variable {s : Site} {w later : World}

private theorem exec_word_bind_iff {α : Type} {i : Nat} {f : Text → Run α} {a : α} :
    (s.word i >>= f).exec w = (.ok a, later) ↔ ∃ x, s.command.whole[i]? = some x ∧
    (f x).exec w = (.ok a, later) := by
  unfold word Run.nth
  rcases s.command.whole[i]? with _ | x
  · simp
  · simp

theorem reportOperands_fails_iff (a b : Value) (sign : Text) :
    (s.reportOperands a b sign).exec w = (.ok .failed, later) ↔
      ∃ line, Notice.notANumber w.store s.ev.slack a b sign = .ok line ∧ later = w.say line := by
  change (Run.ofExcept (Notice.notANumber w.store s.ev.slack a b sign) >>= fun line =>
    Run.printLine line >>= fun _ => pure Outcome.failed).exec w = _ ↔ _
  rcases Notice.notANumber w.store s.ev.slack a b sign with fault | line
  · simp [Run.ofExcept]
  · change ((Except.ok Outcome.failed, w.say line) : Except Fault Outcome × World) = _ ↔ _
    simp [eq_comm]

private theorem storeResult_gives (s : Site) (result : Except Fault Number) :
    (do
      let n ← Run.ofExcept result
      s.store (← s.word 1) (.ofNumber n)
      return Outcome.done : Run Outcome).Gives (· = .done) :=
  .next fun _ => .next fun _ => .next fun _ => .pure rfl

private theorem arithmetic_fails {op : Arithmetic} (verb : s.command.verb? = some (.arithmetic op))
    (ended : (s.arithmetic op).exec w = (.ok .failed, later)) : s.Fails w later := by
  unfold arithmetic at ended
  obtain ⟨x, first, ended⟩ := exec_word_bind_iff.mp ended
  obtain ⟨a, u, left, ended⟩ := Run.exec_bind_inv _ ended
  obtain ⟨y, second, ended⟩ := exec_word_bind_iff.mp ended
  obtain ⟨b, v, right, ended⟩ := Run.exec_bind_inv _ ended
  split at ended
  · have done := storeResult_gives s _ _ _ _ ended
    cases done
  · next bad =>
    obtain ⟨line, shown, rfl⟩ := (reportOperands_fails_iff a b op.sign).mp ended
    have bad : a.number? = none ∨ b.number? = none := by
      rcases left : a.number? with _ | m
      · exact .inl rfl
      · rcases right : b.number? with _ | n
        · exact .inr rfl
        · exact absurd right (bad m n left)
    exact ⟨a, b, op.sign, v, line, .operation verb first second left right bad, shown, rfl⟩

private theorem wave_fails {f : Wave} (verb : s.command.verb? = some (.wave f))
    (ended : (s.wave f).exec w = (.ok .failed, later)) : s.Fails w later := by
  unfold wave at ended
  obtain ⟨x, first, ended⟩ := exec_word_bind_iff.mp ended
  obtain ⟨a, v, only, ended⟩ := Run.exec_bind_inv _ ended
  split at ended
  · have done := storeResult_gives s _ _ _ _ ended
    cases done
  · next bad =>
    obtain ⟨line, shown, rfl⟩ := (reportOperands_fails_iff a .nothing f.name).mp ended
    exact ⟨a, .nothing, f.name, v, line, .wave verb first only bad, shown, rfl⟩

/-- Of the commands that are no tests and loops only those that compute fail, and they fail over
their operands. -/
theorem endsItself_failed_iff : s.EndsItself .failed w later ↔ s.Fails w later := by
  constructor
  · rintro ⟨verb, known, single, ended⟩
    have may := runVerb_mayEnd s single w .failed later ended
    cases verb with
    | arithmetic op => exact arithmetic_fails known ended
    | wave f => exact wave_fails known ended
    | returnValue =>
      obtain ⟨v, same⟩ := may
      cases same
    | _ => cases may
  · rintro ⟨a, b, sign, v, line, mistake, shown, rfl⟩
    have reported := (reportOperands_fails_iff a b sign).mpr ⟨line, shown, rfl⟩
    cases mistake with
    | operation verb first second left right bad =>
      refine ⟨_, verb, by simp [Verb.IsBlock], ?_⟩
      refine exec_word_bind_iff.mpr ⟨_, first, Run.exec_bind_iff.mpr ⟨a, _, left, ?_⟩⟩
      refine exec_word_bind_iff.mpr ⟨_, second, Run.exec_bind_iff.mpr ⟨b, _, right, ?_⟩⟩
      split
      · next known others => simp [known, others] at bad
      · exact reported
    | wave verb first only bad =>
      refine ⟨_, verb, by simp [Verb.IsBlock], ?_⟩
      refine exec_word_bind_iff.mpr ⟨_, first, Run.exec_bind_iff.mpr ⟨a, _, only, ?_⟩⟩
      rw [bad]
      exact reported

end Site

/-! ### Failures that are lost -/

namespace Site

def concludeClass (s : Site) (name : Text) : Run Outcome := do
  let vars := ((← Run.getStore).scope s.scope).table
  let r ← Run.alloc (·.newRecord { body := some (vars, s.node) })
  Run.changeStore (·.updateScope s.scope fun x => { x with isSealed := false })
  declareGlobal s.ev s.scope name (.bare (.record r))
  return .done

/-- A statement runs something in a world and then the rest, whatever became of it: the body of a
function, the body of a class, or an imported program. -/
inductive HandsOver (s : Site) (w : World) : Run Outcome → World → Run Outcome → Prop where
  | call {first : Text} {r : Ref .variable} {callee : Ref .node} {names : List Text} {v u : World}
      (verb : s.command.verb? = none) (word : s.command.whole[0]? = some first)
      (visible : w.store.isVisible s.scope (first.before '(') = true)
      (found : (s.variableOf (first.before '(')).exec w = (.ok r, u))
      (tag : (u.store.var r).tag = .function)
      (content : (u.store.var r).content = .node callee)
      (known : (parameters (u.store.node callee).command).exec u = (.ok names, u))
      (passed : (s.passArguments (u.store.node callee).scope s.callArguments names).exec u =
        (.ok (), v)) :
      HandsOver s w (runBody s.ev callee s.file) v (pure .done)
  | define {name : Text} (verb : s.command.verb? = some .defClass)
      (known : s.definedName.exec w = (.ok name, w)) :
      HandsOver s w s.body
        { w with store := w.store.updateScope s.scope fun x => { x with isSealed := true } }
        (s.concludeClass name)
  | load {name path source : Text} {program : Ref .node} {v : World}
      (verb : s.command.verb? = some .importFile)
      (word : s.command.whole[1]? = some name)
      (meant : Import.resolve w.host w.files s.file name = .ok path)
      (found : w.files.read path = .ok source)
      (loaded : (Program.load s.ev.slack s.scope false source).exec w = (.ok program, v)) :
      HandsOver s w (s.ev.run program path) v (pure .done)

variable {s : Site} {w v later : World} {body rest : Run Outcome}

private theorem HandsOver.rest_gives (hands : s.HandsOver w body v rest) :
    rest.Gives (· = .done) := by
  cases hands with
  | call | load => exact .pure rfl
  | define => exact .next fun st => .next fun r => .next fun _ => .next fun _ => .pure rfl

theorem HandsOver.act_eq (hands : s.HandsOver w body v rest) {o : Outcome}
    (ran : body.exec v = (.ok o, later)) : s.act.exec w = rest.exec later := by
  unfold act
  cases hands with
  | @call first r callee names _ u verb word visible found tag content known passed =>
    rw [verb]
    have named : (s.word 0).exec w = (.ok first, w) := by simp [Site.word, Run.nth, word]
    have isNode : ((u.store.var r).read).exec u = (.ok (.node callee), u) := by
      simp [Variable.exec_read, Variable.reading, tag, content]
    have calls : s.other.exec w = (s.callOrAssign first).exec w := by
      change (s.word 0 >>= fun first => if w.store.isVisible s.scope
        (first.before '(') then s.callOrAssign first
        else if (w.store.node s.node).interactive then s.echo else s.body).exec w = _
      rw [Run.exec_bind_ok w named, if_pos visible]
    rw [calls, callOrAssign, Run.exec_bind_ok w found,
      Run.exec_bind_ok u (Run.exec_getStore u), if_pos tag, Run.exec_bind_ok u isNode]
    change (parameters (u.store.node callee).command >>= fun names =>
      s.passArguments (u.store.node callee).scope s.callArguments names >>= fun _ =>
        runBody s.ev callee s.file >>= fun _ => pure Outcome.done).exec u = _
    rw [Run.exec_bind_ok u known, Run.exec_bind_ok u passed, Run.exec_bind_ok v ran]
  | define verb known =>
    rw [verb]
    change s.defClass.exec w = _
    rw [defClass, Run.exec_bind_ok w known, Run.exec_bind_ok w (Run.exec_changeStore w _),
      Run.exec_bind_ok _ ran]
    rfl
  | @load name path source program _ verb word meant found loaded =>
    rw [verb]
    have named : (s.word 1).exec w = (.ok name, w) := by simp [Site.word, Run.nth, word]
    have read : (Run.readFile path).exec w = (.ok source, w) := by
      change (Run.ofExcept (w.files.read path)).exec w = _
      rw [found]
      rfl
    have resolved : (Run.ofExcept (Import.resolve w.host w.files s.file name)).exec w =
        (.ok path, w) := by
      rw [meant]
      rfl
    change s.importFile.exec w = _
    rw [importFile, Run.exec_bind_ok w named, Run.exec_bind_ok w (Run.exec_get w),
      Run.exec_bind_ok w resolved, Run.exec_bind_ok w read, Run.exec_bind_ok w loaded,
      Run.exec_bind_ok v ran]

end Site

/-- A call in an expression whose function fails has no value, and what follows goes on. -/
theorem callFunction_failed {ev : Evaluator} {scope : Ref .scope} {text inside : Text}
    {r : Ref .node} {names : List Text} {w v later : World}
    (known : (parameters (w.store.node r).command).exec w = (.ok names, w))
    (written : (bracketed '(' text).exec w = (.ok inside, w))
    (passed : (bindArguments ev scope (w.store.node r).scope ((inside.splitOn ',').zip names)).exec
      w = (.ok (), v))
    (failed : (runBody ev r []).exec v = (.ok .failed, later)) :
    (callFunction ev scope text r).exec w = (.ok .nothing, later) := by
  rw [callFunction, Run.exec_bind_ok w (Run.exec_getStore w), Run.exec_bind_ok w known,
    Run.exec_bind_ok w written, Run.exec_bind_ok w passed, Run.exec_bind_ok v failed]
  rfl

/-! ### The first failure of all -/

def strictly (x : Run Outcome) : Run Outcome := do
  match ← x with
  | .failed => throw .unfinished
  | other => return other

private theorem strictly_gives (x : Run Outcome) : (strictly x).Gives (· ≠ .failed) := by
  refine .next fun o => ?_
  cases o with
  | failed => exact .throw _
  | done => exact .pure nofun
  | stopped v => exact .pure nofun

private theorem strictly_follows {stop : World → Prop} {strict x : Run Outcome}
    (follows : strict.Follows stop x)
    (stops : ∀ w later, strict.exec w = (.ok .failed, later) → stop later) :
    (strictly strict).Follows stop x := by
  intro w
  rcases follows w with same | ⟨stopped, ended, bad⟩
  · unfold strictly
    rw [Run.exec_bind]
    rcases ran : strict.exec w with ⟨fault | o, later⟩
    · exact .inl (ran.symm.trans same)
    · cases o with
      | failed => exact .inr ⟨later, rfl, stops w later ran⟩
      | done => exact .inl (ran.symm.trans same)
      | stopped v => exact .inl (ran.symm.trans same)
  · exact .inr ⟨stopped, Run.exec_bind_error w ended, bad⟩

namespace Evaluator

/-- The evaluator with so many levels of nesting that stops after the first statement that fails,
wherever it stands. -/
def strict (rounds : Nat) : Nat → Evaluator
  | 0 => exhausted rounds
  | n + 1 =>
    { (strict rounds n).next with run := fun node file => strictly (runStep
      (strict rounds n) node file) }

private theorem strict_run_gives (rounds n : Nat) (r : Ref .node) (file : Text) :
    ((strict rounds n).run r file).Gives (· ≠ .failed) := by
  cases n with
  | zero => exact .throw _
  | succ n => exact strictly_gives _

private theorem strict_runAll_gives (rounds n : Nat) (file : Text) (nodes : List (Ref .node)) :
    (runAll (strict rounds n) file nodes).Gives (· ≠ .failed) := by
  rintro w _ later ended rfl
  have odd : Outcome.failed ≠ .done := nofun
  obtain ⟨s, v, _, failed⟩ := (runAll_ends_iff odd (strict rounds n) file nodes w).mp ended
  exact strict_run_gives rounds n s file v _ later failed rfl

def FailsInto (rounds : Nat) (x : World) : Prop :=
  ∃ n r file v, (Site.ofNode (strict rounds n) v.store r file).Fails v x

/-- The first statement that fails is a command that computes: blocks fail only after something in
them. -/
theorem failsInto_of_runStep {rounds n : Nat} {r : Ref .node} {file : Text} {v x : World}
    (ended : (runStep (strict rounds n) r file).exec v = (.ok .failed, x)) :
    FailsInto rounds x := by
  have odd : Outcome.failed ≠ .done := nofun
  rw [runStep_exec] at ended
  rcases (Site.act_ends_iff odd).mp ended with itself | ⟨u, _, inside⟩
  · exact ⟨n, r, file, v, Site.endsItself_failed_iff.mp itself⟩
  · exact absurd rfl (strict_runAll_gives rounds n file _ u .failed x inside)

private theorem strict_follows (rounds n : Nat) :
    (strict rounds n).Follows (FailsInto rounds) (ofRoom rounds n) := by
  induction n with
  | zero => exact ⟨rfl, rfl, fun _ _ _ _ => .refl _, fun _ _ => .refl _, fun _ _ => .refl _⟩
  | succ n ih =>
    refine ⟨congrArg (· + 1) ih.room, ih.rounds, bindStep_follows ih, valueStep_follows ih, ?_⟩
    intro r file
    exact strictly_follows (runStep_follows ih r file) fun _ _ => failsInto_of_runStep

end Evaluator

namespace Program

def runStrictly (limits : Limits) (scope : Ref .scope) (interactive : Bool) (file source : Text) :
    Run Outcome := do
  let program ← load (2 * limits.nesting) scope interactive source
  runBody (Evaluator.strict limits.rounds limits.nesting) program file

private theorem runStrictly_follows (limits : Limits) (scope : Ref .scope) (interactive : Bool)
    (file source : Text) :
    (runStrictly limits scope interactive file source).Follows (Evaluator.FailsInto limits.rounds)
      (Program.run limits scope interactive file source) :=
  .next _ fun _ => runBody_follows
    (fun node => (Evaluator.strict_follows limits.rounds limits.nesting).run node file) _

private theorem runStrictly_gives (limits : Limits) (scope : Ref .scope) (interactive : Bool)
    (file source : Text) : (runStrictly limits scope interactive file source).Gives (· ≠ .failed) :=
  .next fun _ => .next fun _ => Evaluator.strict_runAll_gives _ _ _ _

/-- A program, loaded from a source text, comes to a command through tests, loops and rows of
statements only. -/
def ComesTo (limits : Limits) (scope : Ref .scope) (interactive : Bool) (file source : Text)
    (w : World) (s : Site) (v : World) : Prop :=
  ∃ program loaded q u, (load (2 * limits.nesting) scope interactive source).exec w =
    (.ok program, loaded) ∧
    Row (.ofLimits limits) file (loaded.store.node program).children loaded q u ∧
    Comes limits.rounds file limits.nesting q u s v

theorem run_ends_iff {o : Outcome} (odd : o ≠ .done) (limits : Limits) (scope : Ref .scope)
    (interactive : Bool) (file source : Text) (w later : World) :
    (run limits scope interactive file source).exec w = (.ok o, later) ↔
      ∃ s v, ComesTo limits scope interactive file source w s v ∧ s.EndsItself o v later := by
  refine Run.exec_bind_iff.trans ⟨?_, ?_⟩
  · rintro ⟨program, loaded, done, ended⟩
    obtain ⟨q, u, s, v, row, comes, itself⟩ :=
      (runBody_ends_iff odd _ _ file program loaded later).mp ended
    exact ⟨s, v, ⟨program, loaded, q, u, done, row, comes⟩, itself⟩
  · rintro ⟨s, v, ⟨program, loaded, q, u, done, row, comes⟩, itself⟩
    exact ⟨program, loaded, done,
      (runBody_ends_iff odd _ _ file program loaded later).mpr ⟨q, u, s, v, row, comes, itself⟩⟩

end Program

namespace Report

def verdict (seconds : Text) : Outcome → Text
  | .failed => Notice.stopped
  | _ => completed seconds

private theorem verdict_eq (seconds : Text) (outcome : Outcome) :
    (if outcome.isSuccess then completed seconds else Notice.stopped) =
      verdict seconds outcome := by
  have one : Outcome.succeeds (.int 1) = true := by decide
  have two : Outcome.succeeds (.int 2) = true := by decide
  have zero : Outcome.succeeds (.int 0) = false := by decide
  cases outcome with
  | failed => simp [verdict, Outcome.isSuccess, Outcome.status, zero]
  | done => simp [verdict, Outcome.isSuccess, Outcome.status, one]
  | stopped v => simp [verdict, Outcome.isSuccess, Outcome.status, two]

private theorem exec_runSource {limits : Limits} {seconds file source : Text} {w later : World}
    {outcome : Outcome}
    (ran : (Program.run limits (w.store.newScope none).1 false file source).exec
      { w with store := (w.store.newScope none).2 } = (.ok outcome, later)) :
    (runSource limits seconds file source).exec w =
      (.ok (), later.say (verdict seconds outcome)) := by
  have alloc : (Run.alloc (·.newScope none)).exec w =
      (.ok (w.store.newScope none).1, { w with store := (w.store.newScope none).2 }) := rfl
  unfold runSource
  rw [Run.exec_bind_ok w alloc, Run.exec_bind_ok _ ran, Run.exec_printLine, verdict_eq]

end Report

/-- A program runs without a fault. If a command fails anywhere, the run that stops at the first
failure stops in the world that this command leaves. The program itself ends there, as failed,
exactly if it comes to the command through tests and loops only. In general it ends as failed
exactly if it comes to some failing command that way, and this is then the last thing that it does,
but for the report. What a statement hands over, be it the body of a function or a class or an
imported program, may fail, and the statement does the rest all the same; a call in an expression
has no value then. -/
theorem failed_iff_comes_to_failure (limits : Limits) (scope : Ref .scope) (interactive : Bool)
    (file source : Text) (w later : World) (outcome : Outcome)
    (ran : (Program.run limits scope interactive file source).exec w = (.ok outcome, later)) :
    (((Program.runStrictly limits scope interactive file source).exec w = (.ok outcome, later) ∧
      outcome ≠ .failed) ∨
      ∃ n r origin v x, (Program.runStrictly limits scope interactive file source).exec w =
        (.error .unfinished, x) ∧
        (Site.ofNode (.strict limits.rounds n) v.store r origin).Fails v x ∧
        (outcome = .failed ∧ later = x ↔
          ∃ s u, Program.ComesTo limits scope interactive file source w s u ∧ s.Fails u x)) ∧
    (outcome = .failed ↔ ∃ s u, Program.ComesTo limits scope interactive file source w s u ∧
      s.Fails u later) ∧
    (∀ (seconds : Text) (before : World), interactive = false → before.store.newScope none =
      (scope, w.store) →
      w = { before with store := w.store } →
      (Report.runSource limits seconds file source).exec before =
        (.ok (), later.say (Report.verdict seconds outcome))) ∧
    (∀ (s : Site) (u v x : World) (body rest : Run Outcome), s.HandsOver u body v rest →
      body.exec v = (.ok .failed, x) →
      s.act.exec u = rest.exec x ∧ rest.Gives (· = .done)) ∧
    ∀ (ev : Evaluator) (site : Ref .scope) (text inside : Text) (r : Ref .node) (names : List
      Text) (u v x : World), (parameters (u.store.node r).command).exec u = (.ok names, u) →
        (bracketed '(' text).exec u = (.ok inside, u) →
      (bindArguments ev site (u.store.node r).scope ((inside.splitOn ',').zip names)).exec u =
        (.ok (), v) →
      (runBody ev r []).exec v = (.ok .failed, x) → (callFunction ev site text r).exec u =
        (.ok .nothing, x) := by
  have odd : Outcome.failed ≠ .done := nofun
  have direct : ∀ x, outcome = .failed ∧ later = x ↔
      ∃ s u, Program.ComesTo limits scope interactive file source w s u ∧ s.Fails u x := by
    intro x
    simp only [← Site.endsItself_failed_iff, ← Program.run_ends_iff odd limits scope interactive
      file source w x, ran, Prod.mk.injEq, Except.ok.injEq]
  refine ⟨?_, ?_, ?_, ?_, ?_⟩
  · rcases Program.runStrictly_follows limits scope interactive file source w with same |
      ⟨x, ended, n, r, origin, v, failed⟩
    · have ended := same.trans ran
      exact .inl ⟨ended, Program.runStrictly_gives limits scope interactive file source w outcome
        later ended⟩
    · exact .inr ⟨n, r, origin, v, x, ended, failed, direct x⟩
  · simpa using direct later
  · intro seconds before silent fresh same
    subst silent
    rw [same] at ran
    refine Report.exec_runSource ?_
    rw [fresh]
    exact ran
  · intro s u v x body rest hands failed
    exact ⟨hands.act_eq failed, hands.rest_gives⟩
  · intro ev site text inside r names u v x known written passed failed
    exact callFunction_failed known written passed failed

namespace Program

def blank : World := { store := (Store.newScope {} none).2 }

def failingLoop : Text := "repeat (2) \x7b sub c 1 'a'; \x7d print 'x';".toList

def failingCall : Text := "def f() \x7b sub c 1 'a'; \x7d f(); print 'x';".toList

end Program

theorem failed_iff_comes_to_failure_loop :
    ∃ later s u, (Program.run ⟨4, 0⟩ (Store.newScope {} none).1 false
      ['m'] Program.failingLoop).exec Program.blank = (.ok .failed, later) ∧
      Program.ComesTo ⟨4, 0⟩ (Store.newScope {} none).1 false
        ['m'] Program.failingLoop Program.blank s u ∧ s.Fails u later ∧
      (Report.runSource ⟨4, 0⟩ ['1'] ['m'] Program.failingLoop).exec {} =
        (.ok (), later.say Notice.stopped) := by
  let ran := (Program.run ⟨4, 0⟩ (Store.newScope {} none).1 false ['m'] Program.failingLoop).exec
    Program.blank
  have status : ran.1.map Outcome.status = .ok 0 := by decide +kernel
  have failed : ran = (.ok .failed, ran.2) := by
    rcases known : ran with ⟨fault | ⟨⟩ | ⟨⟩ | value, later⟩
    · simp [known, Except.map] at status
    · rfl
    · simp [known, Except.map, Outcome.status] at status
    · simp [known, Except.map, Outcome.status] at status
  obtain ⟨_, direct, report, _⟩ := failed_iff_comes_to_failure _ _ _ _ _ _ _ _ failed
  obtain ⟨s, u, comes, fails⟩ := direct.mp rfl
  exact ⟨ran.2, s, u, failed, comes, fails, report ['1'] {} rfl rfl rfl⟩

/-- The failure of a function is lost: the statement after the call still prints. -/
example : let ran :=
  (Program.run ⟨4, 0⟩ (Store.newScope {} none).1 false ['m'] Program.failingCall).exec Program.blank
    ran.1.map Outcome.status = .ok 1 ∧
    ran.2.output = "RuntimeError: Not a number 1 - 'a'\nx".toList := by
  decide +kernel

end CommandScript
