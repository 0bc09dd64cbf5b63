import CommandScript.Execution
import CommandScript.Proofs.Exec
import CommandScript.Proofs.Statements

/-! How statements end. Most commands can only end normally. A row of statements, a test or a loop
ends otherwise exactly if some statement that it comes to ends so, and then it ends in the world
that this statement leaves. -/
namespace CommandScript

namespace Run

variable {α β : Type}

def Gives (p : α → Prop) (x : Run α) : Prop := ∀ w a later, x.exec w = (.ok a, later) → p a

theorem Gives.pure {p : α → Prop} {a : α} (holds : p a) : (Pure.pure a : Run α).Gives p := by
  intro w b later ok
  cases ok
  exact holds

theorem Gives.throw {p : α → Prop} (e : Fault) : (MonadExcept.throw e : Run α).Gives p := by
  intro w b later ok
  cases ok

theorem Gives.next {p : β → Prop} {x : Run α} {f : α → Run β} (each : ∀ a, (f a).Gives p) :
    (x >>= f).Gives p := by
  intro w b later ok
  obtain ⟨a, middle, _, rest⟩ := exec_bind_inv w ok
  exact each a middle b later rest

theorem exec_bind_iff {x : Run α} {f : α → Run β} {w last : World} {b : β} :
    (x >>= f).exec w = (.ok b, last) ↔ ∃ a middle, x.exec w = (.ok a, middle) ∧
    (f a).exec middle = (.ok b, last) := by
  constructor
  · exact exec_bind_inv w
  · rintro ⟨a, middle, first, second⟩
    rw [exec_bind_ok w first, second]

@[simp] theorem exec_pure (a : α) (w : World) : (Pure.pure a : Run α).exec w = (.ok a, w) := rfl

@[simp] theorem exec_throw (e : Fault) (w : World) :
    (MonadExcept.throw e : Run α).exec w = (.error e, w) :=
  rfl

end Run

/-! ### Rows and loops -/

inductive Row (ev : Evaluator) (file : Text) :
    List (Ref .node) → World → Ref .node → World → Prop where
  | here (r : Ref .node) (rest : List (Ref .node)) (w : World) : Row ev file (r :: rest) w r w
  | later {r s : Ref .node} {rest : List (Ref .node)} {w v u : World}
      (done : (ev.run r file).exec w = (.ok .done, v))
      (next : Row ev file rest v s u) : Row ev file (r :: rest) w s u

inductive Rounds (body : Run Outcome) : Nat → World → World → Prop where
  | zero (w : World) : Rounds body 0 w w
  | succ {n : Nat} {w v u : World} (done : body.exec w = (.ok .done, v))
      (next : Rounds body n v u) : Rounds body (n + 1) w u

inductive Passes (test : Run Bool) (body : Run Outcome) : Nat → World → World → Prop where
  | enter {n : Nat} {w v : World} (holds : test.exec w = (.ok true, v)) :
      Passes test body (n + 1) w v
  | again {n : Nat} {w v u x : World} (holds : test.exec w = (.ok true, v))
      (done : body.exec v = (.ok .done, u))
      (next : Passes test body n u x) : Passes test body (n + 1) w x

section Ends

variable {o : Outcome} (other : o ≠ .done) {later : World}
include other

/-- One statement, test or round and what follows it: either it ends otherwise itself, or what
follows does. -/
private theorem exec_continue (x rest : Run Outcome) (w : World) :
    (x >>= fun outcome => match outcome with
      | .done => rest
      | other => pure other).exec w = (.ok o, later) ↔
      x.exec w = (.ok o, later) ∨ ∃ v, x.exec w = (.ok .done, v) ∧
      rest.exec v = (.ok o, later) := by
  rw [Run.exec_bind]
  rcases ran : x.exec w with ⟨fault | outcome, v⟩
  · simp
  · cases outcome with
    | done => simp [other.symm]
    | failed => simp
    | stopped value => simp

theorem runAll_ends_iff (ev : Evaluator) (file : Text) (nodes : List (Ref .node)) (w : World) :
    (runAll ev file nodes).exec w = (.ok o, later) ↔
      ∃ s v, Row ev file nodes w s v ∧ (ev.run s file).exec v = (.ok o, later) := by
  induction nodes generalizing w with
  | nil =>
    constructor
    · intro ok
      cases ok
      exact absurd rfl other
    · rintro ⟨s, v, row, _⟩
      cases row
  | cons r rest ih =>
    refine (exec_continue other (ev.run r file) (runAll ev file rest) w).trans ⟨?_, ?_⟩
    · rintro (ended | ⟨v, done, rest⟩)
      · exact ⟨r, w, .here r _ w, ended⟩
      · obtain ⟨s, u, row, ended⟩ := (ih v).mp rest
        exact ⟨s, u, .later done row, ended⟩
    · rintro ⟨s, u, row, ended⟩
      cases row with
      | here => exact .inl ended
      | later done row => exact .inr ⟨_, done, (ih _).mpr ⟨s, u, row, ended⟩⟩

private theorem loopTimes_ends_iff (body : Run Outcome) (times : Nat) (w : World) :
    (loopTimes body times).exec w = (.ok o, later) ↔
      ∃ k < times, ∃ v, Rounds body k w v ∧ body.exec v = (.ok o, later) := by
  induction times generalizing w with
  | zero =>
    constructor
    · intro ok
      cases ok
      exact absurd rfl other
    · rintro ⟨k, below, _⟩
      exact absurd below (Nat.not_lt_zero k)
  | succ times ih =>
    refine (exec_continue other body (loopTimes body times) w).trans ⟨?_, ?_⟩
    · rintro (ended | ⟨v, done, rest⟩)
      · exact ⟨0, Nat.succ_pos times, w, .zero w, ended⟩
      · obtain ⟨k, below, u, rounds, ended⟩ := (ih v).mp rest
        exact ⟨k + 1, Nat.succ_lt_succ below, u, .succ done rounds, ended⟩
    · rintro ⟨k, below, u, rounds, ended⟩
      cases rounds with
      | zero => exact .inl ended
      | succ done rounds =>
        exact .inr ⟨_, done, (ih _).mpr ⟨_, Nat.lt_of_succ_lt_succ below, u, rounds, ended⟩⟩

private theorem loopWhile_ends_iff (test : Run Bool) (body : Run Outcome) (rounds : Nat)
    (w : World) :
    (loopWhile test body rounds).exec w = (.ok o, later) ↔
      ∃ v, Passes test body rounds w v ∧ body.exec v = (.ok o, later) := by
  induction rounds generalizing w with
  | zero =>
    constructor
    · intro ok
      cases ok
    · rintro ⟨v, passes, _⟩
      cases passes
  | succ rounds ih =>
    have entered : ∀ v, test.exec w = (.ok true, v) →
        ((loopWhile test body (rounds + 1)).exec w = (.ok o, later) ↔
          body.exec v = (.ok o, later) ∨ ∃ u, body.exec v = (.ok .done, u) ∧
          (loopWhile test body rounds).exec u = (.ok o, later)) := by
      intro v holds
      rw [loopWhile, Run.exec_bind_ok w holds]
      exact exec_continue other body (loopWhile test body rounds) v
    constructor
    · intro ok
      obtain ⟨holds, v, tested, _⟩ := Run.exec_bind_inv w ok
      cases holds with
      | false =>
        rw [loopWhile, Run.exec_bind_ok w tested] at ok
        cases ok
        exact absurd rfl other
      | true =>
        rcases (entered v tested).mp ok with ended | ⟨u, done, rest⟩
        · exact ⟨v, .enter tested, ended⟩
        · obtain ⟨x, passes, ended⟩ := (ih u).mp rest
          exact ⟨x, .again tested done passes, ended⟩
    · rintro ⟨v, passes, ended⟩
      cases passes with
      | enter tested => exact (entered v tested).mpr (.inl ended)
      | again tested done passes =>
        exact (entered _ tested).mpr (.inr ⟨_, done, (ih _).mpr ⟨v, passes, ended⟩⟩)

end Ends

/-! ### Commands -/

def Verb.MayEnd : Verb → Outcome → Prop
  | .arithmetic _, o | .wave _, o => o = .done ∨ o = .failed
  | .breakOff, o => o = .stopped .nothing
  | .returnValue, o => ∃ v, o = .stopped v
  | _, o => o = .done

def Verb.IsBlock (verb : Verb) : Prop := verb ∈ [.ifTrue, .repeatTimes, .whileTrue]

namespace Site

variable (s : Site)

theorem runVerb_mayEnd {verb : Verb} (single : ¬ verb.IsBlock) :
    (s.runVerb verb).Gives verb.MayEnd := by
  have done : (pure .done : Run Outcome).Gives (· = .done) := .pure rfl
  have report : ∀ a b operation, (s.reportOperands a b operation).Gives fun o => o = .done ∨
      o = .failed :=
    fun _ _ _ => .next fun _ => .next fun _ => .next fun _ => .pure (.inr rfl)
  cases verb with
  | print | putchar | length | add | formula | defFunction | defClass | tagOf | importFile |
      random | screen =>
    repeat refine .next fun _ => ?_
    exact done
  | breakOff => exact .pure rfl
  | returnValue => exact .next fun v => .pure ⟨v, rfl⟩
  | ifTrue | repeatTimes | whileTrue => exact absurd (by simp [Verb.IsBlock]) single
  | var =>
    refine .next fun first => ?_
    dsimp only
    split
    · exact .next fun _ => .next fun _ => .next fun _ => done
    · exact .next fun _ => .next fun _ => done
  | array =>
    refine .next fun second => .next fun first => .next fun v => ?_
    dsimp only
    split
    · exact .next fun _ => done
    · exact .next fun _ => done
  | arithmetic op =>
    refine .next fun _ => .next fun a => .next fun _ => .next fun b => ?_
    split
    · exact .next fun _ => .next fun _ => .next fun _ => .pure (.inl rfl)
    · exact report _ _ _
  | wave w =>
    refine .next fun _ => .next fun a => ?_
    split
    · exact .next fun _ => .next fun _ => .next fun _ => .pure (.inl rfl)
    · exact report _ _ _
  | append =>
    refine .next fun _ => .next fun v => .next fun _ => .next fun r => .next fun st => ?_
    split
    · exact .next fun _ => done
    · exact .throw _
  | convert =>
    refine .next fun target => ?_
    dsimp only
    split
    · exact .next fun _ => done
    · split
      · exact .next fun _ => done
      · split
        · exact .next fun _ => done
        · exact done
  | file =>
    refine .next fun action => ?_
    dsimp only
    split
    · repeat refine .next fun _ => ?_
      exact done
    · split
      · repeat refine .next fun _ => ?_
        exact done
      · exact done

private theorem callOrAssign_gives (first : Text) : (s.callOrAssign first).Gives (· = .done) := by
  refine .next fun r => .next fun st => ?_
  dsimp only
  split
  · refine .next fun content => ?_
    split
    · exact .next fun _ => .next fun _ => .next fun _ => .next fun _ => .pure rfl
    · exact .throw _
  · exact .next fun _ => .next fun _ => .pure rfl

private theorem echo_gives : s.echo.Gives (· = .done) := by
  refine .next fun texts => ?_
  dsimp only
  split
  · exact .next fun _ => .pure rfl
  · exact .pure rfl

def test : Run Bool := do s.holds (← Run.nth s.command.bare 1)

def times : Run Nat := do
  let v ← s.valueOf (← Run.nth s.command.bare 1)
  return (← Run.ofExcept v.toInt).toNat

/-- A test or a loop starts the body in a world, be it after some rounds. -/
def EntersBy (w v : World) : Verb → Prop
  | .ifTrue => s.test.exec w = (.ok true, v)
  | .repeatTimes => ∃ n u, s.times.exec w = (.ok n, u) ∧ ∃ k < n, Rounds s.body k u v
  | .whileTrue => Passes s.test s.body s.ev.rounds w v
  | _ => False

/-- The statement starts its body in a world. A command that is neither a verb nor known has a body
without a condition. -/
def Enters (w v : World) : Prop :=
  match s.command.verb? with
  | some verb => s.EntersBy w v verb
  | none => v = w ∧ (w.store.node s.node).interactive = false ∧
      ∃ first, s.command.whole[0]? = some first ∧
      w.store.isVisible s.scope (first.before '(') = false

def act : Run Outcome :=
  match s.command.verb? with
  | some verb => s.runVerb verb
  | none => s.other

def EndsItself (o : Outcome) (w later : World) : Prop :=
  ∃ verb, s.command.verb? = some verb ∧ ¬ verb.IsBlock ∧ (s.runVerb verb).exec w = (.ok o, later)

variable {s} {o : Outcome} (odd : o ≠ .done) {w later : World}
include odd

private theorem ifTrue_ends_iff :
    s.ifTrue.exec w = (.ok o, later) ↔ ∃ v, s.test.exec w = (.ok true, v) ∧
    s.body.exec v = (.ok o, later) := by
  have split : s.ifTrue = s.test >>= fun b => if b then s.body else pure .done := by
    simp only [ifTrue, test, bind_assoc]
  rw [split, Run.exec_bind]
  rcases s.test.exec w with ⟨fault | holds, v⟩
  · simp
  · cases holds with
    | false => simp [odd.symm]
    | true => simp

private theorem repeatTimes_ends_iff :
    s.repeatTimes.exec w = (.ok o, later) ↔
      ∃ v, (∃ n u, s.times.exec w = (.ok n, u) ∧ ∃ k < n, Rounds s.body k u v) ∧
      s.body.exec v = (.ok o, later) := by
  have split : s.repeatTimes = s.times >>= loopTimes s.body := by
    simp only [repeatTimes, times, bind_assoc, pure_bind]
  rw [split, Run.exec_bind]
  rcases s.times.exec w with ⟨fault | n, u⟩
  · simp
  · refine (loopTimes_ends_iff odd s.body n u).trans ⟨?_, ?_⟩
    · rintro ⟨k, below, v, rounds, ended⟩
      exact ⟨v, ⟨n, u, rfl, k, below, rounds⟩, ended⟩
    · rintro ⟨v, ⟨_, _, same, k, below, rounds⟩, ended⟩
      cases same
      exact ⟨k, below, v, rounds, ended⟩

private theorem other_ends_iff :
    s.other.exec w = (.ok o, later) ↔
      ∃ v, (v = w ∧ (w.store.node s.node).interactive = false ∧
        ∃ first, s.command.whole[0]? = some first ∧
        w.store.isVisible s.scope (first.before '(') = false) ∧
        s.body.exec v = (.ok o, later) := by
  have opened : s.other.exec w = (s.word 0 >>= fun first =>
      if w.store.isVisible s.scope (first.before '(') then s.callOrAssign first
      else if (w.store.node s.node).interactive then s.echo else s.body).exec w := rfl
  rw [opened]
  unfold word Run.nth
  rcases s.command.whole[0]? with _ | first
  · simp
  · rw [pure_bind]
    split
    · next visible =>
      constructor
      · intro ended
        exact absurd (callOrAssign_gives s first w o later ended) odd
      · rintro ⟨_, ⟨_, _, _, same, hidden⟩, _⟩
        cases same
        rw [visible] at hidden
        cases hidden
    · split
      · next interactive =>
        constructor
        · intro ended
          exact absurd (echo_gives s w o later ended) odd
        · rintro ⟨_, ⟨_, silent, _⟩, _⟩
          rw [interactive] at silent
          cases silent
      · next hidden silent => simp [hidden, silent]

private theorem runVerb_ends_iff {verb : Verb} :
    (s.runVerb verb).exec w = (.ok o, later) ↔
      (¬ verb.IsBlock ∧ (s.runVerb verb).exec w = (.ok o, later)) ∨
        ∃ v, s.EntersBy w v verb ∧ s.body.exec v = (.ok o, later) := by
  cases verb with
  | ifTrue => exact (ifTrue_ends_iff odd).trans (by simp [Verb.IsBlock, EntersBy])
  | repeatTimes => exact (repeatTimes_ends_iff odd).trans (by simp [Verb.IsBlock, EntersBy])
  | whileTrue =>
    exact (loopWhile_ends_iff odd s.test s.body s.ev.rounds w).trans
      (by simp [Verb.IsBlock, EntersBy])
  | _ => simp [Verb.IsBlock, EntersBy]

/-- A statement does not end normally exactly if it is a command that ends so itself, or a block
whose body does. -/
theorem act_ends_iff :
    s.act.exec w = (.ok o, later) ↔ s.EndsItself o w later ∨ ∃ v, s.Enters w v ∧
    s.body.exec v = (.ok o, later) := by
  unfold act Enters EndsItself
  rcases s.command.verb? with _ | verb
  · simp [other_ends_iff odd]
  · simpa using runVerb_ends_iff odd

end Site

/-! ### Statements in blocks -/

theorem runStep_exec (ev : Evaluator) (r : Ref .node) (file : Text) (w : World) :
    (runStep ev r file).exec w = (Site.ofNode ev w.store r file).act.exec w := by
  rw [runStep, Run.exec_bind_ok w (Run.exec_getStore w)]
  rfl

/-- A statement comes to one that stands in it, through tests, loops and rows of statements only. -/
inductive Comes (rounds : Nat) (file : Text) : Nat → Ref .node → World → Site → World → Prop where
  | here (n : Nat) (r : Ref .node) (w : World) :
      Comes rounds file (n + 1) r w (Site.ofNode (.ofRoom rounds n) w.store r file) w
  | inside {n : Nat} {r q : Ref .node} {w v u x : World} {s : Site}
      (enters : (Site.ofNode (.ofRoom rounds n) w.store r file).Enters w v)
      (row : Row (.ofRoom rounds n) file (v.store.node r).children v q u)
      (deeper : Comes rounds file n q u s x) :
      Comes rounds file (n + 1) r w s x

theorem run_ends_iff {o : Outcome} (odd : o ≠ .done) (rounds n : Nat) (file : Text)
    (r : Ref .node) (w later : World) :
    ((Evaluator.ofRoom rounds n).run r file).exec w = (.ok o, later) ↔
      ∃ s v, Comes rounds file n r w s v ∧ s.EndsItself o v later := by
  induction n generalizing r w with
  | zero =>
    constructor
    · intro ok
      cases ok
    · rintro ⟨s, v, comes, _⟩
      cases comes
  | succ n ih =>
    change (runStep (.ofRoom rounds n) r file).exec w = _ ↔ _
    rw [runStep_exec, Site.act_ends_iff odd]
    constructor
    · rintro (ended | ⟨v, enters, ended⟩)
      · exact ⟨_, w, .here n r w, ended⟩
      · obtain ⟨q, u, row, ended⟩ := (runAll_ends_iff odd _ file _ v).mp ended
        obtain ⟨s, x, comes, ended⟩ := (ih q u).mp ended
        exact ⟨s, x, .inside enters row comes, ended⟩
    · rintro ⟨s, x, comes, ended⟩
      cases comes with
      | here => exact .inl ended
      | inside enters row comes =>
        exact .inr ⟨_, enters, (runAll_ends_iff odd _ file _ _).mpr
          ⟨_, _, row, (ih _ _).mpr ⟨s, x, comes, ended⟩⟩⟩

/-- A body does not end normally exactly if it comes to a command that ends so, and then it ends in
the world that this command leaves. -/
theorem runBody_ends_iff {o : Outcome} (odd : o ≠ .done) (rounds n : Nat) (file : Text)
    (r : Ref .node) (w later : World) :
    (runBody (.ofRoom rounds n) r file).exec w = (.ok o, later) ↔
      ∃ q u s v, Row (.ofRoom rounds n) file (w.store.node r).children w q u ∧
      Comes rounds file n q u s v ∧
        s.EndsItself o v later := by
  refine (runAll_ends_iff odd _ file _ w).trans ⟨?_, ?_⟩
  · rintro ⟨q, u, row, ended⟩
    obtain ⟨s, v, comes, ended⟩ := (run_ends_iff odd rounds n file q u later).mp ended
    exact ⟨q, u, s, v, row, comes, ended⟩
  · rintro ⟨q, u, s, v, row, comes, ended⟩
    exact ⟨q, u, row, (run_ends_iff odd rounds n file q u later).mpr ⟨s, v, comes, ended⟩⟩

end CommandScript
