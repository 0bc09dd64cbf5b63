import CommandScript.Proofs.Changes
import CommandScript.Proofs.Sequencing
import CommandScript.Proofs.Unwinding

/-! Loops written out. A loop that counts does what its body does, written out so many times in a
row, whatever the body does to the variables that the count was made of: the count is taken once,
and the statements of the body never change. A loop with a test that ends normally has run its body
once for every time that the test held, and leaves the test failing. -/
namespace CommandScript

/-! ### Conditions and counts -/

def World.Heard (w v : World) : Prop := v = { w with input := v.input }

private theorem World.mild_heard : Run.Mild World.Heard where
  refl _ := rfl
  trans {w v u} first second := by
    rw [Heard, first] at second
    exact second
  store {w v} heard := by rw [heard]

private theorem Comparison.infix_of_mem_operands {c : Comparison} {text part : Text}
    (member : part ∈ c.operands text) : part <:+: text := by
  obtain ⟨found, whole⟩ := Text.infix_of_mem_splitOn member
  have nonempty : c.sign ≠ [] := by cases c <;> decide
  exact Text.infix_of_infix_replace nonempty whole found

section Bare

variable {R : World → World → Prop} (mild : Run.Mild R) {text : Text} (bare : ')' ∉ text)
  (listens : Literal.inputWord <:+: text → ∀ w input, R w { w with input }) (rounds n : Nat)
  (scope : Ref .scope) (st : Store)
include mild bare listens

/-- What stands in a text without parentheses is evaluated without calls. -/
theorem Evaluator.stays_of_infix {part : Text} (inside : part <:+: text) :
    (ofRoom rounds n).Stays R st part :=
  ofRoom_stays rounds n mild (fun reads => listens (reads.isInfix.trans inside))
    (.of_not_mem (fun member => bare (inside.subset member)) st)

private theorem condition_stays_of_bare : (condition (.ofRoom rounds n) scope text).Stays R st := by
  have each : ∀ {part : Text}, part <:+: text → (Evaluator.ofRoom rounds n).Stays R st part :=
    Evaluator.stays_of_infix mild bare listens rounds n st
  refine condition_stays mild ?_ ?_
  · intro c i o found _ there
    exact (each (Comparison.infix_of_mem_operands (List.mem_of_getElem? there))).valueOf
      scope o .self
  · intro _ p listed home
    have inside := (Text.infix_of_mem_splitOn listed).1
    exact evaluate_stays mild (fun reads => listens (reads.isInfix.trans inside))
      (each inside) .self

end Bare

/-- The words of a command that opens a block have no parentheses. -/
theorem Command.bare_of_mem {text word : Text} (member : word ∈ (Command.of text).bare) :
    ')' ∉ word := by
  intro inside
  have there := (Text.infix_of_mem_splitOn member).1.subset inside
  simp at there

namespace Site

variable {rounds n : Nat} {st now : Store} {r : Ref .node} {file text : Text}

private theorem test_stays {R : World → World → Prop} (mild : Run.Mild R)
    (listens : ∀ text, (Command.of (st.node r).command).bare[1]? = some text →
      Literal.inputWord <:+: text → ∀ w input, R w { w with input }) :
    (Site.ofNode (.ofRoom rounds n) st r file).test.Stays R now := by
  refine .nth_bind mild fun text there => ?_
  have bare := Command.bare_of_mem (List.mem_of_getElem? there)
  exact .before mild (condition_stays_of_bare mild bare (listens text there) rounds n _ now)
    fun v =>
    Run.Looks.getStore.bind fun _ => .pure _

/-- To count takes no more than lines of input. -/
theorem heard_of_count {w u : World} {v : Value}
    (there : (Command.of (st.node r).command).bare[1]? = some text)
    (counted : ((Site.ofNode (.ofRoom rounds n) st r file).valueOf text).exec w = (.ok v, u)) :
    w.Heard u := by
  have bare := Command.bare_of_mem (List.mem_of_getElem? there)
  have stays := Evaluator.stays_of_infix World.mild_heard bare (fun _ _ _ => rfl) rounds n w.store
    (List.infix_refl text)
  have heard := stays.valueOf (st.node r).scope text .self w rfl
  change w.Heard (((Site.ofNode (.ofRoom rounds n) st r file).valueOf text).exec w).2 at heard
  rwa [counted] at heard

end Site

/-! ### Loops that count -/

/-- A body finds the statements that it began with again when it ends normally. -/
theorem runBody_children {rounds n : Nat} {file : Text} {r : Ref .node} {w later : World}
    (done : (runBody (.ofRoom rounds n) r file).exec w = (.ok .done, later)) :
    (later.store.node r).children = (w.store.node r).children := by
  by_cases held : w.store.nodes.Holds r
  · have becomes := runBody_works (Evaluator.ofRoom_works rounds n) r file w
    rw [done] at becomes
    exact congrArg Node.children (becomes.nodes r held).2
  · -- A statement that was never made has no body, and then nothing runs.
    have missing : w.store.node r = default := dif_neg held
    have empty : (w.store.node r).children = [] := by
      rw [missing]
      rfl
    change (runAll _ file (w.store.node r).children).exec w = _ at done
    rw [empty] at done
    cases done
    rfl

private theorem loopTimes_exec (rounds n : Nat) (file : Text) (r : Ref .node) (times : Nat)
    (w : World) :
    (loopTimes (runBody (.ofRoom rounds n) r file) times).exec w =
      (runAll (.ofRoom rounds n) file (List.replicate times (w.store.node r).children).flatten).exec
        w := by
  induction times generalizing w with
  | zero => rfl
  | succ times ih =>
    rw [loopTimes, List.replicate_succ, List.flatten_cons, runAll_append, Run.exec_bind,
      Run.exec_bind]
    have opened : (runBody (.ofRoom rounds n) r file).exec w =
      (runAll (.ofRoom rounds n) file (w.store.node r).children).exec w := rfl
    rw [opened]
    rcases ran : (runAll (.ofRoom rounds n) file (w.store.node r).children).exec w
      with ⟨fault | outcome, middle⟩
    · rfl
    · cases outcome with
      | done =>
        have again := ih middle
        rw [runBody_children (opened.trans ran)] at again
        exact again
      | failed | stopped => rfl

/-! ### Loops with a test -/

/-- So many times a test holds and a body then ends normally. -/
inductive Turns (test : Run Bool) (body : Run Outcome) : Nat → World → World → Prop where
  | none (w : World) : Turns test body 0 w w
  | turn {k : Nat} {w v u x : World} (holds : test.exec w = (.ok true, v))
      (done : body.exec v = (.ok .done, u))
      (next : Turns test body k u x) : Turns test body (k + 1) w x

private theorem loopWhile_done_iff (test : Run Bool) (body : Run Outcome) (rounds : Nat)
    (w later : World) :
    (loopWhile test body rounds).exec w = (.ok .done, later) ↔
      ∃ k < rounds, ∃ v, Turns test body k w v ∧ test.exec v = (.ok false, later) := by
  induction rounds generalizing w with
  | zero =>
    constructor
    · intro ok
      cases ok
    · rintro ⟨k, below, _⟩
      exact absurd below (Nat.not_lt_zero k)
  | succ rounds ih =>
    constructor
    · intro ok
      obtain ⟨holds, v, tested, rest⟩ := Run.exec_bind_inv w ok
      cases holds with
      | false =>
        cases rest
        exact ⟨0, Nat.succ_pos rounds, w, .none w, tested⟩
      | true =>
        obtain ⟨outcome, u, ran, next⟩ := Run.exec_bind_inv v rest
        cases outcome with
        | done =>
          obtain ⟨k, below, x, turns, failed⟩ := (ih u).mp next
          exact ⟨k + 1, Nat.succ_lt_succ below, x, .turn tested ran turns, failed⟩
        | failed | stopped => cases next
    · rintro ⟨k, below, x, turns, failed⟩
      cases turns with
      | none =>
        rw [loopWhile, Run.exec_bind_ok w failed]
        rfl
      | turn tested done turns =>
        rw [loopWhile, Run.exec_bind_ok w tested, if_pos rfl, Run.exec_bind_ok _ done]
        exact (ih _).mpr ⟨_, Nat.lt_of_succ_lt_succ below, x, turns, failed⟩

/-- A loop that counts: once the count is taken, with no change but to the input, the loop does what
its statements do, written out so many times, faults included. A loop with a test that ends
normally: the test held as often as the body ended normally, and then failed. If that last test read
no input, as is sure if its text does not have the word for it, the loop leaves the world in which
the test failed, and there it fails again. -/
theorem loops_written_out (rounds n : Nat) (file : Text) (r : Ref .node) (w : World) :
    let ev := Evaluator.ofRoom rounds n
    let s := Site.ofNode ev w.store r file
    (∀ text v u count, s.command.verb? = some .repeatTimes → s.command.bare[1]? = some text →
      (s.valueOf text).exec w = (.ok v, u) → v.toInt = .ok count →
      w.Heard u ∧ (runStep ev r file).exec w =
        (runAll ev file (List.replicate count.toNat (w.store.node r).children).flatten).exec u) ∧
    ∀ later, s.command.verb? = some .whileTrue → (runStep ev r file).exec w = (.ok .done, later) →
      ∃ k v, Turns s.test s.body k w v ∧ s.test.exec v = (.ok false, later) ∧ v.Heard later ∧
        ((∀ text, s.command.bare[1]? = some text → ¬ Literal.inputWord <:+: text) →
          later.input = v.input) ∧
        (later.input = v.input → later = v ∧ s.test.exec later = (.ok false, later)) := by
  intro ev s
  refine ⟨?_, ?_⟩
  · intro text v u count verb there counted number
    have heard : w.Heard u := Site.heard_of_count there counted
    have named : (Run.nth s.command.bare 1).exec w = (.ok text, w) := by simp [Run.nth, there]
    have whole : (Run.ofExcept v.toInt).exec u = (.ok count, u) := by rw [number]; rfl
    refine ⟨heard, ?_⟩
    rw [runStep_verb verb, Site.runVerb, Site.repeatTimes, Run.exec_bind_ok w named,
      Run.exec_bind_ok w counted, Run.exec_bind_ok u whole, ← World.mild_heard.store heard]
    exact loopTimes_exec rounds n file r count.toNat u
  · intro later verb done
    rw [runStep_verb verb] at done
    obtain ⟨k, _, v, turns, failed⟩ := (loopWhile_done_iff s.test s.body ev.rounds w later).mp done
    have heard : v.Heard (s.test.exec v).2 :=
      Site.test_stays World.mild_heard (fun _ _ _ _ _ => rfl) v rfl
    rw [failed] at heard
    refine ⟨k, v, turns, failed, heard, ?_, ?_⟩
    · intro unread
      have still : (s.test.exec v).2 = v :=
        Site.test_stays Run.mild_eq (fun text there reads => absurd reads (unread text there)) v rfl
      rw [failed] at still
      exact congrArg World.input still
    · intro same
      have still : later = v := by
        rw [World.Heard, same] at heard
        exact heard
      exact ⟨still, still ▸ failed⟩

def World.countdown : World where
  store :=
    { Store.single (.int 1) .int with
      nodes := ⟨#[
        { command := "sub x x 1".toList, index := 0, children := [], scope := ⟨0⟩,
          interactive := false },
        { command := "repeat 2".toList, index := 1, children := [⟨0⟩], scope := ⟨0⟩,
          interactive := false },
        { command := "while x".toList, index := 2, children := [⟨0⟩], scope := ⟨0⟩,
          interactive := false }]⟩ }

theorem loops_written_out_countdown :
    let ev := Evaluator.ofRoom 2 3
    (runStep ev ⟨1⟩ []).exec .countdown = (runAll ev [] [⟨0⟩, ⟨0⟩]).exec .countdown ∧
      ∃ k later, (runStep ev ⟨2⟩ []).exec .countdown = (.ok .done, later) ∧
        Turns (Site.ofNode ev World.countdown.store ⟨2⟩ []).test
          (Site.ofNode ev World.countdown.store ⟨2⟩ []).body k .countdown later ∧
        (Site.ofNode ev World.countdown.store ⟨2⟩ []).test.exec later = (.ok false, later) := by
  intro ev
  let ran := (runStep ev ⟨2⟩ []).exec .countdown
  have status : ran.1.map Outcome.status = .ok 1 := by decide +kernel
  have done : ran = (.ok .done, ran.2) := by
    rcases known : ran with ⟨fault | ⟨⟩ | ⟨⟩ | value, later⟩
    · simp [known, Except.map] at status
    · simp [known, Except.map, Outcome.status] at status
    · rfl
    · simp [known, Except.map, Outcome.status] at status
  have counted := (loops_written_out 2 3 [] ⟨1⟩ .countdown).1 ['2'] (.int 2) .countdown 2
    (by decide) (by decide) rfl rfl
  obtain ⟨k, v, turns, failed, _, silent, again⟩ :=
    (loops_written_out 2 3 [] ⟨2⟩ .countdown).2 ran.2 (by decide) done
  obtain ⟨same, failed⟩ := again (silent fun text there => by cases there; decide)
  rw [← same] at turns
  exact ⟨counted.2, k, ran.2, done, turns, failed⟩

end CommandScript
