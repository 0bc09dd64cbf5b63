import CommandScript.Proofs.MachineSteps

/-! What lies below the stack that a program works on. A command other than those that turn the
whole stack over or clear it reaches only as far down as it takes values off. A run that never finds
its stack empty does the same on top of any other stack, and leaves that stack as it was. -/
namespace CommandScript.StackMachine

/-- A command that works on the top of the stack only: it neither turns the stack over nor clears
it. -/
def Instr.IsLocal (i : Instr) : Prop := i ≠ .reverse ∧ i ≠ .clear

/-! ### Results that carry over -/

/-- A result carries over to a changed state unless it is that a value was taken from an empty
stack. -/
def Lifts {α : Type} (lift : α → α) (x y : Except Fault α) : Prop :=
  x ≠ .error .emptyStack → y = x.map lift

namespace Lifts

variable {α β : Type} {lift : α → α} {last : β → β} {x y : Except Fault α}

theorem ok (a : α) : Lifts lift (.ok a) (.ok (lift a)) := fun _ => rfl

theorem error (e : Fault) : Lifts lift (.error e) (.error e) := fun _ => rfl

private theorem of_ok {a : α} (lifts : Lifts lift (.ok a) y) : y = .ok (lift a) := lifts (by simp)

private theorem of_error {e : Fault} (lifts : Lifts lift (.error e) y) (full : e ≠ .emptyStack) :
    y = .error e :=
  lifts fun same => full (Except.error.inj same)

theorem bind {f g : α → Except Fault β} (first : Lifts lift x y)
    (next : ∀ a, Lifts last (f a) (g (lift a))) : Lifts last (x >>= f) (y >>= g) := by
  intro full
  cases x with
  | error e =>
    rw [first.of_error fun same => full (congrArg _ same)]
    rfl
  | ok a =>
    rw [first.of_ok]
    exact next a full

/-- A result that does not depend on the state. -/
theorem same_bind {f g : α → Except Fault β} (x : Except Fault α)
    (next : ∀ a, Lifts last (f a) (g a)) : Lifts last (x >>= f) (x >>= g) := by
  cases x with
  | error e => exact error e
  | ok a => exact next a

end Lifts

namespace Machine

def above (m : Machine) (base : List Operand) : Machine := { m with stack := m.stack ++ base }

variable {code : List Instr} {m n : Machine} (base : List Operand)

@[simp] theorem above_index : (m.above base).index = m.index := rfl

@[simp] theorem above_mode : (m.above base).mode = m.mode := rfl

@[simp] theorem above_memory : (m.above base).memory = m.memory := rfl

@[simp] theorem above_functions : (m.above base).functions = m.functions := rfl

@[simp] theorem above_isDone : (m.above base).isDone code = m.isDone code := rfl

def liftSecond {α : Type} (result : α × Machine) : α × Machine := (result.1, result.2.above base)

/-! ### Commands -/

private theorem pop_above : Lifts (liftSecond base) m.pop (m.above base).pop := by
  unfold pop above
  cases m.stack with
  | nil => exact fun full => absurd rfl full
  | cons top rest => exact @Lifts.ok _ (liftSecond base) (top, { m with stack := rest })

private theorem popInt_above : Lifts (liftSecond base) m.popInt (m.above base).popInt :=
  (pop_above base).bind fun popped => .same_bind popped.1.toInt fun a => .ok (a, popped.2)

private theorem popText_above : Lifts (liftSecond base) m.popText (m.above base).popText :=
  (pop_above base).bind fun popped => .same_bind popped.1.shown fun s => .ok (s, popped.2)

private theorem decideTest_above (test : Test) :
    Lifts (liftSecond base) (m.decideTest test) ((m.above base).decideTest test) := by
  cases test with
  | equal =>
    exact (popText_above base).bind fun a => (popText_above base).bind fun b =>
      .ok (decide (a.1 = b.1), b.2)
  | less =>
    exact (popInt_above base).bind fun a => (popInt_above base).bind fun b =>
      .ok (decide (a.1 < b.1), b.2)
  | larger =>
    exact (popInt_above base).bind fun a => (popInt_above base).bind fun b =>
      .ok (decide (b.1 < a.1), b.2)

private theorem readLine_above : Lifts (liftSecond base) m.readLine (m.above base).readLine := by
  unfold readLine above
  dsimp only
  split
  · exact @Lifts.ok _ (liftSecond base) _
  · exact .error _

private theorem goTo_above (target : Option Text) :
    Lifts (above · base) (m.goTo target) ((m.above base).goTo target) :=
  .same_bind (needed target) fun word => .same_bind (Operand.text word).toInt fun place =>
    .ok { m with index := place - 2 }

private theorem carryOut_above {i : Instr} (isLocal : i.IsLocal) :
    Lifts (above · base) (m.carryOut i) ((m.above base).carryOut i) := by
  cases i with
  | push s => exact .ok (m.push (.text s))
  | compute op =>
    refine (popInt_above base).bind fun a => (popInt_above base).bind fun b => ?_
    exact .same_bind (Operation.apply a.1 b.1 op) fun o => .ok (b.2.push o)
  | duplicate => exact (pop_above base).bind fun a => .ok ((a.2.push a.1).push a.1)
  | reverse => exact absurd rfl isLocal.1
  | clear => exact absurd rfl isLocal.2
  | swap =>
    exact (pop_above base).bind fun a => (pop_above base).bind fun b =>
      .ok ((b.2.push a.1).push b.1)
  | stackOther hasWord | memoryOther hasWord =>
    cases hasWord with
    | true => exact .ok m
    | false => exact .error _
  | out => exact (popText_above base).bind fun s => .ok (s.2.print s.1)
  | putchar =>
    exact (popInt_above base).bind fun a => .same_bind (Number.toChar a.1) fun c =>
      .ok (a.2.print [c])
  | readLine => exact (readLine_above base).bind fun line => .ok (line.2.push (.text line.1))
  | save name =>
    refine (pop_above base).bind fun a => .same_bind (needed name) fun word => ?_
    exact .ok { a.2 with memory := setName word a.1 a.2.memory }
  | load name =>
    refine .same_bind (needed name) fun word => ?_
    rw [above_memory]
    cases m.memory.lookup word with
    | some a => exact .ok (m.push a)
    | none => exact .ok m
  | jump target => exact goTo_above base target
  | jumpIf test target =>
    refine (decideTest_above base test).bind fun decided => ?_
    obtain ⟨holds, tested⟩ := decided
    cases holds with
    | true => exact goTo_above base target
    | false => exact .ok tested
  | endFunction => exact .ok { m with mode := .main }
  | call name =>
    refine .same_bind (needed name) fun word => ?_
    rw [above_functions]
    cases m.functions.lookup word with
    | some start => exact .ok { m with index := start, mode := .calling }
    | none => exact .error _
  | function name =>
    refine .same_bind (needed name) fun word => ?_
    exact .ok { m with functions := setName word m.index m.functions, mode := .defining }
  | skip => exact .ok m

/-! ### Steps and runs -/

private theorem obey_above {i : Instr} (isLocal : i.IsLocal) :
    Lifts (above · base) (m.obey i) ((m.above base).obey i) := by
  by_cases defining : m.mode = .defining
  · by_cases ends : i = .endFunction
    · subst ends
      simp only [obey, above_mode, defining]
      exact .ok { m with mode := .main }
    · rw [obey_defining defining ends, obey_defining (m := m.above base) defining ends]
      exact .ok m
  · rw [obey_active defining, obey_active (m := m.above base) defining]
    exact carryOut_above base isLocal

private theorem ready_above : (m.above base).ready = m.ready.above base := by
  unfold ready
  rw [above_mode]
  split <;> rfl

private theorem advance_above (before after : Machine) :
    (before.above base).advance (after.above base) = (before.advance after).above base := by
  unfold advance
  rw [above_mode, above_mode]
  split <;> rfl

theorem mem_of_fetch {i : Instr} {index : Int} (fetched : fetch code index = .ok i) : i ∈ code := by
  unfold fetch at fetched
  split at fetched
  · next found =>
    cases fetched
    obtain ⟨place, _, there⟩ := Option.bind_eq_some_iff.mp found
    exact List.mem_of_getElem? there
  · cases fetched

section Local

variable (isLocal : ∀ i ∈ code, i.IsLocal)
include isLocal

private theorem perform_above :
    Lifts (above · base) (m.perform code) ((m.above base).perform code) := by
  rw [perform_eq, perform_eq, above_index, ready_above]
  cases fetched : fetch code m.index with
  | error e => exact .error e
  | ok i => exact obey_above base (isLocal i (mem_of_fetch fetched))

private theorem step_above : Lifts (above · base) (m.step code) ((m.above base).step code) := by
  refine (perform_above base isLocal).bind fun after => ?_
  rw [advance_above]
  exact .ok (m.advance after)

/-- What a run does, it does above any stack, unless it takes a value from the empty stack. -/
theorem run_above (bound : Nat) (full : (run code bound m).1 ≠ .error .emptyStack) :
    run code bound (m.above base) = ((run code bound m).1, (run code bound m).2.above base) := by
  induction bound generalizing m with
  | zero =>
    rw [run, run, above_isDone]
    split <;> rfl
  | succ bound ih =>
    rw [run] at full ⊢
    rw [run, above_isDone]
    by_cases done : m.isDone code = true
    · rw [if_pos done, if_pos done]
    · rw [if_neg done] at full
      rw [if_neg done, if_neg done]
      have lifted := step_above (m := m) base isLocal
      cases stepped : m.step code with
      | error e =>
        simp only [stepped] at full lifted ⊢
        rw [lifted.of_error fun same => full (congrArg _ same)]
      | ok next =>
        simp only [stepped] at full lifted ⊢
        rw [lifted.of_ok]
        exact ih full

/-- The steps are the same ones, each above the stack. -/
theorem trace_above (bound : Nat) (full : (run code bound m).1 ≠ .error .emptyStack) :
    trace code bound (m.above base) = (trace code bound m).map fun visit =>
      (visit.1, visit.2.above base) := by
  induction bound generalizing m with
  | zero => rfl
  | succ bound ih =>
    rw [run] at full
    rw [trace, trace, above_isDone]
    by_cases done : m.isDone code = true
    · rw [if_pos done, if_pos done]
      rfl
    · rw [if_neg done] at full
      rw [if_neg done, if_neg done]
      have lifted := perform_above (m := m) base isLocal
      cases performed : m.perform code with
      | error e =>
        have stepped : m.step code = .error e := by rw [step, performed]; rfl
        simp only [stepped] at full
        rw [performed] at lifted
        rw [lifted.of_error fun same => full (congrArg _ same)]
        rfl
      | ok after =>
        have stepped : m.step code = .ok (m.advance after) := by rw [step, performed]; rfl
        simp only [stepped] at full
        rw [performed] at lifted
        rw [lifted.of_ok]
        simp only [List.map_cons, advance_above]
        rw [ih full, above_index]

theorem Steps.above {p : Instr → Prop} {k : Nat} (steps : Steps code p k m n) :
    Steps code p k (m.above base) (n.above base) := by
  induction steps with
  | zero m => exact .zero _
  | @succ _ m _ _ _ fetched allowed stepped _ ih =>
    have lifted := step_above (m := m) base isLocal
    rw [stepped] at lifted
    exact .succ fetched allowed lifted.of_ok ih

end Local

private theorem Steps.length_trace {p : Instr → Prop} {k : Nat} (steps : Steps code p k m n) :
    (trace code k m).length = k := by
  induction steps with
  | zero => rfl
  | succ fetched _ stepped _ ih =>
    obtain ⟨after, performed, same⟩ := exists_of_bind_ok stepped
    cases same
    rw [trace, not_isDone_of_fetch fetched, performed]
    simpa using ih

private theorem run_of_steps {p : Instr → Prop} {k : Nat} (steps : Steps code p k m n) :
    (run code k m).1 ≠ .error .emptyStack := by
  have ran := steps.run 0
  rw [Nat.add_zero] at ran
  rw [ran, run]
  split <;> simp

/-- No command of a program turns the stack over or clears it. So many steps of the machine, from
whatever state it is in, are then also made with any other stack below its own: the machine comes to
the same positions in the same modes, with the same memory, functions and printed text, and its
stack is what it would have been, above the other one. The same holds of a run that ends with a
fault, unless a value was taken from the empty stack. -/
theorem runs_above_any_stack (code : List Instr) (isLocal : ∀ i ∈ code, i.IsLocal) (m : Machine)
    (base : List Operand) :
    (∀ k n, Steps code (fun _ => True) k m n →
      Steps code (fun _ => True) k { m with stack := m.stack ++ base }
        { n with stack := n.stack ++ base } ∧
      (trace code k m).length = k ∧
      trace code k { m with stack := m.stack ++ base } =
        (trace code k m).map fun visit =>
          (visit.1, { visit.2 with stack := visit.2.stack ++ base })) ∧
    ∀ bound, (run code bound m).1 ≠ .error .emptyStack →
      run code bound { m with stack := m.stack ++ base } =
        ((run code bound m).1,
          { (run code bound m).2 with stack := (run code bound m).2.stack ++ base }) := by
  refine ⟨fun k n steps => ⟨?_, ?_, ?_⟩, fun bound full => ?_⟩
  · exact steps.above base isLocal
  · exact steps.length_trace
  · exact trace_above base isLocal k (run_of_steps steps)
  · exact run_above base isLocal bound full

def comparing : List Instr :=
  [.push ['a'], .push ['a'], .jumpIf .equal (some ['5']), .skip, .push ['b'], .stackOther true,
    .push ['c'], .out]

theorem runs_above_any_stack_comparing :
    Steps comparing (fun _ => True) 7 {}
      { index := 8, mainIndex := 7, stack := [.text ['b']], printed := [['c']] } ∧
      Steps comparing (fun _ => True) 7 { stack := [.int 1] }
        { index := 8, mainIndex := 7, stack := [.text ['b'], .int 1], printed := [['c']] } := by
  have steps : Steps comparing (fun _ => True) 7 {}
      { index := 8, mainIndex := 7, stack := [.text ['b']], printed := [['c']] } :=
    .succ rfl trivial rfl (.succ rfl trivial rfl
      (.succ rfl trivial rfl (.succ rfl trivial rfl (.succ rfl trivial rfl
        (.succ rfl trivial rfl (.succ rfl trivial rfl (.zero _)))))))
  obtain ⟨above, _⟩ :=
    runs_above_any_stack comparing (by simp [comparing, Instr.IsLocal]) {} [.int 1]
  exact ⟨steps, (above 7 _ steps).1⟩

end Machine

end CommandScript.StackMachine
