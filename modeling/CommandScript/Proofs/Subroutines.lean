import CommandScript.Proofs.MachineSteps

/-! Functions of the stack machine. A definition is passed over up to its end. A call from the main
code comes back to the command after it, however the function jumps about. There is one way back
only: a call inside of a function does not come back to that function, but to the main code. -/
namespace CommandScript.StackMachine

private theorem lookup_setName_here {α : Type} (name : Text) (a : α) (row : List (Text × α)) :
    (setName name a row).lookup name = some a := by
  induction row with
  | nil => simp [setName]
  | cons entry rest ih =>
    obtain ⟨key, old⟩ := entry
    by_cases same : key = name
    · simp [setName, same]
    · simp [setName, same, List.lookup_cons, beq_false_of_ne (Ne.symm same), ih]

private theorem lookup_setName_other {α : Type} {name other : Text} (apart : other ≠ name) (a : α)
    (row : List (Text × α)) : (setName name a row).lookup other = row.lookup other := by
  induction row with
  | nil => simp [setName, List.lookup_cons, beq_false_of_ne apart]
  | cons entry rest ih =>
    obtain ⟨key, old⟩ := entry
    by_cases same : key = name
    · simp [setName, same, List.lookup_cons, beq_false_of_ne apart]
    · simp [setName, same, List.lookup_cons, ih]

namespace Machine

variable {code : List Instr} {m n : Machine}

/-! ### Definitions -/

/-- Commands of a definition are passed over. -/
theorem steps_defining (defining : m.mode = .defining) (k : Nat)
    (body : ∀ j, m.index ≤ j → j < m.index + k → ∃ i, fetch code j = .ok i ∧ i ≠ .endFunction) :
    Steps code (· ≠ .endFunction) k m { m with index := m.index + k } := by
  induction k generalizing m with
  | zero =>
    have same : { m with index := m.index + (0 : Nat) } = m := by simp
    rw [same]
    exact .zero m
  | succ k ih =>
    obtain ⟨i, fetched, other⟩ := body m.index (Int.le_refl _) (by omega)
    let next : Machine := { m with index := m.index + 1 }
    have first : m.step code = .ok next := (Moves.pass defining fetched other).step
    have rest : Steps code (· ≠ .endFunction) k next { next with index := next.index + k } := by
      have mode : next.mode = .defining := defining
      apply ih mode
      intro j low high
      apply body j
      · exact Int.le_of_lt low
      · simp only [next] at high
        omega
    have place : next.index + k = m.index + (k + 1 : Nat) := by
      simp only [next]
      omega
    rw [place] at rest
    exact .succ fetched other first rest

def defining (m : Machine) (f : Text) : Machine :=
  { m with
    index := m.index + 1, mode := .defining, mainIndex := m.index
    functions := setName f m.index m.functions }

private theorem step_define {f : Text} (main : m.mode = .main)
    (fetched : fetch code m.index = .ok (.function (some f))) :
    m.step code = .ok (m.defining f) := by
  have active : m.mode ≠ .defining := by simp [main]
  have moves := Moves.define active fetched
  rw [ready_main main] at moves
  exact moves.step

section Definition

variable {f : Text} (main : m.mode = .main)
  (fetched : fetch code m.index = .ok (.function (some f)))
include main fetched

/-- The definition is passed over up to a position before which it does not end. -/
theorem run_definition {e : Int} (ahead : m.index < e) (inside : e ≤ code.length)
    (open_ : ∀ j, m.index < j → j < e → fetch code j ≠ .ok .endFunction) (bound : Nat) :
    run code ((e - m.index).toNat + bound) m = run code bound { m.defining f with index := e } := by
  have low := (fetch_bounds fetched).1
  obtain ⟨k, distance⟩ : ∃ k : Nat, e = m.index + 1 + k := ⟨(e - m.index - 1).toNat, by omega⟩
  have steps : Steps code (· ≠ .endFunction) k (m.defining f) { m.defining f with index := e } := by
    rw [distance]
    apply steps_defining rfl
    intro j from_ below
    simp only [defining] at from_ below
    obtain ⟨i, here⟩ : ∃ i, fetch code j = .ok i := exists_fetch (by omega) (by omega)
    refine ⟨i, here, ?_⟩
    rintro rfl
    exact open_ j (by omega) (by omega) here
  have count : (e - m.index).toNat + bound = (k + bound) + 1 := by omega
  rw [count, run_step fetched (step_define main fetched), steps.run]

private theorem run_definition_end {e : Int} (ahead : m.index < e)
    (ends : fetch code e = .ok .endFunction)
    (first : ∀ j, m.index < j → j < e → fetch code j ≠ .ok .endFunction) (bound : Nat) :
    run code ((e - m.index).toNat + 1 + bound) m =
      run code bound { m.defining f with index := e + 1, mode := .main } := by
  let last : Machine := { m.defining f with index := e }
  have fetchedEnd : fetch code last.index = .ok .endFunction := ends
  have stepped : last.step code = .ok { last with index := last.index + 1, mode := .main } :=
    (Moves.endDefinition rfl ends).step
  rw [Nat.add_assoc, run_definition main fetched ahead (Int.le_of_lt (fetch_bounds ends).2) first,
    Nat.add_comm, run_step fetchedEnd stepped]

private theorem run_definition_open (open_ : ∀ j, m.index < j → fetch code j ≠ .ok .endFunction)
    (bound : Nat) :
    run code ((code.length - m.index).toNat + bound) m =
      (.ok (), { m.defining f with index := code.length }) := by
  rw [run_definition main fetched (fetch_bounds fetched).2 (Int.le_refl _) fun j low _ =>
    open_ j low]
  cases bound <;> simp [run, isDone]

end Definition

/-! ### Calls -/

def calling (m : Machine) (start : Int) : Machine :=
  { m with index := start + 1, mode := .calling, mainIndex := m.index }

private theorem step_call {f : Text} {start : Int} (main : m.mode = .main)
    (fetched : fetch code m.index = .ok (.call (some f)))
    (known : m.functions.lookup f = some start) : m.step code = .ok (m.calling start) := by
  have active : m.mode ≠ .defining := by simp [main]
  have moves := Moves.call active fetched known
  rw [ready_main main] at moves
  exact moves.step

private theorem step_call_inv {f : Text} (active : m.mode ≠ .defining)
    (fetched : fetch code m.index = .ok (.call (some f))) (stepped : m.step code = .ok n) :
    ∃ start, n = { m.ready with index := start + 1, mode := .calling } := by
  cases exists_moves stepped with
  | @call g start _ again => exact ⟨start, rfl⟩
  | plain _ again plain =>
    rw [fetched] at again
    obtain rfl := Except.ok.inj again
    exact plain.elim
  | define _ again | endMain _ again | goBack _ again =>
    rw [fetched] at again
    cases again
  | endDefinition defining | pass defining => exact absurd defining active

/-- A step from a function into a function keeps the way back. -/
theorem mainIndex_calling (before : m.mode = .calling) (stepped : m.step code = .ok n)
    (after : n.mode = .calling) : n.mainIndex = m.mainIndex := by
  have same : m.ready = m := ready_other (by simp [before])
  cases exists_moves stepped with
  | plain active fetched plain done =>
    rw [same] at done
    exact (carryOut_plain plain done).2.1
  | call active fetched known => rw [same]
  | define | goBack | endDefinition => cases after
  | endMain main | pass defining => simp_all

private theorem mode_plain {i : Instr} (before : m.mode = .calling)
    (fetched : fetch code m.index = .ok i) (plain : i.IsPlain) (stepped : m.step code = .ok n) :
    n.mode = .calling := by
  have same : m.ready = m := ready_other (by simp [before])
  cases exists_moves stepped with
  | plain active again plain' done =>
    rw [same] at done
    exact (carryOut_plain plain' done).1.trans before
  | call => rfl
  | define _ again | goBack _ again =>
    rw [fetched] at again
    obtain rfl := Except.ok.inj again
    exact plain.elim
  | endMain main | endDefinition main | pass main => simp_all

theorem Steps.calling {k : Nat} (steps : Steps code Instr.IsPlain k m n)
    (before : m.mode = .calling) : n.mode = .calling ∧ n.mainIndex = m.mainIndex := by
  induction steps with
  | zero => exact ⟨before, rfl⟩
  | succ fetched plain stepped _ ih =>
    have mode := mode_plain before fetched plain stepped
    obtain ⟨last, back⟩ := ih mode
    exact ⟨last, back.trans (mainIndex_calling before stepped mode)⟩

private theorem step_goBack {back : Int} (before : m.mode = .calling) (way : m.mainIndex = back)
    (ends : fetch code m.index = .ok .endFunction) :
    m.step code = .ok { m with index := back + 1, mode := .main } := by
  rw [← way]
  exact (Moves.goBack before ends).step

/-- In the main code, the definition of a function is noted and passed over: the machine goes on
after the first end that follows, counting on from the position of the definition, or comes to the
end of the program if there is none. A call comes to the function, and if no other function is
called or defined there, whatever is jumped to, the first end that is carried out leads back to the
command after the call. -/
theorem definitions_pass_calls_return (code : List Instr) (m : Machine) (main : m.mode = .main) :
    (∀ f, fetch code m.index = .ok (.function (some f)) →
      ∃ functions, functions.lookup f = some m.index ∧
      (∀ g, g ≠ f → functions.lookup g = m.functions.lookup g) ∧
        (∀ e, m.index < e → fetch code e = .ok .endFunction →
          (∀ j, m.index < j → j < e → fetch code j ≠ .ok .endFunction) →
          ∃ k, ∀ bound, run code (k + bound) m =
            run code bound { m with index := e + 1, mainIndex := m.index, functions }) ∧
        ((∀ j, m.index < j → fetch code j ≠ .ok .endFunction) →
          ∃ k, ∀ bound, run code (k + bound) m =
            (.ok (), { m with
              index := code.length, mode := .defining, mainIndex := m.index, functions }))) ∧
    ∀ f start, fetch code m.index = .ok (.call (some f)) → m.functions.lookup f = some start →
      let entered := { m with index := start + 1, mode := .calling, mainIndex := m.index }
      m.step code = .ok entered ∧
      ∀ k last, Steps code Instr.IsPlain k entered last → fetch code last.index = .ok .endFunction →
        last.step code = .ok { last with index := m.index + 1, mode := .main } ∧
        ∀ bound, run code (k + 2 + bound) m =
          run code bound { last with index := m.index + 1, mode := .main } := by
  constructor
  · intro f fetched
    refine ⟨setName f m.index m.functions, lookup_setName_here f _ _,
      fun g other => lookup_setName_other other _ _, ?_, ?_⟩
    · intro e ahead ends first
      have passed := run_definition_end main fetched ahead ends first
      rw [defining, ← main] at passed
      exact ⟨_, passed⟩
    · intro open_
      exact ⟨_, run_definition_open main fetched open_⟩
  · intro f start fetched known entered
    have called : m.step code = .ok entered := step_call main fetched known
    refine ⟨called, ?_⟩
    intro k last steps ends
    obtain ⟨mode, back⟩ := steps.calling rfl
    have returned := step_goBack mode back ends
    refine ⟨returned, ?_⟩
    intro bound
    have count : k + 2 + bound = (k + (bound + 1)) + 1 := by omega
    rw [count, run_step fetched called, steps.run, run_step ends returned]

def printing : List Instr :=
  [.function (some ['f']), .out, .endFunction, .push ['1'], .call (some ['f']), .skip]

example : program "fun f;out;endfun;add 1;run f;".toList = printing := by decide +kernel

def beforePrinting : Machine :=
  { index := 4, mainIndex := 3, stack := [.text ['1']], functions := [(['f'], 0)] }

theorem definitions_pass_calls_return_printing :
    (∃ k functions, ∀ bound, run printing (k + bound) {} =
      run printing bound { index := 3, functions }) ∧
      ∀ bound, run printing (3 + bound) beforePrinting =
        run printing bound
          { beforePrinting with index := 5, mainIndex := 4, stack := [], printed := [['1']] } := by
  obtain ⟨definition, _⟩ := definitions_pass_calls_return printing {} rfl
  obtain ⟨functions, _, _, passed, _⟩ := definition ['f'] rfl
  obtain ⟨k, passed⟩ := passed 2 (by decide) rfl (by
    intro j low high
    obtain rfl : j = 1 := by
      simp only at low
      omega
    simp [fetch, Index.position?, printing])
  obtain ⟨_, call⟩ := definitions_pass_calls_return printing beforePrinting rfl
  obtain ⟨_, returns⟩ := call ['f'] 0 rfl rfl
  obtain ⟨_, ran⟩ := returns 1 _ (.succ rfl trivial rfl (.zero _)) rfl
  exact ⟨⟨k, functions, passed⟩, ran⟩

/-! ### Calls inside of functions -/

/-- The main code has called a function in a state, and functions have been run ever since. -/
inductive InCall (code : List Instr) (caller : Machine) : Machine → Prop where
  | entered {f : Text} {m : Machine} (main : caller.mode = .main)
      (fetched : fetch code caller.index = .ok (.call (some f)))
      (stepped : caller.step code = .ok m) : InCall code caller m
  | within {m n : Machine} (inCall : InCall code caller m) (stepped : m.step code = .ok n)
      (calling : n.mode = .calling) :
      InCall code caller n

theorem InCall.back {caller : Machine} (inCall : InCall code caller m) :
    m.mode = .calling ∧ m.mainIndex = caller.index := by
  induction inCall with
  | entered main fetched stepped =>
    obtain ⟨start, rfl⟩ := step_call_inv (by simp [main]) fetched stepped
    rw [ready_main main]
    exact ⟨rfl, rfl⟩
  | within _ stepped calling ih =>
    exact ⟨calling, (mainIndex_calling ih.1 stepped calling).trans ih.2⟩

/-- Functions are only run on behalf of the main code. -/
theorem Reached.inCall (reached : Reached code m) (calling : m.mode = .calling) :
    ∃ caller, Reached code caller ∧ InCall code caller m := by
  induction reached with
  | start input => cases calling
  | @step m n reached stepped ih =>
    cases mode : m.mode with
    | calling =>
      obtain ⟨caller, earlier, inCall⟩ := ih mode
      exact ⟨caller, earlier, .within inCall stepped calling⟩
    | main =>
      refine ⟨m, reached, ?_⟩
      cases exists_moves stepped with
      | call active fetched known => exact .entered mode fetched stepped
      | plain active fetched plain done =>
        have same := (carryOut_plain plain done).1
        simp_all
      | _ => simp_all
    | defining => cases exists_moves stepped <;> simp_all

theorem InCall.called {caller : Machine} (inCall : InCall code caller m) :
    caller.mode = .main ∧ ∃ f, fetch code caller.index = .ok (.call (some f)) := by
  induction inCall with
  | entered main fetched _ => exact ⟨main, _, fetched⟩
  | within _ _ _ ih => exact ih

/-- While functions are being run, another one is called. The machine goes on in that function; but
if no other function is called or defined there, whatever is jumped to, the first end that is
carried out leads to the main code, to the command after the call on behalf of which functions have
been run: the rest of the function in which the call stands is left out. -/
theorem nested_calls_return_to_main (code : List Instr) (m : Machine) (reached : Reached code m)
    (running : m.mode = .calling) (g : Text) (start : Int)
    (fetched : fetch code m.index = .ok (.call (some g)))
    (known : m.functions.lookup g = some start) :
    ∃ caller f, Reached code caller ∧ caller.mode = .main ∧
    fetch code caller.index = .ok (.call (some f)) ∧
      InCall code caller m ∧
      m.step code = .ok { m with index := start + 1 } ∧
      ∀ k last, Steps code Instr.IsPlain k { m with index := start + 1 } last →
        fetch code last.index = .ok .endFunction →
        last.step code = .ok { last with index := caller.index + 1, mode := .main } ∧
        ∀ bound, run code (k + 2 + bound) m =
          run code bound { last with index := caller.index + 1, mode := .main } := by
  obtain ⟨caller, earlier, inCall⟩ := reached.inCall running
  obtain ⟨main, f, call⟩ := inCall.called
  have active : m.mode ≠ .defining := by simp [running]
  have entered : m.step code = .ok { m with index := start + 1 } := by
    have moves := Moves.call active fetched known
    rw [ready_other (by simp [running]), ← running] at moves
    exact moves.step
  refine ⟨caller, f, earlier, main, call, inCall, entered, ?_⟩
  intro k last steps ends
  obtain ⟨mode, back⟩ := steps.calling running
  have returned := step_goBack mode (back.trans inCall.back.2) ends
  refine ⟨returned, ?_⟩
  intro bound
  have count : k + 2 + bound = (k + (bound + 1)) + 1 := by omega
  rw [count, run_step fetched entered, steps.run, run_step ends returned]

def nested : List Instr :=
  [.function (some ['g']), .push ['1'], .out, .endFunction,
    .function (some ['f']), .call (some ['g']), .push ['2'], .out, .endFunction, .call (some ['f']),
    .push ['3'], .out]

example : program "fun g;add 1;out;endfun;fun f;run g;add 2;out;endfun;run f;add 3;out".toList =
    nested := by decide +kernel

def beforeNested : Machine :=
  { index := 5, mode := .calling, mainIndex := 9, functions := [(['g'], 0), (['f'], 4)] }

private theorem reached_beforeNested : Reached nested beforeNested := by
  have first : Reached nested { index := 4, mainIndex := 0, functions := [(['g'], 0)] } :=
    .step (.step (.step (.step (.start {}) rfl) rfl) rfl) rfl
  have second :
      Reached nested { index := 9, mainIndex := 4, functions := [(['g'], 0), (['f'], 4)] } :=
    .step (.step (.step (.step (.step first rfl) rfl) rfl) rfl) rfl
  exact .step second rfl

theorem nested_calls_return_to_main_nested :
    Reached nested beforeNested ∧ beforeNested.mode = .calling ∧
      ∀ bound, run nested (4 + bound) beforeNested =
        run nested bound { beforeNested with index := 10, mode := .main, printed := [['1']] } := by
  obtain ⟨caller, f, _, _, _, inCall, _, returns⟩ :=
    nested_calls_return_to_main nested beforeNested reached_beforeNested rfl ['g'] 0 rfl rfl
  obtain ⟨_, ran⟩ := returns 2 _ (.succ rfl trivial rfl (.succ rfl trivial rfl (.zero _))) rfl
  rw [← inCall.back.2] at ran
  exact ⟨reached_beforeNested, rfl, ran⟩

/-- The command after a call inside of a function need not be the next one that is carried out. -/
theorem nested_call_not_resumed :
    ¬ ∀ (code : List Instr) (m : Machine), Reached code m → m.mode = .calling →
      ∀ (g : Text) (start : Int), fetch code m.index = .ok (.call (some g)) → m.functions.lookup g =
        some start →
      ∀ (k : Nat) (last next : Machine), Steps code (fun i => i.IsPlain ∧ ¬ i.IsJump) k
        { m with index := start + 1 } last →
        fetch code last.index = .ok .endFunction → last.step code = .ok next →
        next.index = m.index + 1 ∧ next.mode = .calling := by
  intro resumes
  have steps : Steps nested (fun i => i.IsPlain ∧ ¬ i.IsJump) 2 { beforeNested with index := 1 }
      { beforeNested with index := 3, printed := [['1']] } :=
    .succ rfl ⟨trivial, id⟩ rfl (.succ rfl ⟨trivial, id⟩ rfl (.zero _))
  obtain ⟨_, mode⟩ := resumes nested beforeNested reached_beforeNested rfl
    ['g'] 0 rfl rfl 2 _ _ steps rfl rfl
  cases mode

end Machine

end CommandScript.StackMachine
