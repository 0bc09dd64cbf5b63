import CommandScript.StackMachine.Machine
import Mathlib.Data.List.Basic

/-! How the stack machine goes on. A step fetches the command at the position of the machine and
carries it out, or passes over it while a function is being defined. Only the commands that call,
define or end a function change what the machine is doing, so that a row of other commands, with
jumps or without, leaves the mode and the way back to the main code alone. -/
namespace CommandScript.StackMachine

theorem exists_of_bind_ok {α β : Type} {x : Except Fault α} {f : α → Except Fault β} {b : β}
    (done : (x >>= f) = .ok b) : ∃ a, x = .ok a ∧ f a = .ok b := by
  cases x with
  | error e => cases done
  | ok a => exact ⟨a, rfl, done⟩

def Instr.IsPlain : Instr → Prop
  | .endFunction | .call _ | .function _ => False
  | _ => True

def Instr.IsJump : Instr → Prop
  | .jump _ | .jumpIf _ _ => True
  | _ => False

namespace Machine

variable {code : List Instr} {m n : Machine}

/-! ### Commands -/

def control (m : Machine) : Int × Mode × Int × List (Text × Int) :=
  (m.index, m.mode, m.mainIndex, m.functions)

private theorem control_pop {o : Operand} (done : m.pop = .ok (o, n)) : n.control = m.control := by
  unfold pop at done
  split at done
  · cases done
    rfl
  · cases done

private theorem control_popInt {a : Int} (done : m.popInt = .ok (a, n)) :
    n.control = m.control := by
  obtain ⟨⟨o, popped⟩, first, rest⟩ := exists_of_bind_ok done
  obtain ⟨b, _, same⟩ := exists_of_bind_ok rest
  cases same
  exact control_pop first

private theorem control_popText {s : Text} (done : m.popText = .ok (s, n)) :
    n.control = m.control := by
  obtain ⟨⟨o, popped⟩, first, rest⟩ := exists_of_bind_ok done
  obtain ⟨b, _, same⟩ := exists_of_bind_ok rest
  cases same
  exact control_pop first

private theorem control_readLine {s : Text} (done : m.readLine = .ok (s, n)) :
    n.control = m.control := by
  unfold readLine at done
  split at done
  · cases done
    rfl
  · cases done

theorem control_decideTest {test : Test} {holds : Bool}
    (done : m.decideTest test = .ok (holds, n)) : n.control = m.control := by
  cases test with
  | equal =>
    obtain ⟨⟨a, first⟩, one, rest⟩ := exists_of_bind_ok done
    obtain ⟨⟨b, second⟩, two, same⟩ := exists_of_bind_ok rest
    cases same
    exact (control_popText two).trans (control_popText one)
  | less | larger =>
    obtain ⟨⟨a, first⟩, one, rest⟩ := exists_of_bind_ok done
    obtain ⟨⟨b, second⟩, two, same⟩ := exists_of_bind_ok rest
    cases same
    exact (control_popInt two).trans (control_popInt one)

/-- A command that is no jump and has nothing to do with functions leaves alone what steers the
machine. -/
theorem control_carryOut {i : Instr} (plain : i.IsPlain) (straight : ¬ i.IsJump)
    (done : m.carryOut i = .ok n) : n.control = m.control := by
  cases i with
  | push | reverse | clear | skip =>
    cases done
    rfl
  | compute op =>
    obtain ⟨⟨a, first⟩, one, rest⟩ := exists_of_bind_ok done
    obtain ⟨⟨b, second⟩, two, rest⟩ := exists_of_bind_ok rest
    obtain ⟨o, _, same⟩ := exists_of_bind_ok rest
    cases same
    exact (control_popInt two).trans (control_popInt one)
  | duplicate =>
    obtain ⟨⟨a, first⟩, one, same⟩ := exists_of_bind_ok done
    cases same
    exact control_pop (n := first) one
  | swap =>
    obtain ⟨⟨a, first⟩, one, rest⟩ := exists_of_bind_ok done
    obtain ⟨⟨b, second⟩, two, same⟩ := exists_of_bind_ok rest
    cases same
    exact (control_pop two).trans (control_pop one)
  | stackOther hasWord | memoryOther hasWord =>
    cases hasWord with
    | false => cases done
    | true =>
      cases done
      rfl
  | out =>
    obtain ⟨⟨s, first⟩, one, same⟩ := exists_of_bind_ok done
    cases same
    exact control_popText (n := first) one
  | putchar =>
    obtain ⟨⟨a, first⟩, one, rest⟩ := exists_of_bind_ok done
    obtain ⟨c, _, same⟩ := exists_of_bind_ok rest
    cases same
    exact control_popInt (n := first) one
  | readLine =>
    obtain ⟨⟨s, first⟩, one, same⟩ := exists_of_bind_ok done
    cases same
    exact control_readLine (n := first) one
  | save name =>
    obtain ⟨⟨a, first⟩, one, rest⟩ := exists_of_bind_ok done
    obtain ⟨w, _, same⟩ := exists_of_bind_ok rest
    cases same
    exact control_pop (n := first) one
  | load name =>
    obtain ⟨w, _, rest⟩ := exists_of_bind_ok done
    split at rest
    · cases rest
      rfl
    · cases rest
      rfl
  | jump | jumpIf => exact absurd trivial straight
  | endFunction | call | function => exact plain.elim

private theorem goTo_inv {target : Option Text} (done : m.goTo target = .ok n) :
    ∃ index, n = { m with index := index } := by
  obtain ⟨word, _, rest⟩ := exists_of_bind_ok done
  obtain ⟨index, _, same⟩ := exists_of_bind_ok rest
  cases same
  exact ⟨_, rfl⟩

/-- A command that has nothing to do with functions leaves the mode, the way back and the functions
alone, be it a jump. -/
theorem carryOut_plain {i : Instr} (plain : i.IsPlain) (done : m.carryOut i = .ok n) :
    n.mode = m.mode ∧ n.mainIndex = m.mainIndex ∧ n.functions = m.functions := by
  by_cases jump : i.IsJump
  · cases i with
    | jump target =>
      obtain ⟨index, rfl⟩ := goTo_inv done
      exact ⟨rfl, rfl, rfl⟩
    | jumpIf test target =>
      obtain ⟨⟨holds, tested⟩, decided, rest⟩ := exists_of_bind_ok done
      have kept := control_decideTest decided
      simp only [control, Prod.mk.injEq] at kept
      cases holds with
      | true =>
        obtain ⟨index, rfl⟩ := goTo_inv rest
        exact kept.2
      | false =>
        cases rest
        exact kept.2
    | _ => exact jump.elim
  · have kept := control_carryOut plain jump done
    simp only [control, Prod.mk.injEq] at kept
    exact kept.2

/-! ### Steps -/

theorem fetch_bounds {i : Instr} {index : Int} (fetched : fetch code index = .ok i) :
    -code.length ≤ index ∧ index < code.length := by
  unfold fetch Index.position? at fetched
  split at fetched
  · next found =>
    split at found
    · split at found
      · omega
      · cases found
    · split at found
      · omega
      · cases found
  · cases fetched

/-- A position below zero counts from the end of the program. -/
theorem fetch_from_end {index : Int} (negative : index < 0) (low : -code.length ≤ index) :
    ∃ i, code[(index + code.length).toNat]? = some i ∧ fetch code index = .ok i := by
  have inside : (index + code.length).toNat < code.length := by omega
  refine ⟨code[(index + code.length).toNat], List.getElem?_eq_getElem inside, ?_⟩
  have notPositive : ¬ 0 ≤ index := by omega
  simp [fetch, Index.position?, notPositive, low, inside]

theorem exists_fetch {index : Int} (low : -code.length ≤ index) (high : index < code.length) :
    ∃ i, fetch code index = .ok i := by
  by_cases positive : 0 ≤ index
  · have inside : index.toNat < code.length := by omega
    exact ⟨code[index.toNat], by simp [fetch, Index.position?, positive, high, inside]⟩
  · obtain ⟨i, _, fetched⟩ := fetch_from_end (Int.not_le.mp positive) low
    exact ⟨i, fetched⟩

theorem not_isDone_of_fetch {i : Instr} (fetched : fetch code m.index = .ok i) :
    m.isDone code = false := by
  have bounds := fetch_bounds fetched
  simp only [isDone, decide_eq_false_iff_not]
  omega

/-- The machine as it is when a command is carried out: in the main code it keeps its position as
the way back. -/
def ready (m : Machine) : Machine := if m.mode = .main then { m with mainIndex := m.index } else m

theorem ready_main (main : m.mode = .main) : m.ready = { m with mainIndex := m.index } :=
  if_pos main

theorem ready_other (other : m.mode ≠ .main) : m.ready = m := if_neg other

@[simp] theorem ready_index (m : Machine) : m.ready.index = m.index := by
  unfold ready
  split <;> rfl

@[simp] theorem ready_mode (m : Machine) : m.ready.mode = m.mode := by
  unfold ready
  split <;> rfl

@[simp] theorem ready_functions (m : Machine) : m.ready.functions = m.functions := by
  unfold ready
  split <;> rfl

theorem obey_active {i : Instr} (active : m.mode ≠ .defining) : m.obey i = m.carryOut i := by
  cases mode : m.mode with
  | main => simp [obey, mode]
  | calling => simp [obey, mode]
  | defining => exact absurd mode active

theorem obey_defining {i : Instr} (defining : m.mode = .defining) (other : i ≠ .endFunction) :
    m.obey i = .ok m := by
  cases i with
  | endFunction => exact absurd rfl other
  | _ => simp [obey, defining]

theorem perform_eq : m.perform code = fetch code m.index >>= m.ready.obey := by
  rw [← m.ready_index]
  rfl

private theorem step_eq {i : Instr} (fetched : fetch code m.index = .ok i) :
    m.step code = (m.ready.obey i).map m.advance := by
  have performed : m.perform code = fetch code m.ready.index >>= m.ready.obey := rfl
  rw [step, performed, ready_index, fetched]
  change (m.ready.obey i >>= _) = _
  cases m.ready.obey i <;> rfl

theorem step_inv (stepped : m.step code = .ok n) :
    ∃ i after, fetch code m.index = .ok i ∧ m.ready.obey i = .ok after ∧ n = m.advance after := by
  obtain ⟨after, performed, same⟩ := exists_of_bind_ok stepped
  obtain ⟨i, fetched, obeyed⟩ := exists_of_bind_ok performed
  have place := m.ready_index
  rw [ready] at place
  rw [place] at fetched
  cases same
  exact ⟨i, after, fetched, obeyed, rfl⟩

private theorem advance_onward {after : Machine} (stays : m.mode = .calling → after.mode ≠ .main) :
    m.advance after = { after with index := after.index + 1 } :=
      if_neg fun both => stays both.1 both.2

/-- All that a step can do. While a function is being defined only its end counts; the end of a
function that was called leads back to the main code. -/
inductive Moves (code : List Instr) (m : Machine) : Machine → Prop where
  | plain {i : Instr} {after : Machine} (active : m.mode ≠ .defining)
      (fetched : fetch code m.index = .ok i) (plain : i.IsPlain)
      (done : m.ready.carryOut i = .ok after) : Moves code m { after with index := after.index + 1 }
  | define {f : Text} (active : m.mode ≠ .defining)
      (fetched : fetch code m.index = .ok (.function (some f))) :
      Moves code m { m.ready with
        index := m.index + 1, mode := .defining, functions := setName f m.index m.functions }
  | call {f : Text} {start : Int} (active : m.mode ≠ .defining)
      (fetched : fetch code m.index = .ok (.call (some f)))
      (known : m.functions.lookup f = some start) :
      Moves code m { m.ready with index := start + 1, mode := .calling }
  | endMain (main : m.mode = .main) (fetched : fetch code m.index = .ok .endFunction) :
      Moves code m { m.ready with index := m.index + 1 }
  | goBack (calling : m.mode = .calling) (fetched : fetch code m.index = .ok .endFunction) :
      Moves code m { m with index := m.mainIndex + 1, mode := .main }
  | endDefinition (defining : m.mode = .defining)
      (fetched : fetch code m.index = .ok .endFunction) :
      Moves code m { m with index := m.index + 1, mode := .main }
  | pass {i : Instr} (defining : m.mode = .defining) (fetched : fetch code m.index = .ok i)
      (other : i ≠ .endFunction) :
      Moves code m { m with index := m.index + 1 }

private theorem carryOut_call {f : Text} {start : Int} (known : m.functions.lookup f = some start) :
    m.carryOut (.call (some f)) = .ok { m with index := start, mode := .calling } := by
  simp [carryOut, needed, bind, Except.bind, known, pure, Except.pure]

theorem Moves.step (moves : Moves code m n) : m.step code = .ok n := by
  cases moves with
  | plain active fetched plain done =>
    have mode := (carryOut_plain plain done).1
    rw [step_eq fetched, obey_active (by simpa using active), done, Except.map, advance_onward]
    simp_all
  | @define f active fetched =>
    have done : m.ready.carryOut (.function (some f)) =
        .ok { m.ready with
          functions := setName f m.ready.index m.ready.functions, mode := .defining } := rfl
    rw [step_eq fetched, obey_active (by simpa using active), done, Except.map,
      advance_onward (by simp)]
    simp
  | @call f start active fetched known =>
    rw [step_eq fetched, obey_active (by simpa using active),
      carryOut_call (by simpa using known), Except.map, advance_onward (by simp)]
  | endMain main fetched =>
    have done : m.ready.carryOut .endFunction = .ok { m.ready with mode := .main } := rfl
    rw [step_eq fetched, obey_active (by simp [main]), done, Except.map,
      advance_onward (by simp [main])]
    simp [ready, main]
  | goBack calling fetched =>
    have done : m.carryOut .endFunction = .ok { m with mode := .main } := rfl
    rw [step_eq fetched, ready_other (by simp [calling]), obey_active (by simp [calling]), done,
      Except.map, advance, if_pos ⟨calling, rfl⟩]
  | endDefinition defining fetched =>
    have done : m.obey .endFunction = .ok { m with mode := .main } := by
      simp [obey, defining]
    rw [step_eq fetched, ready_other (by simp [defining]), done, Except.map,
      advance_onward (by simp [defining])]
  | pass defining fetched other =>
    rw [step_eq fetched, ready_other (by simp [defining]), obey_defining defining other, Except.map,
      advance_onward (by simp [defining])]

/-- What a command that has to do with functions does when it is carried out. -/
theorem carryOut_inv {i : Instr} (done : m.carryOut i = .ok n) :
    i.IsPlain ∨ i = .endFunction ∨ (∃ f, i = .function (some f)) ∨
      ∃ f start, i = .call (some f) ∧ m.functions.lookup f = some start := by
  cases i with
  | endFunction => exact .inr (.inl rfl)
  | function name =>
    cases name with
    | none => cases done
    | some f => exact .inr (.inr (.inl ⟨f, rfl⟩))
  | call name =>
    cases name with
    | none => cases done
    | some f =>
      obtain ⟨word, same, rest⟩ := exists_of_bind_ok done
      cases same
      split at rest
      · next start known => exact .inr (.inr (.inr ⟨f, start, rfl, known⟩))
      · cases rest
  | _ => exact .inl trivial

theorem exists_moves (stepped : m.step code = .ok n) : Moves code m n := by
  obtain ⟨i, after, fetched, obeyed, _⟩ := step_inv stepped
  -- a step has one result, so that it is enough to find a move
  have only : ∀ {last}, Moves code m last → Moves code m n := by
    intro last moves
    have same := moves.step
    rw [stepped] at same
    cases same
    exact moves
  by_cases defining : m.mode = .defining
  · by_cases ends : i = .endFunction
    · subst ends
      exact only (.endDefinition defining fetched)
    · exact only (.pass defining fetched ends)
  · rw [obey_active (by simpa using defining)] at obeyed
    rcases carryOut_inv obeyed with plain | rfl | ⟨f, rfl⟩ | ⟨f, start, rfl, known⟩
    · exact only (.plain defining fetched plain obeyed)
    · cases mode : m.mode with
      | main => exact only (.endMain mode fetched)
      | calling => exact only (.goBack mode fetched)
      | defining => exact absurd mode defining
    · exact only (.define defining fetched)
    · rw [ready_functions] at known
      exact only (.call defining fetched known)

/-! ### Runs -/

inductive Steps (code : List Instr) (p : Instr → Prop) : Nat → Machine → Machine → Prop where
  | zero (m : Machine) : Steps code p 0 m m
  | succ {k : Nat} {m next last : Machine} {i : Instr} (fetched : fetch code m.index = .ok i)
      (allowed : p i)
      (stepped : m.step code = .ok next) (rest : Steps code p k next last) :
      Steps code p (k + 1) m last

theorem run_step {i : Instr} (fetched : fetch code m.index = .ok i)
    (stepped : m.step code = .ok n) (bound : Nat) : run code (bound + 1) m = run code bound n := by
  rw [run, not_isDone_of_fetch fetched, stepped]
  rfl

theorem Steps.run {p : Instr → Prop} {k : Nat} (steps : Steps code p k m n) (bound : Nat) :
    run code (k + bound) m = run code bound n := by
  induction steps with
  | zero => rw [Nat.zero_add]
  | succ fetched _ stepped _ ih => rw [Nat.add_right_comm, run_step fetched stepped, ih]

inductive Reached (code : List Instr) : Machine → Prop where
  | start (input : Input) : Reached code { input }
  | step {m n : Machine} (reached : Reached code m) (stepped : m.step code = .ok n) : Reached code n

end Machine

end CommandScript.StackMachine
