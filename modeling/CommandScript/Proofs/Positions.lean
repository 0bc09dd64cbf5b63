import CommandScript.Proofs.MachineSteps

/-! The position of the stack machine. A run ends at a position past the last command, but nothing
keeps it from going below the first one: a jump to a target below one does, and then the commands
are counted from the end of the program. Without such a jump every command is fetched from where the
program has one. -/
namespace CommandScript.StackMachine.Machine

variable {code : List Instr} {m n after : Machine}

/-! ### Jumps -/

/-- The next command sends the machine to a target, counted from one: it is a jump, or a test that
holds. -/
inductive JumpsTo (code : List Instr) (m : Machine) (target : Int) : Prop where
  | always {word : Text} (active : m.mode ≠ .defining)
      (fetched : fetch code m.index = .ok (.jump (some word)))
      (read : Number.readInt? word = some target) : JumpsTo code m target
  | tested {test : Test} {word : Text} {rest : Machine} (active : m.mode ≠ .defining)
      (fetched : fetch code m.index = .ok (.jumpIf test (some word)))
      (holds : m.ready.decideTest test = .ok (true, rest))
      (read : Number.readInt? word = some target) : JumpsTo code m target

private theorem goTo_of_read {word : Text} {target : Int}
    (read : Number.readInt? word = some target) :
    m.goTo (some word) = .ok { m with index := target - 2 } := by
  have integer : (Operand.text word).toInt = .ok target := by
    simp only [Operand.toInt, Operand.value, Value.toInt, read]
  simp only [goTo, needed, integer, bind, Except.bind]
  rfl

private theorem exists_read_of_goTo {target : Option Text} (done : m.goTo target = .ok n) :
    ∃ word place, target = some word ∧ Number.readInt? word = some place ∧
    n = { m with index := place - 2 } := by
  obtain ⟨word, given, rest⟩ := exists_of_bind_ok done
  obtain ⟨place, integer, same⟩ := exists_of_bind_ok rest
  cases same
  cases target with
  | none => cases given
  | some other =>
    cases given
    refine ⟨word, place, rfl, ?_, rfl⟩
    simp only [Operand.toInt, Operand.value, Value.toInt] at integer
    split at integer
    · next read =>
      cases integer
      exact read
    · cases integer

/-- The step after a jump goes on at the target. -/
theorem JumpsTo.step {target : Int} (jumps : JumpsTo code m target) :
    ∃ next, m.step code = .ok next ∧ next.index = target - 1 := by
  have place : target - 2 + 1 = target - 1 := by omega
  cases jumps with
  | always active fetched read =>
    exact ⟨_, (Moves.plain active fetched trivial (goTo_of_read read)).step, place⟩
  | @tested test word rest active fetched holds read =>
    have done : m.ready.carryOut (.jumpIf test (some word)) =
        .ok { rest with index := target - 2 } := by
      simp only [carryOut, holds, bind, Except.bind, if_true]
      exact goTo_of_read read
    exact ⟨_, (Moves.plain active fetched trivial done).step, place⟩

/-- A command that has nothing to do with functions leaves the position alone unless it jumps. -/
theorem index_carryOut {i : Instr} (active : m.mode ≠ .defining)
    (fetched : fetch code m.index = .ok i) (plain : i.IsPlain)
    (done : m.ready.carryOut i = .ok after) :
    after.index = m.index ∨ ∃ target, JumpsTo code m target ∧ after.index = target - 2 := by
  by_cases jump : i.IsJump
  · cases i with
    | jump target =>
      obtain ⟨word, place, rfl, read, rfl⟩ := exists_read_of_goTo done
      exact .inr ⟨place, .always active fetched read, rfl⟩
    | jumpIf test target =>
      obtain ⟨⟨holds, rest⟩, decided, last⟩ := exists_of_bind_ok done
      cases holds with
      | true =>
        obtain ⟨word, place, rfl, read, rfl⟩ := exists_read_of_goTo last
        exact .inr ⟨place, .tested active fetched decided read, rfl⟩
      | false =>
        cases last
        have kept := control_decideTest decided
        simp only [control, Prod.mk.injEq, ready_index] at kept
        exact .inl kept.1
    | _ => exact jump.elim
  · have kept := control_carryOut plain jump done
    simp only [control, Prod.mk.injEq, ready_index] at kept
    exact .inl kept.1

/-! ### Positions below the first command -/

/-- The machine is at no position below the first command, nor does it keep one to go to. -/
structure Upright (m : Machine) : Prop where
  index : 0 ≤ m.index
  back : 0 ≤ m.mainIndex
  functions : ∀ entry ∈ m.functions, 0 ≤ entry.2

theorem Upright.ready (upright : m.Upright) : m.ready.Upright := by
  unfold Machine.ready
  split
  · exact ⟨upright.index, upright.index, upright.functions⟩
  · exact upright

theorem mem_setName {α : Type} {name : Text} {a : α} {row : List (Text × α)} {entry : Text × α}
    (member : entry ∈ setName name a row) : entry = (name, a) ∨ entry ∈ row := by
  induction row with
  | nil => exact .inl (List.mem_singleton.mp member)
  | cons first rest ih =>
    obtain ⟨key, old⟩ := first
    rw [setName] at member
    split at member
    · exact (List.mem_cons.mp member).imp_right (List.mem_cons_of_mem _)
    · rcases List.mem_cons.mp member with rfl | later
      · exact .inr List.mem_cons_self
      · exact (ih later).imp_right (List.mem_cons_of_mem _)

theorem mem_of_lookup {α : Type} {name : Text} {a : α} {row : List (Text × α)}
    (found : row.lookup name = some a) : (name, a) ∈ row := by
  obtain ⟨front, back, rfl, -⟩ := List.lookup_eq_some_iff.mp found
  exact List.mem_append_right _ List.mem_cons_self

/-- A step leads below the first command only by a jump. -/
theorem Upright.step (upright : m.Upright) (onward : ∀ target, JumpsTo code m target → 1 ≤ target)
    (stepped : m.step code = .ok n) : n.Upright := by
  have ready := upright.ready
  have place := upright.index
  cases exists_moves stepped with
  | @plain i after active fetched plain done =>
    obtain ⟨-, back, functions⟩ := carryOut_plain plain done
    refine ⟨?_, back ▸ ready.back, functions ▸ ready.functions⟩
    change 0 ≤ after.index + 1
    rcases index_carryOut active fetched plain done with same | ⟨target, jumps, there⟩
    · omega
    · have positive := onward target jumps
      omega
  | define =>
    refine ⟨?_, ready.back, fun entry member => ?_⟩
    · change 0 ≤ m.index + 1
      omega
    · rcases mem_setName member with rfl | old
      · exact place
      · exact upright.functions entry old
  | @call f start active fetched known =>
    refine ⟨?_, ready.back, ready.functions⟩
    have inside := upright.functions _ (mem_of_lookup known)
    change 0 ≤ start + 1
    omega
  | endMain =>
    refine ⟨?_, ready.back, ready.functions⟩
    change 0 ≤ m.index + 1
    omega
  | goBack =>
    have back := upright.back
    refine ⟨?_, upright.back, upright.functions⟩
    change 0 ≤ m.mainIndex + 1
    omega
  | endDefinition | pass =>
    refine ⟨?_, upright.back, upright.functions⟩
    change 0 ≤ m.index + 1
    omega

theorem upright_start (input : Input) : ({ input } : Machine).Upright :=
  ⟨Int.le_refl 0, Int.le_refl 0, fun _ member => absurd member List.not_mem_nil⟩

/-- A run stays upright as long as no jump has a target below one. -/
theorem Steps.upright {p : Instr → Prop} {k : Nat} (steps : Steps code p k m n)
    (upright : m.Upright)
    (onward : ∀ j < k, ∀ middle target, Steps code (fun _ => True) j m middle →
      JumpsTo code middle target → 1 ≤ target) :
    n.Upright := by
  induction steps with
  | zero => exact upright
  | succ fetched _ stepped _ ih =>
    have first := upright.step (fun target => onward 0 (Nat.succ_pos _) _ target (.zero _)) stepped
    refine ih first fun j less middle target later => ?_
    exact onward (j + 1) (Nat.succ_lt_succ less) middle target (.succ fetched trivial stepped later)

private theorem Steps.snoc {p : Instr → Prop} {k : Nat} (steps : Steps code p k m n) {i : Instr}
    (fetched : fetch code n.index = .ok i) (allowed : p i) {last : Machine}
    (stepped : n.step code = .ok last) : Steps code p (k + 1) m last := by
  induction steps with
  | zero m => exact .succ fetched allowed stepped (.zero _)
  | succ first ok step _ ih => exact .succ first ok step (ih fetched stepped)

theorem JumpsTo.fetched {target : Int} (jumps : JumpsTo code m target) :
    ∃ i, fetch code m.index = .ok i := by
  cases jumps with
  | always _ fetched | tested _ fetched => exact ⟨_, fetched⟩

private theorem step_outside (low : m.index < -code.length) : m.step code = .error .badIndex := by
  have nothing : fetch code m.index = .error .badIndex := by
    have notPositive : ¬ 0 ≤ m.index := by omega
    have notNegative : ¬ -(code.length : Int) ≤ m.index := by omega
    simp [fetch, Index.position?, notPositive, notNegative]
  rw [step, perform_eq, nothing]
  rfl

/-- Every command of a run is fetched from below the end of the program. All positions up to a
certain step are inside of it exactly if no jump before that step has a target below one; such a
jump leads to a position below zero at once. There the command is counted from the end of the
program, and if the program is too short for that, the run ends with a fault. -/
theorem positions_inside_iff (code : List Instr) (input : Input) :
    (∀ k, (∀ j ≤ k, ∀ m, Steps code (fun _ => True) j { input } m → m.isDone code = false →
      0 ≤ m.index ∧ m.index < code.length) ↔
      ∀ j < k, ∀ m target, Steps code (fun _ => True) j { input } m → JumpsTo code m target →
        1 ≤ target) ∧
    ∀ k m, Steps code (fun _ => True) k { input } m →
      (m.isDone code = false ↔ m.index < code.length) ∧
      (∀ target, JumpsTo code m target → ∃ next, m.step code = .ok next ∧ next.index = target - 1) ∧
      (m.index < 0 → -code.length ≤ m.index → ∃ i, code[(m.index + code.length).toNat]? = some i ∧
        fetch code m.index = .ok i) ∧
      (m.index < -code.length → m.step code = .error .badIndex) := by
  have ends : ∀ m : Machine, m.isDone code = false ↔ m.index < code.length := by
    intro m
    simp only [isDone, decide_eq_false_iff_not]
    omega
  refine ⟨fun k => ⟨fun inside j less m target steps jumps => ?_,
    fun onward j bound m steps going => ?_⟩, fun k m steps => ?_⟩
  · obtain ⟨next, stepped, place⟩ := jumps.step
    obtain ⟨i, fetched⟩ := jumps.fetched
    by_contra small
    have going : next.isDone code = false := by
      rw [ends]
      omega
    have positive := (inside (j + 1) less next (steps.snoc fetched trivial stepped) going).1
    omega
  · have upright := steps.upright (upright_start input) fun i less =>
      onward i (Nat.lt_of_lt_of_le less bound)
    exact ⟨upright.index, (ends m).mp going⟩
  · exact ⟨ends m, fun target jumps => jumps.step, fetch_from_end, step_outside⟩

/-- A jump to zero leads to the last command. -/
example : (trace [.readLine, .jump (some ['0']), .out] 3 { input := { lines := [some ['a']] } }).map
    (·.1) = [0, 1, -1] := rfl

end CommandScript.StackMachine.Machine
