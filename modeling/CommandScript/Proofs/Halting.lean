import CommandScript.Proofs.Positions
import CommandScript.Proofs.StackFrames

/-! Programs of the stack machine that come to an end. Calls lead back to earlier positions, so the
position alone says nothing about how much is left to do. But without jumps a function is run from
its definition to the end of it, and if nothing is called or defined there, it leads back behind the
call. So the machine is nearer to the end if it is further in the main code, and in a function also
if it is further in the function. -/
namespace CommandScript.StackMachine

def Instr.EntersFunction : Instr → Prop
  | .function _ | .call _ => True
  | _ => False

structure Body (code : List Instr) (start stop : Nat) : Prop where
  definition : ∃ name, code[start]? = some (.function name)
  ordered : start < stop
  ends : code[stop]? = some .endFunction
  first : ∀ j, start < j → j < stop → code[j]? ≠ some .endFunction

/-- Between a definition and the next end nothing is called or defined. -/
def Unnested (code : List Instr) : Prop :=
  ∀ start stop, Body code start stop → ∀ j i, start < j → j < stop → code[j]? = some i →
    ¬ i.EntersFunction

namespace Machine

variable {code : List Instr} {m n : Machine}

/-! ### Faults of a step -/

def Settles {α : Type} (x : Except Fault α) : Prop := x ≠ .error .unfinished

section Settling

variable {α β : Type} {x : Except Fault α}

theorem Settles.ok (a : α) : Settles (.ok a) := by simp [Settles]

theorem Settles.error {e : Fault} (other : e ≠ .unfinished) : Settles (.error e : Except Fault α) :=
  fun same => other (Except.error.inj same)

theorem Settles.bind {f : α → Except Fault β} (first : Settles x) (next : ∀ a, Settles (f a)) :
    Settles (x >>= f) := by
  cases x with
  | error e => exact .error fun same => first (congrArg Except.error same)
  | ok a => exact next a

end Settling

private theorem settles_pop (m : Machine) : Settles m.pop := by
  unfold pop
  split
  · exact .ok _
  · exact .error (by decide)

private theorem settles_toInt (o : Operand) : Settles o.toInt := by
  cases o with
  | text s =>
    simp only [Operand.toInt, Operand.value, Value.toInt]
    split
    · exact .ok _
    · exact .error (by decide)
  | int n => exact .ok n
  | float x =>
    simp only [Operand.toInt, Operand.value, Value.toInt, Number.truncate]
    split
    · exact .error (by decide)
    · exact .error (by decide)
    · exact .ok _

private theorem settles_shown (o : Operand) : Settles o.shown := by
  cases o with
  | text s => exact .ok s
  | int n =>
    simp only [Operand.shown, Number.intText]
    split
    · exact .error (by decide)
    · exact .ok _
  | float x => exact .ok _

private theorem settles_popInt (m : Machine) : Settles m.popInt :=
  (settles_pop m).bind fun _ => (settles_toInt _).bind fun _ => .ok _

private theorem settles_popText (m : Machine) : Settles m.popText :=
  (settles_pop m).bind fun _ => (settles_shown _).bind fun _ => .ok _

private theorem settles_needed (word : Option Text) : Settles (needed word) := by
  cases word with
  | none => exact .error (by decide)
  | some w => exact .ok w

private theorem settles_goTo (m : Machine) (target : Option Text) : Settles (m.goTo target) :=
  (settles_needed target).bind fun _ => (settles_toInt _).bind fun _ => .ok _

private theorem settles_decideTest (m : Machine) (test : Test) : Settles (m.decideTest test) := by
  cases test with
  | equal => exact (settles_popText m).bind fun _ => (settles_popText _).bind fun _ => .ok _
  | less | larger => exact (settles_popInt m).bind fun _ => (settles_popInt _).bind fun _ => .ok _

private theorem settles_apply (a b : Int) (op : Operation) : Settles (op.apply a b) := by
  cases op with
  | sum | dif | mul => exact .ok _
  | div =>
    refine .bind ?_ fun _ => .ok _
    unfold Number.divideInts
    split
    · exact .error (by decide)
    · split
      · exact .ok _
      · exact .error (by decide)

private theorem settles_carryOut (m : Machine) (i : Instr) : Settles (m.carryOut i) := by
  cases i with
  | push | reverse | clear | endFunction | skip => exact .ok _
  | compute op =>
    exact (settles_popInt m).bind fun _ => (settles_popInt _).bind fun _ =>
      (settles_apply _ _ op).bind fun _ => .ok _
  | duplicate => exact (settles_pop m).bind fun _ => .ok _
  | swap => exact (settles_pop m).bind fun _ => (settles_pop _).bind fun _ => .ok _
  | stackOther hasWord | memoryOther hasWord =>
    cases hasWord with
    | false => exact .error (by decide)
    | true => exact .ok _
  | out => exact (settles_popText m).bind fun _ => .ok _
  | putchar =>
    refine (settles_popInt m).bind fun _ => .bind ?_ fun _ => .ok _
    unfold Number.toChar
    split
    · exact .error (by decide)
    · split
      · exact .error (by decide)
      · exact .ok _
  | readLine =>
    refine .bind ?_ fun _ => .ok _
    unfold Machine.readLine
    split
    · exact .ok _
    · exact .error (by decide)
  | save name => exact (settles_pop m).bind fun _ => (settles_needed name).bind fun _ => .ok _
  | load name =>
    refine (settles_needed name).bind fun _ => ?_
    split
    · exact .ok _
    · exact .ok _
  | jump target => exact settles_goTo m target
  | jumpIf test target =>
    refine (settles_decideTest m test).bind fun ⟨holds, tested⟩ => ?_
    cases holds with
    | true => exact settles_goTo tested target
    | false => exact .ok tested
  | call name =>
    refine (settles_needed name).bind fun _ => ?_
    split
    · exact .ok _
    · exact .error (by decide)
  | function name => exact (settles_needed name).bind fun _ => .ok _

private theorem settles_step (code : List Instr) (m : Machine) : Settles (m.step code) := by
  have fetching : Settles (fetch code m.index) := by
    unfold fetch
    split
    · exact .ok _
    · exact .error (by decide)
  refine .bind ?_ fun _ => .ok _
  rw [perform_eq]
  refine fetching.bind fun i => ?_
  by_cases defining : m.ready.mode = .defining
  · by_cases ends : i = .endFunction
    · simp only [obey, defining, ends]
      exact .ok _
    · rw [obey_defining defining ends]
      exact .ok _
  · rw [obey_active defining]
    exact settles_carryOut _ i

/-! ### Where the machine is -/

private theorem fetch_natCast {p : Nat} {i : Instr} : fetch code p = .ok i ↔ code[p]? = some i := by
  unfold fetch Index.position?
  by_cases inside : p < code.length
  · simp [inside]
  · simp [inside]

/-- In a program without jumps a command that has nothing to do with functions leaves the machine
where it is. -/
theorem place_carryOut (straight : ∀ i ∈ code, ¬ i.IsJump) {i : Instr}
    (fetched : fetch code m.index = .ok i) (plain : i.IsPlain) (done : m.ready.carryOut i = .ok n) :
    n.index = m.index ∧ n.mode = m.mode ∧ n.mainIndex = m.ready.mainIndex ∧
    n.functions = m.functions := by
  have kept := control_carryOut plain (straight i (mem_of_fetch fetched)) done
  simpa only [control, Prod.mk.injEq, ready_index, ready_mode, ready_functions] using kept

def IsDefined (code : List Instr) (position : Int) : Prop :=
  ∃ start stop : Nat, position = start ∧ Body code start stop

/-- Where a machine is that was started at the first command. All functions that the main code can
call have an end; while one is being defined, only that one may have none; and one that is being run
is left at its end. -/
inductive Placed (code : List Instr) (m : Machine) : Prop where
  | main (mode : m.mode = .main) (defined : ∀ entry ∈ m.functions, IsDefined code entry.2)
  | defining {start : Nat} (mode : m.mode = .defining)
      (definition : ∃ name, code[start]? = some (.function name))
      (behind : start < m.index)
      (unended : ∀ j : Nat, start < j → j < m.index → code[j]? ≠ some .endFunction)
      (defined : ∀ entry ∈ m.functions, entry.2 = start ∨ IsDefined code entry.2)
  | calling {start stop : Nat} (mode : m.mode = .calling) (body : Body code start stop)
      (behind : start < m.index) (within : m.index ≤ stop)
      (defined : ∀ entry ∈ m.functions, IsDefined code entry.2)

section Placing

variable (upright : m.Upright)
include upright

private theorem exists_place : ∃ p : Nat, m.index = p :=
  ⟨m.index.toNat, (Int.toNat_of_nonneg upright.index).symm⟩

variable (unnested : Unnested code)
include unnested

/-- In a function only its end has to do with functions. -/
theorem cases_of_body {start stop : Nat} (body : Body code start stop) (behind : start < m.index)
    (within : m.index ≤ stop) {i : Instr} (fetched : fetch code m.index = .ok i) :
    i = .endFunction ∨ m.index < stop ∧ ¬ i.EntersFunction := by
  obtain ⟨p, place⟩ := exists_place upright
  rw [place] at behind within fetched ⊢
  have here := fetch_natCast.mp fetched
  by_cases last : p = stop
  · subst last
    rw [body.ends, Option.some.injEq] at here
    exact .inl here.symm
  · exact .inr ⟨by omega, unnested start stop body p i (by omega) (by omega) here⟩

variable (placed : Placed code m)
include placed

/-- A function is called or defined in the main code only. -/
theorem Placed.main_of_enters (active : m.mode ≠ .defining) {i : Instr}
    (fetched : fetch code m.index = .ok i) (enters : i.EntersFunction) :
    m.mode = .main ∧ ∀ entry ∈ m.functions, IsDefined code entry.2 := by
  cases placed with
  | main mode defined => exact ⟨mode, defined⟩
  | defining mode => exact absurd mode active
  | calling mode body behind within defined =>
    rcases cases_of_body upright unnested body behind within fetched with rfl | ⟨_, plain⟩
    · exact enters.elim
    · exact absurd enters plain

variable (straight : ∀ i ∈ code, ¬ i.IsJump)
include straight

theorem Placed.step (stepped : m.step code = .ok n) : Placed code n := by
  obtain ⟨p, place⟩ := exists_place upright
  cases exists_moves stepped with
  | @plain i after active fetched plain done =>
    obtain ⟨index, mode, -, functions⟩ := place_carryOut straight fetched plain done
    cases placed with
    | main main defined => exact .main (mode.trans main) (functions ▸ defined)
    | defining defining => exact absurd defining active
    | @calling start stop calling body behind within defined =>
      rcases cases_of_body upright unnested body behind within fetched with rfl | ⟨inside, _⟩
      · exact plain.elim
      · have onward : (start : Int) < after.index + 1 ∧ after.index + 1 ≤ stop := by omega
        exact .calling (mode.trans calling) body onward.1 onward.2 (functions ▸ defined)
  | @define f active fetched =>
    obtain ⟨_, defined⟩ := placed.main_of_enters upright unnested active fetched trivial
    rw [place] at fetched
    have onward : (p : Int) < m.index + 1 := by omega
    refine .defining rfl ⟨_, fetch_natCast.mp fetched⟩ onward
      (fun j after before => ?_) fun entry member => ?_
    · simp only at before
      omega
    · rcases mem_setName member with rfl | old
      · exact .inl place
      · exact .inr (defined entry old)
  | @call f start active fetched known =>
    obtain ⟨_, defined⟩ := placed.main_of_enters upright unnested active fetched trivial
    obtain ⟨s, e, rfl, body⟩ := defined _ (mem_of_lookup known)
    have ordered := body.ordered
    have onward : (s : Int) < s + 1 ∧ (s : Int) + 1 ≤ e := by omega
    exact .calling rfl body onward.1 onward.2 (by simpa using defined)
  | endMain main fetched =>
    cases placed with
    | main _ defined => exact .main (by simp [main]) (by simpa using defined)
    | defining mode | calling mode => simp [main] at mode
  | goBack calling fetched =>
    cases placed with
    | main mode | defining mode => simp [calling] at mode
    | calling _ _ _ _ defined => exact .main rfl defined
  | endDefinition defining fetched =>
    cases placed with
    | main mode | calling mode => simp [defining] at mode
    | @defining start _ definition behind unended defined =>
      refine .main rfl fun entry member => ?_
      rcases defined entry member with here | before
      · rw [place] at fetched behind unended
        refine ⟨start, p, here,
          definition, by omega, fetch_natCast.mp fetched, fun j after less => ?_⟩
        exact unended j after (by omega)
      · exact before
  | pass defining fetched other =>
    cases placed with
    | main mode | calling mode => simp [defining] at mode
    | @defining start _ definition behind unended defined =>
      have onward : (start : Int) < m.index + 1 := by omega
      refine .defining defining definition onward (fun j after less => ?_) defined
      simp only at less
      by_cases last : j = p
      · subst last
        rw [place] at fetched
        rw [fetch_natCast.mp fetched]
        simpa using other
      · exact unended j after (by omega)

end Placing

/-! ### How much is left -/

/-- A bound on the number of steps that are left: in the main code the rest of it, where every
command counts as much as a whole program and one more; in a function the rest of the main code
behind the call, and the rest of the program from here. -/
def remaining (code : List Instr) (m : Machine) : Nat :=
  match m.mode with
  | .calling =>
    (code.length - 1 - m.mainIndex).toNat * (code.length + 1) + (code.length - m.index).toNat
  | _ => (code.length - m.index).toNat * (code.length + 1)

private theorem remaining_calling (calling : m.mode = .calling) :
    m.remaining code = (code.length - 1 - m.mainIndex).toNat * (code.length + 1) +
    (code.length - m.index).toNat := by
  simp only [remaining, calling]

private theorem remaining_other (other : m.mode ≠ .calling) :
    m.remaining code = (code.length - m.index).toNat * (code.length + 1) := by
  cases mode : m.mode with
  | main | defining => simp only [remaining, mode]
  | calling => exact absurd mode other

private theorem further_lt {position : Int} (inside : position < code.length) :
    (code.length - (position + 1)).toNat * (code.length + 1) < (code.length - position).toNat *
    (code.length + 1) :=
  Nat.mul_lt_mul_of_pos_right (by omega) (Nat.succ_pos _)

/-- Every step leaves less to do. -/
theorem remaining_lt (straight : ∀ i ∈ code, ¬ i.IsJump) (unnested : Unnested code)
    (upright : m.Upright) (placed : Placed code m) (stepped : m.step code = .ok n) :
    n.remaining code < m.remaining code := by
  cases exists_moves stepped with
  | @plain i after active fetched plain done =>
    have inside := (fetch_bounds fetched).2
    obtain ⟨index, mode, back, -⟩ := place_carryOut straight fetched plain done
    by_cases calling : m.mode = .calling
    · rw [ready_other (by simp [calling])] at back
      rw [remaining_calling (m := { after with index := after.index + 1 }) (mode.trans calling),
        remaining_calling calling]
      simp only [index, back]
      omega
    · rw [remaining_other (m := { after with index := after.index + 1 }) (mode ▸ calling),
        remaining_other calling]
      simp only [index]
      exact further_lt inside
  | define active fetched =>
    obtain ⟨main, _⟩ := placed.main_of_enters upright unnested active fetched trivial
    rw [remaining_other (by simp), remaining_other (by simp [main])]
    exact further_lt (fetch_bounds fetched).2
  | @call f start active fetched known =>
    obtain ⟨main, _⟩ := placed.main_of_enters upright unnested active fetched trivial
    have inside := (fetch_bounds fetched).2
    have positive := upright.functions _ (mem_of_lookup known)
    have behind : (code.length - m.index).toNat = (code.length - 1 - m.index).toNat + 1 := by omega
    rw [remaining_calling rfl, remaining_other (by simp [main]), ready_main main, behind,
      Nat.succ_mul]
    simp only at positive ⊢
    omega
  | endMain main fetched =>
    rw [remaining_other (by simp [main]), remaining_other (by simp [main])]
    exact further_lt (fetch_bounds fetched).2
  | goBack calling fetched =>
    have inside := (fetch_bounds fetched).2
    have behind : (code.length - (m.mainIndex + 1)).toNat =
      (code.length - 1 - m.mainIndex).toNat := by omega
    rw [remaining_other (by simp), remaining_calling calling]
    simp only [behind]
    omega
  | endDefinition defining fetched | pass defining fetched =>
    rw [remaining_other (by simp [defining]), remaining_other (by simp [defining])]
    exact further_lt (fetch_bounds fetched).2

section Ending

variable (straight : ∀ i ∈ code, ¬ i.IsJump)
include straight

private theorem not_jumpsTo {target : Int} (jumps : JumpsTo code m target) : False := by
  cases jumps with
  | always _ fetched | tested _ fetched => exact straight _ (mem_of_fetch fetched) trivial

/-- A machine on its way comes to a state from which there is no step, within the steps that are
left. -/
theorem exists_steps_stopped (unnested : Unnested code) (upright : m.Upright)
    (placed : Placed code m) :
    ∃ k ≤ m.remaining code, ∃ last, Steps code (fun _ => True) k m last ∧
    ∃ fault, last.step code = .error fault := by
  induction bound : m.remaining code using Nat.strongRecOn generalizing m with
  | ind r ih =>
    cases stepped : m.step code with
    | error fault => exact ⟨0, Nat.zero_le r, m, .zero m, fault, stepped⟩
    | ok next =>
      obtain ⟨i, _, fetched, _⟩ := step_inv stepped
      have less := remaining_lt straight unnested upright placed stepped
      have standing := upright.step (fun _ jumps => (not_jumpsTo straight jumps).elim) stepped
      obtain ⟨k, few, last, steps, stopped⟩ :=
        ih _ (bound ▸ less) standing (placed.step upright unnested straight stepped) rfl
      exact ⟨k + 1, by omega, last, .succ fetched trivial stepped steps, stopped⟩

end Ending

private theorem run_done (done : m.isDone code = true) (bound : Nat) :
    run code bound m = (.ok (), m) := by
  cases bound <;> simp [run, done]

private theorem run_stopped {fault : Fault} (going : m.isDone code = false)
    (stopped : m.step code = .error fault) (bound : Nat) :
    run code (bound + 1) m = (.error fault, m) := by
  simp [run, going, stopped]

/-- A program without jumps in which nothing is called or defined between a definition and the next
end comes to its end, whatever it reads: after a number of steps that the length of the program
bounds it is past the last command, or a fault arises that is its own and not for want of steps.
Every command is fetched from inside of the program. -/
theorem straight_programs_halt (code : List Instr) (straight : ∀ i ∈ code, ¬ i.IsJump)
    (unnested : Unnested code) (input : Input) :
    (∃ k ≤ code.length * (code.length + 1), ∃ last, Steps code (fun _ => True) k { input } last ∧
      ((last.isDone code = true ∧ ∀ bound, run code (k + bound) { input } = (.ok (), last)) ∨
        (last.isDone code = false ∧ ∃ fault, fault ≠ .unfinished ∧ last.step code = .error fault ∧
          ∀ bound, run code (k + 1 + bound) { input } = (.error fault, last)))) ∧
    ∀ k m, Steps code (fun _ => True) k { input } m → m.isDone code = false → 0 ≤ m.index ∧
    m.index < code.length := by
  have upright := upright_start input
  refine ⟨?_, fun k m steps going => ?_⟩
  · have placed : Placed code { input } := .main rfl fun _ member => absurd member List.not_mem_nil
    obtain ⟨k, few, last, steps, fault, stopped⟩ :=
      exists_steps_stopped straight unnested upright placed
    have whole : ({ input } : Machine).remaining code = code.length * (code.length + 1) := by
      simp [remaining]
    refine ⟨k, whole ▸ few, last, steps, ?_⟩
    cases done : last.isDone code with
    | true =>
      refine .inl ⟨rfl, fun bound => ?_⟩
      rw [steps.run, run_done done]
    | false =>
      refine .inr ⟨rfl, fault, ?_, stopped, fun bound => ?_⟩
      · rintro rfl
        exact settles_step code last stopped
      · rw [Nat.add_assoc, steps.run, Nat.add_comm 1 bound, run_stopped done stopped]
  · have inside := steps.upright upright fun _ _ _ _ _ jumps => (not_jumpsTo straight jumps).elim
    simp only [isDone, decide_eq_false_iff_not] at going
    exact ⟨inside.index, by omega⟩

def printingTwice : List Instr :=
  [.function (some ['f']), .out, .endFunction, .push ['1'], .call (some ['f']), .push ['2'],
    .call (some ['f']), .function (some ['g']), .call (some ['f'])]

example : program "fun f;out;endfun;add 1;run f;add 2;run f;fun g;run f".toList =
    printingTwice := by decide +kernel

private theorem unnested_printingTwice : Unnested printingTwice := by
  intro start stop body j i after before there
  have length : stop < 9 := (List.getElem?_eq_some_iff.mp body.ends).1
  have ends : ∀ p < 9, printingTwice[p]? = some .endFunction → p = 2 := by decide
  have second := ends stop length body.ends
  obtain rfl : j = 1 := by omega
  obtain rfl : Instr.out = i := Option.some.inj there
  exact id

theorem straight_programs_halt_twice :
    (∀ i ∈ printingTwice, ¬ i.IsJump) ∧ Unnested printingTwice ∧
      ∃ k ≤ 90, ∃ last, Steps printingTwice (fun _ => True) k {} last ∧
      last.isDone printingTwice = true ∧ last.output = ['1', '2'] ∧
        ∀ bound, run printingTwice (k + bound) {} = (.ok (), last) := by
  have straight : ∀ i ∈ printingTwice, ¬ i.IsJump := by simp [printingTwice, Instr.IsJump]
  have ran : (run printingTwice 91 {}).1 = .ok () ∧ (run printingTwice 91 {}).2.output =
    ['1', '2'] := ⟨rfl, rfl⟩
  obtain ⟨⟨k, few, last, steps, ended⟩, _⟩ :=
    straight_programs_halt printingTwice straight unnested_printingTwice {}
  have few : k ≤ 90 := few
  refine ⟨straight, unnested_printingTwice, k, few, last, steps, ?_⟩
  rcases ended with ⟨done, ended⟩ | ⟨_, fault, _, _, failed⟩
  · have same := ended (91 - k)
    rw [Nat.add_sub_cancel' (by omega)] at same
    rw [same] at ran
    exact ⟨done, ran.2, ended⟩
  · have same := failed (90 - k)
    rw [Nat.add_right_comm, Nat.add_sub_cancel' few] at same
    rw [same] at ran
    cases ran.1

end Machine

end CommandScript.StackMachine
