import CommandScript.Proofs.Registration
import CommandScript.Proofs.Stillness
import CommandScript.Proofs.Unwinding

/-! Commands that compute. A subtraction, product, quotient or remainder evaluates its operands,
which changes nothing where they call nothing and read no input. If one of them is no number the
command reports it and fails; if the operation has no result that is a fault. In both cases no
variable changes. Otherwise the result is assigned, and only the variable that it is assigned to
changes. Integers are computed with exactly. -/
namespace CommandScript

/-! ### Quiet operands -/

/-- An expression without calls that does not come to the word for a line of input. -/
structure Store.Quiet (st : Store) (text : Text) : Prop where
  free : st.CallFree text
  unread : ¬ text.Part Literal.inputWord

theorem Store.Quiet.of_not_mem {st : Store} {text : Text} (noCall : ')' ∉ text)
    (noInput : ¬ Literal.inputWord <:+: text) : st.Quiet text :=
  ⟨.of_not_mem noCall st, fun inside => noInput inside.isInfix⟩

theorem Store.Quiet.exec_valueOf {w : World} {text : Text} (quiet : w.store.Quiet text)
    (rounds n : Nat) (scope : Ref .scope) :
    (((Evaluator.ofRoom rounds n).valueOf scope text).exec w).2 = w :=
  (Evaluator.ofRoom_stays rounds n Run.mild_eq (fun reads => absurd reads quiet.unread)
    quiet.free).valueOf scope text .self w rfl

/-! ### Exact results -/

def Arithmetic.Exact : Arithmetic → Int → Int → Int → Prop
  | .sub, i, j, k => k = i - j
  | .mul, i, j, k => k = i * j
  | .rem, i, j, k => (∃ q, i = q * j + k) ∧ (0 ≤ k ∧ k < j ∨ j < k ∧ k ≤ 0)
  | .div, _, _, _ => False

private theorem fmod_of_neg (i : Int) {j : Int} (negative : j < 0) :
    j < Int.fmod i j ∧ Int.fmod i j ≤ 0 := by
  have low := Int.emod_nonneg i (Int.ne_of_lt negative)
  have high := Int.emod_lt_of_neg i negative
  rw [Int.fmod_eq_emod]
  by_cases divides : j ∣ i
  · rw [if_pos (.inr divides), Int.emod_eq_zero_of_dvd divides]
    omega
  · have remains : i % j ≠ 0 := fun zero => divides (Int.dvd_of_emod_eq_zero zero)
    rw [if_neg (by omega)]
    omega

private theorem fmod_exact (i : Int) {j : Int} (nonzero : j ≠ 0) :
    Arithmetic.Exact .rem i j (Int.fmod i j) := by
  refine ⟨⟨Int.fdiv i j, ?_⟩, ?_⟩
  · rw [Int.mul_comm]
    exact (Int.mul_fdiv_add_fmod i j).symm
  · rcases Int.lt_or_gt_of_ne nonzero with negative | positive
    · exact .inr (fmod_of_neg i negative)
    · exact .inl ⟨Int.fmod_nonneg_of_pos i positive, Int.fmod_lt_of_pos i positive⟩

private theorem Arithmetic.apply_exact {op : Arithmetic} (whole : op ≠ .div) (i j : Int)
    (defined : op = .rem → j ≠ 0) :
    ∃ k, op.apply (.int i) (.int j) = .ok (.int k) ∧ op.Exact i j k := by
  cases op with
  | sub => exact ⟨i - j, rfl, rfl⟩
  | mul => exact ⟨i * j, rfl, rfl⟩
  | div => exact absurd rfl whole
  | rem => exact ⟨Int.fmod i j, if_neg (defined rfl), fmod_exact i (defined rfl)⟩

/-! ### Results assigned -/

namespace Store

variable {st : Store} {scope : Ref .scope} {v : Value}

def homeOf (st : Store) (scope : Ref .scope) (isGlobal : Bool) (name : Text) : Ref .scope :=
  match st.resolve scope name with
  | some (owner, _) => owner
  | none => st.targetOf scope isGlobal

theorem Registered.assigned (registered : st.Registered) (held : st.Has scope.cell)
    (isGlobal : Bool) (name : Text) (scalar : v.IsScalar) :
    st.ChangesOnly (st.assigned scope isGlobal name v)
      (fun s label => s = st.homeOf scope isGlobal name ∧ label = name) ∧
      (st.assigned scope isGlobal name v).Registered := by
  unfold Store.assigned homeOf
  cases found : st.resolve scope name with
  | some meaning =>
    obtain ⟨owner, r⟩ := meaning
    have inside := (registered.closed.resolve held found).1
    exact ⟨registered.changesOnly_overwrite inside (resolve_first found).2 v,
      registered.overwrite r scalar⟩
  | none =>
    have inside := registered.closed.ancestors held (st.targetOf_mem_ancestors scope isGlobal)
    have known : st.HasAll v.cells := scalar.cells ▸ Store.hasAll_nil st
    exact ⟨registered.changesOnly_bindName inside name _, registered.declared inside name known⟩

end Store

private theorem Value.isScalar_ofNumber (c : Number) : (Value.ofNumber c).IsScalar := by
  cases c with
  | int n => exact .int n
  | float x => exact .float x

private theorem Value.asRead_ofNumber (c : Number) : (Value.ofNumber c).asRead = .ofNumber c := by
  cases c <;> rfl

/-! ### The commands -/

structure Computes (line : Text) (op : Arithmetic) (name left right : Text) : Prop where
  verb : (Command.of line).verb? = some (.arithmetic op)
  target : line.words[1]? = some name
  first : line.words[2]? = some left
  second : line.words[3]? = some right

theorem Computes.oneWord {line : Text} {op : Arithmetic} {name left right : Text}
    (computes : Computes line op name left right) : ' ' ∉ name :=
  (Text.infix_of_mem_splitOn (List.mem_of_getElem? computes.target)).2

namespace Site

def compute (s : Site) (op : Arithmetic) (a b : Value) : Run Outcome :=
  match a.number?, b.number? with
  | some x, some y => do
    let result ← Run.ofExcept (op.apply x y)
    s.store (← s.word 1) (.ofNumber result)
    return .done
  | _, _ => s.reportOperands a b op.sign

private theorem arithmetic_eq (s : Site) (op : Arithmetic) :
    s.arithmetic op = (do
      let a ← s.valueOf (← s.word 2)
      let b ← s.valueOf (← s.word 3)
      s.compute op a b) := by
  unfold arithmetic compute
  rfl

variable {s : Site} {op : Arithmetic} {a b : Value}

private theorem compute_numbers {p q : Number} (numbers : a.number? = some p ∧ b.number? = some q) :
    s.compute op a b = (do
      let result ← Run.ofExcept (op.apply p q)
      s.store (← s.word 1) (.ofNumber result)
      return .done) := by
  rw [compute, numbers.1, numbers.2]

private theorem exec_compute_fault {p q : Number}
    (numbers : a.number? = some p ∧ b.number? = some q) {fault : Fault}
    (undefined : op.apply p q = .error fault) (w : World) :
    (s.compute op a b).exec w = (.error fault, w) := by
  rw [compute_numbers numbers, undefined]
  rfl

private theorem compute_others (other : a.number? = none ∨ b.number? = none) :
    s.compute op a b = s.reportOperands a b op.sign := by
  unfold compute
  split
  · next first second => simp [first, second] at other
  · rfl

private theorem exec_reportOperands_fault {w : World} {fault : Fault} {sign : Text}
    (illegible : Notice.notANumber w.store s.ev.slack a b sign = .error fault) :
    (s.reportOperands a b sign).exec w = (.error fault, w) := by
  rw [reportOperands, Run.exec_bind_ok w (Run.exec_getStore w), illegible]
  rfl

end Site

namespace Computes

variable {rounds n : Nat} {w : World} {r : Ref .node} {op : Arithmetic} {name left right : Text}
  {a b : Value}
  (computes : Computes (w.store.node r).command op name left right)
include computes

theorem exec (file : Text)
    (first : ((Evaluator.ofRoom rounds n).valueOf (w.store.node r).scope left).exec w = (.ok a, w))
    (second : ((Evaluator.ofRoom rounds n).valueOf (w.store.node r).scope right).exec w =
      (.ok b, w)) :
    (runStep (.ofRoom rounds n) r file).exec w =
      ((Site.ofNode (.ofRoom rounds n) w.store r file).compute op a b).exec w := by
  let s := Site.ofNode (.ofRoom rounds n) w.store r file
  have left : (s.valueOf left).exec w = (.ok a, w) := first
  have right : (s.valueOf right).exec w = (.ok b, w) := second
  rw [runStep_verb computes.verb, Site.runVerb, Site.arithmetic_eq,
    Run.exec_bind_ok w (s.exec_word rfl computes.first w), Run.exec_bind_ok w left,
    Run.exec_bind_ok w (s.exec_word rfl computes.second w), Run.exec_bind_ok w right]

private theorem exec_result (file : Text) {p q c : Number}
    (numbers : a.number? = some p ∧ b.number? = some q) (closed : w.store.Closed)
    (held : w.store.Has r.cell) (plain : PlainName name) (defined : op.apply p q = .ok c) :
    ((Site.ofNode (.ofRoom rounds (n + 1)) w.store r file).compute op a b).exec w =
      (.ok .done,
        { w with store := w.store.assigned (w.store.node r).scope true name (.ofNumber c) }) := by
  let s := Site.ofNode (.ofRoom rounds (n + 1)) w.store r file
  have result : (Run.ofExcept (op.apply p q)).exec w = (.ok c, w) := by
    rw [defined]
    rfl
  have stored : (s.store name (.ofNumber c)).exec w = (.ok (), _) :=
    assign_plain rounds n w closed (closed.nodeScope held) true plain (Value.isScalar_ofNumber c)
  rw [Site.compute_numbers numbers, Run.exec_bind_ok w result,
    Run.exec_bind_ok w (s.exec_word rfl computes.target w), Run.exec_bind_ok w stored]
  rfl

end Computes

/-- A result that was assigned to a plain name of one word reads as it is, if the name was new or
did not mean a variable made for text. -/
theorem Store.read_result (rounds n : Nat) {w : World} (closed : w.store.Closed)
    {scope : Ref .scope} (held : w.store.Has scope.cell) {name : Text} (plain : PlainName name)
    (oneWord : ' ' ∉ name) (c : Number)
    (untagged : ∀ owner x, w.store.resolve scope name = some (owner, x) →
      (w.store.var x).tag ≠ .text) :
    let later := w.store.assigned scope true name (.ofNumber c)
    let after := { w with store := later }
    later.ReadsName scope name →
      ((Evaluator.ofRoom rounds (n + 2)).valueOf scope name).exec after =
        (.ok (.ofNumber c), after) := by
  intro later after reads
  have scalar := Value.isScalar_ofNumber c
  have flush : Spelled.trimSpaces name = name :=
    Spelled.trimSpaces_flush (fun space => oneWord (List.mem_of_head? space))
      (fun space => oneWord (List.mem_of_getLast? space))
  have given : later.readName scope name = .ok (Value.ofNumber c).asRead := by
    rw [Store.readName_assigned closed held true name scalar]
    exact (Store.readBack_eq_iff scalar).mpr fun owner x found =>
      ⟨untagged owner x found, .inl (Value.asRead_ofNumber c)⟩
  rw [read_plain rounds n after plain reads, flush, given, Value.asRead_ofNumber]

/-- A command computes with two quiet operands that have values, for a variable with a plain name.
If one of the values is no number, the command reports this and fails, and if the operation has no
result, that is a fault; all variables are as they were. Otherwise the command succeeds, the result
is assigned, and no other binding changes. The name then reads as the result, unless it meant a
variable made for text. Differences, products and remainders of integers are exact, and there is no
remainder or quotient for the divisor zero. -/
theorem arithmetic_all_or_nothing (rounds n : Nat) (file : Text) (w : World)
    (registered : w.store.Registered) (r : Ref .node) (held : w.store.Has r.cell)
    (op : Arithmetic) (name left right : Text)
    (computes : Computes (w.store.node r).command op name left right) (plain : PlainName name)
    (quietLeft : w.store.Quiet left) (quietRight : w.store.Quiet right) (a b : Value)
    (first : (((Evaluator.ofRoom rounds n).valueOf (w.store.node r).scope left).exec w).1 = .ok a)
    (second : (((Evaluator.ofRoom rounds n).valueOf (w.store.node r).scope right).exec w).1 =
      .ok b) :
    let ev := Evaluator.ofRoom rounds n
    let scope := (w.store.node r).scope
    let ran := (runStep ev r file).exec w
    (a.number? = none ∨ b.number? = none →
      (∀ line, Notice.notANumber w.store ev.slack a b op.sign = .ok line →
        ran = (.ok .failed, w.say line)) ∧
      ∀ fault, Notice.notANumber w.store ev.slack a b op.sign = .error fault →
        ran = (.error fault, w)) ∧
    ∀ p q, a.number? = some p ∧ b.number? = some q →
      (∀ fault, op.apply p q = .error fault → ran = (.error fault, w)) ∧
      (∀ c, op.apply p q = .ok c →
        let later := w.store.assigned scope true name (.ofNumber c)
        let after := { w with store := later }
        ran = (.ok .done, after) ∧
          w.store.ChangesOnly later (fun s label => s = w.store.homeOf scope true name ∧
            label = name) ∧ later.Registered ∧
          ((∀ owner x, w.store.resolve scope name = some (owner, x) → (w.store.var x).tag ≠ .text) →
            later.ReadsName scope name →
            ∀ m, ((Evaluator.ofRoom rounds (m + 2)).valueOf scope name).exec after =
              (.ok (.ofNumber c), after))) ∧
      ∀ i j, p = .int i → q = .int j →
        (op ≠ .div → (op = .rem → j ≠ 0) → ∃ k, op.apply p q = .ok (.int k) ∧ op.Exact i j k) ∧
        (op = .div ∨ op = .rem → j = 0 → op.apply p q = .error .zeroDivision) := by
  intro ev scope ran
  have evaluated : (ev.valueOf scope left).exec w = (.ok a, w) :=
    Prod.ext first (quietLeft.exec_valueOf rounds n scope)
  have evaluated' : (ev.valueOf scope right).exec w = (.ok b, w) :=
    Prod.ext second (quietRight.exec_valueOf rounds n scope)
  have goesOn : ran = ((Site.ofNode ev w.store r file).compute op a b).exec w :=
    computes.exec file evaluated evaluated'
  have inside := registered.closed.nodeScope held
  refine ⟨fun other => ?_, fun p q numbers => ⟨fun fault undefined => ?_, fun c defined => ?_, ?_⟩⟩
  · rw [goesOn, Site.compute_others other]
    exact ⟨fun line legible => (Site.reportOperands_fails_iff a b op.sign).mpr ⟨line, legible, rfl⟩,
      fun fault illegible => Site.exec_reportOperands_fault illegible⟩
  · rw [goesOn]
    exact Site.exec_compute_fault numbers undefined w
  · obtain ⟨changes, kept⟩ := registered.assigned inside true name (Value.isScalar_ofNumber c)
    refine ⟨?_, changes, kept, fun untagged reads m =>
      Store.read_result rounds m registered.closed inside plain computes.oneWord c untagged reads⟩
    -- without room no operand has a value
    cases n with
    | zero => cases first
    | succ n =>
      rw [goesOn]
      exact computes.exec_result file numbers registered.closed held plain defined
  · rintro i j rfl rfl
    refine ⟨fun whole nonzero => Arithmetic.apply_exact whole i j nonzero, ?_⟩
    rintro divides rfl
    rcases divides with rfl | rfl <;> rfl

def World.computing (content : Value) (tag : Tag) (line : Text) : World where
  store :=
    { Store.single content tag with
      lists := ⟨#[#[.bare (.int 1)]]⟩
      nodes :=
        ⟨#[{ command := line, index := 0, children := [], scope := ⟨0⟩, interactive := false }]⟩ }

theorem arithmetic_all_or_nothing_negative :
    let w := World.computing (.int (-7)) .int "rdiv y x 2".toList
    let ran := (runStep (Evaluator.ofRoom 0 2) ⟨0⟩ []).exec w
    ran.1 = .ok .done ∧ (((Evaluator.ofRoom 0 2).valueOf ⟨0⟩ ['y']).exec ran.2).1 =
      .ok (.int 1) := by
  intro w ran
  have computes : Computes (w.store.node ⟨0⟩).command .rem ['y'] ['x'] ['2'] := by
    constructor <;> decide
  have plain : PlainName ['y'] := by constructor <;> decide
  obtain ⟨_, numbers⟩ := arithmetic_all_or_nothing 0 2 [] w (by decide) ⟨0⟩ (by decide) .rem ['y']
    ['x'] ['2'] computes plain
    (.of_not_mem (by decide) (by decide)) (.of_not_mem (by decide) (by decide)) (.int (-7))
    (.int 2) rfl rfl
  obtain ⟨_, results, _⟩ := numbers (.int (-7)) (.int 2) ⟨rfl, rfl⟩
  obtain ⟨ended, _, _, read⟩ := results (.int 1) rfl
  have isNew : w.store.resolve ⟨0⟩ ['y'] = none := by decide
  have reads := read (fun owner x found => absurd (isNew.symm.trans found) (by simp))
    ⟨by decide, by decide⟩ 0
  refine ⟨congrArg Prod.fst ended, ?_⟩
  rw [show ran = _ from ended]
  exact congrArg Prod.fst reads

/-- Lists are no numbers either. -/
theorem list_operand_fails :
    let w := World.computing (.list ⟨0⟩) .list "mul y x 2".toList
    let ev := Evaluator.ofRoom 0 2
    w.store.Registered ∧ Computes (w.store.node ⟨0⟩).command .mul ['y'] ['x'] ['2'] ∧
    PlainName ['y'] ∧
      w.store.Quiet ['x'] ∧ w.store.Quiet ['2'] ∧ ((ev.valueOf ⟨0⟩ ['x']).exec w).1 =
        .ok (.list ⟨0⟩) ∧
      ((ev.valueOf ⟨0⟩ ['2']).exec w).1 = .ok (.int 2) ∧
      ((runStep ev ⟨0⟩ []).exec w).1 = .ok .failed := by
  intro w ev
  have computes : Computes (w.store.node ⟨0⟩).command .mul ['y'] ['x'] ['2'] := by
    constructor <;> decide
  have first : (ev.valueOf ⟨0⟩ ['x']).exec w = (.ok (.list ⟨0⟩), w) := rfl
  have second : (ev.valueOf ⟨0⟩ ['2']).exec w = (.ok (.int 2), w) := rfl
  refine ⟨by decide, computes, by constructor <;> decide, .of_not_mem (by decide) (by decide),
    .of_not_mem (by decide) (by decide), congrArg Prod.fst first, congrArg Prod.fst second, ?_⟩
  rw [computes.exec [] first second, Site.compute_others (.inl rfl)]
  exact congrArg Prod.fst ((Site.reportOperands_fails_iff _ _ _).mpr
    ⟨"RuntimeError: Not a number [1] * 2".toList, by decide +kernel, rfl⟩)

end CommandScript
