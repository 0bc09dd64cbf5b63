import CommandScript.Proofs.SharedLists

/-! The elements of a list in a variable. A negative index counts from the end. An index beyond the
end comes round when an element is read, as often as the levels of nesting allow, but writing to it
fails. -/
namespace CommandScript

namespace Store

variable {st : Store} {l : Ref .list} {i : Int} {fuel : Nat}

def itemReading (st : Store) : Item → Except Fault Value
  | .bare v => .ok v
  | .held r => (st.var r).reading

def elementReading (st : Store) (fuel : Nat) (l : Ref .list) (i : Int) : Except Fault Value := do
  let k ← Index.wrap fuel i (st.list l).size
  st.itemReading (← elementAt st k (.list l))

section Ranges

variable (positive : 0 < (st.list l).size)
include positive

theorem place_lt (i : Int) : (i % (st.list l).size).toNat < (st.list l).size := by
  have upper := Int.emod_lt_of_pos i (by omega : (0 : Int) < (st.list l).size)
  omega

/-- An index that comes round in time gives the element at its place. -/
theorem elementReading_near (above : -(st.list l).size ≤ i)
    (near : i < (st.list l).size * (fuel + 1)) :
    ∃ item, (st.list l)[(i % (st.list l).size).toNat]? = some item ∧
    st.elementReading fuel l i = st.itemReading item := by
  have there := Array.getElem?_eq_getElem (place_lt positive i)
  refine ⟨_, there, ?_⟩
  rw [elementReading, Index.wrap_of_lt near]
  change (elementAt st _ (.list l) >>= st.itemReading) = _
  rw [elementAt, Index.position?_wrapped positive above, Option.bind_some, there]
  rfl

omit positive in
theorem elementReading_low (low : i < -(st.list l).size) :
    st.elementReading fuel l i = .error .badIndex := by
  have near : i < (st.list l).size * ((fuel : Int) + 1) := by
    have nonnegative : 0 ≤ ((st.list l).size : Int) * ((fuel : Int) + 1) :=
      Int.mul_nonneg (by omega) (by omega)
    omega
  have nowhere : Index.position? i (st.list l).size = none := by
    rw [Index.position?, if_neg (by omega), if_neg (by omega)]
  rw [elementReading, Index.wrap_of_lt near, if_pos (by omega)]
  change (elementAt st i (.list l) >>= st.itemReading) = _
  rw [elementAt, nowhere]
  rfl

omit positive in
theorem elementReading_far (far : (st.list l).size * (fuel + 1) ≤ i) :
    st.elementReading fuel l i = .error .tooDeep := by
  rw [elementReading, Index.wrap_of_le far]
  rfl

end Ranges

theorem Stands.itemReading {item : Item} {v : Value} (stands : st.Stands item v) :
    st.itemReading item = .ok v := by
  cases item with
  | bare u => exact congrArg Except.ok stands.1
  | held r => exact stands.1

end Store

def World.putBare (w : World) (l : Ref .list) (p : Nat) (v : Value) : World :=
  { w with store := w.store.updateList l (·.setIfInBounds p (.bare v)) }

private theorem exec_readItem (item : Item) (w : World) :
    (readItem item).exec w = (w.store.itemReading item, w) := by
  cases item with
  | bare v => rfl
  | held r => exact Run.exec_readVariable r w

/-- Reading an element of a variable that reads as a list. -/
theorem exec_element_of_reading {w : World} {l : Ref .list} {r : Ref .variable}
    (reads : (w.store.var r).reading = .ok (.list l)) {u : Value} {i : Int}
    (whole : u.toInt = .ok i) (ev : Evaluator) :
    (element ev r u).exec w = (w.store.elementReading ev.slack l i, w) := by
  have opened : (element ev r u).exec w =
    (Run.ofExcept (Index.wrap ev.slack i (w.store.list l).size) >>= fun k =>
      Run.ofExcept (elementAt w.store k (.list l)) >>= readItem).exec w := by
    have read := Run.exec_readVariable r w
    rw [reads] at read
    rw [element, Run.exec_bind_ok w read, whole, Run.ofExcept, pure_bind,
      Run.exec_bind_ok w (Run.exec_getStore w)]
    rfl
  rw [opened, Store.elementReading]
  cases Index.wrap ev.slack i (w.store.list l).size with
  | error fault => rfl
  | ok k =>
    change (Run.ofExcept (elementAt w.store k (.list l)) >>= readItem).exec w =
      (elementAt w.store k (.list l) >>= w.store.itemReading, w)
    cases elementAt w.store k (.list l) with
    | error fault => rfl
    | ok item => exact exec_readItem item w

section Lists

variable {w : World} {l : Ref .list} {r : Ref .variable} (tag : (w.store.var r).tag = .list)
  (content : (w.store.var r).content = .list l)
include tag content

theorem exec_readVariable_list : (readVariable r).exec w = (.ok (.list l), w) := by
  rw [Run.exec_readVariable, Variable.reading_list tag content]

variable {u : Value} {i : Int} (whole : u.toInt = .ok i) (ev : Evaluator)
include whole

theorem exec_element_list : (element ev r u).exec w = (w.store.elementReading ev.slack l i, w) :=
  exec_element_of_reading (Variable.reading_list tag content) whole ev

theorem exec_setElement_beyond (v : Value)
    (beyond : i < -(w.store.list l).size ∨ (w.store.list l).size ≤ i) :
    (setElement ev r u (.bare v)).exec w = (.error .badIndex, w) := by
  have nowhere : Index.position? i (w.store.list l).size = none := by
    unfold Index.position?
    rcases beyond with low | high
    · rw [if_neg (by omega), if_neg (by omega)]
    · rw [if_pos (by omega), if_neg (by omega)]
  have put : (putElement (.list l) i (.bare v)).exec w = (.error .badIndex, w) := by
    rw [putElement, Run.exec_bind_ok w (Run.exec_getStore w), nowhere]
    rfl
  rw [setElement, Run.exec_bind_ok w (exec_readVariable_list tag content), whole,
    Run.ofExcept, pure_bind]
  exact Run.exec_bind_error w put

/-- Within the list the value is put at its place as it stands, and then the list is evaluated anew
under the name of its variable. -/
theorem exec_setElement_within (v : Value) {h : Ref .scope} {name : Text}
    (home : (w.store.var r).home = some h) (named : (w.store.var r).name = some name)
    (above : -(w.store.list l).size ≤ i) (below : i < (w.store.list l).size) :
    (setElement ev r u (.bare v)).exec w =
      (update ev h (some name) (pure (.bare (.list l)))).exec
        (w.putBare l (i % (w.store.list l).size).toNat v) := by
  let placed := w.putBare l (i % (w.store.list l).size).toNat v
  have put : (putElement (.list l) i (.bare v)).exec w = (.ok (), placed) := by
    rw [putElement, Run.exec_bind_ok w (Run.exec_getStore w), Index.position?_eq above below]
    rfl
  have same : placed.store.var r = w.store.var r := rfl
  rw [setElement, Run.exec_bind_ok w (exec_readVariable_list tag content), whole, Run.ofExcept,
    pure_bind, Run.exec_bind_ok w put, Run.exec_bind_ok placed (Run.exec_getStore placed)]
  simp only [same, home, named, content, placed]

end Lists

end CommandScript
