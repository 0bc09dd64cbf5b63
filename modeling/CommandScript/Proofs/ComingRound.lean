import CommandScript.Proofs.ListElements

/-! Indexes that come round. The length is taken off an index until the index is below it. For a
positive length this ends with the remainder; without one it ends only if nothing had to be taken
off. So every index from minus the length on gives an element of a list that has one, negative ones
give those counted from the end, and an empty list is the only one on which reading goes on for
ever. -/
namespace CommandScript

namespace Index

variable {limit : Nat} {i n : Int}

private theorem wrap_below (below : i < n) : wrap limit i n = .ok i := by
  cases limit <;> rw [wrap, if_pos below]

/-- Without a positive length the index only moves away from being below it. -/
theorem wrap_endless (none : n ≤ 0) (beyond : n ≤ i) : wrap limit i n = .error .tooDeep := by
  induction limit generalizing i with
  | zero => rw [wrap, if_neg (by omega)]
  | succ limit ih => rw [wrap, if_neg (by omega), ih (by omega)]

/-- What comes of an index: it stays if it is below the length, and else its remainder is left if
the length is positive and need not be taken off too often. -/
theorem wrap_eq (limit : Nat) (i n : Int) :
    wrap limit i n = if i < n then .ok i else if 0 < n ∧ i < n * (limit + 1) then .ok (i % n)
    else .error .tooDeep := by
  by_cases below : i < n
  · rw [if_pos below, wrap_below below]
  rw [if_neg below]
  by_cases positive : 0 < n
  · obtain ⟨length, rfl⟩ := Int.eq_ofNat_of_zero_le (Int.le_of_lt positive)
    by_cases near : i < length * ((limit : Int) + 1)
    · rw [if_pos ⟨positive, near⟩, wrap_of_lt near, if_neg below]
    · rw [if_neg fun both => near both.2, wrap_of_le (by omega)]
  · rw [if_neg fun both => positive both.1, wrap_endless (by omega) (by omega)]

/-- A positive length is taken off often enough in time. -/
theorem lt_mul_of_pos (positive : 0 < n) {limit : Nat} (room : i ≤ limit) : i < n * (limit + 1) :=
  calc
    i < 1 * ((limit : Int) + 1) := by omega
    _ ≤ n * (limit + 1) := Int.mul_le_mul_of_nonneg_right positive (by omega)

private theorem exists_wrap_iff : (∃ limit k, wrap limit i n = .ok k) ↔ 0 < n ∨ i < n := by
  constructor
  · rintro ⟨limit, k, ended⟩
    by_contra neither
    rw [not_or] at neither
    rw [wrap_endless (by omega) (by omega)] at ended
    cases ended
  · rintro (positive | below)
    · refine ⟨i.toNat, if i < n then i else i % n, ?_⟩
      have near : i < n * ((i.toNat : Int) + 1) := lt_mul_of_pos positive (by omega)
      rw [wrap_eq]
      split
      · rfl
      · rw [if_pos ⟨positive, near⟩]
    · exact ⟨0, i, wrap_below below⟩

private theorem wrap_result {k : Int} (ended : wrap limit i n = .ok k) :
    k = if i < n then i else i % n := by
  rw [wrap_eq] at ended
  split at ended
  · next below => rw [if_pos below, Except.ok.inj ended]
  · next beyond =>
    split at ended
    · rw [if_neg beyond, Except.ok.inj ended]
    · cases ended

private theorem wrap_mono {k : Int} {more : Nat} (ended : wrap limit i n = .ok k)
    (room : limit ≤ more) : wrap more i n = .ok k := by
  rw [wrap_eq] at ended ⊢
  by_cases below : i < n
  · rwa [if_pos below] at ended ⊢
  rw [if_neg below] at ended ⊢
  by_cases both : 0 < n ∧ i < n * (limit + 1)
  · have further : n * (limit + 1) ≤ n * (more + 1) :=
      Int.mul_le_mul_of_nonneg_left (by omega) (by omega)
    rw [if_pos both] at ended
    rw [if_pos ⟨both.1, by omega⟩, ended]
  · rw [if_neg both] at ended
    cases ended

end Index

/-! ### Elements -/

namespace Store

variable {st : Store} {l : Ref .list} {i : Int}

/-- An element in a variable that is called a text and holds something else. It is there, but it
cannot be read. -/
def IsStale (st : Store) : Item → Prop
  | .bare _ => False
  | .held r => (st.var r).tag = .text ∧ ∀ s, (st.var r).content ≠ .text s

private theorem itemReading_stale {item : Item} (stale : st.IsStale item) :
    st.itemReading item = .error .wrongKind := by
  cases item with
  | bare v => exact stale.elim
  | held r =>
    obtain ⟨tag, other⟩ := stale
    rw [itemReading, Variable.reading, if_pos tag]
    cases content : (st.var r).content with
    | text s => exact absurd content (other s)
    | _ => rfl

private theorem exists_itemReading {item : Item} (fresh : ¬ st.IsStale item) :
    ∃ v, st.itemReading item = .ok v := by
  cases item with
  | bare v => exact ⟨v, rfl⟩
  | held r =>
    by_cases tag : (st.var r).tag = .text
    · by_cases text : ∃ s, (st.var r).content = .text s
      · obtain ⟨s, content⟩ := text
        exact ⟨.text s.encloseSingle, by simp only [itemReading, Variable.reading,
          if_pos tag, content]⟩
      · exact absurd ⟨tag, not_exists.mp text⟩ fresh
    · exact ⟨_, if_neg tag⟩

private theorem itemReading_ne_tooDeep (item : Item) : st.itemReading item ≠ .error .tooDeep := by
  intro endless
  by_cases stale : st.IsStale item
  · rw [itemReading_stale stale] at endless
    cases endless
  · obtain ⟨v, read⟩ := exists_itemReading stale
    rw [read] at endless
    cases endless

/-- Every index that is not too low means an element, which is read if there is room enough to come
to it. -/
theorem exists_element (positive : 0 < (st.list l).size) (above : -(st.list l).size ≤ i) :
    ∃ item, (st.list l)[(i % (st.list l).size).toNat]? = some item ∧
      ∀ fuel : Nat, i < (st.list l).size * (fuel + 1) → st.elementReading fuel l i =
        st.itemReading item := by
  refine ⟨_, Array.getElem?_eq_getElem (place_lt positive i), fun fuel near => ?_⟩
  obtain ⟨item, there, read⟩ := elementReading_near positive above near
  rw [Array.getElem?_eq_getElem (place_lt positive i), Option.some.injEq] at there
  rw [read, there]

/-- A negative index counts from the end. -/
theorem exists_element_from_end (above : -(st.list l).size ≤ i) (negative : i < 0) :
    ∃ item, (st.list l)[((st.list l).size + i).toNat]? = some item ∧
    ∀ fuel, st.elementReading fuel l i = st.itemReading item := by
  have positive : 0 < (st.list l).size := by omega
  obtain ⟨item, there, read⟩ := exists_element positive above
  have place : i % (st.list l).size = (st.list l).size + i := by
    rw [← Int.add_emod_left, Int.emod_eq_of_lt (by omega) (by omega)]
  rw [place] at there
  refine ⟨item, there, fun fuel => read fuel ?_⟩
  have nonnegative : 0 ≤ ((st.list l).size : Int) * ((fuel : Int) + 1) :=
    Int.mul_nonneg (by omega) (by omega)
  omega

/-- With room enough the only list whose elements are looked for without end is the empty one. -/
theorem elementReading_ne_tooDeep (ends : ¬ ((st.list l).size = 0 ∧ 0 ≤ i)) {fuel : Nat}
    (room : i ≤ fuel) : st.elementReading fuel l i ≠ .error .tooDeep := by
  by_cases low : i < -(st.list l).size
  · rw [elementReading_low low]
    simp
  · have positive : 0 < (st.list l).size := by omega
    obtain ⟨item, _, read⟩ := exists_element positive (by omega : -((st.list l).size : Int) ≤ i)
    rw [read fuel (Index.lt_mul_of_pos (by omega) room)]
    exact itemReading_ne_tooDeep item

end Store

/-- The length is taken off an index until the index is below it: this ends exactly if the length is
positive or the index is below it from the start, with the index itself or with its remainder,
however much room there is for it. So in a list that has elements every index from zero on gives the
element at its remainder once there is room enough, the negative ones down to minus the length give
the elements counted from the end, and those below are out of range; reading goes on for ever
exactly if the list is empty and the index not negative. An element that is found is read, which
fails if its variable is called a text and holds something else. -/
theorem indexes_come_round {w : World} {r : Ref .variable} {l : Ref .list}
    (reads : (w.store.var r).reading = .ok (.list l)) (i : Int) :
    let size : Int := (w.store.list l).size
    let get := fun ev : Evaluator => (element ev r (.int i)).exec w
    (∀ n : Int, ((∃ limit k, Index.wrap limit i n = .ok k) ↔ 0 < n ∨ i < n) ∧
      (∀ limit k, Index.wrap limit i n = .ok k →
        k = (if i < n then i else i % n) ∧ ∀ more, limit ≤ more → Index.wrap more i n = .ok k) ∧
      (¬ (0 < n ∨ i < n) → ∀ limit, Index.wrap limit i n = .error .tooDeep)) ∧
    (0 < size → 0 ≤ i → ∃ item, (w.store.list l)[(i % size).toNat]? = some item ∧
      ∀ ev : Evaluator, i < size * (ev.slack + 1) → get ev = (w.store.itemReading item, w)) ∧
    (-size ≤ i → i < 0 → ∃ item, (w.store.list l)[(size + i).toNat]? = some item ∧
      ∀ ev, get ev = (w.store.itemReading item, w)) ∧
    (i < -size → ∀ ev, get ev = (.error .badIndex, w)) ∧
    ((∀ ev, get ev = (.error .tooDeep, w)) ↔ size = 0 ∧ 0 ≤ i) ∧
    ∀ item, ((∃ v, w.store.itemReading item = .ok v) ↔ ¬ w.store.IsStale item) ∧
      (w.store.IsStale item → w.store.itemReading item = .error .wrongKind) := by
  intro size get
  have read : ∀ ev, get ev = (w.store.elementReading ev.slack l i, w) :=
    exec_element_of_reading reads rfl
  simp only [read, Prod.mk.injEq, and_true]
  refine ⟨fun n => ⟨Index.exists_wrap_iff, fun limit k ended => ?_, fun endless limit => ?_⟩,
    fun positive nonnegative => ?_, fun above negative => ?_,
    fun low ev => Store.elementReading_low low, ?_, fun item => ⟨⟨?_, ?_⟩, ?_⟩⟩
  · exact ⟨Index.wrap_result ended, fun more => Index.wrap_mono ended⟩
  · exact Index.wrap_endless (by omega) (by omega)
  · obtain ⟨item, there, given⟩ :=
      Store.exists_element (by omega) (by omega : -((w.store.list l).size : Int) ≤ i)
    exact ⟨item, there, fun ev near => given ev.slack near⟩
  · obtain ⟨item, there, given⟩ := Store.exists_element_from_end above negative
    exact ⟨item, there, fun ev => given ev.slack⟩
  · constructor
    · intro endless
      by_contra ends
      have room : i ≤ ((Evaluator.ofRoom 0 i.toNat).slack : Nat) := by
        rw [Evaluator.slack_ofRoom]
        omega
      exact Store.elementReading_ne_tooDeep (by omega) room (endless (.ofRoom 0 i.toNat))
    · rintro ⟨empty, nonnegative⟩ ev
      apply Store.elementReading_far
      change size * _ ≤ i
      rwa [empty, Int.zero_mul]
  · rintro ⟨v, given⟩ stale
    rw [Store.itemReading_stale stale] at given
    cases given
  · exact Store.exists_itemReading
  · exact Store.itemReading_stale

def Store.staleList : Store where
  vars := ⟨#[{ name := some ['l'], home := some ⟨0⟩, content := .list ⟨0⟩, tag := .list },
    { name := some nameless, home := some ⟨0⟩, content := .int 7, tag := .int },
    { name := some ['x'], home := some ⟨0⟩, content := .int 5, tag := .text }]⟩
  lists := ⟨#[#[.held ⟨1⟩, .held ⟨2⟩]]⟩

theorem indexes_come_round_stale :
    let w : World := { store := .staleList }
    let get := fun i : Int => (element (.ofRoom 0 3) ⟨0⟩ (.int i)).exec w
    (w.store.var ⟨0⟩).reading = .ok (.list ⟨0⟩) ∧ get 4 = (.ok (.int 7), w) ∧
    get (-2) = (.ok (.int 7), w) ∧
      get (-3) = (.error .badIndex, w) ∧ get 3 = (.error .wrongKind, w) := by
  intro w get
  have reads : (w.store.var ⟨0⟩).reading = .ok (.list ⟨0⟩) := rfl
  have even : ((4 : Int) % ((w.store.list ⟨0⟩).size : Int)).toNat = 0 := by decide
  have odd : ((3 : Int) % ((w.store.list ⟨0⟩).size : Int)).toNat = 1 := by decide
  obtain ⟨_, around, _⟩ := indexes_come_round reads 4
  obtain ⟨first, here, given⟩ := around (by decide) (by decide)
  rw [even] at here
  obtain rfl : Item.held ⟨1⟩ = first := Option.some.inj here
  obtain ⟨_, _, fromEnd, _⟩ := indexes_come_round reads (-2)
  obtain ⟨last, there, taken⟩ := fromEnd (by decide) (by decide)
  obtain rfl : Item.held ⟨1⟩ = last := Option.some.inj there
  obtain ⟨_, _, _, low, _⟩ := indexes_come_round reads (-3)
  obtain ⟨_, again, _, _, _, reading⟩ := indexes_come_round reads 3
  obtain ⟨second, found, failed⟩ := again (by decide) (by decide)
  rw [odd] at found
  obtain rfl : Item.held ⟨2⟩ = second := Option.some.inj found
  have stale : w.store.IsStale (.held ⟨2⟩) := ⟨rfl, fun s same => by cases same⟩
  refine ⟨reads, given _ (by decide), taken _, low (by decide) _, ?_⟩
  exact (failed _ (by decide)).trans (congrArg (·, w) ((reading _).2 stale))

end CommandScript
