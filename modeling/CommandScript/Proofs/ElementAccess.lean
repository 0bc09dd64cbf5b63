import CommandScript.Proofs.ListCommands

/-! Reading and writing the elements of a list in a variable. A negative index counts from the end
either way. An index beyond the end comes round when an element is read, as often as the levels of
nesting allow, but writing to it fails. What is written is evaluated with the whole list: a number
and a text in quotes are read back, a numeral has become a number, a name has become a copy of the
variable that it means, and a text of which no variable can be made stops the evaluation but stays
in the list. All other elements read as before. -/
namespace CommandScript

namespace Store

variable {st later : Store} {l : Ref .list} {j : Int} {fuel : Nat}

/-- Two lists of one length that read alike but for one place give the same at all indexes that mean
other places. -/
theorem elementReading_congr (positive : 0 < (st.list l).size) {p : Nat}
    (size : (later.list l).size = (st.list l).size)
    (alike : ∀ k item, k ≠ p → (st.list l)[k]? = some item → ∃ new, (later.list l)[k]? = some new ∧
      later.itemReading new = st.itemReading item)
    (other : (j % (st.list l).size).toNat ≠ p) :
    later.elementReading fuel l j = st.elementReading fuel l j := by
  by_cases low : j < -(st.list l).size
  · rw [elementReading_low low, elementReading_low (by rwa [size])]
  by_cases far : (st.list l).size * ((fuel : Int) + 1) ≤ j
  · rw [elementReading_far far, elementReading_far (by rwa [size])]
  have above : -((st.list l).size : Int) ≤ j := by omega
  have near : j < (st.list l).size * ((fuel : Int) + 1) := by omega
  obtain ⟨item, there, given⟩ := elementReading_near positive above near
  rw [← size] at positive above near
  obtain ⟨now, here, after⟩ := elementReading_near positive above near
  obtain ⟨new, found, same⟩ := alike _ item other there
  rw [size, found, Option.some.injEq] at here
  subst here
  rw [given, after, same]

end Store

/-! ### What is stored -/

/-- What a number or a text reads as once it is stored: a text in quotes comes back in single ones,
a numeral has become its number, and a name has become a copy of the variable that it means. -/
inductive Store.StoresAs (st : Store) (owner : Ref .scope) : Value → Except Fault Value → Prop where
  | int (n : Int) : StoresAs st owner (.int n) (.ok (.int n))
  | quoted {t : Text} (quoted : Spelled.isQuoted t = true) (two : 2 ≤ t.length) :
      StoresAs st owner (.text t) (.ok (.text (Text.encloseSingle (Spelled.inner t))))
  | whole {t : Text} {n : Int} (numeral : Number.readInt? t = some n) :
      StoresAs st owner (.text t) (.ok (.int n))
  | decimal {t : Text} {x : Float} (noInt : Number.readInt? t = none)
      (numeral : Number.readFloat? t = some x) :
      StoresAs st owner (.text t) (.ok (.float x))
  | named {t : Text} {holder : Ref .scope} {q : Ref .variable}
      (noQuotes : Spelled.isQuoted t = false) (noInt : Number.readInt? t = none)
      (noFloat : Number.readFloat? t = none) (noCondition : isCondition t = false)
      (single : '.' ∉ Spelled.trimSpaces t)
      (meaning : st.resolve owner (Spelled.trimSpaces t) = some (holder, q)) :
      StoresAs st owner (.text t) (st.var q).reading

namespace Store.StoresAs

variable {st : Store} {owner : Ref .scope} {v : Value} {result : Except Fault Value}
  (stores : st.StoresAs owner v result)
include stores

/-- As long as names mean the same and the variables are kept, the same variable is made. -/
theorem exec_bind (closed : st.Closed) (inside : st.Has owner.cell) (rounds n : Nat) :
    ∃ x : Variable, x.reading = result ∧ ∀ w : World, w.store.resolve owner = st.resolve owner →
      st.vars.Extends w.store.vars →
      ((Evaluator.ofRoom rounds (n + 1)).bind (some owner) nameless false v).exec w =
        (.ok x, w) := by
  cases stores with
  | int k =>
    exact ⟨{ name := some nameless, home := some owner, content := .int k, tag := .int }, rfl,
      fun _ _ _ => rfl⟩
  | @quoted t quoted two =>
    refine ⟨{ name := some nameless, home := some owner, content := .text (Spelled.inner t),
              tag := .text }, rfl, fun w _ _ => ?_⟩
    change (bindText (.ofRoom rounds n) (some owner) nameless false t).exec w = _
    rw [bindText, if_pos quoted]
    rfl
  | @whole t k given =>
    have numeral : IsNumeral t := .inl (by simp [given])
    refine ⟨{ name := some nameless, home := some owner, content := .int k, tag := .int }, rfl,
      fun w _ _ => ?_⟩
    change (bindText (.ofRoom rounds n) (some owner) nameless false t).exec w = _
    simp only [bindText, numeral.unquoted, given, Bool.false_eq_true, if_false]
    rfl
  | @decimal t x noInt given =>
    have numeral : IsNumeral t := .inr (by simp [given])
    refine ⟨{ name := some nameless, home := some owner, content := .float x, tag := .float }, rfl,
      fun w _ _ => ?_⟩
    change (bindText (.ofRoom rounds n) (some owner) nameless false t).exec w = _
    simp only [bindText, numeral.unquoted, noInt, given, Bool.false_eq_true, if_false]
    rfl
  | @named t holder q noQuotes noInt noFloat noCondition single meaning =>
    refine ⟨{ name := (st.var q).name, home := some owner, content := (st.var
      q).content, tag := (st.var q).tag }, rfl, fun w resolve vars => ?_⟩
    have same : w.store.var q = st.var q := (vars q (closed.resolve inside meaning).2).2
    rw [← resolve] at meaning
    change (bindText (.ofRoom rounds n) (some owner) nameless false t).exec w = _
    simp only [bindText, noQuotes, noInt, noFloat, noCondition, Bool.false_eq_true, if_false]
    rw [bindName_known w _ false single meaning, same]

/-- It is no quote character. -/
theorem silent {c : Char} (quote : c ∈ ['"', '\'']) : Spells.spells c (Item.bare v) = false := by
  cases stores with
  | int => rfl
  | quoted _ two => exact spells_text_of_two two c
  | whole given => exact spells_unquoted (IsNumeral.unquoted (.inl (by simp [given]))) quote
  | decimal _ given => exact spells_unquoted (IsNumeral.unquoted (.inr (by simp [given]))) quote
  | named noQuotes => exact spells_unquoted noQuotes quote

end Store.StoresAs

theorem Value.IsScalar.silent {v : Value} (scalar : v.IsScalar) (c : Char) :
    Spells.spells c (Item.bare v) = false := by
  cases scalar with
  | text _ _ two => exact spells_text_of_two two c
  | int | float => rfl

/-! ### Elements that read as before -/

namespace Store

variable {st middle later : Store} {l : Ref .list} {k p : Nat}

/-- An element is a variable that is there, or a value that stays as it is when a variable is made
of it. -/
def Firm (st : Store) : Item → Prop
  | .bare v => v.asRead = v
  | .held r => st.Has r.cell

def ReadsOn (st later : Store) (l : Ref .list) (k : Nat) : Prop :=
  ∀ item, (st.list l)[k]? = some item → st.Firm item →
    ∃ new, (later.list l)[k]? = some new ∧ later.Firm new ∧
    later.itemReading new = st.itemReading item

theorem ReadsOn.trans (first : st.ReadsOn middle l k) (second : middle.ReadsOn later l k) :
    st.ReadsOn later l k := by
  intro item there firm
  obtain ⟨between, found, firm, same⟩ := first item there firm
  obtain ⟨new, now, firm, onward⟩ := second between found firm
  exact ⟨new, now, firm, onward.trans same⟩

/-- Where the element itself and the variables are as before, so is what it reads as. -/
theorem ReadsOn.of_same (same : (later.list l)[k]? = (st.list l)[k]?)
    (vars : st.vars.Extends later.vars) : st.ReadsOn later l k := by
  intro item there firm
  refine ⟨item, same.trans there, ?_⟩
  cases item with
  | bare v => exact ⟨firm, rfl⟩
  | held r => exact ⟨(vars r firm).1, congrArg Variable.reading (vars r firm).2⟩

private theorem Wraps.readsOn (wraps : st.Wraps later) (l : Ref .list) (k : Nat) :
    st.ReadsOn later l k := by
  rcases wraps.items l k with same | ⟨v, r, bare, held, _, has, reads⟩
  · exact .of_same same wraps.vars
  · intro item there firm
    obtain rfl : Item.bare v = item := Option.some.inj (bare.symm.trans there)
    refine ⟨.held r, held, has, ?_⟩
    change (later.var r).reading = .ok v
    have plain : v.asRead = v := firm
    rw [reads, plain]

end Store

/-! ### Writing -/

namespace Store

variable {st later : Store} {owner : Ref .scope} {r : Ref .variable} {l : Ref .list} {p : Nat}
  {result : Except Fault Value}

/-- A variable that was made for a list holds it, and its name means it, bound in the owner. -/
structure HoldsList (st : Store) (owner : Ref .scope) (r : Ref .variable)
    (l : Ref .list) : Prop where
  has : st.Has r.cell
  tag : (st.var r).tag = .list
  content : (st.var r).content = .list l
  own : ∃ h name, (st.var r).home = some h ∧ (st.var r).name = some name ∧
    st.resolve h name = some (owner, r)

private theorem HoldsList.has_owner (holds : st.HoldsList owner r l) (closed : st.Closed) :
    st.Has owner.cell := by
  obtain ⟨h, name, home, _, resolved⟩ := holds.own
  exact (closed.resolve (closed.home holds.has home) resolved).1

private theorem size_list_set (st : Store) (l k : Ref .list) (i : Nat) (new : Item) :
    ((st.updateList l (·.setIfInBounds i new)).list k).size = (st.list k).size := by
  rcases Arena.read_update_cases st.lists l k (·.setIfInBounds i new) with same | ⟨rfl, _, changed⟩
  · exact congrArg Array.size same
  · exact (congrArg Array.size changed).trans (Array.size_setIfInBounds ..)

/-- A value came to a place of a list: it is read there, and all else is read as before. -/
structure WritesAt (st later : Store) (l : Ref .list) (p : Nat)
    (result : Except Fault Value) : Prop where
  scopes : later.scopes = st.scopes
  tables : later.tables = st.tables
  vars : st.vars.Extends later.vars
  size : (later.list l).size = (st.list l).size
  here : ∃ new, (later.list l)[p]? = some new ∧ later.itemReading new = result
  elsewhere : ∀ k, k ≠ p → st.ReadsOn later l k

namespace WritesAt

variable (writes : st.WritesAt later l p result)
include writes

private theorem holdsList (holds : st.HoldsList owner r l) : later.HoldsList owner r l := by
  obtain ⟨has, same⟩ := writes.vars r holds.has
  have same : later.var r = st.var r := same
  obtain ⟨h, name, home, named, resolved⟩ := holds.own
  refine ⟨has, by rw [same, holds.tag], by rw [same, holds.content], h, name, by rw [same,
    home], by rw [same, named], ?_⟩
  rw [resolve_congr writes.scopes writes.tables, resolved]

private theorem elementReading_here {i : Int} {fuel : Nat} (positive : 0 < (st.list l).size)
    (above : -(st.list l).size ≤ i) (near : i < (st.list l).size * (fuel + 1))
    (place : (i % (st.list l).size).toNat = p) : later.elementReading fuel l i = result := by
  rw [← writes.size] at positive above near place
  obtain ⟨item, there, given⟩ := elementReading_near positive above near
  obtain ⟨new, found, reads⟩ := writes.here
  rw [place, found, Option.some.injEq] at there
  rw [given, ← there, reads]

private theorem elementReading_elsewhere (firm : ∀ item ∈ (st.list l), st.Firm item)
    (positive : 0 < (st.list l).size) {j : Int} {fuel : Nat}
    (other : (j % (st.list l).size).toNat ≠ p) :
    later.elementReading fuel l j = st.elementReading fuel l j := by
  refine elementReading_congr positive writes.size (fun k item apart there => ?_) other
  obtain ⟨new, found, _, same⟩ :=
    writes.elsewhere k apart item there (firm item (Array.mem_of_getElem? there))
  exact ⟨new, found, same⟩

end WritesAt

end Store

section Writing

variable {w : World} {owner : Ref .scope} {r : Ref .variable} {l : Ref .list} {p : Nat}

private theorem resolve_putBare (w : World) (l : Ref .list) (p : Nat) (v : Value) (s : Ref .scope)
    (name : Text) : (w.putBare l p v).store.resolve s name = w.store.resolve s name :=
  Store.resolve_updateList l _ s name

section Putting

variable (inside : p < (w.store.list l).size) (v : Value)
include inside

private theorem getElem?_putBare (k : Nat) :
    ((w.putBare l p v).store.list l)[k]? = if k = p then some (.bare v)
    else (w.store.list l)[k]? := by
  have put := Store.getElem?_list_set (Array.getElem?_eq_getElem inside) (.bare v) l k
  simp only [true_and] at put
  exact put

private theorem readsOn_putBare {k : Nat} (other : k ≠ p) :
    w.store.ReadsOn (w.putBare l p v).store l k := by
  refine .of_same ?_ (.refl _)
  rw [getElem?_putBare inside, if_neg other]

variable (scalars : ∀ u, .bare u ∈ (w.store.list l).toList → u.IsScalar)
include scalars

private theorem scalars_putBare {k : Nat} (other : k ≠ p) {u : Value}
    (bare : ((w.putBare l p v).store.list l)[k]? = some (.bare u)) : u.IsScalar := by
  rw [getElem?_putBare inside, if_neg other] at bare
  exact scalars u (Array.mem_toList_iff.mpr (Array.mem_of_getElem? bare))

/-- With a value that is no quote character among numbers and texts, the list is not taken for a
text. -/
theorem quotedListText_putBare (silent : ∀ c ∈ ['"', '\''], Spells.spells c (Item.bare v) = false)
    (fuel : Nat) :
    quotedListText? (w.putBare l p v).store fuel
      ((w.putBare l p v).store.list l).toList = none := by
  refine quotedListText_eq_none (fun c quote item last => ?_) _ fuel
  obtain ⟨k, there⟩ := List.mem_iff_getElem?.mp (List.mem_of_getLast? last)
  rw [Array.getElem?_toList, getElem?_putBare inside] at there
  split at there
  · cases there
    exact silent c quote
  · cases item with
    | held => rfl
    | bare u => exact (scalars u (Array.mem_toList_iff.mpr (Array.mem_of_getElem? there))).silent c

end Putting

section Evaluating

variable (rounds n : Nat) (inside : p < (w.store.list l).size)
  (operands : ∀ u, .bare u ∈ (w.store.list l).toList → u.IsOperand)
include inside operands

/-- A value that can be stored is read at its place once the list is evaluated anew. -/
theorem evaluate_putBare (closed : w.store.Closed) (has : w.store.Has owner.cell) {v : Value}
    {result : Except Fault Value} (stores : w.store.StoresAs owner v result) :
    ∃ later, (evaluate (.ofRoom rounds (n + 2)) (some owner) (.bare (.list l))).exec
      (w.putBare l p v) = (.ok (.list l), later) ∧
      w.store.WritesAt later.store l p result := by
  have scalars := fun u member => (operands u member).scalar
  have there : ((w.putBare l p v).store.list l)[p]? = some (.bare v) := by
    rw [getElem?_putBare inside, if_pos rfl]
  obtain ⟨x, reads, makes⟩ := stores.exec_bind closed has rounds n
  have makes : ∀ middle : World, (w.putBare l p v).Wraps (some owner) middle →
      ((Evaluator.ofRoom rounds (n + 1)).bind (some owner) nameless false v).exec middle =
        (.ok x, middle) := by
    intro middle wraps
    refine makes middle (funext fun name => ?_) wraps.store.vars
    rw [wraps.store.resolve, resolve_putBare]
  obtain ⟨middle, later, before, still, after, settled⟩ :=
    settle_makes rounds n there (fun k other _ => scalars_putBare inside v scalars other) makes
  have unquoted := quotedListText_putBare inside v scalars (fun _ => stores.silent)
    (Evaluator.ofRoom rounds (n + 1)).slack
  refine ⟨later, ?_, ?_⟩
  · rw [(evaluate_list rfl (some owner) l _).2 unquoted, settled]
    rfl
  have wrapped := Store.getElem?_wrapAt still x l
  have fresh : ((middle.store.wrapAt l p x).list l)[p]? =
      some (.held ⟨middle.store.vars.size⟩) := by
    rw [wrapped, if_pos ⟨rfl, rfl⟩]
  have made := (middle.store.extends_newVariable x).vars
  refine
    { scopes := after.store.scopes.trans before.store.scopes
      tables := after.store.tables.trans before.store.tables
      vars := (before.store.vars.trans made).trans after.store.vars
      size := ?_, here := ?_, elsewhere := fun k other => ?_ }
  · calc
      (later.store.list l).size = ((middle.store.wrapAt l p x).list l).size :=
        after.store.list_size l
      _ = (middle.store.list l).size := Store.size_list_set (middle.store.newVariable x).2 l l p _
      _ = ((w.putBare l p v).store.list l).size := before.store.list_size l
      _ = (w.store.list l).size := Store.size_list_set w.store l l p _
  · obtain ⟨new, found, _, same⟩ :=
      after.store.readsOn l p _ fresh (Arena.holds_alloc_fresh middle.store.vars x)
    refine ⟨new, found, same.trans ?_⟩
    exact (congrArg Variable.reading (Arena.read_alloc_fresh middle.store.vars x)).trans reads
  · have placed : middle.store.ReadsOn (middle.store.wrapAt l p x) l k :=
      .of_same (by rw [wrapped, if_neg fun both => other both.2]) made
    exact (((readsOn_putBare inside v other).trans (before.store.readsOn l k)).trans placed).trans
      (after.store.readsOn l k)

/-- A text of which no variable can be made stops the evaluation, and stays at its place as it
stands. -/
theorem evaluate_putBare_unreadable {t : Text} (unreadable : w.store.Unreadable owner t) :
    ∃ later, (evaluate (.ofRoom rounds (n + 3)) (some owner) (.bare (.list l))).exec
      (w.putBare l p (.text t)) = (.error .badValue, later) ∧
      w.store.WritesAt later.store l p (.ok (.text t)) := by
  have scalars := fun u member => (operands u member).scalar
  have there : ((w.putBare l p (.text t)).store.list l)[p]? = some (.bare (.text t)) := by
    rw [getElem?_putBare inside, if_pos rfl]
  have unquoted := quotedListText_putBare inside (.text t) scalars
    (fun _ => spells_unquoted unreadable.noQuotes)
    (Evaluator.ofRoom rounds (n + 2)).slack
  have unreadable : (w.putBare l p (.text t)).store.Unreadable owner t := by
    refine { unreadable with hidden := ?_ }
    rw [Store.isVisible, resolve_putBare]
    exact unreadable.hidden
  obtain ⟨later, failed, wraps, still⟩ := evaluate_unreadable rounds n unreadable there
    (fun k before _ => scalars_putBare inside (.text t) scalars (Nat.ne_of_lt before)) unquoted
  refine ⟨later, failed, ?_⟩
  exact
    { scopes := wraps.scopes
      tables := wraps.tables
      vars := wraps.vars
      size := (wraps.list_size l).trans (Store.size_list_set w.store l l p _)
      here := ⟨_, still, rfl⟩
      elsewhere := fun k other =>
        (readsOn_putBare inside (.text t) other).trans (wraps.readsOn l k) }

end Evaluating

section Addressing

variable (holds : w.store.HoldsList owner r l) (rounds n : Nat)
  (operands : ∀ u, .bare u ∈ (w.store.list l).toList → u.IsOperand)
  {i : Int} (above : -(w.store.list l).size ≤ i) (below : i < (w.store.list l).size)
include holds operands above below

private theorem exec_setElement_stores (closed : w.store.Closed) {v : Value}
    {result : Except Fault Value} (stores : w.store.StoresAs owner v result) :
    ∃ later, (setElement (.ofRoom rounds (n + 2)) r (.int i) (.bare v)).exec w = (.ok (), later) ∧
      w.store.WritesAt later.store l (i % (w.store.list l).size).toNat result := by
  have inside := Store.place_lt (by omega : 0 < (w.store.list l).size) i
  obtain ⟨h, name, home, named, resolved⟩ := holds.own
  obtain ⟨later, evaluated, writes⟩ :=
    evaluate_putBare rounds n inside operands closed (holds.has_owner closed) stores
  refine ⟨later, ?_, writes⟩
  rw [← resolve_putBare w l (i % (w.store.list l).size).toNat v] at resolved
  rw [exec_setElement_within holds.tag holds.content rfl _ v home named above below]
  exact exec_update_list holds.content resolved evaluated writes.scopes writes.tables
    (writes.vars r holds.has).2

/-- A write that fails leaves the text in the list. -/
theorem exec_setElement_unreadable {t : Text} (unreadable : w.store.Unreadable owner t) :
    ∃ later, (setElement (.ofRoom rounds (n + 3)) r (.int i) (.bare (.text t))).exec w =
      (.error .badValue, later) ∧
      w.store.WritesAt later.store l (i % (w.store.list l).size).toNat (.ok (.text t)) := by
  have inside := Store.place_lt (by omega : 0 < (w.store.list l).size) i
  obtain ⟨h, name, home, named, resolved⟩ := holds.own
  obtain ⟨later, failed, writes⟩ := evaluate_putBare_unreadable rounds n inside operands unreadable
  refine ⟨later, ?_, writes⟩
  rw [← resolve_putBare w l (i % (w.store.list l).size).toNat (.text t)] at resolved
  rw [exec_setElement_within holds.tag holds.content rfl _ _ home named above below]
  unfold update
  simp only
  rw [Run.exec_bind_ok _ (Run.exec_getStore _), resolved]
  simp only [pure_bind]
  exact Run.exec_bind_error _ failed

end Addressing

section Rereading

variable {later : World} {i : Int} {result : Except Fault Value}
  (holds : w.store.HoldsList owner r l)
  (writes : w.store.WritesAt later.store l (i % (w.store.list l).size).toNat result)
  (ev : Evaluator)
include holds writes

private theorem exec_element_here (above : -(w.store.list l).size ≤ i)
    (below : i < (w.store.list l).size) : (element ev r (.int i)).exec later = (result, later) := by
  have holding := writes.holdsList holds
  have near : i < (w.store.list l).size * ((ev.slack : Int) + 1) :=
    calc
      i < (w.store.list l).size * 1 := by rwa [Int.mul_one]
      _ ≤ (w.store.list l).size * ((ev.slack : Int) + 1) :=
        Int.mul_le_mul_of_nonneg_left (by omega) (by omega)
  rw [exec_element_list holding.tag holding.content rfl,
    writes.elementReading_here (by omega) above near rfl]

private theorem exec_element_elsewhere (firm : ∀ item ∈ w.store.list l, w.store.Firm item)
    (positive : 0 < (w.store.list l).size) {j : Int}
    (other : j % (w.store.list l).size ≠ i % (w.store.list l).size) :
    (element ev r (.int j)).exec later = (((element ev r (.int j)).exec w).1, later) := by
  have holding := writes.holdsList holds
  have apart : (j % (w.store.list l).size).toNat ≠ (i % (w.store.list l).size).toNat := by
    have first := Int.emod_nonneg j (by omega : ((w.store.list l).size : Int) ≠ 0)
    have second := Int.emod_nonneg i (by omega : ((w.store.list l).size : Int) ≠ 0)
    omega
  rw [exec_element_list holding.tag holding.content rfl,
    exec_element_list holds.tag holds.content rfl,
    writes.elementReading_elsewhere firm positive apart]

end Rereading

end Writing

theorem Store.Closed.firm {st : Store} (closed : st.Closed) {l : Ref .list} (held : st.Has l.cell)
    (operands : ∀ u, .bare u ∈ (st.list l).toList → u.IsOperand) :
    ∀ item ∈ st.list l, st.Firm item := by
  intro item member
  cases item with
  | bare u => exact (operands u (Array.mem_toList_iff.mpr member)).asRead
  | held q => exact closed.item held (Array.mem_toList_iff.mpr member) q.cell List.mem_cons_self

/-- Reading takes an index round, writing does not. What is written is a number or a text that
`StoresAs` or `Unreadable` tells about. These leave out three kinds of texts: a bare condition, a
dotted name that is known, and a lone quote character, which may make the whole list a quoted one.
-/
theorem list_element_access (rounds n : Nat) {w : World} (closed : w.store.Closed)
    {owner : Ref .scope} {r : Ref .variable} {l : Ref .list} (holds : w.store.HoldsList owner r l)
    (positive : 0 < (w.store.list l).size) :
    let ev := Evaluator.ofRoom rounds (n + 3)
    let size : Int := (w.store.list l).size
    let limit : Int := size * (2 * (n + 3) + 1)
    let get := fun i : Int => (element ev r (.int i)).exec
    let set := fun (i : Int) (v : Value) => (setElement ev r (.int i) (.bare v)).exec w
    (∀ i, -size ≤ i → i < limit → ∃ item, (w.store.list l)[(i % size).toNat]? = some item ∧
      get i w = (w.store.itemReading item, w)) ∧
    (∀ i, i < -size → get i w = (.error .badIndex, w)) ∧
    (∀ i, limit ≤ i → get i w = (.error .tooDeep, w)) ∧
    (∀ i v, i < -size ∨ size ≤ i → set i v = (.error .badIndex, w)) ∧
    ((∀ u, .bare u ∈ (w.store.list l).toList → u.IsOperand) → ∀ i, -size ≤ i → i < size →
      let written := fun (later : World) (result : Except Fault Value) =>
        later.store.HoldsList owner r l ∧
        (later.store.list l).size = (w.store.list l).size ∧ get i later = (result, later) ∧
        ∀ j, j % size ≠ i % size → get j later = ((get j w).1, later)
      (∀ v result, w.store.StoresAs owner v result → ∃ later, set i v = (.ok (), later) ∧
        written later result) ∧
      ∀ t, w.store.Unreadable owner t → ∃ later, set i (.text t) = (.error .badValue, later) ∧
      written later (.ok (.text t))) := by
  intro ev size limit get set
  have slack : (ev.slack : Int) + 1 = 2 * (n + 3) + 1 := by
    rw [Evaluator.slack_ofRoom]
    omega
  have edge : size * (ev.slack + 1) = limit := by rw [slack]
  have held : w.store.Has l.cell := Store.has_of_list (Array.getElem?_eq_getElem positive)
  have read : ∀ i, get i w = (w.store.elementReading ev.slack l i, w) :=
    fun i => exec_element_list holds.tag holds.content rfl ev
  refine ⟨fun i above near => ?_, fun i low => ?_, fun i far => ?_,
    fun i v => exec_setElement_beyond holds.tag holds.content rfl ev v,
    fun operands i above below => ?_⟩
  · obtain ⟨item, there, given⟩ := Store.elementReading_near positive above (edge ▸ near)
    exact ⟨item, there, by rw [read, given]⟩
  · rw [read, Store.elementReading_low low]
  · rw [read, Store.elementReading_far (edge ▸ far)]
  intro written
  have after : ∀ later result, w.store.WritesAt later.store l (i % size).toNat result →
      written later result := by
    intro later result writes
    refine ⟨writes.holdsList holds, writes.size, exec_element_here holds writes ev above below,
      fun j other => ?_⟩
    exact exec_element_elsewhere holds writes ev (closed.firm held operands) positive other
  constructor
  · intro v result stores
    obtain ⟨later, done, writes⟩ :=
      exec_setElement_stores holds rounds (n + 1) operands above below closed stores
    exact ⟨later, done, after later result writes⟩
  · intro t unreadable
    obtain ⟨later, failed, writes⟩ :=
      exec_setElement_unreadable holds rounds n operands above below unreadable
    exact ⟨later, failed, after later _ writes⟩

def Store.letterList : Store :=
  { Store.single (.list ⟨0⟩) .list with
    vars := ⟨#[{ name := some ['x'], home := some ⟨0⟩, content := .list ⟨0⟩, tag := .list },
      { name := some nameless, home := some ⟨0⟩, content := .int 1, tag := .int },
      { name := some nameless, home := some ⟨0⟩, content := .text ['a'], tag := .text }]⟩
    lists := ⟨#[#[.held ⟨1⟩, .held ⟨2⟩]]⟩ }

/-- The index 3 comes round when it is read and cannot be written to. A numeral that is written to
the last place becomes a number. A text that means nothing makes the writing fail, and is in the
list then. -/
theorem list_element_access_letter :
    let w : World := { store := Store.letterList }
    let ev := Evaluator.ofRoom 0 3
    let get := fun i : Int => (element ev ⟨0⟩ (.int i)).exec
    let set := fun (i : Int) (v : Value) => (setElement ev ⟨0⟩ (.int i) (.bare v)).exec w
    get 3 w = (.ok (.text "'a'".toList), w) ∧ set 3 (.int 7) = (.error .badIndex, w) ∧
      (∃ later, set (-1) (.text ['5']) = (.ok (), later) ∧ get (-1) later = (.ok (.int 5), later) ∧
        get 0 later = (.ok (.int 1), later)) ∧
      ∃ later, set 0 (.text ['y']) = (.error .badValue, later) ∧
      get 0 later = (.ok (.text ['y']), later) := by
  intro w ev get set
  have holds : w.store.HoldsList ⟨0⟩ ⟨0⟩ ⟨0⟩ :=
    ⟨by decide, rfl, rfl, ⟨0⟩, ['x'], rfl, rfl, by decide⟩
  obtain ⟨near, _, _, beyond, within⟩ :=
    list_element_access 0 0 (w := w) (by decide +kernel) holds (by decide)
  have operands : ∀ u, .bare u ∈ (w.store.list ⟨0⟩).toList → u.IsOperand := by
    intro u member
    have member : Item.bare u ∈ [Item.held ⟨1⟩, .held ⟨2⟩] := member
    simp at member
  have begun : get 0 w = (.ok (.int 1), w) := by
    obtain ⟨item, there, given⟩ := near 0 (by decide) (by decide)
    obtain rfl : Item.held ⟨1⟩ = item := Option.some.inj there
    exact given
  have around : get 3 w = (.ok (.text "'a'".toList), w) := by
    obtain ⟨item, there, given⟩ := near 3 (by decide) (by decide)
    have place : ((3 : Int) % ((w.store.list ⟨0⟩).size : Int)).toNat = 1 := by decide
    rw [place] at there
    obtain rfl : Item.held ⟨2⟩ = item := Option.some.inj there
    exact given
  obtain ⟨stored, _⟩ := within operands (-1) (by decide) (by decide)
  obtain ⟨later, done, _, _, last, others⟩ :=
    stored (.text ['5']) (.ok (.int 5)) (.whole (by decide))
  obtain ⟨_, refused⟩ := within operands 0 (by decide) (by decide)
  obtain ⟨left, failed, _, _, remains, _⟩ := refused ['y'] (by constructor <;> decide)
  have kept : get 0 later = ((get 0 w).1, later) := others 0 (by decide)
  refine ⟨around, beyond 3 _ (.inr (by decide)), ⟨later, done, last, ?_⟩, left, failed, remains⟩
  rw [kept, begun]

end CommandScript
