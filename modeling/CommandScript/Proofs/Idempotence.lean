import CommandScript.Proofs.Described
import CommandScript.Proofs.Assignment
import CommandScript.Proofs.Upkeep
import CommandScript.Statement.Run

/-! Evaluation a second time. A text that is a result is in single quotes, so that evaluating a
result again reads it as the same value, in any scope and any world, and changes nothing; only a
truth value comes back as a number. The one kind of result that is not safe is a list with bare
elements, and only the name of a variable gives such a list unless a comparison ran among the
elements: the list is then worked on a second time, which gives it back, shows it as a text or
fails. -/
namespace CommandScript

/-- Whether a tag names the kind of a value, where a condition has a truth value and an unknown name
has none. -/
def Tag.fits : Tag → Value → Bool
  | .truth, .bool _ => true
  | .unknown, .nothing => true
  | tag, v => tag.describes v

namespace Store

def IsBound (st : Store) (r : Ref .variable) : Prop := ∃ t name, (name, r) ∈ st.table t

theorem IsBound.has {st : Store} {r : Ref .variable} (bound : st.IsBound r) (closed : st.Closed) :
    st.Has r.cell := by
  obtain ⟨t, name, entry⟩ := bound
  exact closed.bound (has_of_mem_table entry) entry

def Tagged (st : Store) : Prop :=
  ∀ t name r, (name, r) ∈ st.table t → (st.var r).tag.fits (st.var r).content = true

instance (st : Store) : Decidable st.Tagged :=
  decidable_of_iff (∀ i, i < st.tables.size → ∀ entry ∈ st.table ⟨i⟩, (st.var entry.2).tag.fits
    (st.var entry.2).content = true) <| by
    refine ⟨fun all t name r entry => ?_,
      fun tagged i _ entry member => tagged ⟨i⟩ entry.1 entry.2 member⟩
    by_cases held : t.index < st.tables.size
    · exact all t.index held (name, r) entry
    · have none : st.table t = [] := by
        rw [table, Arena.read, Array.getD_eq_getD_getElem?,
          Array.getElem?_eq_none (Nat.le_of_not_lt held)]
        rfl
      rw [none] at entry
      exact absurd entry List.not_mem_nil

end Store

/-! ### What a name means -/

section Naming

variable {ev : Evaluator} {scope : Ref .scope} {name : Text} {w later : World} {r : Ref .variable}

/-- A name that is bound nowhere means a value, never a variable. -/
private theorem exec_literal_ne (x : Run Value) :
    (do return .bare (← x) : Run Item).exec w ≠ (.ok (.held r), later) := by
  intro given
  obtain ⟨v, middle, -, last⟩ := Run.exec_bind_inv w given
  cases last

private theorem lookupFrom_held {rest : List Text}
    (ok : (lookupFrom ev scope name rest).exec w = (.ok (.held r), later)) :
    later = w ∧ w.store.IsBound r := by
  induction rest generalizing scope name with
  | nil =>
    rw [lookupFrom, Run.exec_bind_ok w (Run.exec_getStore w)] at ok
    cases found : w.store.resolve scope name with
    | none =>
      rw [found] at ok
      exact absurd ok (exec_literal_ne _)
    | some pair =>
      rw [found] at ok
      cases ok
      exact ⟨rfl, _, _, Table.mem_of_find? (Store.resolve_inv found).2⟩
  | cons member rest ih =>
    rw [lookupFrom, Run.exec_bind_ok w (Run.exec_getStore w)] at ok
    cases found : w.store.resolve scope name with
    | none =>
      rw [found] at ok
      exact absurd ok (exec_literal_ne _)
    | some pair =>
      simp only [found] at ok
      cases known : (w.store.var pair.2).members with
      | none =>
        rw [known] at ok
        cases ok
      | some members =>
        rw [known] at ok
        exact ih ok

private theorem lookup_heldItem {r : Ref .variable}
    (ok : (lookup ev scope name >>= heldItem).exec w = (.ok r, later)) :
    later = w ∧ w.store.IsBound r := by
  obtain ⟨item, middle, looked, given⟩ := Run.exec_bind_inv w ok
  cases item with
  | bare v => cases given
  | held q =>
    cases given
    unfold lookup at looked
    split at looked
    · exact lookupFrom_held looked
    · cases looked

end Naming

/-! ### What evaluation gives -/

/-- A value that is no list, and is in single quotes if it is a text. -/
def Value.IsPlain : Value → Prop
  | .text s => ∃ t, s = Text.encloseSingle t
  | .list _ => False
  | _ => True

def Text.isComparison (s : Text) : Bool := !Spelled.isQuoted s && (Comparison.find? s).isSome

/-- How the result of evaluating a value comes about: it is plain, it is what a bound variable reads
as that a text means, or it is the list itself, whose elements were made into variables. -/
inductive Arises (ev : Evaluator) (home : Option (Ref .scope)) (st : Store) (later : World) :
    Value → Value → Prop where
  | plain {u v : Value} (plain : v.IsPlain) : Arises ev home st later u v
  | named {v : Value} (s : Text) (r : Ref .variable) (bound : st.IsBound r)
      (read : (st.var r).reading = .ok v)
    (same : later.store = st) : Arises ev home st later (.text s) v
  | settled (l : Ref .list) (before : World) (same : before.store = st)
      (done : (settle ev home l).exec before = (.ok (), later)) :
    Arises ev home st later (.list l) (.list l)

section Outcome

variable {ev above : Evaluator} {home : Option (Ref .scope)} {w later : World} {v : Value}

/-- The value of a condition is a truth value, or nothing has happened but that a variable was read.
-/
theorem condition_inv {scope : Ref .scope} {s : Text}
    (ok : (condition ev scope s).exec w = (.ok v, later)) :
    ((Comparison.find? s).isSome = true ∧ ∃ b, v = .bool b) ∨
      later = w ∧ (v = .nothing ∨ ∃ r, w.store.IsBound r ∧ (w.store.var r).reading = .ok v) := by
  unfold condition at ok
  cases found : Comparison.find? s with
  | some c =>
    rw [found] at ok
    refine .inl ⟨rfl, ?_⟩
    obtain ⟨_, _, -, ok⟩ := Run.exec_bind_inv _ ok
    obtain ⟨_, _, -, ok⟩ := Run.exec_bind_inv _ ok
    obtain ⟨_, _, -, ok⟩ := Run.exec_bind_inv _ ok
    obtain ⟨_, _, -, ok⟩ := Run.exec_bind_inv _ ok
    obtain ⟨_, _, -, ok⟩ := Run.exec_bind_inv _ ok
    obtain ⟨b, _, -, ok⟩ := Run.exec_bind_inv _ ok
    cases ok
    exact ⟨b, rfl⟩
  | none =>
    rw [found] at ok
    refine .inr ?_
    rw [Run.exec_bind_ok w (Run.exec_getStore w)] at ok
    split at ok
    · rw [← bind_assoc] at ok
      obtain ⟨r, middle, looked, last⟩ := Run.exec_bind_inv w ok
      obtain ⟨rfl, bound⟩ := lookup_heldItem looked
      rw [Run.exec_readVariable] at last
      obtain ⟨read, rfl⟩ := Prod.mk.inj last
      exact ⟨rfl, .inr ⟨r, bound, read⟩⟩
    · cases ok
      exact ⟨rfl, .inl rfl⟩

private theorem bindName_inv {lenient : Bool} {name : Option Text} {x : Variable}
    (ok : (bindName ev home lenient name).exec w = (.ok x, later)) :
    later = w ∧ ((x.tag = .unknown ∧ x.content = .nothing) ∨
      name.isSome ∧ ∃ r, w.store.IsBound r ∧ x.tag = (w.store.var r).tag ∧
      x.content = (w.store.var r).content) := by
  have unknown : (bindName.unknown ev home lenient name w.store).exec w = (.ok x, later) →
      later = w ∧ x.tag = .unknown ∧ x.content = .nothing := by
    intro ok
    unfold bindName.unknown at ok
    split at ok
    · cases ok
      exact ⟨rfl, rfl, rfl⟩
    · obtain ⟨_, _, -, ok⟩ := Run.exec_bind_inv _ ok
      obtain ⟨_, _, -, ok⟩ := Run.exec_bind_inv _ ok
      cases ok
  unfold bindName at ok
  cases home with
  | none => cases ok
  | some scope =>
    simp only at ok
    rw [Run.exec_bind_ok w (Run.exec_getStore w)] at ok
    cases name with
    | none => exact (unknown ok).imp_right .inl
    | some n =>
      simp only at ok
      split at ok
      · rw [← bind_assoc] at ok
        obtain ⟨r, middle, looked, last⟩ := Run.exec_bind_inv w ok
        obtain ⟨rfl, bound⟩ := lookup_heldItem looked
        cases last
        exact ⟨rfl, .inr ⟨rfl, r, bound, rfl, rfl⟩⟩
      · exact (unknown ok).imp_right .inl

/-- A variable that reads as a plain value gives it, whatever it was made for. -/
private theorem arises_of_plain {x : Variable} {u : Value} (read : x.reading = .ok v)
    (plain : v.IsPlain) :
    ∀ result, x.reading = .ok result → Arises ev home w.store later u result := by
  intro result given
  rw [read] at given
  cases given
  exact .plain plain

private theorem Variable.reading_congr {x y : Variable} (tag : x.tag = y.tag)
    (content : x.content = y.content) : x.reading = y.reading := by
  rw [reading, reading, tag, content]

private theorem bindName_arises {lenient : Bool} {name : Option Text} {x : Variable}
    (ok : (bindName ev home lenient name).exec w = (.ok x, later)) (u : Value)
    (text : name.isSome → ∃ s, u = .text s) (read : x.reading = .ok v) :
    Arises ev home w.store later u v := by
  obtain ⟨rfl, ⟨tag, content⟩ | ⟨some, r, bound, tag, content⟩⟩ := bindName_inv ok
  · rw [Variable.reading, tag, content] at read
    cases read
    exact .plain trivial
  · obtain ⟨s, rfl⟩ := text some
    rw [Variable.reading_congr tag content] at read
    exact .named s r bound read rfl

private theorem bindText_inv {name s : Text} {lenient : Bool} {x : Variable}
    (ok : (bindText ev home name lenient s).exec w = (.ok x, later)) :
    (s.isComparison = true ∨ later = w) ∧ ∀ v, x.reading = .ok v →
      Arises ev home w.store later (.text s) v := by
  unfold bindText at ok
  split at ok
  · cases ok
    exact ⟨.inr rfl, arises_of_plain rfl ⟨_, rfl⟩⟩
  next unquoted =>
  split at ok
  · cases ok
    exact ⟨.inr rfl, arises_of_plain rfl trivial⟩
  split at ok
  · cases ok
    exact ⟨.inr rfl, arises_of_plain rfl trivial⟩
  split at ok
  · cases home with
    | none => cases ok
    | some scope =>
      obtain ⟨u, middle, found, last⟩ := Run.exec_bind_inv w ok
      cases last
      obtain ⟨compared, b, rfl⟩ | ⟨rfl, rfl | ⟨r, bound, given⟩⟩ := condition_inv found
      · refine ⟨.inl ?_, arises_of_plain rfl trivial⟩
        simp only [Text.isComparison, unquoted, compared, Bool.not_false, Bool.and_self]
      · exact ⟨.inr rfl, arises_of_plain rfl trivial⟩
      · refine ⟨.inr rfl, fun v read => ?_⟩
        cases read
        exact .named s r bound given rfl
  · exact ⟨.inr (bindName_inv ok).1, fun v read => bindName_arises ok _ (fun _ => ⟨s, rfl⟩) read⟩

/-- Making a variable leaves the world alone unless the value is a comparison or a list with bare
elements. -/
theorem bindStep_inv {name : Text} {lenient : Bool} {u : Value} {x : Variable}
    (ok : (bindStep ev home name lenient u).exec w = (.ok x, later)) :
    ((∃ s, u = .text s ∧ s.isComparison = true) ∨
      (∃ l, u = .list l ∧ (settle ev home l).exec w = (.ok (), later)) ∨ later = w) ∧
      ∀ v, x.reading = .ok v → Arises ev home w.store later u v := by
  cases u with
  | nothing =>
    change (bindName ev home lenient none).exec w = _ at ok
    exact ⟨.inr (.inr (bindName_inv ok).1), fun v read => bindName_arises ok _ (by simp) read⟩
  | text s =>
    obtain ⟨compared | same, arises⟩ := bindText_inv ok
    · exact ⟨.inl ⟨s, rfl, compared⟩, arises⟩
    · exact ⟨.inr (.inr same), arises⟩
  | list l =>
    change (Run.getStore >>= _).exec w = _ at ok
    rw [Run.exec_bind_ok w (Run.exec_getStore w)] at ok
    split at ok
    · cases ok
      exact ⟨.inr (.inr rfl), arises_of_plain rfl ⟨_, rfl⟩⟩
    · obtain ⟨_, middle, done, last⟩ := Run.exec_bind_inv w ok
      cases last
      refine ⟨.inr (.inl ⟨l, rfl, done⟩), fun v read => ?_⟩
      cases read
      exact .settled l w rfl done
  | _ =>
    cases ok
    exact ⟨.inr (.inr rfl), arises_of_plain rfl trivial⟩

theorem Literal.expandValue_silent (u : Value) : (expandValue u).Silent := by
  cases u with
  | text s => exact (Run.Silent.expand s).bind fun _ => .pure _
  | _ => exact .pure _

private theorem evaluate_arises {item : Item} (level : above.bind = bindStep ev)
    (ok : (evaluate above home item).exec w = (.ok v, later)) :
    ∃ u, (readItem item).exec w = (.ok u, w) ∧ Arises ev home w.store later u v := by
  rw [evaluate_eq, level] at ok
  obtain ⟨u, start, given, ok⟩ := Run.exec_bind_inv w ok
  obtain ⟨u', middle, expanded, ok⟩ := Run.exec_bind_inv _ ok
  obtain ⟨x, last, bound, ok⟩ := Run.exec_bind_inv _ ok
  rw [Variable.exec_read] at ok
  obtain ⟨read, rfl⟩ := Prod.mk.inj ok
  have unread : start = w := by
    cases item with
    | bare v => exact (Prod.mk.inj given).2.symm
    | held r =>
      rw [readItem, Run.exec_readVariable] at given
      exact (Prod.mk.inj given).2.symm
  subst unread
  refine ⟨u, given, ?_⟩
  have same : middle.store = start.store := (Literal.expandValue_silent _).same expanded
  rw [← same]
  have arises := (bindStep_inv bound).2 v read
  cases u with
  | text s =>
    obtain ⟨t, _, -, pure⟩ := Run.exec_bind_inv _ expanded
    cases pure
    cases arises with
    | plain plain => exact .plain plain
    | named _ r bound read same => exact .named s r bound read same
  | _ =>
    cases expanded
    exact arises

end Outcome

/-! ### Lists whose elements become variables -/

namespace Store

def isLoose (st : Store) : Value → Bool
  | .list l => (st.list l).any fun | .bare _ => true | .held _ => false
  | _ => false

def Calm (st : Store) : Prop :=
  ∀ (l : Ref .list) (i : Nat) (s : Text), (st.list l)[i]? = some (.bare (.text s)) →
    s.isComparison = false

/-- All that may have happened to the lists is that bare elements became variables. -/
def Firms (st later : Store) : Prop :=
  ∀ (l : Ref .list) (i : Nat), (later.list l)[i]? = (st.list l)[i]? ∨
  ∃ v r, (st.list l)[i]? = some (.bare v) ∧ (later.list l)[i]? = some (.held r)

theorem has_of_list {st : Store} {l : Ref .list} {i : Nat} {item : Item}
    (there : (st.list l)[i]? = some item) : st.Has l.cell := by
  by_contra dangling
  have beyond : st.lists.cells.size ≤ l.index := Nat.le_of_not_lt dangling
  have empty : st.list l = #[] := by
    rw [list, Arena.read, Array.getD_eq_getD_getElem?, Array.getElem?_eq_none beyond]
    rfl
  rw [empty] at there
  cases there

theorem getElem?_list_set {st : Store} {l : Ref .list} {i : Nat} {old : Item}
    (there : (st.list l)[i]? = some old) (new : Item) (k : Ref .list) (j : Nat) :
    ((st.updateList l (·.setIfInBounds i new)).list k)[j]? = if k = l ∧
    j = i then some new else (st.list k)[j]? := by
  obtain ⟨inside, -⟩ := Array.getElem?_eq_some_iff.mp there
  by_cases here : k = l
  · subst here
    have read : (st.updateList k (·.setIfInBounds i new)).list k =
        (st.list k).setIfInBounds i new :=
      Arena.read_update_here _ _ _ (has_of_list there)
    rw [read, Array.getElem?_setIfInBounds]
    by_cases same : i = j
    · subst same
      rw [if_pos rfl, if_pos inside, if_pos ⟨rfl, rfl⟩]
    · rw [if_neg same, if_neg fun both => same both.2.symm]
  · rw [list, updateList, Arena.read_update_elsewhere _ _ _ _ here, if_neg fun both => here both.1]
    rfl

namespace Firms

variable {st middle later : Store}

theorem refl (st : Store) : st.Firms st := fun _ _ => .inl rfl

theorem trans (first : st.Firms middle) (second : middle.Firms later) : st.Firms later := by
  intro l i
  rcases second l i with same | ⟨v, r, bare, held⟩
  · rcases first l i with before | ⟨v, r, bare, held⟩
    · exact .inl (same.trans before)
    · exact .inr ⟨v, r, bare, same.trans held⟩
  · rcases first l i with before | ⟨_, _, _, other⟩
    · exact .inr ⟨v, r, before ▸ bare, held⟩
    · rw [other] at bare
      cases bare

theorem calm (firms : st.Firms later) (calm : st.Calm) : later.Calm := by
  intro l i s bare
  rcases firms l i with same | ⟨_, _, _, held⟩
  · exact calm l i s (same ▸ bare)
  · rw [held] at bare
    cases bare

theorem firm (firms : st.Firms later) {l : Ref .list} {i : Nat}
    (firm : ∀ v, (st.list l)[i]? ≠ some (.bare v)) (v : Value) :
    (later.list l)[i]? ≠ some (.bare v) := by
  rcases firms l i with same | ⟨v, _, bare, _⟩
  · rw [same]
    exact firm v
  · exact absurd bare (firm v)

end Firms

end Store

def Evaluator.Firm (ev : Evaluator) : Prop :=
  ∀ home name lenient u w x later, w.store.Calm → (∀ s, u = .text s → s.isComparison = false) →
  (ev.bind home name lenient u).exec w = (.ok x, later) → w.store.Firms later.store

section Settling

variable {ev : Evaluator} {home : Option (Ref .scope)} {w later : World} {l : Ref .list}

private theorem settleAt_firms (firm : ev.Firm) (calm : w.store.Calm) {i : Nat}
    (ok : (settleAt ev home l i).exec w = (.ok (), later)) :
    w.store.Firms later.store ∧ ∀ v, (later.store.list l)[i]? ≠ some (.bare v) := by
  rw [settleAt, Run.exec_bind_ok w (Run.exec_getStore w)] at ok
  split at ok
  · next v bare =>
    obtain ⟨x, middle, bound, ok⟩ := Run.exec_bind_inv w ok
    have firms :=
      firm home nameless false v w x middle calm (fun s same => calm l i s (same ▸ bare)) bound
    cases ok
    have there : ∃ old, ((middle.store.newVariable x).2.list l)[i]? = some old := by
      rcases firms l i with same | ⟨_, r, _, held⟩
      · exact ⟨_, same.trans bare⟩
      · exact ⟨_, held⟩
    obtain ⟨old, there⟩ := there
    have set := Store.getElem?_list_set there (.held (middle.store.newVariable x).1)
    refine ⟨fun k j => ?_, fun v => ?_⟩
    · refine (set k j).symm ▸ ?_
      split
      · next here => exact .inr ⟨v, _, by rw [here.1, here.2, bare], rfl⟩
      · exact firms k j
    · refine (set l i).symm ▸ ?_
      rw [if_pos ⟨rfl, rfl⟩]
      simp
  · next other =>
    cases ok
    exact ⟨.refl _, other⟩

private theorem settleAll_firms (firm : ev.Firm) (places : List Nat) (calm : w.store.Calm)
    (ok : (places.forM (settleAt ev home l)).exec w = (.ok (), later)) :
    w.store.Firms later.store ∧ ∀ i ∈ places, ∀ v, (later.store.list l)[i]? ≠ some (.bare v) := by
  induction places generalizing w with
  | nil =>
    cases ok
    exact ⟨.refl _, by simp⟩
  | cons i rest ih =>
    obtain ⟨_, middle, first, ok⟩ := Run.exec_bind_inv w ok
    obtain ⟨firms, here⟩ := settleAt_firms firm calm first
    obtain ⟨further, others⟩ := ih (firms.calm calm) ok
    refine ⟨firms.trans further, List.forall_mem_cons.mpr ⟨further.firm here, others⟩⟩

private theorem settle_firms (firm : ev.Firm) (calm : w.store.Calm)
    (ok : (settle ev home l).exec w = (.ok (), later)) :
    w.store.Firms later.store ∧ later.store.isLoose (.list l) = false := by
  rw [settle, Run.exec_bind_ok w (Run.exec_getStore w)] at ok
  obtain ⟨firms, settled⟩ := settleAll_firms firm _ calm ok
  refine ⟨firms, ?_⟩
  have tight : ∀ (i : Nat) v, (later.store.list l)[i]? ≠ some (.bare v) := by
    intro i
    by_cases inside : i < (w.store.list l).size
    · exact settled i (List.mem_range.mpr inside)
    · refine firms.firm fun v => ?_
      rw [Array.getElem?_eq_none (Nat.le_of_not_lt inside)]
      simp
  rw [Store.isLoose, Array.any_eq_false]
  intro i inside loose
  split at loose
  · next v bare => exact tight i v (Array.getElem?_eq_some_iff.mpr ⟨inside, bare⟩)
  · cases loose

private theorem bindStep_firm (firm : ev.Firm) : ev.next.Firm := by
  intro home name lenient u w x later calm plain ok
  obtain ⟨⟨s, rfl, compared⟩ | ⟨l, -, done⟩ | rfl, -⟩ := bindStep_inv ok
  · rw [plain s rfl] at compared
    cases compared
  · exact (settle_firms firm calm done).1
  · exact .refl _

private theorem Evaluator.ofRoom_firm (rounds n : Nat) : (ofRoom rounds n).Firm := by
  induction n with
  | zero => exact fun _ _ _ _ _ _ _ _ _ ok => nomatch ok
  | succ n ih => exact bindStep_firm ih

end Settling

/-! ### Evaluation again -/

def Value.counted : Value → Value
  | .bool b => .int (if b then 1 else 0)
  | v => v

theorem Store.Tagged.reading {st : Store} (tagged : st.Tagged) {r : Ref .variable} {v : Value}
    (bound : st.IsBound r) (read : (st.var r).reading = .ok v) :
    v.IsPlain ∨ ∃ l, v = .list l ∧ (st.var r).content = .list l := by
  obtain ⟨t, name, entry⟩ := bound
  have fits := tagged t name r entry
  unfold Variable.reading at read
  split at read
  · split at read
    · cases read
      exact .inl ⟨_, rfl⟩
    · cases read
  · next other =>
    cases read
    cases content : (st.var r).content with
    | text s =>
      rw [content] at fits
      cases tag : (st.var r).tag <;> rw [tag] at fits <;>
        first | exact absurd tag other | cases fits
    | list l => exact .inr ⟨l, rfl, rfl⟩
    | _ => exact .inl trivial

section Again

variable {ev above : Evaluator} (level : above.bind = bindStep ev)
include level

theorem Value.IsPlain.evaluate {v : Value} (plain : v.IsPlain) (scope : Ref .scope) (w : World) :
    (evaluate above (some scope) (.bare v)).exec w = (.ok v.counted, w) := by
  cases v with
  | nothing =>
    rw [evaluate_eq, level]
    rfl
  | text s =>
    obtain ⟨t, rfl⟩ := plain
    rw [evaluate_settled level _
      (.text _ (Spelled.isQuoted_encloseSingle t) (by simp [Text.encloseSingle]))]
    simp only [Value.asRead, Value.counted, Spelled.inner_encloseSingle]
  | list l => exact plain.elim
  | bool b => exact evaluate_settled level _ (.bool b)
  | int n => exact evaluate_settled level _ (.int n)
  | float x => exact evaluate_settled level _ (.float x)
  | node r => exact evaluate_settled level _ (.node r)
  | record q => exact evaluate_settled level _ (.record q)

theorem evaluate_list (home : Option (Ref .scope)) (l : Ref .list) (w : World) :
    (∀ s, quotedListText? w.store ev.slack (w.store.list l).toList = some s →
      (evaluate above home (.bare (.list l))).exec w = (.ok (.text s.encloseSingle), w)) ∧
    (quotedListText? w.store ev.slack (w.store.list l).toList = none →
      (evaluate above home (.bare (.list l))).exec w =
        (((settle ev home l).exec w).1.map fun _ => .list l, ((settle ev home l).exec w).2)) := by
  have opened : (evaluate above home (.bare (.list l))).exec w =
      (bindStep ev home nameless true (.list l) >>= Variable.read).exec w := by
    rw [evaluate_eq, level]
    rfl
  rw [opened]
  constructor
  · intro s quoted
    have made : (bindStep ev home nameless true (.list l)).exec w =
        (.ok { name := some nameless, home, content := .text s, tag := .text }, w) := by
      change (Run.getStore >>= _).exec w = _
      rw [Run.exec_bind_ok w (Run.exec_getStore w), quoted]
      rfl
    rw [Run.exec_bind_ok w made]
    rfl
  · intro unquoted
    have made : (bindStep ev home nameless true (.list l)).exec w = (do
        settle ev home l
        pure { name := some nameless, home, content := .list l, tag := .list } :
          Run Variable).exec w := by
      change (Run.getStore >>= _).exec w = _
      rw [Run.exec_bind_ok w (Run.exec_getStore w), unquoted]
    rw [Run.exec_bind, made, Run.exec_bind]
    rcases (settle ev home l).exec w with ⟨_ | _, last⟩
    · rfl
    · rfl

end Again

/-- A result is plain or a list, and a list with bare elements is the content of the variable that a
text means. -/
theorem evaluate_result (rounds n : Nat) {home : Option (Ref .scope)} {item : Item}
    {w later : World} {v : Value} (tagged : w.store.Tagged)
    (ok : (evaluate (.ofRoom rounds n) home item).exec w = (.ok v, later)) :
    (v.IsPlain ∨ ∃ l, v = .list l) ∧
    (w.store.Calm → later.store.isLoose v = true →
      (∃ s, (readItem item).exec w = (.ok (.text s), w)) ∧ later.store = w.store ∧
      ∃ r, w.store.IsBound r ∧ (w.store.var r).content = v) := by
  have unplain : ∀ st : Store, v.IsPlain → st.isLoose v ≠ true := by
    intro st plain loose
    cases v with
    | list l => exact plain
    | _ => cases loose
  cases n with
  | zero =>
    rw [evaluate_eq] at ok
    obtain ⟨_, _, -, ok⟩ := Run.exec_bind_inv _ ok
    obtain ⟨_, _, -, ok⟩ := Run.exec_bind_inv _ ok
    obtain ⟨_, _, failed, -⟩ := Run.exec_bind_inv _ ok
    cases failed
  | succ n =>
    obtain ⟨u, read, arises⟩ := evaluate_arises rfl ok
    cases arises with
    | plain plain => exact ⟨.inl plain, fun _ loose => absurd loose (unplain _ plain)⟩
    | named s r bound given same =>
      obtain plain | ⟨l, rfl, content⟩ := tagged.reading bound given
      · exact ⟨.inl plain, fun _ loose => absurd loose (unplain _ plain)⟩
      · exact ⟨.inr ⟨l, rfl⟩, fun _ _ => ⟨⟨s, read⟩, same, r, bound, content⟩⟩
    | settled l before same done =>
      refine ⟨.inr ⟨l, rfl⟩, fun calm loose => ?_⟩
      rw [← same] at calm
      rw [(settle_firms (Evaluator.ofRoom_firm rounds n) calm done).2] at loose
      cases loose

/-- Evaluating a result again gives the same value and changes nothing, wherever and whenever this
is done, unless the result is a list with bare elements: such a list is shown as a text if quote
characters stand at its ends, and else comes back if its elements can be made into variables. Only
names give such lists. -/
theorem evaluate_again (rounds n : Nat) {home : Option (Ref .scope)} {item : Item}
    {w later : World} {v : Value} (tagged : w.store.Tagged)
    (ok : (evaluate (.ofRoom rounds n) home item).exec w = (.ok v, later)) :
    (∀ rounds' n' here (world : World), world.store.isLoose v = false →
      (evaluate (.ofRoom rounds' (n' + 1)) (some here) (.bare v)).exec world =
        (.ok v.counted, world)) ∧
    (∀ rounds' n' here (world : World) (s : Text),
      (evaluate (.ofRoom rounds' (n' + 1)) (some here) (.bare (.text s.encloseSingle))).exec world =
        (.ok (.text s.encloseSingle), world)) ∧
    (∀ rounds' n' here (world : World) (l : Ref .list), v = .list l →
      (∀ s, quotedListText? world.store (Evaluator.ofRoom rounds' n').slack
        (world.store.list l).toList = some s →
        (evaluate (.ofRoom rounds' (n' + 1)) here (.bare v)).exec world =
          (.ok (.text s.encloseSingle), world)) ∧
      (quotedListText? world.store (Evaluator.ofRoom rounds' n').slack
        (world.store.list l).toList = none →
        (evaluate (.ofRoom rounds' (n' + 1)) here (.bare v)).exec world =
          (((settle (.ofRoom rounds' n') here l).exec world).1.map fun _ => v,
            ((settle (.ofRoom rounds' n') here l).exec world).2))) ∧
    (w.store.Calm → later.store.isLoose v = true →
      (∃ s, (readItem item).exec w = (.ok (.text s), w)) ∧ later.store = w.store ∧
      ∃ r, w.store.IsBound r ∧ (w.store.var r).content = v) := by
  obtain ⟨result, loose⟩ := evaluate_result rounds n tagged ok
  refine ⟨?_, ?_, ?_, loose⟩
  · intro rounds' n' here world firm
    obtain plain | ⟨l, rfl⟩ := result
    · exact plain.evaluate rfl here world
    · refine evaluate_settled rfl (some here) (.list l fun item member => ?_)
      have tight := Array.any_eq_false'.mp firm item (Array.mem_toList_iff.mp member)
      cases item with
      | held r => exact ⟨r, rfl⟩
      | bare v => exact absurd rfl tight
  · intro rounds' n' here world s
    have plain : (Value.text s.encloseSingle).IsPlain := ⟨s, rfl⟩
    exact plain.evaluate rfl here world
  · rintro rounds' n' here world l rfl
    exact evaluate_list rfl here l world

theorem evaluate_again_quotes :
    let st :=
      ((({} : Store).newScope none).2.newList #[.bare (.text ['\'']), .bare (.text ['\''])]).2
    let w : World :=
      { store := st.bindName ⟨0⟩ ['x'] ⟨some ['x'], some ⟨0⟩, .list ⟨0⟩, .list, none⟩ }
    w.store.Tagged ∧
    (evaluate (.ofRoom 0 2) (some ⟨0⟩) (.bare (.text ['x']))).exec w = (.ok (.list ⟨0⟩), w) ∧
    (evaluate (.ofRoom 0 2) (some ⟨0⟩) (.bare (.list ⟨0⟩))).exec w =
      (.ok (.text "'[]'".toList), w) := by
  intro st w
  have tagged : w.store.Tagged := by decide
  have first : (evaluate (.ofRoom 0 2) (some ⟨0⟩) (.bare (.text ['x']))).exec w =
    (.ok (.list ⟨0⟩), w) := by rfl
  obtain ⟨-, -, listed, -⟩ := evaluate_again 0 2 tagged first
  exact ⟨tagged, first, (listed 0 1 (some ⟨0⟩) w ⟨0⟩ rfl).1 "[]".toList (by rfl)⟩

end CommandScript
