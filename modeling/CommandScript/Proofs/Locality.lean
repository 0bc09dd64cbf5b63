import CommandScript.Proofs.Effects

/-! What the value of an expression depends on. An expression without members looks only at the
names that its scope and those around it bind, and at what their values hold; two worlds that agree
on these give the same value. -/
namespace CommandScript

namespace Store

/-- The cells that the value of an expression in a scope can depend on: the variables that the
scopes of the chain bind, and what is held by them in turn. -/
inductive Feeds (st : Store) (scope : Ref .scope) : Cell → Prop where
  | bound {a : Ref .scope} {name : Text} {r : Ref .variable} (inside : a ∈ st.ancestors scope)
    (found : (st.tableOf a).find? name = some r) : Feeds st scope r.cell
  | content {r : Ref .variable} {c : Cell} (here : Feeds st scope r.cell)
      (edge : c ∈ (st.var r).content.cells) : Feeds st scope c
  | item {l : Ref .list} {i : Item} {c : Cell} (here : Feeds st scope l.cell)
      (element : i ∈ (st.list l).toList) (edge : c ∈ i.cells) :
    Feeds st scope c
  | table {q : Ref .record} {t : Ref .table} {n : Ref .node} (here : Feeds st scope q.cell)
      (body : (st.record q).body = some (t, n)) :
    Feeds st scope t.cell
  | entry {q : Ref .record} {key : Key} {i : Item} {c : Cell} (here : Feeds st scope q.cell)
      (known : (key, i) ∈ (st.record q).entries)
    (edge : c ∈ i.cells) : Feeds st scope c
  | binding {t : Ref .table} {name : Text} {r : Ref .variable} (here : Feeds st scope t.cell)
      (known : (name, r) ∈ st.table t) :
    Feeds st scope r.cell

/-- Two stores have the same chain of scopes around a scope, bind the same names there, and agree on
what these hold and on which of the NaNs among it are the same. -/
structure Agree (scope : Ref .scope) (st other : Store) : Prop where
  chain : other.ancestors scope = st.ancestors scope
  names : ∀ a ∈ st.ancestors scope, ∀ name, (other.tableOf a).find? name = (st.tableOf a).find? name
  cells : ∀ c, st.Feeds scope c → other.content c = st.content c
  nans : ∀ p q : Spot, st.Feeds scope p.cell → st.Feeds scope q.cell → other.sameNaN p q =
    st.sameNaN p q

def FeedsAll (st : Store) (scope : Ref .scope) (cs : List Cell) : Prop := ∀ c ∈ cs, st.Feeds scope c

namespace Agree

variable {scope : Ref .scope} {st other : Store} (agree : Agree scope st other)
include agree

theorem resolve (name : Text) : other.resolve scope name = st.resolve scope name := by
  have same : ∀ chain : List (Ref .scope), (∀ a ∈ chain, a ∈ st.ancestors scope) →
      (chain.findSome? fun s => ((other.tableOf s).find? name).map (s, ·)) =
        chain.findSome? fun s => ((st.tableOf s).find? name).map (s, ·) := by
    intro chain inside
    induction chain with
    | nil => rfl
    | cons a chain ih =>
      rw [List.findSome?_cons, List.findSome?_cons,
        agree.names a (inside a List.mem_cons_self) name,
        ih fun b member => inside b (List.mem_cons_of_mem _ member)]
  rw [Store.resolve, Store.resolve, agree.chain]
  exact same _ fun a member => member

theorem isVisible (name : Text) : other.isVisible scope name = st.isVisible scope name := by
  rw [Store.isVisible, Store.isVisible, agree.resolve]

end Agree

theorem Feeds.of_resolve {scope owner : Ref .scope} {st : Store} {name : Text} {r : Ref .variable}
    (found : st.resolve scope name = some (owner, r)) : st.Feeds scope r.cell :=
  .bound (resolve_inv found).1 (resolve_inv found).2

theorem Feeds.has {scope : Ref .scope} {st : Store} {c : Cell} (fed : st.Feeds scope c)
    (closed : st.Closed) (held : st.Has scope.cell) : st.Has c := by
  induction fed with
  | bound inside found =>
    exact closed.bound (closed.table (closed.ancestors held inside)) (Table.mem_of_find? found)
  | content _ edge ih => exact closed.content ih _ edge
  | item _ element edge ih => exact closed.item ih element _ edge
  | table _ body ih => exact (closed.body ih body).1
  | entry _ known edge ih => exact closed.entry ih known _ edge
  | binding _ known ih => exact closed.bound ih known

/-- A store with more cells agrees with the one that it extends. -/
theorem Agree.of_extends {scope : Ref .scope} {st later : Store} (closed : st.Closed)
    (held : st.Has scope.cell) (ends : (st.scope (st.root scope)).parent = none)
    (extended : st.Extends later) : Agree scope st later where
  chain := ancestors_extends closed extended.scopes held ends
  names a inside name := by
    have above := closed.ancestors held inside
    have scopes : later.scope a = st.scope a := (extended.scopes a above).2
    have tables : later.table (st.scope a).table = st.table (st.scope a).table :=
      (extended.tables _ (closed.table above)).2
    rw [tableOf, scopes, tables, tableOf]
  cells c fed := extended.content (fed.has closed held)
  nans p q _ _ := by rw [extended.nans]

/-! ### Comparison -/

/-- Two stores agree on certain cells, and values that are held there lead to no others. -/
structure Mirrors (good : Cell → Prop) (st other : Store) : Prop where
  cells : ∀ {c}, good c → other.content c = st.content c
  nans : ∀ {p q : Spot}, good p.cell → good q.cell → other.sameNaN p q = st.sameNaN p q
  content : ∀ {r : Ref .variable} {c}, good r.cell → c ∈ (st.var r).content.cells → good c
  item : ∀ {l : Ref .list} {i : Item} {c}, good l.cell → i ∈ (st.list l).toList →
    c ∈ i.cells → good c
  body : ∀ {q : Ref .record} {t : Ref .table} {n : Ref .node}, good q.cell → (st.record q).body =
    some (t, n) → good t.cell
  entry : ∀ {q : Ref .record} {key : Key} {i : Item} {c}, good q.cell →
    (key, i) ∈ (st.record q).entries → c ∈ i.cells → good c
  binding : ∀ {t : Ref .table} {name : Text} {r : Ref .variable}, good t.cell → (name, r) ∈
    st.table t → good r.cell

theorem Agree.mirrors {scope : Ref .scope} {st other : Store} (agree : Agree scope st other) :
    Mirrors (st.Feeds scope) st other where
  cells := agree.cells _
  nans := agree.nans _ _
  content := .content
  item := .item
  body := .table
  entry := .entry
  binding := .binding

private theorem allPairs_congr {α : Type} {same same' : α → α → Except Fault Bool}
    {as bs : List α} (equal : ∀ a ∈ as, ∀ b ∈ bs, same' a b = same a b) :
    allPairs same' as bs = allPairs same as bs := by
  induction as generalizing bs with
  | nil => cases bs <;> rfl
  | cons a as ih =>
    cases bs with
    | nil => rfl
    | cons b bs =>
      rw [allPairs, allPairs, equal a List.mem_cons_self b List.mem_cons_self,
        ih fun a first b second => equal a (List.mem_cons_of_mem _ first) b
          (List.mem_cons_of_mem _ second)]

private theorem allKeys_congr {κ α : Type} [BEq κ] [LawfulBEq κ]
    {same same' : α → α → Except Fault Bool} {others as : List (κ × α)}
    (equal : ∀ a ∈ as, ∀ b ∈ others, same' a.2 b.2 = same a.2 b.2) :
    allKeys same' others as = allKeys same others as := by
  induction as with
  | nil => rfl
  | cons a as ih =>
    obtain ⟨key, a⟩ := a
    rw [allKeys, allKeys, ih fun a member => equal a (List.mem_cons_of_mem _ member)]
    cases found : others.lookup key with
    | none => rfl
    | some b =>
      obtain ⟨front, back, rfl, -⟩ := List.lookup_eq_some_iff.mp found
      dsimp only
      rw [equal (key, a) List.mem_cons_self (key, b) (List.mem_append_right _ List.mem_cons_self)]

private theorem firstDifference_congr {α : Type}
    {same same' less less' : α → α → Except Fault Bool} {as bs : List α}
    (equal : ∀ a ∈ as, ∀ b ∈ bs, same' a b = same a b ∧ less' a b = less a b) :
    firstDifference same' less' as bs = firstDifference same less as bs := by
  induction as generalizing bs with
  | nil => cases bs <;> rfl
  | cons a as ih =>
    cases bs with
    | nil => rfl
    | cons b bs =>
      obtain ⟨first, second⟩ := equal a List.mem_cons_self b List.mem_cons_self
      rw [firstDifference, firstDifference, first, second,
        ih fun a first b second => equal a (List.mem_cons_of_mem _ first) b
          (List.mem_cons_of_mem _ second)]

private theorem mem_elements {st : Store} {l : Ref .list} {x : Spot × Item}
    (member : x ∈ st.elements l) : x.1.cell = l.cell ∧ x.2 ∈ (st.list l).toList := by
  obtain ⟨⟨item, i⟩, inside, rfl⟩ := List.mem_map.mp member
  exact ⟨rfl, List.fst_mem_of_mem_zipIdx inside⟩

private theorem mem_entries {st : Store} {q : Ref .record} {x : Key × Spot × Item}
    (member : x ∈ st.entries q) : x.2.1.cell = q.cell ∧ (x.1, x.2.2) ∈ (st.record q).entries := by
  obtain ⟨⟨key, item⟩, inside, rfl⟩ := List.mem_map.mp member
  exact ⟨rfl, inside⟩

namespace Mirrors

variable {good : Cell → Prop} {st other : Store} (mirrors : Mirrors good st other)
include mirrors

theorem var {r : Ref .variable} (here : good r.cell) : other.var r = st.var r :=
  Content.var.inj (mirrors.cells here)

theorem list {l : Ref .list} (here : good l.cell) : other.list l = st.list l :=
  Content.list.inj (mirrors.cells here)

theorem record {q : Ref .record} (here : good q.cell) : other.record q = st.record q :=
  Content.record.inj (mirrors.cells here)

theorem table {t : Ref .table} (here : good t.cell) : other.table t = st.table t :=
  Content.table.inj (mirrors.cells here)

theorem elements {l : Ref .list} (here : good l.cell) : other.elements l = st.elements l := by
  rw [Store.elements, Store.elements, mirrors.list here]

theorem entries {q : Ref .record} (here : good q.cell) : other.entries q = st.entries q := by
  rw [Store.entries, Store.entries, mirrors.record here]

theorem sameAt {same same' : Item → Item → Except Fault Bool} {x y : Spot × Item}
    (here : good x.1.cell) (there : good y.1.cell) (equal : same' x.2 y.2 = same x.2 y.2) :
    other.sameAt same' x y = st.sameAt same x y := by
  rw [Store.sameAt, Store.sameAt, mirrors.nans here there, equal]

/-- Classes are compared by what their tables bind. -/
private theorem sameTable {fuel : Nat}
    (ih : ∀ {i j : Item}, (∀ c ∈ i.cells, good c) → (∀ c ∈ j.cells, good c) →
      other.sameItem fuel i j = st.sameItem fuel i j)
    {t t' : Ref .table} (here : good t.cell) (there : good t'.cell) :
    allKeys (fun r r' => other.sameItem fuel (.held r) (.held r')) (other.table t')
      (other.table t) =
      allKeys (fun r r' => st.sameItem fuel (.held r) (.held r')) (st.table t') (st.table t) := by
  rw [mirrors.table here, mirrors.table there]
  refine allKeys_congr fun a first b second => ih ?_ ?_
  · intro c edge
    obtain rfl := List.mem_singleton.mp edge
    exact mirrors.binding here first
  · intro c edge
    obtain rfl := List.mem_singleton.mp edge
    exact mirrors.binding there second

theorem sameItem (fuel : Nat) {i j : Item} (first : ∀ c ∈ i.cells, good c)
    (second : ∀ c ∈ j.cells, good c) : other.sameItem fuel i j = st.sameItem fuel i j := by
  induction fuel generalizing i j with
  | zero => rfl
  | succ fuel ih =>
    cases i with
    | held a =>
      cases j with
      | bare w => rfl
      | held b =>
        have here := first _ (List.mem_singleton.mpr rfl)
        have there := second _ (List.mem_singleton.mpr rfl)
        have contents := ih (i := .bare (st.var a).content) (j := .bare (st.var b).content)
          (fun c edge => mirrors.content here edge)
          fun c edge => mirrors.content there edge
        have held : other.sameAt (other.sameItem fuel) (.content a, .bare (st.var a).content)
          (.content b, .bare (st.var b).content) =
            st.sameAt (st.sameItem fuel) (.content a, .bare (st.var a).content)
              (.content b, .bare (st.var b).content) :=
          mirrors.sameAt here there contents
        simp only [Store.sameItem, mirrors.var here, mirrors.var there, held]
    | bare v =>
      cases j with
      | held b => rfl
      | bare w =>
        cases v with
        | list a =>
          cases w with
          | list b =>
            have here := first _ (List.mem_singleton.mpr rfl)
            have there := second _ (List.mem_singleton.mpr rfl)
            have pairs : allPairs (other.sameAt (other.sameItem fuel)) (st.elements a)
              (st.elements b) =
                allPairs (st.sameAt (st.sameItem fuel)) (st.elements a) (st.elements b) := by
              refine allPairs_congr fun x left y right => ?_
              obtain ⟨spot, inside⟩ := mem_elements left
              obtain ⟨spot', inside'⟩ := mem_elements right
              exact mirrors.sameAt (spot ▸ here) (spot' ▸ there)
                (ih (fun c edge => mirrors.item here inside edge) fun c edge =>
                  mirrors.item there inside' edge)
            simp only [Store.sameItem, Value.number?, mirrors.list here, mirrors.list there,
              mirrors.elements here, mirrors.elements there, pairs]
          | _ => rfl
        | record a =>
          cases w with
          | record b =>
            have here := first _ (List.mem_singleton.mpr rfl)
            have there := second _ (List.mem_singleton.mpr rfl)
            have entries : allKeys (other.sameAt (other.sameItem fuel)) (st.entries b)
              (st.entries a) =
                allKeys (st.sameAt (st.sameItem fuel)) (st.entries b) (st.entries a) := by
              refine allKeys_congr fun x left y right => ?_
              obtain ⟨spot, inside⟩ := mem_entries left
              obtain ⟨spot', inside'⟩ := mem_entries right
              exact mirrors.sameAt (spot ▸ here) (spot' ▸ there)
                (ih (fun c edge => mirrors.entry here inside edge) fun c edge =>
                  mirrors.entry there inside' edge)
            simp only [Store.sameItem, Value.number?, mirrors.record here, mirrors.record there,
              mirrors.entries here, mirrors.entries there, entries]
            rcases left : (st.record a).body with _ | ⟨t, n⟩
            · cases (st.record b).body <;> rfl
            · rcases right : (st.record b).body with _ | ⟨t', n'⟩
              · rfl
              · have tables := mirrors.sameTable ih (mirrors.body here left)
                  (mirrors.body there right)
                rw [mirrors.table (mirrors.body here left),
                  mirrors.table (mirrors.body there right)] at tables
                simp only [mirrors.table (mirrors.body here left),
                  mirrors.table (mirrors.body there right), tables]
          | _ => rfl
        | _ => cases w <;> rfl

theorem lessItem (fuel : Nat) {i j : Item} (first : ∀ c ∈ i.cells, good c)
    (second : ∀ c ∈ j.cells, good c) : other.lessItem fuel i j = st.lessItem fuel i j := by
  induction fuel generalizing i j with
  | zero => rfl
  | succ fuel ih =>
    cases i with
    | held a => rfl
    | bare v =>
      cases j with
      | held b => cases v <;> rfl
      | bare w =>
        cases v with
        | list a =>
          cases w with
          | list b =>
            have here := first _ (List.mem_singleton.mpr rfl)
            have there := second _ (List.mem_singleton.mpr rfl)
            have pairs : firstDifference (other.sameAt (other.sameItem fuel))
              (fun x y => other.lessItem fuel x.2 y.2)
                  (st.elements a) (st.elements b) =
                firstDifference (st.sameAt (st.sameItem fuel)) (fun x y => st.lessItem fuel x.2 y.2)
                  (st.elements a) (st.elements b) := by
              refine firstDifference_congr fun x left y right => ?_
              obtain ⟨spot, inside⟩ := mem_elements left
              obtain ⟨spot', inside'⟩ := mem_elements right
              have fed := fun c edge => mirrors.item (c := c) here inside edge
              have fed' := fun c edge => mirrors.item (c := c) there inside' edge
              exact ⟨mirrors.sameAt (spot ▸ here) (spot' ▸ there) (mirrors.sameItem fuel fed fed'),
                ih fed fed'⟩
            simp only [Store.lessItem, Value.number?, mirrors.elements here,
              mirrors.elements there, pairs]
          | _ => rfl
        | _ => cases w <;> rfl

theorem holds (fuel : Nat) {v u : Value} (first : ∀ c ∈ v.cells, good c)
    (second : ∀ c ∈ u.cells, good c) (c : Comparison) :
    c.holds other fuel v u = c.holds st fuel v u := by
  have same := mirrors.sameItem fuel (i := .bare v) (j := .bare u) first second
  cases c with
  | equal => exact same
  | unequal => rw [Comparison.holds, Comparison.holds, same]
  | greater => exact mirrors.lessItem fuel (i := .bare u) (j := .bare v) second first
  | less => exact mirrors.lessItem fuel (i := .bare v) (j := .bare u) first second

/-! ### Elements -/

theorem length {v : Value} (fed : ∀ c ∈ v.cells, good c) : other.length v = st.length v := by
  cases v with
  | list l => rw [Store.length, Store.length, mirrors.list (fed _ (List.mem_singleton.mpr rfl))]
  | record q => rw [Store.length, Store.length, mirrors.record (fed _ (List.mem_singleton.mpr rfl))]
  | _ => rfl

theorem elementAt (i : Int) {v : Value} (fed : ∀ c ∈ v.cells, good c) :
    elementAt other i v = elementAt st i v := by
  cases v with
  | list l => simp only [CommandScript.elementAt, mirrors.list (fed _ (List.mem_singleton.mpr rfl))]
  | record q =>
    simp only [CommandScript.elementAt, mirrors.record (fed _ (List.mem_singleton.mpr rfl))]
  | _ => rfl

theorem elementAt_good {i : Int} {v : Value} {item : Item} (fed : ∀ c ∈ v.cells, good c)
    (given : CommandScript.elementAt st i v = .ok item) : ∀ c ∈ item.cells, good c := by
  unfold CommandScript.elementAt at given
  split at given
  · split at given
    · cases given
      exact fun _ member => absurd member List.not_mem_nil
    · cases given
  · split at given
    · next found =>
      cases given
      obtain ⟨p, _, there⟩ := Option.bind_eq_some_iff.mp found
      have element := Array.mem_toList_iff.mpr (Array.mem_of_getElem? there)
      exact fun c edge => mirrors.item (fed _ (List.mem_singleton.mpr rfl)) element edge
    · cases given
  · next q =>
    split at given
    · next found =>
      cases given
      obtain ⟨first, rest, entries, _⟩ := List.lookup_eq_some_iff.mp found
      have member : (Key.int i, item) ∈ (st.record q).entries := by
        rw [entries]
        exact List.mem_append_right _ List.mem_cons_self
      exact fun c edge => mirrors.entry (fed _ (List.mem_singleton.mpr rfl)) member edge
    · cases given
  · cases given

end Mirrors

end Store

/-! ### Runs in two worlds -/

namespace Run

variable {α β : Type} {w other : World} {good : α → Prop} {last : β → Prop} {x y : Run α}
  {f g : α → Run β}

def Alike (w other : World) (good : α → Prop) (x y : Run α) : Prop :=
  ∃ e, x.exec w = (e, w) ∧ y.exec other = (e, other) ∧ ∀ a, e = .ok a → good a

namespace Alike

theorem pure {a : α} (given : good a) : Alike w other good (Pure.pure a) (Pure.pure a) :=
  ⟨.ok a, rfl, rfl, fun _ same => Except.ok.inj same ▸ given⟩

theorem throw (e : Fault) : Alike w other good (throw e) (throw e) :=
  ⟨.error e, rfl, rfl, fun _ same => nomatch same⟩

theorem bind (first : Alike w other good x y)
    (next : ∀ a, good a → Alike w other last (f a) (g a)) :
    Alike w other last (x >>= f) (y >>= g) := by
  obtain ⟨e, here, there, given⟩ := first
  cases e with
  | error e =>
    exact ⟨.error e, exec_bind_error w here, exec_bind_error other there,
      fun _ same => nomatch same⟩
  | ok a =>
    rw [Alike, exec_bind_ok w here, exec_bind_ok other there]
    exact next a (given a rfl)

theorem reads {e : Except Fault α} (here : x.exec w = (e, w)) (there : y.exec other = (e, other))
    (given : ∀ a, e = .ok a → good a) :
    Alike w other good x y := ⟨e, here, there, given⟩

theorem exactly {a : α} (here : x.exec w = (.ok a, w)) (there : y.exec other = (.ok a, other)) :
    Alike w other (· = a) x y :=
  ⟨.ok a, here, there, fun _ same => (Except.ok.inj same).symm⟩

theorem getStore_bind {f g : Store → Run β}
    (next : Alike w other last (f w.store) (g other.store)) :
    Alike w other last (getStore >>= f) (getStore >>= g) := by
  rw [Alike, exec_bind_ok w (exec_getStore w), exec_bind_ok other (exec_getStore other)]
  exact next

theorem ofExcept {e e' : Except Fault α} (same : e' = e) (given : ∀ a, e = .ok a → good a) :
    Alike w other good (ofExcept e) (ofExcept e') := by
  subst same
  cases e' with
  | ok a => exact pure (given a rfl)
  | error fault => exact throw fault

theorem nth (xs : List α) (i : Nat) :
    Alike w other (fun a => xs[i]? = some a) (Run.nth xs i) (Run.nth xs i) := by
  unfold Run.nth
  cases there : xs[i]? with
  | none => exact throw _
  | some a => exact pure rfl

end Alike

end Run

/-! ### Evaluation in two worlds -/

theorem Variable.cells_reading {x : Variable} {v : Value} (given : x.reading = .ok v) :
    v.cells ⊆ x.content.cells := by
  unfold reading at given
  split at given
  · split at given
    · cases given
      exact List.nil_subset _
    · cases given
  · cases given
    exact List.Subset.refl _

def Text.MemberFree (text : Text) : Prop := ∀ s name, text.Part s → s.Names name → '.' ∉ name

def Store.CallsFrom (st : Store) (scope : Ref .scope) (text : Text) : Prop :=
  ∃ s owner r q, text.Part s ∧ s.getLast? = some ')' ∧ st.resolve scope s = some (owner, r) ∧
  (st.var r).content = .record q

structure Matches (text : Text) (scope : Ref .scope) (w other : World) : Prop where
  noCall : '(' ∉ text
  unread : ¬ text.Part Literal.inputWord
  memberFree : text.MemberFree
  uncalled : ¬ w.store.CallsFrom scope text
  agree : Store.Agree scope w.store other.store

structure Evaluator.Local (text : Text) (scope : Ref .scope) (w other : World)
    (ev : Evaluator) : Prop where
  valueOf : ∀ s, text.Part s →
    Run.Alike w other (fun v => w.store.FeedsAll scope v.cells) (ev.valueOf scope s)
      (ev.valueOf scope s)
  bind : ∀ s, text.Part s ∨ Spelled.isQuoted s = true →
    Run.Alike w other (fun x => w.store.FeedsAll scope x.content.cells)
      (ev.bind (some scope) nameless true (.text s))
      (ev.bind (some scope) nameless true (.text s))

section Parts

open Run (Alike)

variable {text s : Text} {ev : Evaluator} {scope : Ref .scope} {w other : World}
  (suits : Matches text scope w other)
include suits

private theorem readVariable_alike {r : Ref .variable} (fed : w.store.Feeds scope r.cell) :
    Alike w other (fun v => (w.store.var r).reading = .ok v) (readVariable r) (readVariable r) := by
  refine Alike.reads (Run.exec_readVariable r w) ?_ fun _ given => given
  rw [Run.exec_readVariable, suits.agree.mirrors.var fed]

private theorem lookup_alike {name : Text} (inside : text.Part s) (names : s.Names name)
    (visible : w.store.isVisible scope name = true) :
    Alike w other (fun item => ∃ owner r, item = .held r ∧
      w.store.resolve scope name = some (owner, r)) (lookup ev scope name)
      (lookup ev scope name) := by
  have single := suits.memberFree s name inside names
  rw [isVisible_single single] at visible
  obtain ⟨⟨owner, r⟩, found⟩ := Option.isSome_iff_exists.mp visible
  have there : other.store.resolve scope name = some (owner, r) :=
    (suits.agree.resolve name).trans found
  refine Alike.reads (lookup_single ev w single found) (lookup_single ev other single there)
    fun item given => ?_
  cases given
  exact ⟨owner, r, rfl, found⟩

variable (locally : ev.Local text scope w other)
include locally

private theorem evaluate_alike (inside : text.Part s) :
    Alike w other (fun v => w.store.FeedsAll scope v.cells)
      (evaluate ev (some scope) (.bare (.text s)))
      (evaluate ev (some scope) (.bare (.text s))) := by
  have unlike : s ≠ Literal.inputWord := fun same => suits.unread (same ▸ inside)
  obtain ⟨t, expanded, same⟩ := exec_expandValue_other unlike
  have known : text.Part t ∨ Spelled.isQuoted t = true :=
    same.imp_left fun (equal : t = s) => equal ▸ inside
  rw [evaluate_eq]
  refine (Alike.exactly (Run.exec_readItem_bare w _) (Run.exec_readItem_bare other _)).bind ?_
  rintro _ rfl
  refine (Alike.exactly (expanded w) (expanded other)).bind ?_
  rintro _ rfl
  refine (locally.bind t known).bind fun x fed =>
    Alike.reads (x.exec_read w) (x.exec_read other) fun v given => ?_
  exact fun c edge => fed c (Variable.cells_reading given edge)

private theorem condition_alike (inside : text.Part s) (isOpen : s.IsOpen) :
    Alike w other (fun v => w.store.FeedsAll scope v.cells) (condition ev scope s)
      (condition ev scope s) := by
  unfold condition
  split
  · next c found =>
    have operand := fun i o => inside.operand_at (i := i) (o := o) isOpen found
    refine (Alike.nth _ _).bind fun o first =>
      (locally.valueOf o (operand 0 o (by decide) first)).bind fun a fed => ?_
    refine (Alike.nth _ _).bind fun o second =>
      (locally.valueOf o (operand 1 o (by decide) second)).bind fun b fed' => ?_
    refine Alike.getStore_bind ((Alike.ofExcept (suits.agree.mirrors.holds _ fed fed' c) fun _ _ =>
      trivial).bind fun _ _ => ?_)
    exact Alike.pure fun _ member => absurd member List.not_mem_nil
  · next absent =>
    refine Alike.getStore_bind ?_
    rw [suits.agree.isVisible]
    split
    · next visible =>
      refine (lookup_alike suits inside (.tested isOpen absent) visible).bind ?_
      rintro _ ⟨owner, r, rfl, found⟩
      have fed := Store.Feeds.of_resolve found
      refine (Alike.exactly (a := r) rfl rfl).bind ?_
      rintro _ rfl
      obtain ⟨e, here, there, given⟩ := readVariable_alike suits fed
      exact ⟨e, here, there, fun v known c edge =>
        fed.content (Variable.cells_reading (given v known) edge)⟩
    · exact Alike.pure fun _ member => absurd member List.not_mem_nil

omit locally in
private theorem bindName_alike (inside : text.Part s) (isOpen : s.IsOpen)
    (plain : isCondition s = false) :
    Alike w other (fun x => w.store.FeedsAll scope x.content.cells)
      (bindName ev (some scope) true (some (Spelled.trimSpaces s)))
      (bindName ev (some scope) true (some (Spelled.trimSpaces s))) := by
  unfold bindName
  refine Alike.getStore_bind ?_
  dsimp only
  rw [suits.agree.isVisible]
  split
  · next visible =>
    refine (lookup_alike suits inside (.named isOpen plain) visible).bind ?_
    rintro _ ⟨owner, r, rfl, found⟩
    have fed := Store.Feeds.of_resolve found
    refine (Alike.exactly (a := r) rfl rfl).bind ?_
    rintro _ rfl
    refine Alike.getStore_bind ?_
    rw [suits.agree.mirrors.var fed]
    exact Alike.pure fun c edge => fed.content edge
  · exact Alike.pure fun _ member => absurd member List.not_mem_nil

private theorem bindText_alike (known : text.Part s ∨ Spelled.isQuoted s = true) :
    Alike w other (fun x => w.store.FeedsAll scope x.content.cells)
      (bindText ev (some scope) nameless true s)
      (bindText ev (some scope) nameless true s) := by
  have scalar : ∀ (x : Variable), x.content.cells = [] →
      w.store.FeedsAll scope x.content.cells := by
    intro x none c member
    rw [none] at member
    cases member
  unfold bindText
  split
  · exact Alike.pure (scalar _ rfl)
  · next unquoted =>
    have inside : text.Part s := known.resolve_right unquoted
    split
    · exact Alike.pure (scalar _ rfl)
    · next noInt =>
      split
      · exact Alike.pure (scalar _ rfl)
      · next noFloat =>
        have isOpen : s.IsOpen := Text.IsOpen.of_branches unquoted noInt noFloat
        split
        · exact (condition_alike suits locally inside isOpen).bind fun v fed => Alike.pure fed
        · next plain => exact bindName_alike suits inside isOpen (Bool.eq_false_iff.mpr plain)

omit locally in
private theorem element_alike {r : Ref .variable} (fed : w.store.Feeds scope r.cell)
    (index : Value) :
    Alike w other (fun v => w.store.FeedsAll scope v.cells) (element ev r index)
      (element ev r index) := by
  unfold element
  refine (readVariable_alike suits fed).bind fun v given => ?_
  have inner : w.store.FeedsAll scope v.cells :=
    fun c edge => fed.content (Variable.cells_reading given edge)
  refine (Alike.ofExcept rfl fun _ _ => trivial).bind fun i _ => Alike.getStore_bind ?_
  refine (Alike.ofExcept (suits.agree.mirrors.length inner) fun _ _ => trivial).bind fun n _ => ?_
  refine (Alike.ofExcept rfl fun _ _ => trivial).bind fun i _ => ?_
  refine (Alike.ofExcept (suits.agree.mirrors.elementAt i inner) fun item known =>
    suits.agree.mirrors.elementAt_good inner known).bind fun item held => ?_
  cases item with
  | bare u => exact Alike.pure held
  | held q =>
    have there := held _ (List.mem_singleton.mpr rfl)
    obtain ⟨e, here, there', given⟩ := readVariable_alike suits there
    exact ⟨e, here, there', fun v known c edge =>
      there.content (Variable.cells_reading (given v known) edge)⟩

private theorem valueStep_alike (inside : text.Part s) :
    Alike w other (fun v => w.store.FeedsAll scope v.cells) (valueStep ev scope s)
      (valueStep ev scope s) := by
  have noCall : '(' ∉ s := fun member => suits.noCall (inside.isInfix.subset member)
  unfold valueStep
  refine Alike.getStore_bind ?_
  rw [suits.agree.isVisible, suits.agree.isVisible]
  split
  · next call =>
    refine (lookup_alike suits inside (.called call.1) call.2).bind ?_
    rintro _ ⟨owner, r, rfl, found⟩
    refine (Alike.exactly (a := r) rfl rfl).bind ?_
    rintro _ rfl
    refine (readVariable_alike suits (Store.Feeds.of_resolve found)).bind fun v given => ?_
    cases v with
    | node q =>
      refine Alike.reads (exec_callFunction_bare noCall q w) (exec_callFunction_bare noCall q other)
        fun _ known => ?_
      cases known
    | record q =>
      rw [Text.before_of_not_mem noCall] at found
      exact absurd ⟨s, owner, _, q, inside, call.1, found, Variable.content_of_reading given⟩
        suits.uncalled
    | _ => exact Alike.pure fun _ member => absurd member List.not_mem_nil
  · split
    · next element =>
      refine (lookup_alike suits inside (.indexed element.1) element.2).bind ?_
      rintro _ ⟨owner, r, rfl, found⟩
      unfold bracketed
      simp only [bind_assoc, pure_bind]
      refine (Alike.nth _ _).bind fun i there =>
        (locally.valueOf _ (inside.index element.1 there)).bind fun v fed => ?_
      refine (Alike.exactly (a := r) rfl rfl).bind ?_
      rintro _ rfl
      exact element_alike suits (Store.Feeds.of_resolve found) v
    · exact evaluate_alike suits locally inside

end Parts

/-- The value of an expression without members and calls is the same in worlds that agree on what
its scope can see. -/
theorem Evaluator.ofRoom_local (rounds n : Nat) {text : Text} {scope : Ref .scope} {w other : World}
    (suits : Matches text scope w other) : (ofRoom rounds n).Local text scope w other := by
  induction n with
  | zero => exact ⟨fun _ _ => Run.Alike.throw _, fun _ _ => Run.Alike.throw _⟩
  | succ n ih =>
    exact ⟨fun s inside => valueStep_alike suits ih inside,
      fun s known => bindText_alike suits ih known⟩

/-! ### The shared variable -/

/-- A name means a class whose outermost table has the shared variable, and what has to be copied
for an object goes deeper than a limit. -/
structure Store.TooDeepToShare (st : Store) (scope : Ref .scope) (name : Text)
    (globals : Ref .table) (limit : Nat) : Prop where
  shared : ∃ r, (st.table globals).find? sharedName = some r
  means : ∃ r q vars node, st.findPath scope name = some r ∧ (st.var r).reading = .ok (.record q) ∧
    (st.record q).body = some (vars, node) ∧
    (st.scope (st.root (st.node node).scope)).table = globals ∧
    limit < ((st.unshared globals).walkFrom q.cell).deepest

/-- An object that cannot be made takes the shared variable of its class with it. -/
theorem exec_valueOf_unshared (rounds n : Nat) {text : Text} {scope : Ref .scope}
    {globals : Ref .table} {w : World} (noCall : '(' ∉ text) (ends : text.getLast? = some ')')
    (deep : w.store.TooDeepToShare scope text globals (2 * n)) :
    ((Evaluator.ofRoom rounds (n + 1)).valueOf scope text).exec w =
      (.error .tooDeep, { w with store := w.store.unshared globals }) := by
  obtain ⟨⟨shared, bound⟩, r, q, vars, node, found, reads, body, outermost, limit⟩ := deep
  have whole := Text.before_of_not_mem noCall
  have call : text.getLast? = some ')' ∧ w.store.isVisible scope (text.before '(') = true := by
    rw [whole]
    exact ⟨ends, Store.isVisible_of_findPath found⟩
  have held : (heldItem (.held r)).exec w = (.ok r, w) := rfl
  change (valueStep (Evaluator.ofRoom rounds n) scope text).exec w = _
  unfold valueStep
  rw [Run.exec_bind_ok w (Run.exec_getStore w), if_pos call, whole,
    Run.exec_bind_ok w (lookup_findPath _ found), Run.exec_bind_ok w held,
    Run.exec_bind_ok w ((Run.exec_readVariable r w).trans (by rw [reads]))]
  refine (exec_instantiate_shared _ body outermost bound).trans ?_
  rw [Evaluator.slack_ofRoom, if_pos limit]

/-- An expression with no opening parenthesis that does not come to read input prints nothing, reads
nothing and leaves all that was in the store as it was, whether it has a value or a fault. The one
exception is a fault by which the shared variable is lost, in just the case that its class cannot be
copied. Where no class is called, nothing at all changes; and where there are no members either, the
value depends only on what the scope and those around it bind and on what these values hold. -/
theorem expression_effects_and_footprint (rounds n : Nat) (w : World) (scope : Ref .scope)
    (text : Text) (closed : w.store.Closed) (noCall : '(' ∉ text)
    (unread : ¬ text.Part Literal.inputWord) :
    let run := fun w => ((Evaluator.ofRoom rounds n).valueOf scope text).exec w
    (∃ st, (run w).2 = { w with store := st } ∧
      Store.Spares (fun name => name ≠ sharedName ∨ (run w).1 ≠ .error .tooDeep) w.store st) ∧
    (∀ m globals, n = m + 1 → text.getLast? = some ')' →
      w.store.TooDeepToShare scope text globals (2 * m) →
      run w = (.error .tooDeep, { w with store := w.store.unshared globals }) ∧
        ((w.store.unshared globals).table globals).find? sharedName = none) ∧
    ((∀ q, ¬ w.store.Calls text q) → (run w).2 = w) ∧
    (text.MemberFree → ¬ w.store.CallsFrom scope text →
      ∀ other, Store.Agree scope w.store other.store →
      (run other).1 = (run w).1 ∧ (run w).2 = w ∧ (run other).2 = other) := by
  intro run
  refine ⟨valueOf_spares noCall unread closed rfl, ?_, ?_, ?_⟩
  · rintro m globals rfl ends deep
    refine ⟨exec_valueOf_unshared rounds m noCall ends deep, ?_⟩
    obtain ⟨r, bound⟩ := deep.shared
    have held := Store.has_of_mem_table (Table.mem_of_find? bound)
    have erased : (w.store.unshared globals).table globals =
        (w.store.table globals).erase sharedName :=
      Arena.read_update_here _ _ _ held
    rw [erased, Table.find?_erase_here]
  · intro uncalled
    obtain ⟨e, same⟩ := exec_valueOf_uncalled noCall unread uncalled
    exact congrArg Prod.snd same
  · intro memberFree uncalled other agree
    obtain ⟨e, here, there, -⟩ :=
      (Evaluator.ofRoom_local rounds n ⟨noCall, unread, memberFree, uncalled, agree⟩).valueOf text
        .self
    refine ⟨?_, congrArg Prod.snd here, congrArg Prod.snd there⟩
    exact (congrArg Prod.fst there).trans (congrArg Prod.fst here).symm

@[irreducible] def Store.sharing : Store where
  scopes := ⟨#[{ parent := none, table := ⟨0⟩ }, { parent := some ⟨0⟩, table := ⟨1⟩ }]⟩
  tables := ⟨#[[("A)".toList, ⟨0⟩), (sharedName, ⟨1⟩)], []]⟩
  vars := ⟨#[{ name := some "A)".toList, home := some ⟨0⟩, content := .record ⟨0⟩, tag := .object,
               members := some ⟨1⟩ },
    { name := some sharedName, home := some ⟨0⟩, content := .int 1, tag := .int }]⟩
  records := ⟨#[{ body := some (⟨1⟩, ⟨0⟩) }]⟩
  nodes := ⟨#[{ command := "class A)".toList, index := 0, children := [], scope := ⟨1⟩,
                interactive := false }]⟩

/-- Where a copy cannot be made the shared variable is lost, and a comparison is not affected by
another scope. -/
theorem expression_effects_and_footprint_cases :
    (let w : World := { store := Store.sharing }
      let later := (((Evaluator.ofRoom 0 1).valueOf ⟨0⟩ "A)".toList).exec w).2
      (w.store.table ⟨0⟩).find? sharedName = some ⟨1⟩ ∧
      (later.store.table ⟨0⟩).find? sharedName = none) ∧
    let st := Store.single (.int 1) .int
    (((Evaluator.ofRoom 0 3).valueOf ⟨0⟩ "x<2".toList).exec
      { store := (st.newScope (some ⟨0⟩)).2, printed := [['a']] }).1 =
      (((Evaluator.ofRoom 0 3).valueOf ⟨0⟩ "x<2".toList).exec { store := st }).1 := by
  constructor
  · have absent : ¬ Literal.inputWord <:+: "A)".toList := by decide
    obtain ⟨-, lost, -⟩ := expression_effects_and_footprint 0 1 { store := Store.sharing }
      ⟨0⟩ "A)".toList (by decide +kernel) (by decide)
      fun inside => absent inside.isInfix
    have bound : (Store.sharing.table ⟨0⟩).find? sharedName = some ⟨1⟩ := by decide +kernel
    refine ⟨bound, ?_⟩
    obtain ⟨ran, gone⟩ := lost 0 ⟨0⟩ rfl (by decide) ⟨⟨⟨1⟩, bound⟩, ⟨0⟩, ⟨0⟩, ⟨1⟩,
      ⟨0⟩, by decide +kernel, by unfold Store.sharing; rfl, by decide +kernel, by decide +kernel, by
        decide +kernel⟩
    dsimp only at ran
    rw [ran]
    exact gone
  · intro st
    have absent : ¬ Literal.inputWord <:+: "x<2".toList := by decide
    have closed : st.Closed := Store.closed_single .int rfl
    obtain ⟨-, -, -, same⟩ := expression_effects_and_footprint 0 3 { store := st }
      ⟨0⟩ "x<2".toList closed (by decide)
      fun inside => absent inside.isInfix
    refine (same ?_ ?_ { store := (st.newScope (some ⟨0⟩)).2, printed := [['a']] } ?_).1
    · intro s name inside names point
      have member := inside.isInfix.subset (names.isInfix.subset point)
      revert member
      decide
    · rintro ⟨s, owner, r, q, inside, ends, -⟩
      have member := inside.isInfix.subset (List.mem_of_getLast? ends)
      revert member
      decide
    · exact .of_extends closed (by decide) (by decide) (st.extends_newScope _)

end CommandScript
