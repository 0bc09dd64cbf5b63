import CommandScript.Proofs.Rebinding
import CommandScript.Proofs.Unrolling

/-! Scopes that bind nothing of their own. From such a scope every name means what it means around
it, so that expressions without calls have the same value inside and outside. The scope of a block
that was just read is of this kind, and what the reading of a program adds to a store changes no
value that was there before. -/
namespace CommandScript

/-! ### Names inside and outside -/

namespace Store

variable {st later : Store} {inner scope : Ref .scope}

/-- All names mean the same from an inner scope as from an outer one, and both lie in the same
outermost scope. -/
structure SeesThrough (st : Store) (inner scope : Ref .scope) : Prop where
  resolve : ∀ name, st.resolve inner name = st.resolve scope name
  root : st.root inner = st.root scope

theorem SeesThrough.isVisible (through : st.SeesThrough inner scope) (name : Text) :
    st.isVisible inner name = st.isVisible scope name := by
  rw [Store.isVisible, Store.isVisible, through.resolve]

/-- A new scope is seen through for as long as nothing is bound in it. -/
theorem seesThrough_newScope (closed : st.Closed) (held : st.Has scope.cell)
    (ends : (st.scope (st.root scope)).parent = none)
    (extended : (st.newScope (some scope)).2.Extends later) :
    later.SeesThrough (st.newScope (some scope)).1 scope := by
  generalize made : (st.newScope (some scope)).1 = inner
  have fresh : (st.newScope (some scope)).2.Has inner.cell :=
    (has_newScope st (some scope) inner).mpr (.inr made.symm)
  have here : later.scope inner = (st.newScope (some scope)).2.scope inner :=
    (extended.scopes inner fresh).2
  have parent : (later.scope inner).parent = some scope := by
    rw [here, ← made]
    exact congrArg Scope.parent (Arena.read_alloc_fresh _ _)
  have empty : later.tableOf inner = [] := by
    have known : (st.newScope (some scope)).2.Closed :=
      closed.newScope fun p same => Option.some.inj same ▸ held
    have table : later.table ((st.newScope (some scope)).2.scope inner).table =
        (st.newScope (some scope)).2.table ((st.newScope (some scope)).2.scope inner).table :=
      (extended.tables _ (known.table fresh)).2
    rw [tableOf, here, table, ← made]
    exact tableOf_newScope st (some scope)
  -- One step out of the new scope, the chain is the one that there was, since that had come to its
  -- end.
  have longer : st.scopes.size + 1 ≤ later.scopes.size := by
    have size : (st.newScope (some scope)).2.scopes.size = st.scopes.size + 1 :=
      Arena.size_alloc _ _
    rw [← size]
    exact extended.scopes.size_le
  have wider : st.scopes.Extends later.scopes :=
    (extends_newScope st (some scope)).scopes.trans extended.scopes
  have ended : ∀ a, (st.outward st.scopes.size scope).getLast? = some a →
      (st.scope a).parent = none := by
    intro a last
    have outermost : st.root scope = a := by
      rw [Store.root, ancestors, last]
      rfl
    rw [← outermost]
    exact ends
  have chain : later.ancestors inner = inner :: later.ancestors scope := by
    obtain ⟨m, size⟩ := Nat.exists_eq_add_of_le' longer
    have outer : later.ancestors scope = later.outward (m + st.scopes.size) scope := by
      rw [ancestors_extends closed wider held ends]
      exact (outward_extends closed wider (Nat.le_add_left _ _) held ended).symm
    rw [outer, ancestors, size, ← Nat.add_assoc, outward, parent]
  refine ⟨fun name => ?_, ?_⟩
  · rw [Store.resolve, Store.resolve, chain, List.findSome?_cons, empty]
    rfl
  · rw [Store.root, Store.root, chain, List.getLast?_cons]
    have nonempty : later.ancestors scope ≠ [] := List.ne_nil_of_mem (self_mem_ancestors scope)
    rw [List.getLast?_eq_some_getLast nonempty]
    rfl

/-- Expressions without calls meet the same things in a store with more cells. -/
theorem Extends.twins {text : Text} (extended : st.Extends later) (closed : st.Closed)
    (rooted : st.Rooted) (held : st.Has scope.cell) (free : st.CallFree text) :
    Twins st.Has text scope st later := by
  have keeps : st.Keeps later [] := (Keeps.refl st).extend (.refl st) closed extended
  have ends := rooted scope held
  exact
    { free
      visible := fun _ _ => by rw [Store.isVisible, Store.isVisible,
        keeps.resolve closed held ends List.not_mem_nil]
      found := fun _ _ => keeps.findPath closed rooted held fun _ _ => List.not_mem_nil
      known := fun _ _ found => closed.findPath held found
      mirrors :=
        { cells := fun here => extended.content here
          nans := fun _ _ => by rw [extended.nans]
          content := fun here edge => closed.content here _ edge
          item := fun here element edge => closed.item here element _ edge
          body := fun here body => (closed.body here body).1
          entry := fun here known edge => closed.entry here known _ edge
          binding := fun here known => closed.bound here known } }

end Store

/-! ### Evaluation inside and outside -/

/-- Parts of an expression have the same value in two scopes of a world. The variables that are made
of them may differ in their home. -/
structure Evaluator.SeesThrough (text : Text) (inner scope : Ref .scope) (w : World)
    (ev : Evaluator) : Prop where
  valueOf : ∀ s, text.Part s → Run.Alike w w (fun _ => True) (ev.valueOf inner s)
    (ev.valueOf scope s)
  bind : ∀ s, text.Part s ∨ Spelled.isQuoted s = true →
    Run.Alike w w (fun _ => True) (ev.bind (some inner) nameless true (.text s) >>= Variable.read)
      (ev.bind (some scope) nameless true (.text s) >>= Variable.read)

section Parts

open Run (Alike)

variable {text s : Text} {ev : Evaluator} {inner scope : Ref .scope} {w : World}

theorem Run.Looks.alike {α : Type} {x : Run α} (looks : x.Looks) : Alike w w (fun _ => True) x x :=
  Alike.reads (Prod.ext rfl (looks w)) (Prod.ext rfl (looks w)) fun _ _ => trivial

variable (through : w.store.SeesThrough inner scope)

include through in
private theorem exec_lookup_through (ev : Evaluator) (name : Text) :
    (lookup ev inner name).exec w = (lookup ev scope name).exec w := by
  have first : ∀ name rest, (lookupFrom ev inner name rest).exec w =
      (lookupFrom ev scope name rest).exec w := by
    intro name rest
    cases rest with
    | nil =>
      simp only [lookupFrom, Run.exec_bind_ok w (Run.exec_getStore w), through.resolve,
        through.root]
    | cons member rest =>
      simp only [lookupFrom, Run.exec_bind_ok w (Run.exec_getStore w), through.resolve,
        through.root]
  unfold lookup
  split
  · exact first _ _
  · rfl

variable (stays : ev.Stays (fun w v => v = w) w.store text) (unread : ¬ text.Part Literal.inputWord)

include through stays unread in
private theorem lookup_through {name : Text} (inside : text.Part s) (names : s.Names name) :
    Alike w w (fun _ => True) (lookup ev inner name) (lookup ev scope name) := by
  have still : ((lookup ev scope name).exec w).2 = w := by
    refine lookup_stays Run.mild_eq (fun p listed home => ?_) w rfl
    exact evaluate_stays Run.mild_eq (fun reads => absurd reads unread) stays
      (inside.piece names listed)
  have there : (lookup ev scope name).exec w = (((lookup ev scope name).exec w).1, w) :=
    Prod.ext rfl still
  exact Alike.reads ((exec_lookup_through through ev name).trans there) there fun _ _ => trivial

variable (evaluates : ev.SeesThrough text inner scope w)

include unread evaluates in
private theorem evaluate_through (inside : text.Part s) :
    Alike w w (fun _ => True) (evaluate ev (some inner) (.bare (.text s)))
      (evaluate ev (some scope) (.bare (.text s))) := by
  have unlike : s ≠ Literal.inputWord := fun same => unread (same ▸ inside)
  obtain ⟨t, expanded, same⟩ := exec_expandValue_other unlike
  have known : text.Part t ∨ Spelled.isQuoted t = true :=
    same.imp_left fun (equal : t = s) => equal ▸ inside
  rw [evaluate_eq, evaluate_eq]
  refine (Alike.exactly (Run.exec_readItem_bare w _) (Run.exec_readItem_bare w _)).bind ?_
  rintro _ rfl
  refine (Alike.exactly (expanded w) (expanded w)).bind ?_
  rintro _ rfl
  exact evaluates.bind t known

include through stays unread evaluates

private theorem condition_through (inside : text.Part s) (isOpen : s.IsOpen) :
    Alike w w (fun _ => True) (condition ev inner s) (condition ev scope s) := by
  unfold condition
  split
  · next c found =>
    have operand := fun i o => inside.operand_at (i := i) (o := o) isOpen found
    refine (Alike.nth _ _).bind fun o first =>
      (evaluates.valueOf o (operand 0 o (by decide) first)).bind fun a _ => ?_
    refine (Alike.nth _ _).bind fun o second =>
      (evaluates.valueOf o (operand 1 o (by decide) second)).bind fun b _ => ?_
    exact (Run.Looks.getStore.bind fun _ => (Run.Looks.ofExcept _).bind fun _ => .pure _).alike
  · next absent =>
    refine Alike.getStore_bind ?_
    rw [through.isVisible]
    split
    · refine (lookup_through through stays unread inside (.tested isOpen absent)).bind fun item _ =>
        ?_
      exact ((Run.Looks.heldItem item).bind fun r => .readVariable r).alike
    · exact Alike.pure trivial

private theorem bindText_through (known : text.Part s ∨ Spelled.isQuoted s = true) :
    Alike w w (fun _ => True) (bindText ev (some inner) nameless true s >>= Variable.read)
      (bindText ev (some scope) nameless true s >>= Variable.read) := by
  have read : ∀ x y : Variable, x.reading = y.reading →
      Alike w w (fun _ => True) (Pure.pure x >>= Variable.read)
        (Pure.pure y >>= Variable.read) := by
    intro x y same
    rw [pure_bind, pure_bind]
    exact Alike.reads (x.exec_read w) ((y.exec_read w).trans (by rw [same])) fun _ _ => trivial
  unfold bindText
  split
  · exact read _ _ rfl
  · next unquoted =>
    have inside : text.Part s := known.resolve_right unquoted
    split
    · exact read _ _ rfl
    · next noInt =>
      split
      · exact read _ _ rfl
      · next noFloat =>
        have isOpen : s.IsOpen := Text.IsOpen.of_branches unquoted noInt noFloat
        split
        · simp only [bind_assoc]
          exact (condition_through through stays unread evaluates inside isOpen).bind fun v _ =>
            read _ _ rfl
        · next plain =>
          have names : s.Names (Spelled.trimSpaces s) := .named isOpen (Bool.eq_false_iff.mpr plain)
          unfold bindName
          simp only [bind_assoc]
          refine Alike.getStore_bind ?_
          rw [through.isVisible]
          split
          · simp only [bind_assoc]
            refine (lookup_through through stays unread inside names).bind fun item _ => ?_
            refine (Run.Looks.heldItem item).alike.bind fun r _ => Alike.getStore_bind ?_
            exact read _ _ rfl
          · exact read _ _ rfl

private theorem valueStep_through (free : w.store.CallFree text) (inside : text.Part s) :
    Alike w w (fun _ => True) (valueStep ev inner s) (valueStep ev scope s) := by
  unfold valueStep
  refine Alike.getStore_bind ?_
  rw [through.isVisible, through.isVisible]
  split
  · next call =>
    rw [free s scope inside call.1] at call
    cases call.2
  · split
    · next element =>
      refine (lookup_through through stays unread inside (.indexed element.1)).bind fun item _ => ?_
      unfold bracketed
      simp only [bind_assoc, pure_bind]
      refine (Alike.nth _ _).bind fun i there =>
        (evaluates.valueOf _ (inside.index element.1 there)).bind fun v _ => ?_
      exact ((Run.Looks.heldItem item).bind fun r => element_looks r v).alike
    · exact evaluate_through unread evaluates inside

end Parts

/-- Expressions that neither call anything nor read input have the same value in a scope that is
seen through as around it. -/
theorem Evaluator.ofRoom_seesThrough (rounds n : Nat) {text : Text} {inner scope : Ref .scope}
    {w : World} (through : w.store.SeesThrough inner scope) (free : w.store.CallFree text)
    (unread : ¬ text.Part Literal.inputWord) :
    (ofRoom rounds n).SeesThrough text inner scope w := by
  induction n with
  | zero =>
    exact ⟨fun _ _ => .throw _, fun _ _ => .reads (e := .error .tooDeep) rfl rfl fun _ _ => trivial⟩
  | succ n ih =>
    have stays := ofRoom_stays rounds n Run.mild_eq (fun reads => absurd reads unread) free
    refine ⟨fun s inside => valueStep_through through stays unread ih free inside,
      fun s known => ?_⟩
    exact bindText_through through stays unread ih known

/-- The value of an expression that neither calls anything nor reads input is the same once a
program has been read, even in a block of its own. -/
theorem exec_valueOf_newScope (rounds n : Nat) {text : Text} {scope : Ref .scope} {w : World}
    {later : Store} {v : Value} (closed : w.store.Closed) (rooted : w.store.Rooted)
    (held : w.store.Has scope.cell) (extended : (w.store.newScope (some scope)).2.Extends later)
    (noCall : ')' ∉ text) (unread : ¬ Literal.inputWord <:+: text)
    (value : (((Evaluator.ofRoom rounds n).valueOf scope text).exec w).1 = .ok v) :
    ((Evaluator.ofRoom rounds n).valueOf (w.store.newScope (some scope)).1 text).exec
      { w with store := later } =
        (.ok v, { w with store := later }) ∧
      ∀ c ∈ v.cells, w.store.Has c := by
  have unread : ¬ text.Part Literal.inputWord := fun reads => unread reads.isInfix
  have whole := (Store.extends_newScope w.store (some scope)).trans extended
  have twins := whole.twins closed rooted held (.of_not_mem noCall w.store)
  have through := Store.seesThrough_newScope closed held (rooted scope held) extended
  obtain ⟨e, inside, outside, _⟩ :=
    (Evaluator.ofRoom_seesThrough rounds n (w := { w with store := later }) through
    (.of_not_mem noCall later) unread).valueOf text .self
  rcases (Evaluator.ofRoom_twin rounds n twins).valueOf text .self w rfl
    with ⟨a, after, here, _, there, cells⟩ | ⟨⟨_, _, failed⟩, _⟩
  · rw [here] at value
    cases value
    rw [outside] at there
    exact ⟨inside.trans (congrArg (·, _) (congrArg Prod.fst there)), cells⟩
  · rw [failed] at value
    cases value

end CommandScript
