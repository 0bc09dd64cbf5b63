import CommandScript.Proofs.Assignment
import CommandScript.Proofs.Caution

/-! When variables are what their tags say. From an empty store, programs come to described stores
unless a statement that stores a value or converts a variable breaks the description. Storing under
a new name does not. Storing over a variable does exactly if its tag does not name the kind of the
value, or its members are not those of the object. -/
namespace CommandScript

namespace Store

variable {st : Store} {r : Ref .variable}

def Admits (st : Store) (r : Ref .variable) (v : Value) : Prop :=
  Variable.Described st { st.var r with content := v }

instance (st : Store) (r : Ref .variable) (v : Value) : Decidable (st.Admits r v) :=
  inferInstanceAs (Decidable (Variable.Described st _))

private theorem namesake_binds (closed : st.Closed) (held : st.Has r.cell) {q : Ref .variable}
    (known : st.namesake r = some q) : st.Binds q := by
  obtain ⟨home, inside, named⟩ := Option.bind_eq_some_iff.mp known
  obtain ⟨⟨owner, p⟩, found, rfl⟩ := Option.map_eq_some_iff.mp named
  obtain ⟨name, _, resolved⟩ := Option.bind_eq_some_iff.mp found
  exact .of_resolve closed (closed.home held inside) resolved

theorem Binds.has (closed : st.Closed) (bound : st.Binds r) : st.Has r.cell := by
  obtain ⟨s, name, inside, entry⟩ := bound
  exact closed.bound (closed.table inside) entry

private theorem var_overwrite_namesake {q : Ref .variable} (v : Value)
    (known : st.namesake r = some q) (held : st.Has q.cell) :
    (st.overwrite r v).var q = { st.var q with content := v.asRead } := by
  by_cases same : q = r
  · subst same
    rw [var_overwrite v held, if_pos known]
  · unfold overwrite
    rw [known]
    have still := held.mono (st.grows_updateVariable r fun x => { x with content := v })
    rw [var_updateVariable_here _ still, var_updateVariable_elsewhere _ _ same]

theorem var_overwrite_elsewhere {q : Ref .variable} (v : Value) (different : q ≠ r)
    (other : st.namesake r ≠ some q) : (st.overwrite r v).var q = st.var q := by
  unfold overwrite
  split
  · next p known =>
    have apart : q ≠ p := fun same => other (same ▸ known)
    rw [var_updateVariable_elsewhere _ _ apart, var_updateVariable_elsewhere _ _ different]
  · rw [var_updateVariable_elsewhere _ _ different]

theorem overwrite_frame (st : Store) (r : Ref .variable) (v : Value) :
    (∀ s : Ref .scope, (st.overwrite r v).Has s.cell ↔ st.Has s.cell) ∧
    (st.overwrite r v).tableOf = st.tableOf ∧
      ∀ x : Variable, x.Described (st.overwrite r v) ↔ x.Described st := by
  unfold overwrite
  split <;> exact ⟨fun _ => Iff.rfl, rfl,
    fun _ => ⟨fun d => ⟨d.tag, d.members⟩, fun d => ⟨d.tag, d.members⟩⟩⟩

private theorem binds_overwrite (v : Value) {q : Ref .variable} :
    (st.overwrite r v).Binds q ↔ st.Binds q := by
  obtain ⟨scopes, tables, _⟩ := st.overwrite_frame r v
  simp only [Binds, scopes, tables]

private theorem described_iff_binds (st : Store) :
    st.Described ↔ ∀ q, st.Binds q → (st.var q).Described st := by
  refine ⟨fun described q bound => described.var bound, ?_⟩
  intro all s inside name q entry
  exact all q ⟨s, name, inside, entry⟩

/-- An assignment leaves a store described exactly if the variable takes the value as it stands,
unless it is its own namesake, and its namesake takes the value as it is read. -/
theorem described_overwrite_iff (closed : st.Closed) (described : st.Described)
    (bound : st.Binds r) (v : Value) :
    (st.overwrite r v).Described ↔
      (st.namesake r ≠ some r → st.Admits r v) ∧ ∀ q, st.namesake r = some q →
        st.Admits q v.asRead := by
  have held := bound.has closed
  have same := (st.overwrite_frame r v).2.2
  simp only [described_iff_binds (st.overwrite r v), binds_overwrite, same]
  constructor
  · intro all
    refine ⟨fun other => ?_, fun q known => ?_⟩
    · have here := all r bound
      rwa [var_overwrite v held, if_neg other] at here
    · have there := all q (namesake_binds closed held known)
      rwa [var_overwrite_namesake v known ((namesake_binds closed held known).has closed)] at there
  · rintro ⟨own, others⟩ q inside
    -- The variable and its namesake are written to, and they may be the same.
    by_cases known : st.namesake r = some q
    · rw [var_overwrite_namesake v known (inside.has closed)]
      exact others q known
    · by_cases here : q = r
      · subst here
        rw [var_overwrite v held, if_neg known]
        exact own known
      · rw [var_overwrite_elsewhere v here known]
        exact described.var inside

end Store

/-- Source texts are run one after the other from an empty store, none with a fault. Either caution
makes no difference and the store in the end is described, or the cautious run stops before a
statement that breaks the description, and this statement stores a value under a name or converts a
variable. A name that is new is declared without breaking anything. For a variable that is there,
the assignment of a value succeeds, and it leaves a described store described exactly if the tags
and members of the variables that are written to go with the value. -/
theorem described_unless_rewritten (limits : Limits) (programs : List (Bool × Text × Text))
    (w later : World) (empty : w.store.IsEmpty)
    (ran : (Program.runEach (Program.run limits) programs).exec w = (.ok (), later)) :
    (((Program.runEach (Program.runCautiously limits) programs).exec w = (.ok (), later) ∧
      later.store.Described) ∨
      ∃ stopped n node file,
        (Program.runEach (Program.runCautiously limits) programs).exec w =
          (.error .unfinished, stopped) ∧
        Breaking (Evaluator.cautious limits.rounds n) node file stopped ∧
        ¬ (Site.ofNode (Evaluator.cautious limits.rounds n) stopped.store node file).IsCalm
          stopped.store) ∧
    (∀ (n : Nat) (before after : World) (scope : Ref
      .scope) (isGlobal : Bool) (name : Text) (v : Value), before.store.Closed →
        before.store.Described → before.store.Has scope.cell → before.store.HasAll v.cells →
      before.store.isVisible scope name = false → name.getLast? ≠ some ']' →
      (assign (Evaluator.cautious limits.rounds n) scope isGlobal name (.bare v)).exec before =
        (.ok (), after) →
      after.store.Described) ∧
    ∀ (ev inner : Evaluator) (before : World) (r : Ref .variable) (v : Value), ev.bind =
      bindStep inner →
      before.store.Closed → before.store.Described → before.store.Binds r → v.Settled before.store →
      (assignVariable ev r (.bare v)).exec before =
        (.ok (), { before with store := before.store.overwrite r v }) ∧
        ((before.store.overwrite r v).Described ↔
          (before.store.namesake r ≠ some r → before.store.Admits r v) ∧
          ∀ q, before.store.namesake r = some q → before.store.Admits q v.asRead) := by
  refine ⟨?_, ?_, ?_⟩
  · have sound : (Program.runEach (Program.runCautiously limits) programs).Sound w.store fun _ _ =>
        True :=
      Program.runEach_sound empty.closed (Program.runCautiously_sound limits) programs
    rcases Program.runEach_follows (Program.runCautiously_follows limits) programs w with same |
      ⟨stopped, ended, bad⟩
    · rw [ran] at same
      exact .inl ⟨same, sound.kept w () later rfl same empty.described⟩
    · obtain ⟨n, node, file, breaking⟩ := bad
      refine .inr ⟨stopped, n, node, file, ended, breaking, fun calm => ?_⟩
      exact breaking.not_calm (Evaluator.cautious_sound limits.rounds n) calm
  · intro n before after scope isGlobal name v closed described inside known hidden whole ok
    have item : before.store.HasAll (Item.bare v).cells := known
    have sound := assign_new_sound (Evaluator.cautious_sound limits.rounds n) isGlobal closed inside
      item hidden whole
    exact sound.kept before () after rfl ok described
  · intro ev inner before r v level closed described bound settled
    exact ⟨assignVariable_settled level settled (bound.has closed),
      Store.described_overwrite_iff closed described bound v⟩

def Program.retyped : List (Bool × Text × Text) :=
  [(true, Report.noFile, ['v', 'a', 'r', ' ', 'x', '=', '1', ';']),
    (true, Report.noFile, ['v', 'a', 'r', ' ', 'x', '=', '\'', 'a', '\'', ';'])]

/-- A text stored over a number ends without a fault in a store that is not described, and caution
stops before it. -/
theorem text_over_number :
    ∃ later stopped n node file, (Program.runEach (Program.run ⟨3, 0⟩) Program.retyped).exec {} =
      (.ok (), later) ∧
      ¬ later.store.Described ∧
      (Program.runEach (Program.runCautiously ⟨3, 0⟩) Program.retyped).exec {} =
        (.error .unfinished, stopped) ∧
      Breaking (Evaluator.cautious 0 n) node file stopped := by
  let ran := (Program.runEach (Program.run ⟨3, 0⟩) Program.retyped).exec {}
  have succeeds : ran.1.isOk = true := by decide +kernel
  have undescribed : ¬ ran.2.store.Described := by decide +kernel
  have ok : ran = (.ok (), ran.2) := by
    rcases known : ran with ⟨fault | ⟨⟩, later⟩
    · rw [known] at succeeds
      cases succeeds
    · rfl
  rcases (described_unless_rewritten ⟨3, 0⟩ Program.retyped {} ran.2 Store.isEmpty_empty ok).1
    with ⟨_, described⟩ | ⟨stopped, n, node, file, found⟩
  · exact absurd described undescribed
  · exact ⟨ran.2, stopped, n, node, file, ok, undescribed, found.1, found.2.1⟩

end CommandScript
