import CommandScript.Proofs.Registration

/-! The members of a class, as the scope of the class comes to have them. A field is assigned to, a
method is declared; so a field escapes if a scope around the class has its name and the class has
not: then it is the variable out there that is written to. -/
namespace CommandScript

inductive Member where
  | field (name : Text) (v : Value)
  | method (name : Text) (r : Ref .node)

namespace Member

def name : Member → Text
  | field name _ => name
  | method name _ => name

def value : Member → Value
  | field _ v => v
  | method _ r => .node r

end Member

namespace Store

variable {st cur : Store} {inner : Ref .scope} {m : Member} {known : List Text}

def withMember (st : Store) (inner : Ref .scope) : Member → Store
  | .field name v => st.assigned inner false name v
  | .method name r => st.declared inner name (.node r)

def withMembers (st : Store) (inner : Ref .scope) (members : List Member) : Store :=
  members.foldl (fun st m => st.withMember inner m) st

def Fits (st : Store) : Member → Prop
  | .field _ v => v.IsScalar
  | .method _ r => st.Has r.cell

theorem Fits.mono {later : Store} (fits : st.Fits m) (grows : st.Grows later) : later.Fits m := by
  cases m with
  | field => exact fits
  | method name r => exact Has.mono fits grows

theorem withMember_known {name : Text} {owner : Ref .scope} {q : Ref .variable} (v : Value)
    (found : st.resolve inner name = some (owner, q)) :
    st.withMember inner (.field name v) = st.overwrite q v := by
  simp only [withMember, assigned, found]

theorem withMember_unknown {name : Text} (v : Value) (unknown : st.resolve inner name = none) :
    st.withMember inner (.field name v) = st.declared inner name v := by
  simp only [withMember, assigned, unknown]
  rfl

/-- A field is assigned to if its name means a variable; all other members are declared in the scope
of the class. -/
theorem withMember_cases (st : Store) (inner : Ref .scope) (m : Member) :
    (∃ name v owner q, m = .field name v ∧ st.resolve inner name = some (owner, q) ∧
      st.withMember inner m = st.overwrite q v) ∨
      st.withMember inner m = st.declared inner m.name m.value := by
  cases m with
  | method => exact .inr rfl
  | field name v =>
    cases found : st.resolve inner name with
    | none => exact .inr (withMember_unknown v found)
    | some meaning =>
      exact .inl ⟨name, v, meaning.1, meaning.2, rfl, found, withMember_known v found⟩

theorem withMember_rest (st : Store) (inner : Ref .scope) (m : Member) :
    (st.withMember inner m).scopes = st.scopes ∧ (st.withMember inner m).nodes = st.nodes ∧
    st.Grows (st.withMember inner m) := by
  obtain ⟨name, v, owner, q, _, _, same⟩ | same := st.withMember_cases inner m
  · rw [same]
    exact ⟨(st.overwrite_rest q v).1, (st.overwrite_rest q v).2.2.2, st.grows_overwrite q v⟩
  · rw [same]
    exact ⟨rfl, rfl, grows_bindName _ _ _ _⟩

theorem Fits.cells (fits : st.Fits m) : st.HasAll m.value.cells := by
  cases m with
  | field name v => exact Value.IsScalar.cells fits ▸ hasAll_nil st
  | method name r => exact hasAll_cons.mpr ⟨fits, hasAll_nil st⟩

theorem Registered.withMember (registered : st.Registered) (held : st.Has inner.cell)
    (fits : st.Fits m) : (st.withMember inner m).Registered := by
  obtain ⟨name, v, owner, q, rfl, _, same⟩ | same := st.withMember_cases inner m
  · rw [same]
    exact registered.overwrite q fits
  · rw [same]
    exact registered.declared held m.name fits.cells

theorem Registered.withMembers {members : List Member} (registered : st.Registered)
    (held : st.Has inner.cell) (fits : ∀ m ∈ members, st.Fits m) :
    (st.withMembers inner members).Registered := by
  induction members generalizing st with
  | nil => exact registered
  | cons m rest ih =>
    have grows := (st.withMember_rest inner m).2.2
    refine ih (registered.withMember held (fits m List.mem_cons_self)) (held.mono grows) ?_
    intro next listed
    exact (fits next (List.mem_cons_of_mem m listed)).mono grows

theorem withMembers_rest (st : Store) (inner : Ref .scope) (members : List Member) :
    (st.withMembers inner members).scopes = st.scopes ∧
    (st.withMembers inner members).nodes = st.nodes ∧
      st.Grows (st.withMembers inner members) := by
  induction members generalizing st with
  | nil => exact ⟨rfl, rfl, .refl st⟩
  | cons m rest ih =>
    obtain ⟨scopes, nodes, grows⟩ := st.withMember_rest inner m
    obtain ⟨scopes', nodes', grows'⟩ := ih (st.withMember inner m)
    exact ⟨scopes'.trans scopes, nodes'.trans nodes, grows.trans grows'⟩

/-! ### Members that stay inside -/

/-- A member that a scope around the class has and neither the class nor an earlier member: the
variable out there is meant. -/
def Escapes (st : Store) (inner : Ref .scope) (known : List Text) : Member → Prop
  | .field name _ =>
    name ∉ known ∧ ¬ st.Declares name inner ∧ ∃ a, st.FirstOutward (st.Declares name) inner a
  | .method _ _ => False

def Contains (st : Store) (inner : Ref .scope) : List Text → List Member → Prop
  | _, [] => True
  | known, m :: rest => ¬ st.Escapes inner known m ∧ st.Contains inner (known ++ [m.name]) rest

/-- A store in which some names have been declared in the scope of a class, and all else is as
before. -/
structure Filled (st : Store) (inner : Ref .scope) (known : List Text) (cur : Store) : Prop where
  registered : cur.Registered
  parents : ∀ s, (cur.scope s).parent = (st.scope s).parent
  changes : st.ChangesOnly cur fun s name => s = inner ∧ name ∈ known
  declared : ∀ name ∈ known, cur.Declares name inner

namespace Filled

variable (filled : st.Filled inner known cur)
include filled

private theorem declares_iff {name : Text} (other : name ∉ known) {s : Ref .scope}
    (inside : st.Has s.cell) : cur.Declares name s ↔ st.Declares name s := by
  rw [Declares, Declares, filled.changes.names s inside name fun both => other both.2]

variable (registered : st.Registered) (held : st.Has inner.cell)
include registered held

/-- Whether a member escapes is known from the start. -/
theorem escapes_iff (m : Member) : cur.Escapes inner [] m ↔ st.Escapes inner known m := by
  cases m with
  | method => exact Iff.rfl
  | field name v =>
    by_cases listed : name ∈ known
    · simp [Escapes, listed, filled.declared name listed]
    · have same : ∀ s : Ref .scope, st.Has s.cell → (st.Declares name s ↔ cur.Declares name s) :=
        fun s inside => (filled.declares_iff listed inside).symm
      have back : ∀ s : Ref .scope, cur.Has s.cell → (cur.Declares name s ↔ st.Declares name s) :=
        fun s inside => (same s (filled.changes.scopes s inside)).symm
      have outward : (∃ a, cur.FirstOutward (cur.Declares name) inner a) ↔
          ∃ a, st.FirstOutward (st.Declares name) inner a := by
        constructor
        · rintro ⟨a, first⟩
          exact ⟨a, first.congr filled.registered.closed (held.mono filled.changes.grows)
            (fun s => (filled.parents s).symm) back⟩
        · rintro ⟨a, first⟩
          exact ⟨a, first.congr registered.closed held filled.parents same⟩
      simp only [Escapes, listed, List.not_mem_nil, not_false_iff,
        true_and, ← same inner held, outward]

/-- A member that does not escape is a name of the class afterwards, and no other name changes. -/
theorem member (fits : cur.Fits m) (stays : ¬ st.Escapes inner known m) :
    st.Filled inner (known ++ [m.name]) (cur.withMember inner m) ∧
      cur.ChangesOnly (cur.withMember inner m) fun s name => s = inner ∧ name = m.name := by
  have here := held.mono filled.changes.grows
  obtain ⟨changes, own⟩ : cur.ChangesOnly (cur.withMember inner m)
    (fun s name => s = inner ∧ name = m.name) ∧
      (cur.withMember inner m).Declares m.name inner := by
    obtain ⟨name, v, owner, q, rfl, found, same⟩ | same := cur.withMember_cases inner m
    · obtain ⟨nearest, bound⟩ := resolve_first found
      have own : cur.Declares name inner := by
        by_contra absent
        exact stays ((filled.escapes_iff registered held _).mp ⟨List.not_mem_nil, absent,
          owner, nearest⟩)
      obtain rfl := nearest.unique (.here own)
      rw [same]
      refine ⟨filled.registered.changesOnly_overwrite here bound v, ?_⟩
      rw [Declares, (cur.overwrite_frame q v).2.1]
      exact own
    · rw [same]
      refine ⟨filled.registered.changesOnly_bindName here m.name _, ?_⟩
      rw [Declares, filled.registered.find?_declared here]
      rfl
  refine ⟨⟨filled.registered.withMember here fits, ?_, ?_, ?_⟩, changes⟩
  · intro s
    rw [Store.scope, (cur.withMember_rest inner m).1]
    exact filled.parents s
  · apply (filled.changes.trans changes).mono
    rintro s name (⟨rfl, listed⟩ | ⟨rfl, rfl⟩)
    · exact ⟨rfl, List.mem_append_left _ listed⟩
    · exact ⟨rfl, List.mem_append_right _ List.mem_cons_self⟩
  · intro name listed
    by_cases last : name = m.name
    · exact last ▸ own
    · have earlier : name ∈ known := by simpa [last] using listed
      rw [Declares, changes.names inner here name fun both => last both.2]
      exact filled.declared name earlier

theorem members {members : List Member} (fits : ∀ m ∈ members, cur.Fits m)
    (contained : st.Contains inner known members) :
    st.Filled inner (known ++ members.map Member.name) (cur.withMembers inner members) ∧
      cur.ChangesOnly (cur.withMembers inner members) fun s name => s = inner ∧
      name ∈ members.map Member.name := by
  induction members generalizing cur known with
  | nil =>
    simp only [List.map_nil, List.append_nil]
    exact ⟨filled, .of_same (.refl cur) rfl (fun _ => rfl) rfl rfl rfl (.refl _) rfl⟩
  | cons m rest ih =>
    obtain ⟨stays, contained⟩ := contained
    obtain ⟨first, change⟩ := filled.member registered held (fits m List.mem_cons_self) stays
    have later : ∀ next ∈ rest, (cur.withMember inner m).Fits next :=
      fun next listed => (fits next (List.mem_cons_of_mem m listed)).mono
        (cur.withMember_rest inner m).2.2
    obtain ⟨all, changes⟩ := ih first later contained
    rw [List.append_assoc] at all
    refine ⟨all, (change.trans changes).mono ?_⟩
    rintro s name (⟨rfl, rfl⟩ | ⟨rfl, listed⟩)
    · exact ⟨rfl, List.mem_cons_self⟩
    · exact ⟨rfl, List.mem_cons_of_mem _ listed⟩

/-- A member that escapes is written to the variable that a scope around the class has, and it is no
name of the class. -/
theorem escape {name : Text} {v : Value} (escapes : st.Escapes inner known (.field name v)) :
    ∃ owner q, owner ≠ inner ∧ st.FirstOutward (st.Declares name) inner owner ∧
    (st.tableOf owner).find? name = some q ∧
      (cur.withMember inner (.field name v)).var q = { st.var q with content := v.asRead } ∧
      ¬ (cur.withMember inner (.field name v)).Declares name inner := by
  have here := held.mono filled.changes.grows
  obtain ⟨_, absent, a, first⟩ := (filled.escapes_iff registered held _).mpr escapes
  obtain ⟨other, _⟩ := escapes
  cases found : cur.resolve inner name with
  | none => exact absurd first (not_first_of_unknown (filled.registered.rooted inner here) found a)
  | some meaning =>
    obtain ⟨owner, q⟩ := meaning
    obtain ⟨nearest, bound⟩ := resolve_first found
    have there := (filled.registered.closed.resolve here found).1
    have old := filled.changes.scopes owner there
    have same := withMember_known v found
    have outside : owner ≠ inner := by
      rintro rfl
      simp [Declares, bound] at absent
    have before : (st.tableOf owner).find? name = some q := by
      rw [← filled.changes.names owner old name fun both => other both.2, bound]
    have kept := (registered.kept filled.changes old (fun both => other both.2) before).2
    refine ⟨owner, q, outside, ?_, before, ?_, ?_⟩
    · apply nearest.congr filled.registered.closed here fun s => (filled.parents s).symm
      intro s inside
      exact filled.declares_iff other (filled.changes.scopes s inside)
    · rw [same, filled.registered.var_overwrite there bound, kept]
    · rw [same, Declares, (cur.overwrite_frame q v).2.1]
      exact absent

/-- A member with a new name that does not escape has its value. -/
theorem fresh (fits : cur.Fits m) (stays : ¬ st.Escapes inner known m) (new : m.name ∉ known)
    (absent : ¬ st.Declares m.name inner) :
    ∃ x, ((cur.withMember inner m).tableOf inner).find? m.name = some x ∧
      ((cur.withMember inner m).var x).reading = .ok m.value.asRead := by
  have here := held.mono filled.changes.grows
  obtain ⟨name, v, owner, q, rfl, found, _⟩ | same := cur.withMember_cases inner m
  · have hidden : ¬ cur.Declares name inner :=
      fun own => absent ((filled.declares_iff new held).mp own)
    have escapes : cur.Escapes inner [] (.field name v) :=
      ⟨List.not_mem_nil, hidden, owner, (resolve_first found).1⟩
    exact absurd ((filled.escapes_iff registered held _).mp escapes) stays
  · have settled : m.value.Settled cur := by
      cases m with
      | field name v => exact Value.IsScalar.settled fits cur
      | method name r => exact .node r
    rw [same]
    refine ⟨_, filled.registered.find?_declared here m.name m.value, ?_⟩
    rw [Store.declared, var_bindName_fresh]
    exact Variable.reading_ofValue m.name _ settled

end Filled

theorem contains_append {before after : List Member}
    (contained : st.Contains inner known (before ++ after)) :
    st.Contains inner known before ∧ st.Contains inner (known ++ before.map Member.name) after := by
  induction before generalizing known with
  | nil =>
    rw [List.map_nil, List.append_nil]
    exact ⟨trivial, contained⟩
  | cons m rest ih =>
    obtain ⟨stays, contained⟩ := contained
    obtain ⟨first, second⟩ := ih contained
    rw [List.append_assoc] at second
    exact ⟨⟨stays, first⟩, second⟩

/-- Unless no member escapes, there is a first one that does. -/
theorem exists_escape {members : List Member} (fails : ¬ st.Contains inner known members) :
    ∃ before m after, members = before ++ m :: after ∧ st.Contains inner known before ∧
      st.Escapes inner (known ++ before.map Member.name) m := by
  induction members generalizing known with
  | nil => exact absurd trivial fails
  | cons m rest ih =>
    by_cases escapes : st.Escapes inner known m
    · refine ⟨[], m, rest, rfl, trivial, ?_⟩
      rwa [List.map_nil, List.append_nil]
    · have later : ¬ st.Contains inner (known ++ [m.name]) rest :=
        fun contained => fails ⟨escapes, contained⟩
      obtain ⟨before, p, after, rfl, contained, first⟩ := ih later
      rw [List.append_assoc] at first
      exact ⟨m :: before, p, after, rfl, ⟨escapes, contained⟩, first⟩

theorem withMembers_append (st : Store) (inner : Ref .scope) (before after : List Member) :
    st.withMembers inner (before ++ after) =
      (st.withMembers inner before).withMembers inner after :=
  List.foldl_append

/-! ### Sealed scopes -/

def sealing (st : Store) (s : Ref .scope) (isSealed : Bool) : Store :=
  st.updateScope s fun x => { x with isSealed }

theorem scope_sealing_here (held : st.Has inner.cell) (isSealed : Bool) :
    (st.sealing inner isSealed).scope inner = { st.scope inner with isSealed } :=
  Arena.read_update_here st.scopes inner _ held

theorem scope_sealing_elsewhere {s : Ref .scope} (other : s ≠ inner) (isSealed : Bool) :
    (st.sealing inner isSealed).scope s = st.scope s :=
  Arena.read_update_elsewhere st.scopes inner s _ other

theorem sealing_kept (st : Store) (inner s : Ref .scope) (isSealed : Bool) :
    ((st.sealing inner isSealed).scope s).parent = (st.scope s).parent ∧
      ((st.sealing inner isSealed).scope s).table = (st.scope s).table := by
  rcases Arena.read_update_cases st.scopes inner s fun x => { x with isSealed } with same |
    ⟨_, _, changed⟩
  · exact ⟨congrArg Scope.parent same, congrArg Scope.table same⟩
  · exact ⟨(congrArg Scope.parent changed).trans rfl, (congrArg Scope.table changed).trans rfl⟩

theorem changesOnly_sealing {changed : Ref .scope → Text → Prop} (st : Store) (inner : Ref .scope)
    (isSealed : Bool) : st.ChangesOnly (st.sealing inner isSealed) changed :=
  .of_same (st.grows_updateScope inner _) (Arena.size_update _ _ _)
    (fun s => (st.sealing_kept inner s isSealed).2) rfl rfl rfl
    (.refl _) rfl

theorem Registered.sealing (registered : st.Registered) (inner : Ref .scope) (isSealed : Bool) :
    (st.sealing inner isSealed).Registered :=
  registered.of_same (registered.closed.updateScope inner _ fun held =>
    registered.closed.scopes inner held)
    (Arena.size_update _ _ _) (fun s => (st.sealing_kept inner s isSealed).1)
    (fun s => (st.sealing_kept inner s isSealed).2) rfl rfl

theorem changesOnly_newRecord {changed : Ref .scope → Text → Prop} (st : Store) (made : Record) :
    st.ChangesOnly (st.newRecord made).2 changed :=
  .of_same (st.extends_newRecord made).grows rfl (fun _ => rfl) rfl rfl rfl
    (Arena.extends_alloc _ _) rfl

theorem Registered.newRecord (registered : st.Registered) {made : Record}
    (known : st.HasAll made.cells) : (st.newRecord made).2.Registered :=
  registered.of_same (registered.closed.newRecord known) rfl (fun _ => rfl) (fun _ => rfl) rfl rfl

theorem Registered.filled (registered : st.Registered) (inner : Ref .scope) :
    st.Filled inner [] (st.sealing inner true) where
  registered := registered.sealing inner true
  parents s := (st.sealing_kept inner s true).1
  changes := st.changesOnly_sealing inner true
  declared := by simp

end Store

/-- A field is a member with its value afterwards, and nothing else has changed, exactly if it does
not escape and no member of that name was made for text. -/
theorem Store.Registered.field_iff {st : Store} (registered : st.Registered) {inner : Ref .scope}
    (held : st.Has inner.cell) (name : Text) {v : Value} (scalar : v.IsScalar) :
    ((∃ x, ((st.withMember inner (.field name v)).tableOf inner).find? name = some x ∧
          ((st.withMember inner (.field name v)).var x).reading = .ok v.asRead) ∧
        st.ChangesOnly (st.withMember inner (.field name v)) fun s label => s = inner ∧
        label = name) ↔
      ¬ st.Escapes inner [] (.field name v) ∧ ∀ x, (st.tableOf inner).find? name = some x →
        (st.var x).tag ≠ .text := by
  have filled : st.Filled inner [] st :=
    ⟨registered, fun _ => rfl, .of_same (.refl st) rfl (fun _ => rfl) rfl rfl rfl
      (.refl _) rfl, by simp⟩
  by_cases escapes : st.Escapes inner [] (.field name v)
  · obtain ⟨_, _, _, _, _, _, hidden⟩ := filled.escape registered held escapes
    constructor
    · rintro ⟨⟨x, bound, _⟩, _⟩
      simp [Declares, bound] at hidden
    · rintro ⟨stays, _⟩
      exact absurd escapes stays
  · have fits : st.Fits (.field name v) := scalar
    have changes := (filled.member registered held fits escapes).2
    cases bound : (st.tableOf inner).find? name with
    | none =>
      have absent : ¬ st.Declares name inner := by simp [Declares, bound]
      have value := filled.fresh registered held fits escapes List.not_mem_nil absent
      exact ⟨fun _ => ⟨escapes, by simp⟩, fun _ => ⟨value, changes⟩⟩
    | some x =>
      rw [withMember_known v (resolve_self bound)] at changes ⊢
      rw [(st.overwrite_frame x v).2.1, bound]
      have written := registered.var_overwrite held bound v
      constructor
      · rintro ⟨⟨y, same, reading⟩, _⟩
        refine ⟨escapes, ?_⟩
        intro z other tag
        obtain rfl := Option.some.inj same
        obtain rfl := Option.some.inj other
        refine Variable.reading_text_ne ?_ scalar (.inr ?_) reading
        · rw [written]
          exact tag
        · rw [written]
      · rintro ⟨_, untagged⟩
        refine ⟨⟨x, rfl, ?_⟩, changes⟩
        rw [written, Variable.reading, if_neg (untagged x rfl)]

end CommandScript
