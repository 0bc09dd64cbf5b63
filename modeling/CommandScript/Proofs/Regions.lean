import CommandScript.Proofs.Cloning
import CommandScript.Proofs.Paths

/-! Regions of a store. A clone makes a region of new cells that refer only to each other, and no
other cell refers to them until a variable is bound to the clone; this variable is then the only
door to the region. Whatever is written through the door stays inside, and what is found without
passing the door is outside. -/
namespace CommandScript

private theorem Ref.cell_ne {k l : Kind} (apart : k ≠ l) (r : Ref k) (q : Ref l) :
    r.cell ≠ q.cell :=
  fun same => apart (congrArg Cell.kind same)

namespace Store

variable {st later : Store}

/-! ### Pictures -/

/-- What is reached from one cell is a picture of what is reached from another one in an older
store: cell by cell, with all references replaced by those to the pictures. -/
structure Pictures (old : Store) (start : Cell) (new : Store) (image : Cell)
    (names : Renaming) : Prop where
  first : names.cell old start = image
  content : ∀ c, old.Reaches start c → new.content (names.cell old c) =
    names.content old (old.content c)
  distinct : ∀ c d, old.Reaches start c → old.Reaches start d → names.cell old c =
    names.cell old d → c = d
  reached : ∀ e, new.Reaches image e ↔ ∃ c, old.Reaches start c ∧ names.cell old c = e

theorem Copied.pictures {names : Renaming} {start : Cell} (closed : st.Closed)
    (held : st.Has start) (copied : Copied st (st.reach start) later names) :
    Pictures st start later (names.cell st start) names := by
  have member : ∀ c, c ∈ st.reach start ↔ st.Reaches start c := fun c => mem_reach_iff closed held
  have edges : ∀ c, st.Reaches start c → later.edges (names.cell st c) =
      (st.edges c).map (names.cell st) := by
    intro c reached
    rw [edges_eq_cells, edges_eq_cells, copied.content c ((member c).mpr reached),
      Renaming.cells_content]
  refine ⟨rfl, ?_, ?_, ?_⟩
  · intro c reached
    exact copied.content c ((member c).mpr reached)
  · intro c d first second
    exact copied.distinct c ((member c).mpr first) d ((member d).mpr second)
  · intro e
    constructor
    · intro reached
      induction reached with
      | refl => exact ⟨start, .refl, rfl⟩
      | step _ edge ih =>
        obtain ⟨c, inside, rfl⟩ := ih
        rw [edges c inside] at edge
        obtain ⟨d, onward, rfl⟩ := List.mem_map.mp edge
        exact ⟨d, .step inside onward, rfl⟩
    · rintro ⟨c, inside, rfl⟩
      induction inside with
      | refl => exact .refl
      | step before edge ih =>
        refine .step ih ?_
        rw [edges _ before]
        exact List.mem_map_of_mem edge

def Made (st later : Store) (c : Cell) : Prop := later.Has c ∧ ¬ st.Has c

/-- What is reached from a clone is what was made for it. -/
theorem reaches_clone_iff (closed : st.Closed) {q : Ref .record} (held : st.Has q.cell) (c : Cell) :
    (st.clone q).2.Reaches (st.clone q).1.cell c ↔ st.Made (st.clone q).2 c := by
  obtain ⟨names, copied, same⟩ := clone_copied closed held
  have pictures := copied.pictures closed held
  have image : (st.clone q).1.cell = names.cell st q.cell := by rw [same]; rfl
  rw [image, pictures.reached]
  constructor
  · rintro ⟨d, reached, rfl⟩
    exact copied.named d ((mem_reach_iff closed held).mpr reached)
  · rintro ⟨inside, new⟩
    obtain ⟨d, member, rfl⟩ := copied.covered c inside new
    exact ⟨d, (mem_reach_iff closed held).mp member, rfl⟩

/-! ### Sealed and guarded regions -/

structure Sealed (st : Store) (region : Cell → Prop) : Prop where
  has : ∀ c, region c → st.Has c
  edges : ∀ c, region c → ∀ d ∈ st.edges c, region d

/-- A sealed region whose cells are as they were in an earlier store, and which no other cell but
the door refers to. -/
structure Guarded (base st : Store) (region : Cell → Prop) (door : Cell) : Prop where
  has : ∀ c, region c → st.Has c
  kept : ∀ c, region c → st.content c = base.content c
  edges : ∀ c, region c → ∀ d ∈ base.edges c, region d
  outside : ∀ c, st.Has c → ¬ region c → c ≠ door → ∀ d ∈ st.edges c, ¬ region d

variable {base : Store} {region : Cell → Prop} {door : Cell}

theorem Guarded.sealed (guarded : Guarded base st region door) : st.Sealed region where
  has := guarded.has
  edges c inside d edge := by
    rw [edges_eq_cells, guarded.kept c inside, ← edges_eq_cells] at edge
    exact guarded.edges c inside d edge

theorem Sealed.reaches (closed : st.Sealed region) {start c : Cell} (inside : region start)
    (reached : st.Reaches start c) : region c := by
  induction reached with
  | refl => exact inside
  | step _ edge ih => exact closed.edges _ ih _ edge

/-- What was reached in the earlier store is still reached. -/
theorem Guarded.reaches (guarded : Guarded base st region door) {start c : Cell}
    (inside : region start) (reached : base.Reaches start c) : region c ∧ st.Reaches start c := by
  induction reached with
  | refl => exact ⟨inside, .refl⟩
  | step _ edge ih =>
    refine ⟨guarded.edges _ ih.1 _ edge, .step ih.2 ?_⟩
    rwa [edges_eq_cells, guarded.kept _ ih.1, ← edges_eq_cells]

theorem guarded_clone (closed : st.Closed) {q : Ref .record} (held : st.Has q.cell) (door : Cell) :
    Guarded (st.clone q).2 (st.clone q).2 (st.Made (st.clone q).2) door where
  has _ made := made.1
  kept _ _ := rfl
  edges c made d edge := by
    have reached := (reaches_clone_iff closed held c).mpr made
    exact (reaches_clone_iff closed held d).mp (.step reached edge)
  outside c inside old _ d edge made := by
    have before : st.Has c := by
      by_contra new
      exact old ⟨inside, new⟩
    rw [edges_eq_cells, (extends_clone closed held).content before, ← edges_eq_cells] at edge
    exact made.2 (closed.edges c before d edge)

theorem Guarded.clone (guarded : Guarded base st region door) (closed : st.Closed)
    {q : Ref .record} (held : st.Has q.cell) : Guarded base (st.clone q).2 region door where
  has c inside := (guarded.has c inside).mono (extends_clone closed held).grows
  kept c inside :=
    ((extends_clone closed held).content (guarded.has c inside)).trans (guarded.kept c inside)
  edges := guarded.edges
  outside c inside outer other d edge within := by
    by_cases before : st.Has c
    · rw [edges_eq_cells, (extends_clone closed held).content before, ← edges_eq_cells] at edge
      exact guarded.outside c before outer other d edge within
    · have reached := (reaches_clone_iff closed held c).mpr ⟨inside, before⟩
      exact ((reaches_clone_iff closed held d).mp (.step reached edge)).2 (guarded.has d within)

private theorem content_bindName {target : Ref .scope} (name : Text) (x : Variable) {c : Cell}
    (held : st.Has c) (other : c ≠ (st.scope target).table.cell) :
    (st.bindName target name x).content c = st.content c := by
  match c with
  | ⟨.scope, index⟩ | ⟨.list, index⟩ | ⟨.record, index⟩ | ⟨.node, index⟩ => rfl
  | ⟨.variable, index⟩ => exact congrArg Content.var (var_bindName_old held)
  | ⟨.table, index⟩ =>
    have apart : (⟨index⟩ : Ref .table) ≠ (st.scope target).table :=
      fun same => other (congrArg Ref.cell same)
    exact congrArg Content.table (Arena.read_update_elsewhere _ _ _ _ apart)

/-- Binding a name makes a variable and a reference to it in the table of the scope. -/
theorem edges_bindName {target : Ref .scope} {name : Text} {x : Variable} {c d : Cell}
    (table : st.Has (st.scope target).table.cell) (held : (st.bindName target name x).Has c)
    (edge : d ∈ (st.bindName target name x).edges c) :
    c = ⟨.variable, st.vars.size⟩ ∧ d ∈ x.cells ∨
      st.Has c ∧ (d ∈ st.edges c ∨ c = (st.scope target).table.cell ∧
        d = ⟨.variable, st.vars.size⟩) := by
  by_cases before : st.Has c
  · refine .inr ⟨before, ?_⟩
    by_cases same : c = (st.scope target).table.cell
    · subst same
      change d ∈ Table.cells
        ((st.tables.update (st.scope target).table (Table.insert name ⟨st.vars.size⟩)).read
        (st.scope target).table) at edge
      rw [Arena.read_update_here _ _ _ table] at edge
      obtain ⟨entry, member, rfl⟩ := List.mem_map.mp edge
      rcases Table.mem_insert member with rfl | old
      · exact .inr ⟨rfl, rfl⟩
      · exact .inl (List.mem_map_of_mem old)
    · rw [edges_eq_cells, content_bindName name x before same, ← edges_eq_cells] at edge
      exact .inl edge
  · left
    match c with
    | ⟨.scope, index⟩ | ⟨.list, index⟩ | ⟨.record, index⟩ | ⟨.node, index⟩ =>
      exact absurd held before
    | ⟨.table, index⟩ =>
      refine absurd ?_ before
      change index < (st.tables.update _ _).size at held
      rwa [Arena.size_update] at held
    | ⟨.variable, index⟩ =>
      rcases (Arena.holds_alloc st.vars x ⟨index⟩).mp held with old | fresh
      · exact absurd old before
      · cases fresh
        refine ⟨rfl, ?_⟩
        change d ∈ ((st.bindName target name x).var ⟨st.vars.size⟩).cells at edge
        rwa [var_bindName_fresh] at edge

/-- A variable that is bound outside of a region and refers to it has to be its door. -/
theorem Guarded.bindName (guarded : Guarded base st region door) {target : Ref .scope}
    (name : Text) {x : Variable} (table : st.Has (st.scope target).table.cell)
    (outer : ¬ region (st.scope target).table.cell)
    (refers : door = ⟨.variable, st.vars.size⟩ ∨ ∀ d ∈ x.cells, ¬ region d) :
    Guarded base (st.bindName target name x) region door where
  has c inside := (guarded.has c inside).mono (st.grows_bindName target name x)
  kept c inside := by
    have other : c ≠ (st.scope target).table.cell := fun same => outer (same ▸ inside)
    exact (content_bindName name x (guarded.has c inside) other).trans (guarded.kept c inside)
  edges := guarded.edges
  outside c held apart other d edge within := by
    rcases edges_bindName table held edge with ⟨fresh, refers'⟩ | ⟨before, onward | ⟨_, fresh⟩⟩
    · rcases refers with same | avoids
      · exact other (fresh.trans same.symm)
      · exact avoids d refers' within
    · exact guarded.outside c before apart other d onward within
    · subst fresh
      exact Nat.lt_irrefl _ (guarded.has _ within)

/-! ### Names and regions -/

section Along

variable {cells : Cell → Prop} {door : Option (Ref .variable)}
  (along : ∀ c, cells c → (∀ r, door = some r → c ≠ r.cell) → ∀ d ∈ st.edges c, cells d)
include along

private theorem along_outward (n : Nat) {s a : Ref .scope} (inside : cells s.cell)
    (member : a ∈ st.outward n s) : cells a.cell := by
  induction n generalizing s with
  | zero => exact List.mem_singleton.mp member ▸ inside
  | succ n ih =>
    rw [outward] at member
    split at member
    · exact List.mem_singleton.mp member ▸ inside
    · next parent above =>
      rcases List.mem_cons.mp member with rfl | later
      · exact inside
      · refine ih (along _ inside (fun x _ => Ref.cell_ne (by decide) _ x) _ ?_) later
        change parent.cell ∈ (st.scope s).cells
        simp [Scope.cells, above]

private theorem along_resolve {s owner : Ref .scope} {name : Text} {r : Ref .variable}
    (inside : cells s.cell) (found : st.resolve s name = some (owner, r)) : cells r.cell := by
  obtain ⟨member, bound⟩ := resolve_inv found
  have above := along_outward along _ inside member
  have table := along _ above (fun x _ => Ref.cell_ne (by decide) _ x) _
    (List.mem_append_right _ (List.mem_singleton.mpr rfl))
  exact along _ table (fun x _ => Ref.cell_ne (by decide) _ x) _
    (List.mem_map_of_mem (Table.mem_of_find? bound))

/-- Cells that refer only to each other, the door apart: what is found from one of them without
going on from the door is one of them. -/
theorem find_along {s : Ref .scope} {name : Text} {rest : List Text} {r : Ref .variable}
    (inside : cells s.cell)
    (avoids : ∀ k < rest.length, ∀ q, st.find s name (rest.take k) = some q → door ≠ some q)
    (found : st.find s name rest = some r) : cells r.cell := by
  induction rest generalizing s name with
  | nil =>
    obtain ⟨owner, q, known, ⟨_, rfl⟩ | ⟨_, _, _, same, _⟩⟩ := find_inv found
    · exact along_resolve along inside known
    · cases same
  | cons member more ih =>
    obtain ⟨owner, q, known, ⟨same, _⟩ | ⟨_, _, members, same, below, onward⟩⟩ := find_inv found
    · cases same
    · cases same
      have here : st.find s name [] = some q := by rw [find, known]; rfl
      have shut : ∀ x, door = some x → q.cell ≠ x.cell := by
        intro x open_ same
        have equal : q = x := by cases q; cases x; cases same; rfl
        exact avoids 0 (Nat.succ_pos _) q here (equal ▸ open_)
      have next : cells members.cell := by
        refine along _ (along_resolve along inside known) shut _ ?_
        change members.cell ∈ (st.var q).cells
        simp [Variable.cells, below]
      refine ih next ?_ onward
      intro k less x later
      apply avoids (k + 1) (Nat.succ_lt_succ less) x
      simp only [List.take_succ_cons, find, known, Option.bind_some, below, later]

end Along

theorem Sealed.find (closed : st.Sealed region) {s : Ref .scope} {name : Text} {rest : List Text}
    {r : Ref .variable} (inside : region s.cell) (found : st.find s name rest = some r) :
    region r.cell := by
  have along : ∀ c, region c → (∀ r : Ref .variable, none = some r → c ≠ r.cell) →
      ∀ d ∈ st.edges c, region d :=
    fun c within _ => closed.edges c within
  exact find_along along inside (fun _ _ _ _ => nofun) found

/-- What is found from outside of a region without passing its door is outside. -/
theorem Guarded.find {x : Ref .variable} (guarded : Guarded base st region x.cell)
    (closed : st.Closed) {s : Ref .scope} {name : Text} {rest : List Text} {r : Ref .variable}
    (held : st.Has s.cell) (outer : ¬ region s.cell)
    (avoids : ∀ k < rest.length, st.find s name (rest.take k) ≠ some x)
    (found : st.find s name rest = some r) : ¬ region r.cell := by
  have along : ∀ c, (st.Has c ∧ ¬ region c) → (∀ r, some x = some r → c ≠ r.cell) →
      ∀ d ∈ st.edges c, st.Has d ∧ ¬ region d := by
    rintro c ⟨has, apart⟩ shut d edge
    exact ⟨closed.edges c has d edge, guarded.outside c has apart (shut x rfl) d edge⟩
  refine (find_along along ⟨held, outer⟩ ?_ found).2
  rintro k less q known same
  exact avoids k less (same ▸ known)

/-! ### Writing in a region -/

private theorem has_overwrite (st : Store) (r : Ref .variable) (v : Value) (c : Cell) :
    (st.overwrite r v).Has c ↔ st.Has c := by
  have same : ∀ (st : Store) p f, (st.updateVariable p f).Has c ↔ st.Has c := by
    intro st p f
    obtain ⟨_ | _, _⟩ := c <;> simp [Has, updateVariable, count]
  unfold overwrite
  split
  · rw [same, same]
  · rw [same]

/-- What an assignment refers to afterwards: a scalar refers to nothing. -/
theorem edges_overwrite {r : Ref .variable} {v : Value} (scalar : v.IsScalar) {c d : Cell}
    (edge : d ∈ (st.overwrite r v).edges c) : d ∈ st.edges c := by
  have fewer : ∀ (st : Store) (p : Ref .variable) (u : Value), u.cells = [] →
      d ∈ (st.updateVariable p fun x => { x with content := u }).edges c → d ∈ st.edges c := by
    intro st p u none edge
    match c with
    | ⟨.scope, index⟩ | ⟨.table, index⟩ | ⟨.list, index⟩ | ⟨.record, index⟩ | ⟨.node, index⟩ =>
      exact edge
    | ⟨.variable, index⟩ =>
      change d ∈ Variable.cells ((st.vars.update p fun x => { x with content := u }).read ⟨index⟩)
        at edge
      rcases Arena.read_update_cases st.vars p ⟨index⟩ (fun x => { x with content := u })
        with same | ⟨_, _, changed⟩
      · rw [same] at edge
        exact edge
      · rw [changed] at edge
        change d ∈ Variable.cells (st.var ⟨index⟩)
        simp only [Variable.cells, none, List.append_nil, List.mem_append] at edge ⊢
        exact edge.imp_left .inl
  unfold overwrite at edge
  split at edge
  · exact fewer _ _ _ scalar.cells (fewer _ _ _ scalar.cells_asRead edge)
  · exact fewer _ _ _ scalar.cells edge

private theorem content_overwrite_elsewhere {r : Ref .variable} (v : Value) {c : Cell}
    (other : c ≠ r.cell) (others : ∀ q, st.namesake r = some q → c ≠ q.cell) :
    (st.overwrite r v).content c = st.content c := by
  match c with
  | ⟨.scope, index⟩ | ⟨.table, index⟩ | ⟨.list, index⟩ | ⟨.record, index⟩ | ⟨.node, index⟩ =>
    unfold overwrite
    split <;> rfl
  | ⟨.variable, index⟩ =>
    have apart : (⟨index⟩ : Ref .variable) ≠ r := fun same => other (congrArg Ref.cell same)
    have unlike : st.namesake r ≠ some ⟨index⟩ := fun known => others _ known rfl
    exact congrArg Content.var (var_overwrite_elsewhere v apart unlike)

namespace Sealed

variable (closed : st.Sealed region) {r : Ref .variable} (inside : region r.cell)
include closed inside

/-- The variable that the name of a variable means is in the same region. -/
theorem namesake {q : Ref .variable} (known : st.namesake r = some q) : region q.cell := by
  obtain ⟨home, placed, named⟩ := Option.bind_eq_some_iff.mp known
  obtain ⟨⟨owner, p⟩, found, rfl⟩ := Option.map_eq_some_iff.mp named
  obtain ⟨name, _, resolved⟩ := Option.bind_eq_some_iff.mp found
  have around : region home.cell := by
    refine closed.edges _ inside _ ?_
    change home.cell ∈ (st.var r).cells
    simp [Variable.cells, placed]
  have meant : st.find home name [] = some p := by rw [Store.find, resolved]; rfl
  exact closed.find around meant

theorem content_overwrite (v : Value) {c : Cell} (outer : ¬ region c) :
    (st.overwrite r v).content c = st.content c := by
  refine content_overwrite_elsewhere v ?_ ?_
  · rintro rfl
    exact outer inside
  · rintro q known rfl
    exact outer (closed.namesake inside known)

omit inside in
theorem overwrite {v : Value} (scalar : v.IsScalar) : (st.overwrite r v).Sealed region where
  has c within := (has_overwrite st r v c).mpr (closed.has c within)
  edges c within d edge := closed.edges c within d (edges_overwrite scalar edge)

end Sealed

end Store

end CommandScript
