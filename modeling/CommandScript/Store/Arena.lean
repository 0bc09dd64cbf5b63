/-!
Cells that are addressed by references. A reference names the kind of its cell, so that a
reference to a list is never used for a scope. Cells are added and overwritten, never removed.
-/
namespace CommandScript

inductive Kind where
  | scope
  | table
  | variable
  | list
  | record
  | node
deriving DecidableEq, Repr

structure Ref (k : Kind) where
  index : Nat
deriving DecidableEq, Repr, Inhabited

structure Arena (k : Kind) (α : Type) where
  cells : Array α := #[]

namespace Arena

variable {k : Kind} {α : Type}

instance : EmptyCollection (Arena k α) := ⟨⟨#[]⟩⟩

def size (a : Arena k α) : Nat := a.cells.size

/-- The cell at a reference; the default one where no cell was made. -/
def read [Inhabited α] (a : Arena k α) (r : Ref k) : α := a.cells.getD r.index default

def alloc (a : Arena k α) (cell : α) : Ref k × Arena k α := (⟨a.cells.size⟩, ⟨a.cells.push cell⟩)

def write (a : Arena k α) (r : Ref k) (cell : α) : Arena k α := ⟨a.cells.setIfInBounds r.index cell⟩

def update (a : Arena k α) (r : Ref k) (f : α → α) : Arena k α := ⟨a.cells.modify r.index f⟩

def Holds (a : Arena k α) (r : Ref k) : Prop := r.index < a.size

theorem read_of_not_holds [Inhabited α] {a : Arena k α} {r : Ref k} (absent : ¬ a.Holds r) :
    a.read r = default := by
  have beyond : ¬ r.index < a.cells.size := absent
  simp only [read, Array.getD, beyond, dite_false]

theorem read_alloc_fresh [Inhabited α] (a : Arena k α) (cell : α) :
    (a.alloc cell).2.read (a.alloc cell).1 = cell := by
  simp [alloc, read, Array.getD]

theorem read_alloc_of_holds [Inhabited α] (a : Arena k α) (cell : α) (r : Ref k) (h : a.Holds r) :
    (a.alloc cell).2.read r = a.read r := by
  simp only [Holds, size] at h
  simp [alloc, read, Array.getD, h, Nat.lt_succ_of_lt h, Array.getElem_push_lt h]

theorem read_write_here [Inhabited α] (a : Arena k α) (r : Ref k) (cell : α) (h : a.Holds r) :
    (a.write r cell).read r = cell := by
  simp only [Holds, size] at h
  simp [write, read, Array.getD, h]

theorem read_write_elsewhere [Inhabited α] (a : Arena k α) (r other : Ref k) (cell : α)
    (h : other ≠ r) : (a.write r cell).read other = a.read other := by
  have index : r.index ≠ other.index := fun same => h (by cases r; cases other; simp_all)
  by_cases bound : other.index < a.cells.size
  · simp [write, read, Array.getD, bound, index]
  · simp [write, read, Array.getD, bound]

@[simp] theorem size_alloc (a : Arena k α) (cell : α) : (a.alloc cell).2.size = a.size + 1 := by
  simp [alloc, size]

@[simp] theorem size_write (a : Arena k α) (r : Ref k) (cell : α) :
    (a.write r cell).size = a.size := by
  simp [write, size]

@[simp] theorem size_update (a : Arena k α) (r : Ref k) (f : α → α) :
    (a.update r f).size = a.size := by
  simp [update, size]

private theorem alloc_ref (a : Arena k α) (cell : α) : (a.alloc cell).1 = ⟨a.size⟩ := rfl

theorem holds_alloc_fresh (a : Arena k α) (cell : α) : (a.alloc cell).2.Holds (a.alloc cell).1 := by
  simp [alloc, Holds, size]

theorem read_update_here [Inhabited α] (a : Arena k α) (r : Ref k) (f : α → α) (h : a.Holds r) :
    (a.update r f).read r = f (a.read r) := by
  simp only [Holds, size] at h
  simp [update, read, Array.getD, h, Array.getElem_modify]

theorem read_update_elsewhere [Inhabited α] (a : Arena k α) (r other : Ref k) (f : α → α)
    (h : other ≠ r) : (a.update r f).read other = a.read other := by
  have index : r.index ≠ other.index := fun same => h (by cases r; cases other; simp_all)
  by_cases bound : other.index < a.cells.size
  · simp [update, read, Array.getD, bound, Array.getElem_modify, index]
  · simp [update, read, Array.getD, bound]

/-- An update changes the cell that it is for, if there is one, and no other. -/
theorem read_update_cases [Inhabited α] (a : Arena k α) (r other : Ref k) (f : α → α) :
    (a.update r f).read other = a.read other ∨
    (other = r ∧ a.Holds r ∧ (a.update r f).read other = f (a.read other)) := by
  by_cases same : other = r
  · subst same
    by_cases held : a.Holds other
    · exact .inr ⟨rfl, held, read_update_here a other f held⟩
    · simp only [Holds, size] at held
      exact .inl (by simp [update, read, Array.getD, held])
  · exact .inl (read_update_elsewhere a r other f same)

def Extends [Inhabited α] (a b : Arena k α) : Prop :=
  ∀ r, a.Holds r → b.Holds r ∧ b.read r = a.read r

theorem Extends.refl [Inhabited α] (a : Arena k α) : a.Extends a := fun _ h => ⟨h, rfl⟩

theorem Extends.trans [Inhabited α] {a b c : Arena k α} (first : a.Extends b)
    (second : b.Extends c) :
    a.Extends c := fun r h =>
  ⟨(second r (first r h).1).1, (second r (first r h).1).2.trans (first r h).2⟩

theorem Extends.size_le [Inhabited α] {a b : Arena k α} (extended : a.Extends b) :
    a.size ≤ b.size := by
  rcases Nat.eq_zero_or_pos a.size with empty | some
  · rw [empty]
    exact Nat.zero_le _
  · have last := (extended ⟨a.size - 1⟩ (Nat.sub_lt some Nat.one_pos)).1
    simp only [Holds] at last
    omega

theorem extends_alloc [Inhabited α] (a : Arena k α) (cell : α) : a.Extends (a.alloc cell).2 :=
  fun r h =>
  ⟨by simp only [Holds, size_alloc] at h ⊢; omega, read_alloc_of_holds a cell r h⟩

theorem holds_alloc (a : Arena k α) (cell : α) (r : Ref k) :
    (a.alloc cell).2.Holds r ↔ a.Holds r ∨ r = (a.alloc cell).1 := by
  obtain ⟨index⟩ := r
  simp only [Holds, size_alloc, alloc_ref, Ref.mk.injEq]
  omega

def All [Inhabited α] (a : Arena k α) (p : α → Prop) : Prop := ∀ r, a.Holds r → p (a.read r)

instance [Inhabited α] (a : Arena k α) (p : α → Prop) [DecidablePred p] : Decidable (a.All p) :=
  decidable_of_iff (∀ i, i < a.size → p (a.read ⟨i⟩)) ⟨fun all r h => all r.index h,
    fun all i h => all ⟨i⟩ h⟩

theorem All.imp [Inhabited α] {a : Arena k α} {p q : α → Prop} (all : a.All p)
    (weaker : ∀ x, p x → q x) : a.All q :=
  fun r h => weaker _ (all r h)

theorem All.alloc [Inhabited α] {a : Arena k α} {p : α → Prop} (all : a.All p) {cell : α}
    (fresh : p cell) : (a.alloc cell).2.All p := by
  intro r h
  rcases (holds_alloc a cell r).mp h with old | rfl
  · rw [read_alloc_of_holds a cell r old]
    exact all r old
  · rw [read_alloc_fresh]
    exact fresh

theorem All.update [Inhabited α] {a : Arena k α} {p : α → Prop} (all : a.All p) (r : Ref k)
    (f : α → α) (changed : a.Holds r → p (f (a.read r))) : (a.update r f).All p := by
  intro other h
  have held : a.Holds other := by simpa only [Holds, size_update] using h
  by_cases same : other = r
  · subst same
    rw [read_update_here a other f held]
    exact changed held
  · rw [read_update_elsewhere a r other f same]
    exact all other held

end Arena

end CommandScript
