import CommandScript.Proofs.Closed
import Mathlib.Data.List.Nodup

/-! The walk over the cells of a closed store meets exactly the cells that can be reached, each
once. Every step takes a cell off the stack, and a cell puts what it refers to on the stack only
when it is met, so that the number of references bounds the steps. -/
namespace CommandScript.Store

variable {st : Store} {start : Cell}

theorem place_lt_total {c : Cell} (has : st.Has c) : st.place c < st.total := by
  obtain ⟨kind, index⟩ := c
  cases kind <;> simp only [Has, place, total] at has ⊢ <;> omega

theorem place_injective {c d : Cell} (first : st.Has c) (second : st.Has d)
    (same : st.place c = st.place d) : c = d := by
  obtain ⟨kind, index⟩ := c
  obtain ⟨other, position⟩ := d
  have kinds : kind = other := by
    cases kind <;> cases other <;> simp only [Has, place] at first second same
      <;> first | rfl | omega
  subst kinds
  have indices : index = position := Nat.add_right_cancel same
  rw [indices]

private theorem mem_allCells {c : Cell} (has : st.Has c) : c ∈ st.allCells := by
  obtain ⟨kind, index⟩ := c
  rw [allCells, List.mem_flatMap]
  refine ⟨kind, ?_, List.mem_map_of_mem (List.mem_range.mpr has)⟩
  cases kind <;> decide

def tally (f : Cell → Nat) : List Cell → Nat
  | [] => 0
  | c :: rest => f c + tally f rest

private theorem foldl_eq_tally (f : Cell → Nat) (cells : List Cell) (n : Nat) :
    cells.foldl (fun n c => n + f c) n = n + tally f cells := by
  induction cells generalizing n with
  | nil => rfl
  | cons c rest ih =>
    rw [List.foldl_cons, ih, tally]
    omega

private theorem tally_le {f g : Cell → Nat} (cells : List Cell) (below : ∀ c, f c ≤ g c) :
    tally f cells ≤ tally g cells := by
  induction cells with
  | nil => exact Nat.le_refl _
  | cons c rest ih => exact Nat.add_le_add (below c) ih

private theorem tally_drop {f g : Cell → Nat} {cells : List Cell} {c : Cell}
    (below : ∀ d, f d ≤ g d) (member : c ∈ cells) (gone : f c = 0) :
    tally f cells + g c ≤ tally g cells := by
  induction cells with
  | nil => exact absurd member List.not_mem_nil
  | cons d rest ih =>
    rcases List.mem_cons.mp member with rfl | later
    · have others := tally_le rest below
      simp only [tally, gone]
      omega
    · have others := ih later
      have here := below d
      simp only [tally]
      omega

private theorem getD_mark (seen : Array Bool) (i j : Nat) :
    (seen.setIfInBounds i true).getD j true = if i = j then true else seen.getD j true := by
  by_cases bound : j < seen.size
  · simp only [Array.getD, Array.size_setIfInBounds, bound, dif_pos]
    exact Array.getElem_setIfInBounds _
  · simp [Array.getD, bound]

/-- A walk in progress from a cell: what was met, and what is still on the stack. -/
structure Walking (st : Store) (start : Cell) (stack : List (Cell × Nat)) (w : Walk) : Prop where
  size : w.seen.size = st.total
  marked : ∀ c, st.Has c → (w.seen.getD (st.place c) true = true ↔ c ∈ w.met)
  held : ∀ c, c ∈ w.met ∨ c ∈ stack.map Prod.fst → st.Has c ∧ st.Reaches start c
  onward : ∀ c ∈ w.met, ∀ d ∈ st.edges c, d ∈ w.met ∨ d ∈ stack.map Prod.fst
  started : start ∈ w.met ∨ start ∈ stack.map Prod.fst
  nodup : w.met.Nodup

private theorem walking_initial (has : st.Has start) :
    Walking st start [(start, 0)] { seen := Array.replicate st.total false } where
  size := Array.size_replicate
  marked := by
    intro c inside
    simp [place_lt_total inside]
  held := by
    intro c member
    obtain rfl : c = start := by simpa using member
    exact ⟨has, .refl⟩
  onward := by
    intro c member
    exact absurd member List.not_mem_nil
  started := .inr List.mem_cons_self
  nodup := List.nodup_nil

variable {c : Cell} {depth : Nat} {rest : List (Cell × Nat)} {w : Walk}

/-- A cell that was met before is only taken off the stack. -/
theorem Walking.skip (walking : Walking st start ((c, depth) :: rest) w)
    (seen : w.seen.getD (st.place c) true = true) : Walking st start rest w := by
  have has := (walking.held c (.inr List.mem_cons_self)).1
  have met := (walking.marked c has).mp seen
  have covered : ∀ d, d ∈ w.met ∨ d ∈ ((c, depth) :: rest).map Prod.fst → d ∈ w.met ∨
      d ∈ rest.map Prod.fst := by
    rintro d (inside | pending)
    · exact .inl inside
    · rcases List.mem_cons.mp pending with rfl | later
      · exact .inl met
      · exact .inr later
  refine ⟨walking.size, walking.marked, ?_, ?_, covered start walking.started, walking.nodup⟩
  · intro d member
    exact walking.held d (member.imp_right (List.mem_cons_of_mem _))
  · intro a member d edge
    exact covered d (walking.onward a member d edge)

/-- A new cell is marked and met, and what it refers to is put on the stack. -/
theorem Walking.visit (closed : st.Closed) (walking : Walking st start ((c, depth) :: rest) w)
    (unseen : w.seen.getD (st.place c) true ≠ true) (below deepest : Nat) :
    Walking st start ((st.edges c).map (·, below) ++ rest)
      { seen := w.seen.setIfInBounds (st.place c) true, met := c :: w.met, deepest } := by
  obtain ⟨has, reached⟩ := walking.held c (.inr List.mem_cons_self)
  have new : c ∉ w.met := fun met => unseen ((walking.marked c has).mpr met)
  have stacked : ((st.edges c).map (·, below) ++ rest).map Prod.fst =
      st.edges c ++ rest.map Prod.fst := by
    simp [Function.comp_def]
  have covered : ∀ d, d ∈ w.met ∨ d ∈ ((c, depth) :: rest).map Prod.fst →
      d ∈ c :: w.met ∨ d ∈ st.edges c ++ rest.map Prod.fst := by
    rintro d (inside | pending)
    · exact .inl (List.mem_cons_of_mem _ inside)
    · rcases List.mem_cons.mp pending with rfl | later
      · exact .inl List.mem_cons_self
      · exact .inr (List.mem_append_right _ later)
  refine ⟨?_, ?_, ?_, ?_, ?_, List.nodup_cons.mpr ⟨new, walking.nodup⟩⟩
  · rw [Array.size_setIfInBounds]
    exact walking.size
  · intro d inside
    rw [getD_mark]
    by_cases same : d = c
    · simp [same]
    · have apart : st.place c ≠ st.place d :=
        fun equal => same (place_injective inside has equal.symm)
      rw [if_neg apart, walking.marked d inside, List.mem_cons, or_iff_right same]
  · intro d member
    rw [stacked] at member
    rcases member with met | pending
    · rcases List.mem_cons.mp met with rfl | before
      · exact ⟨has, reached⟩
      · exact walking.held d (.inl before)
    · rcases List.mem_append.mp pending with edge | later
      · exact ⟨closed.edges c has d edge, .step reached edge⟩
      · exact walking.held d (.inr (List.mem_cons_of_mem _ later))
  · intro a member d edge
    rw [stacked]
    rcases List.mem_cons.mp member with rfl | before
    · exact .inr (List.mem_append_left _ edge)
    · exact covered d (walking.onward a before d edge)
  · rw [stacked]
    exact covered start walking.started

def unmet (st : Store) (seen : Array Bool) : Nat :=
  tally (fun c => if seen.getD (st.place c) true then 0 else (st.edges c).length) st.allCells

private theorem unmet_mark (has : st.Has c) (seen : Array Bool)
    (unseen : seen.getD (st.place c) true ≠ true) :
    st.unmet (seen.setIfInBounds (st.place c) true) + (st.edges c).length ≤ st.unmet seen := by
  have drop := tally_drop
    (f := fun d => if (seen.setIfInBounds (st.place c) true).getD (st.place d) true then 0
      else (st.edges d).length)
    (g := fun d => if seen.getD (st.place d) true then 0 else (st.edges d).length) (c := c) ?_
      (mem_allCells has) ?_
  · simp only [if_neg unseen] at drop
    exact drop
  · intro d
    simp only [getD_mark]
    by_cases same : st.place c = st.place d
    · simp [same]
    · simp [same]
  · simp

/-- With enough fuel a walk goes on until the stack is empty. -/
theorem Walking.run (closed : st.Closed) (fuel : Nat) (stack : List (Cell × Nat)) (w : Walk)
    (walking : Walking st start stack w) (enough : stack.length + st.unmet w.seen ≤ fuel) :
    Walking st start [] (st.walk fuel stack w) := by
  induction fuel generalizing stack w with
  | zero =>
    have empty : stack = [] := List.length_eq_zero_iff.mp (by omega)
    subst empty
    exact walking
  | succ fuel ih =>
    cases stack with
    | nil => exact walking
    | cons top rest =>
      obtain ⟨c, depth⟩ := top
      rw [List.length_cons] at enough
      rw [walk]
      split
      · next seen => exact ih rest w (walking.skip seen) (by omega)
      · next unseen =>
        have has := (walking.held c (.inr List.mem_cons_self)).1
        have fewer := unmet_mark has w.seen unseen
        apply ih _ _ (walking.visit closed unseen _ _)
        simp only [List.length_append, List.length_map]
        omega

private theorem walkFrom_walking (closed : st.Closed) (has : st.Has start) :
    Walking st start [] (st.walkFrom start) := by
  refine (walking_initial has).run closed _ _ _ ?_
  rw [foldl_eq_tally]
  have all : st.unmet (Array.replicate st.total false) ≤
      tally (fun c => (st.edges c).length) st.allCells := by
    apply tally_le
    intro c
    split
    · exact Nat.zero_le _
    · exact Nat.le_refl _
  simp only [List.length_singleton]
  omega

/-- The walk from a cell meets exactly the cells that can be reached from it. -/
theorem mem_reach_iff (closed : st.Closed) (has : st.Has start) :
    c ∈ st.reach start ↔ st.Reaches start c := by
  have walking := walkFrom_walking closed has
  rw [reach, List.mem_reverse]
  constructor
  · intro met
    exact (walking.held c (.inl met)).2
  · intro reached
    induction reached with
    | refl => exact walking.started.resolve_right List.not_mem_nil
    | step _ edge ih => exact (walking.onward _ ih _ edge).resolve_right List.not_mem_nil

theorem reach_nodup (closed : st.Closed) (has : st.Has start) : (st.reach start).Nodup :=
  List.nodup_reverse.mpr (walkFrom_walking closed has).nodup

theorem Reaches.has (closed : st.Closed) (has : st.Has start) (reached : st.Reaches start c) :
    st.Has c := by
  induction reached with
  | refl => exact has
  | step _ edge ih => exact closed.edges _ ih _ edge

end CommandScript.Store
