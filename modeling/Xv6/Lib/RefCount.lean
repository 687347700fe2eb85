import Mathlib.Algebra.BigOperators.Ring.Finset
import Mathlib.Algebra.Order.BigOperators.Group.Finset
import Mathlib.Data.Fintype.BigOperators
import Mathlib.Tactic.Ring

/-!
# Counting references

Each slot points to an object or to nothing: `ptr : X → Option F`. The number of slots that point to `f` is
`count ptr f`. Code that changes a slot and a counter in two steps is right up to an offset in between, so the
lemmas are about integers.
-/

namespace RefCount

variable {X F : Type} [Fintype X] [DecidableEq F]

/-- How many slots point to `f`. -/
def count (ptr : X → Option F) (f : F) : Nat := (Finset.univ.filter fun x => ptr x = some f).card

/-- One for the object that is pointed to, nothing for the others. -/
def one (o : Option F) (f : F) : Int := if o = some f then 1 else 0

@[simp] theorem one_none : one (none : Option F) = 0 := by
  funext f
  simp [one]

@[simp] theorem one_self (f : F) : one (some f) f = 1 := by simp [one]

theorem one_of_ne {f g : F} (h : g ≠ f) : one (some f) g = 0 := by simp [one, h.symm]

theorem one_nonneg (o : Option F) (f : F) : 0 ≤ one o f := by
  unfold one
  split <;> decide

theorem count_eq_sum (ptr : X → Option F) (f : F) : (count ptr f : Int) = ∑ x, one (ptr x) f := by
  simp only [count, one, Finset.sum_boole]

/-- A slot that changes takes one away from what it pointed to and gives one to what it points to. -/
theorem count_update [DecidableEq X] (ptr : X → Option F) (x : X) (o : Option F) (f : F) :
    (count (Function.update ptr x o) f : Int) = count ptr f - one (ptr x) f + one o f := by
  have hrest : ∑ y ∈ Finset.univ.erase x, one (Function.update ptr x o y) f =
      ∑ y ∈ Finset.univ.erase x, one (ptr y) f := by
    refine Finset.sum_congr rfl fun y hy => ?_
    rw [Function.update_of_ne (Finset.ne_of_mem_erase hy)]
  rw [count_eq_sum, count_eq_sum, ← Finset.add_sum_erase _ _ (Finset.mem_univ x),
    ← Finset.add_sum_erase _ (fun y => one (ptr y) f) (Finset.mem_univ x), hrest, Function.update_self]
  ring

theorem count_pos {ptr : X → Option F} {x : X} {f : F} (h : ptr x = some f) : 0 < count ptr f :=
  Finset.card_pos.mpr ⟨x, by simpa using h⟩

/-- Slots of two kinds are counted apart. -/
theorem count_prod_sum {Q A B : Type} [Fintype Q] [Fintype A] [Fintype B]
    (ptr : Q × (A ⊕ B) → Option F) (f : F) : count ptr f = count (fun x : Q × A => ptr (x.1, .inl x.2)) f +
      count (fun x : Q × B => ptr (x.1, .inr x.2)) f := by
  simp only [count, Finset.card_filter, Fintype.sum_prod_type, Fintype.sum_sum_type, Finset.sum_add_distrib]

/-- How many of the slots in a list point to each object. -/
def tally (ptr : X → Option F) (l : List X) : F → Int := fun f => (l.map fun x => one (ptr x) f).sum

section

omit [Fintype X]

section
variable (ptr : X → Option F)
include ptr

@[simp] theorem tally_nil : tally ptr [] = 0 := rfl

theorem tally_cons (x : X) (l : List X) : tally ptr (x :: l) = one (ptr x) + tally ptr l := by
  funext f
  simp [tally]

theorem tally_update [DecidableEq X] {x : X} {l : List X} (o : Option F)
    (hx : x ∉ l) : tally (Function.update ptr x o) l = tally ptr l := by
  funext f
  unfold tally
  refine congrArg List.sum (List.map_congr_left fun y hy => ?_)
  rw [Function.update_of_ne (ne_of_mem_of_not_mem hy hx)]

theorem tally_nonneg (l : List X) (f : F) : 0 ≤ tally ptr l f := by
  refine List.sum_nonneg fun n hn => ?_
  obtain ⟨x, -, rfl⟩ := List.mem_map.mp hn
  exact one_nonneg _ _

end

end

/-- Different slots all count. -/
theorem tally_le_count [DecidableEq X] (ptr : X → Option F) {l : List X} (hl : l.Nodup) (f : F) :
    tally ptr l f ≤ count ptr f := by
  rw [count_eq_sum, tally, ← List.sum_toFinset _ hl]
  exact Finset.sum_le_sum_of_subset_of_nonneg (Finset.subset_univ _) fun x _ _ => one_nonneg _ _

end RefCount
