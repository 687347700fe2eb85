import Mathlib.Data.List.Nodup

/-!
# Circular doubly linked lists

Nodes with two pointers each: `some x` is a node with an element, and `none` is the head. `R.Circle l` says
that the pointers form a circle which goes from the head through the elements of `l` and back. Taking an
element out and putting one behind the head are the assignments that C code makes, in their order.
-/

structure Links (α : Type) where
  next : Option α → Option α
  prev : Option α → Option α

namespace Links

open Function (update update_apply)

variable {α : Type} [DecidableEq α]

/-- The head alone. -/
def empty : Links α := ⟨fun _ => none, fun _ => none⟩

def setNext (R : Links α) (a b : Option α) : Links α := { R with next := update R.next a b }

def setPrev (R : Links α) (a b : Option α) : Links α := { R with prev := update R.prev a b }

/-- `x->next->prev = x->prev; x->prev->next = x->next` -/
def unlink (R : Links α) (x : α) : Links α :=
  let R := R.setPrev (R.next x) (R.prev x)
  R.setNext (R.prev x) (R.next x)

/-- `x->next = head.next; x->prev = &head; head.next->prev = x; head.next = x` -/
def pushFront (R : Links α) (x : α) : Links α :=
  let R := R.setNext x (R.next none)
  let R := R.setPrev x none
  let R := R.setPrev (R.next none) x
  R.setNext none x

variable (R : Links α) (x : α) (a : Option α)

theorem unlink_next : (R.unlink x).next a = if a = R.prev x then R.next x else R.next a := by
  have hprev : update R.prev (R.next x) (R.prev x) x = R.prev x := by
    rw [update_apply]
    split <;> rfl
  simp only [unlink, setNext, setPrev, hprev, update_apply]

theorem unlink_prev : (R.unlink x).prev a = if a = R.next x then R.prev x else R.prev a := by
  simp only [unlink, setNext, setPrev, update_apply]

theorem pushFront_next :
    (R.pushFront x).next a = if a = none then some x else if a = some x then R.next none else R.next a := by
  simp only [pushFront, setNext, setPrev, update_apply]

theorem pushFront_prev :
    (R.pushFront x).prev a = if a = R.next none then some x else if a = some x then none else R.prev a := by
  simp [pushFront, setNext, setPrev, update_apply]

end Links

variable {α : Type}

/-- The circle from the head through `l`. -/
structure Links.Circle (R : Links α) (l : List α) : Prop where
  nodup : l.Nodup
  first : R.next none = l.head?
  last : R.prev none = l.getLast?
  next : ∀ {l₁ x l₂}, l = l₁ ++ x :: l₂ → R.next (some x) = l₂.head?
  prev : ∀ {l₁ x l₂}, l = l₁ ++ x :: l₂ → R.prev (some x) = l₁.getLast?

namespace Links.Circle

variable {R : Links α} {l l₁ l₂ : List α} {x : α}

theorem empty [DecidableEq α] : (Links.empty : Links α).Circle [] :=
  ⟨List.nodup_nil, rfl, rfl, fun h => by simp at h, fun h => by simp at h⟩

theorem some_ne {y : α} (hx : x ∉ l) (hy : y ∈ l) : some y ≠ some x := fun h => hx (Option.some.inj h ▸ hy)

theorem ne_head? (hx : x ∉ l) : some x ≠ l.head? := fun h => hx (List.mem_of_mem_head? h.symm)

theorem ne_getLast? (hx : x ∉ l) : some x ≠ l.getLast? := fun h => hx (List.mem_of_mem_getLast? h.symm)

variable [DecidableEq α]

/-- An element is put behind the head. -/
theorem pushFront (h : R.Circle l) (hx : x ∉ l) : (R.pushFront x).Circle (x :: l) := by
  refine ⟨List.nodup_cons.mpr ⟨hx, h.nodup⟩, by rw [R.pushFront_next, if_pos rfl]; rfl, ?_, fun {l₁ y l₂} hl => ?_,
    fun {l₁ y l₂} hl => ?_⟩
  · rw [R.pushFront_prev, h.first, h.last]
    cases l with
    | nil => rfl
    | cons z l => rw [if_neg nofun, if_neg nofun, List.getLast?_cons_cons]
  · rw [R.pushFront_next, if_neg nofun]
    cases l₁ with
    | nil =>
      cases hl
      rw [if_pos rfl, h.first]
    | cons z l₁ =>
      obtain ⟨-, hl⟩ := List.cons.inj hl
      have hy : y ∈ l := hl ▸ List.mem_append_right l₁ (List.mem_cons_self ..)
      rw [if_neg (some_ne hx hy), h.next hl]
  · rw [R.pushFront_prev, h.first]
    cases l₁ with
    | nil =>
      cases hl
      rw [if_neg (ne_head? hx), if_pos rfl]
      rfl
    | cons z l₁ =>
      obtain ⟨rfl, hl'⟩ := List.cons.inj hl
      have hy : y ∈ l := hl' ▸ List.mem_append_right l₁ (List.mem_cons_self ..)
      cases l₁ with
      | nil =>
        rw [hl']
        exact if_pos rfl
      | cons z l₁ =>
        have hne : some y ≠ l.head? := by
          have hnodup := h.nodup
          rw [hl'] at hnodup ⊢
          intro he
          obtain rfl : y = z := Option.some.inj he
          simp at hnodup
        rw [if_neg hne, if_neg (some_ne hx hy), h.prev hl', List.getLast?_cons_cons]

omit [DecidableEq α] in
/-- An element of two lists is in one of them. -/
theorem append_eq_cons {m₁ m₂ : List α} (h : l₁ ++ l₂ = m₁ ++ x :: m₂) :
    (∃ m, l₁ = m₁ ++ x :: m ∧ m₂ = m ++ l₂) ∨ ∃ m, l₂ = m ++ x :: m₂ ∧ m₁ = l₁ ++ m := by
  obtain ⟨m, hm, hl⟩ | ⟨m, hm, hl⟩ := List.append_eq_append_iff.mp h
  · exact .inr ⟨m, hl, hm⟩
  · cases m with
    | nil => exact .inr ⟨[], by simpa using hl.symm, by simpa using hm.symm⟩
    | cons z m =>
      obtain ⟨rfl, rfl⟩ := List.cons.inj hl
      exact .inl ⟨m, hm, rfl⟩

/-- An element is taken out. -/
theorem unlink (h : R.Circle (l₁ ++ x :: l₂)) : (R.unlink x).Circle (l₁ ++ l₂) := by
  have hnext := h.next rfl
  have hprev := h.prev rfl
  have hnodup := h.nodup
  rw [List.nodup_append, List.nodup_cons] at hnodup
  obtain ⟨h₁, ⟨-, h₂⟩, hdisj⟩ := hnodup
  have hdisj : ∀ {y}, y ∈ l₁ → y ∉ l₂ := fun hy hy' => hdisj _ hy _ (List.mem_cons_of_mem _ hy') rfl
  refine ⟨List.nodup_append.mpr ⟨h₁, h₂, fun a ha b hb hab => hdisj ha (hab ▸ hb)⟩, ?_, ?_, fun {m₁ y m₂} hl => ?_,
    fun {m₁ y m₂} hl => ?_⟩
  · rw [R.unlink_next, hnext, hprev, h.first]
    cases l₁ with
    | nil => rfl
    | cons z l₁ =>
      have hne : none ≠ (z :: l₁).getLast? := fun h => nomatch List.getLast?_eq_none_iff.mp h.symm
      rw [if_neg hne]
      rfl
  · rw [R.unlink_prev, hnext, hprev, h.last]
    cases l₂ with
    | nil => simp
    | cons z l₂ =>
      rw [if_neg nofun]
      simp
  · rw [R.unlink_next, hnext, hprev]
    obtain ⟨m, rfl, rfl⟩ | ⟨m, rfl, rfl⟩ := append_eq_cons hl
    · have hsplit : m₁ ++ y :: m ++ x :: l₂ = m₁ ++ y :: (m ++ x :: l₂) := by simp
      rw [h.next hsplit]
      cases m with
      | nil => simp
      | cons z m =>
        have hne : some y ≠ (m₁ ++ y :: z :: m).getLast? := by
          rw [List.getLast?_append_cons, List.getLast?_cons_cons]
          exact ne_getLast? (List.nodup_cons.mp (List.nodup_append.mp h₁).2.1).1
        rw [if_neg hne]
        rfl
    · have hy : y ∉ l₁ := fun hy => hdisj hy (List.mem_append_right _ (List.mem_cons_self ..))
      have hsplit : l₁ ++ x :: (m ++ y :: m₂) = (l₁ ++ x :: m) ++ y :: m₂ := by simp
      rw [if_neg (ne_getLast? hy), h.next hsplit]
  · rw [R.unlink_prev, hnext, hprev]
    obtain ⟨m, rfl, rfl⟩ | ⟨m, rfl, rfl⟩ := append_eq_cons hl
    · have hy : y ∉ l₂ := hdisj (List.mem_append_right _ (List.mem_cons_self ..))
      have hsplit : m₁ ++ y :: m ++ x :: l₂ = m₁ ++ y :: (m ++ x :: l₂) := by simp
      rw [if_neg (ne_head? hy), h.prev hsplit]
    · have hsplit : l₁ ++ x :: (m ++ y :: m₂) = (l₁ ++ x :: m) ++ y :: m₂ := by simp
      rw [h.prev hsplit]
      cases m with
      | nil => simp
      | cons z m =>
        have hne : some y ≠ (z :: m ++ y :: m₂).head? := by
          intro he
          obtain rfl : y = z := Option.some.inj he
          simp at h₂
        rw [if_neg hne, List.getLast?_append_cons, List.getLast?_cons_cons, List.getLast?_append_cons]

/-- An element moves behind the head. -/
theorem moveToFront (h : R.Circle l) (hx : x ∈ l) : ((R.unlink x).pushFront x).Circle (x :: l.erase x) := by
  obtain ⟨l₁, l₂, hx₁, rfl, hl⟩ := List.exists_erase_eq hx
  rw [hl]
  refine h.unlink.pushFront fun hmem => ?_
  have hnodup := h.nodup
  rw [List.nodup_append, List.nodup_cons] at hnodup
  obtain hmem | hmem := List.mem_append.mp hmem
  · exact hx₁ hmem
  · exact hnodup.2.1.1 hmem

/-- Elements are put behind the head one after another. -/
theorem foldl_pushFront (h : R.Circle l) {m : List α} (hm : m.Nodup) (hdisj : ∀ x ∈ m, x ∉ l) :
    (m.foldl (fun R x => R.pushFront x) R).Circle (m.reverse ++ l) := by
  induction m generalizing R l with
  | nil => exact h
  | cons x m ih =>
    rw [List.nodup_cons] at hm
    rw [List.foldl_cons, List.reverse_cons, List.append_assoc]
    refine ih (h.pushFront (hdisj x (List.mem_cons_self ..))) hm.2 fun y hy hmem => ?_
    obtain rfl | hmem := List.mem_cons.mp hmem
    · exact hm.1 hy
    · exact hdisj y (List.mem_cons_of_mem _ hy) hmem

end Links.Circle
