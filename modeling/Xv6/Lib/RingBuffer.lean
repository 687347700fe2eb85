import Mathlib.Data.Nat.ModEq

/-!
# Ring buffers with free-running counters

A buffer of `N` cells with two counters of `w` bits that only ever go up and wrap around. The cell of a
counter is its value modulo `N`. As `N` divides `2 ^ w`, it does not depend on how often the counter has
wrapped.
-/

structure RingBuffer (w N : ℕ) (α : Type) where
  data : Fin N → α
  nread : BitVec w
  nwrite : BitVec w

namespace RingBuffer

open BitVec (ofNat toNat_ofNat ofNat_add)

variable {w N : ℕ} {α : Type} [NeZero N]

/-- Where the counter points to. -/
def cell (n : BitVec w) : Fin N := Fin.ofNat N n.toNat

def isEmpty (r : RingBuffer w N α) : Prop := r.nread = r.nwrite

def isFull (r : RingBuffer w N α) : Prop := r.nwrite = r.nread + ofNat w N

instance (r : RingBuffer w N α) : Decidable r.isEmpty := inferInstanceAs (Decidable (_ = _))

instance (r : RingBuffer w N α) : Decidable r.isFull := inferInstanceAs (Decidable (_ = _))

def push (r : RingBuffer w N α) (x : α) : RingBuffer w N α where
  data := Function.update r.data (cell r.nwrite) x
  nread := r.nread
  nwrite := r.nwrite + 1

def head (r : RingBuffer w N α) : α := r.data (cell r.nread)

def pop (r : RingBuffer w N α) : RingBuffer w N α where
  data := r.data
  nread := r.nread + 1
  nwrite := r.nwrite

/-- The cells between the counters. -/
def content (r : RingBuffer w N α) : List α :=
  (List.range (r.nwrite - r.nread).toNat).map fun j => r.data (cell (r.nread + ofNat w j))

/-- The buffer holds the queue `xs`, the oldest element first. -/
structure Queue (r : RingBuffer w N α) (xs : List α) : Prop where
  length_le : xs.length ≤ N
  counters : r.nwrite = r.nread + ofNat w xs.length
  cells : ∀ j (hj : j < xs.length), r.data (cell (r.nread + ofNat w j)) = xs[j]

theorem queue_nil {r : RingBuffer w N α} (h : r.isEmpty) : r.Queue [] where
  length_le := Nat.zero_le N
  counters := by
    rw [← show r.nread = r.nwrite from h]
    simp
  cells := nofun

section
variable (hdvd : N ∣ 2 ^ w)
include hdvd

theorem cell_val (n : BitVec w) (j : ℕ) : (cell (N := N) (n + ofNat w j)).val = (n.toNat + j) % N := by
  simp [cell, Nat.mod_mod_of_dvd _ hdvd]

theorem eq_of_cell_eq {n : BitVec w} {j k : ℕ} (hj : j < N) (hk : k < N)
    (h : cell (N := N) (n + ofNat w j) = cell (n + ofNat w k)) : j = k := by
  have hval := congrArg Fin.val h
  rw [cell_val hdvd, cell_val hdvd] at hval
  have hmod : j ≡ k [MOD N] := Nat.ModEq.add_left_cancel' n.toNat hval
  rwa [Nat.ModEq, Nat.mod_eq_of_lt hj, Nat.mod_eq_of_lt hk] at hmod

end

theorem eq_of_add_eq {n : BitVec w} {j k : ℕ} (hj : j < 2 ^ w) (hk : k < 2 ^ w)
    (h : n + ofNat w j = n + ofNat w k) : j = k := by
  have hval := congrArg BitVec.toNat ((BitVec.add_right_inj n).mp h)
  rwa [toNat_ofNat, toNat_ofNat, Nat.mod_eq_of_lt hj, Nat.mod_eq_of_lt hk] at hval

namespace Queue

variable {r : RingBuffer w N α} {x : α} {xs : List α}

section
variable (hlt : N < 2 ^ w)
include hlt

theorem isEmpty_iff (h : r.Queue xs) : r.isEmpty ↔ xs = [] := by
  have hlen : xs.length < 2 ^ w := h.length_le.trans_lt hlt
  constructor
  · intro hempty
    have : r.nread + ofNat w 0 = r.nread + ofNat w xs.length := by
      rw [← h.counters, ← show r.nread = r.nwrite from hempty]
      simp
    exact List.length_eq_zero_iff.mp (eq_of_add_eq (Nat.two_pow_pos w) hlen this).symm
  · rintro rfl
    have := h.counters
    simpa [isEmpty] using this.symm

theorem isFull_iff (h : r.Queue xs) : r.isFull ↔ xs.length = N := by
  have hlen : xs.length < 2 ^ w := h.length_le.trans_lt hlt
  constructor
  · intro hfull
    exact eq_of_add_eq hlen hlt (h.counters.symm.trans hfull)
  · intro hN
    have := h.counters
    rwa [hN] at this

/-- What is in the buffer is what the counters say. -/
theorem content_eq (h : r.Queue xs) : r.content = xs := by
  have hlen : xs.length < 2 ^ w := h.length_le.trans_lt hlt
  have hcount : (r.nwrite - r.nread).toNat = xs.length := by
    rw [h.counters, BitVec.add_comm, BitVec.add_sub_cancel, toNat_ofNat, Nat.mod_eq_of_lt hlen]
  unfold content
  rw [hcount]
  refine List.ext_getElem (by simp) fun j hj hj' => ?_
  rw [List.getElem_map, List.getElem_range]
  exact h.cells j hj'

end

theorem push (hdvd : N ∣ 2 ^ w) (h : r.Queue xs) (hroom : xs.length < N) (x : α) :
    (r.push x).Queue (xs ++ [x]) where
  length_le := by
    rw [List.length_append]
    exact hroom
  counters := by
    show r.nwrite + 1 = r.nread + _
    rw [h.counters, List.length_append, ofNat_add, BitVec.add_assoc]
    rfl
  cells j hj := by
    show Function.update r.data (cell r.nwrite) x _ = _
    by_cases hlast : j = xs.length
    · subst hlast
      rw [h.counters]
      simp [RingBuffer.push]
    · have hj' : j < xs.length := by
        rw [List.length_append, List.length_singleton] at hj
        omega
      rw [List.getElem_append_left hj', Function.update_of_ne]
      · exact h.cells j hj'
      · -- the cell behind the queue is none of its cells
        rw [h.counters]
        exact fun hcell => hlast (eq_of_cell_eq hdvd (hj'.trans hroom) hroom hcell)

theorem head_eq (h : r.Queue (x :: xs)) : r.head = x := by
  have := h.cells 0 (Nat.succ_pos _)
  simpa [head] using this

theorem pop (h : r.Queue (x :: xs)) : r.pop.Queue xs where
  length_le := Nat.le_of_succ_le h.length_le
  counters := by
    show r.nwrite = r.nread + 1 + _
    rw [h.counters, List.length_cons, Nat.add_comm, ofNat_add, ← BitVec.add_assoc]
    rfl
  cells j hj := by
    have hnext : r.nread + 1 + ofNat w j = r.nread + ofNat w (j + 1) := by
      rw [Nat.add_comm, ofNat_add, ← BitVec.add_assoc]
      rfl
    show r.data (cell (r.nread + 1 + ofNat w j)) = _
    rw [hnext]
    exact h.cells (j + 1) (Nat.succ_lt_succ hj)

end Queue

end RingBuffer
