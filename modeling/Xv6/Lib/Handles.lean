import Mathlib.Data.List.Count
import Mathlib.Algebra.Group.Int.Defs

/-!
# Handles to cached objects

A live slot of a cache caches the object with its key. Users get handles to slots, and each slot counts the
handles to it. `Handles` says that the counts are right, that every handle is to the slot that caches its
object, and that no object is cached twice.
-/

variable {ι E K : Type}

/-- A handle: who has it, the slot, and the key of the object. -/
structure Handle (ι E K : Type) where
  user : ι
  slot : E
  key : K
  deriving DecidableEq

/-- The number of handles to a slot. -/
def Handle.count [DecidableEq E] (l : List (Handle ι E K)) (e : E) : ℕ := l.countP fun h => h.slot = e

structure Handles [DecidableEq E] (key : E → K) (live : E → Prop) (ref : E → ℤ)
    (l : List (Handle ι E K)) : Prop where
  ref_eq : ∀ e, ref e = Handle.count l e
  key_eq : ∀ h ∈ l, key h.slot = h.key
  live_of_pos : ∀ e, 0 < ref e → live e
  uniq : ∀ {e e'}, live e → live e' → key e = key e' → e = e'

namespace Handles

variable [DecidableEq E] {key key' : E → K} {live live' : E → Prop} {ref ref' : E → ℤ}
  {l : List (Handle ι E K)} {h h' : Handle ι E K} {e : E}

section
variable (H : Handles key live ref l)
include H

theorem pos (hh : h ∈ l) : 0 < ref h.slot := by
  rw [H.ref_eq]
  exact Int.natCast_pos.mpr (List.countP_pos_iff.mpr ⟨h, hh, decide_eq_true rfl⟩)

theorem live_of_mem (hh : h ∈ l) : live h.slot := H.live_of_pos _ (H.pos hh)

/-- No handle is to a slot with the count zero. -/
theorem slot_ne (he : ref e = 0) (hh : h ∈ l) : h.slot ≠ e := by
  rintro rfl
  have := H.pos hh
  omega

/-- Two handles for one object are to the same slot. -/
theorem slot_eq (hh : h ∈ l) (hh' : h' ∈ l) (hk : h.key = h'.key) : h.slot = h'.slot :=
  H.uniq (H.live_of_mem hh) (H.live_of_mem hh') (by rw [H.key_eq h hh, H.key_eq h' hh', hk])

/-- Nothing that matters has changed. -/
theorem congr (hkey : ∀ e, key' e = key e) (hlive : ∀ e, live' e ↔ live e)
    (href : ∀ e, ref' e = ref e) : Handles key' live' ref' l := by
  obtain rfl : key' = key := funext hkey
  obtain rfl : ref' = ref := funext href
  obtain rfl : live' = live := funext fun e => propext (hlive e)
  exact H

/-- A handle to a slot that caches the object. -/
theorem hit (hlive : live h.slot) (hkey : key h.slot = h.key)
    (href : ∀ e, ref' e = ref e + if h.slot = e then 1 else 0) (hl : ∀ e, live e → live' e)
    (hl' : ∀ e, live' e → live e) : Handles key live' ref' (h :: l) where
  ref_eq e := by
    rw [href, H.ref_eq, Handle.count, Handle.count, List.countP_cons]
    by_cases he : h.slot = e <;> simp [he]
  key_eq h' hh' := by
    obtain rfl | hh' := List.mem_cons.mp hh'
    · exact hkey
    · exact H.key_eq h' hh'
  live_of_pos e he := by
    rw [href] at he
    by_cases hs : h.slot = e
    · exact hl e (hs ▸ hlive)
    · rw [if_neg hs, add_zero] at he
      exact hl e (H.live_of_pos e he)
  uniq he he' := H.uniq (hl' _ he) (hl' _ he')

/-- A slot is recycled for an object that is not cached. -/
theorem recycle (hzero : ref h.slot = 0) (hnew : ∀ e, live e → key e ≠ h.key)
    (hkey : ∀ e, e ≠ h.slot → key' e = key e) (hkey' : key' h.slot = h.key)
    (href : ∀ e, e ≠ h.slot → ref' e = ref e) (href' : ref' h.slot = 1)
    (hl : ∀ e, e ≠ h.slot → (live' e ↔ live e)) (hl' : live' h.slot) :
    Handles key' live' ref' (h :: l) where
  ref_eq e := by
    rw [Handle.count, List.countP_cons]
    by_cases he : e = h.slot
    · subst he
      have hnone := H.ref_eq h.slot
      rw [hzero] at hnone
      have hnone : Handle.count l h.slot = 0 := by exact_mod_cast hnone.symm
      rw [← Handle.count, hnone, href']
      simp
    · rw [href e he, H.ref_eq, if_neg (by simpa using fun h => he h.symm)]
      rfl
  key_eq h' hh' := by
    obtain rfl | hh' := List.mem_cons.mp hh'
    · exact hkey'
    · rw [hkey _ (H.slot_ne hzero hh'), H.key_eq h' hh']
  live_of_pos e he := by
    by_cases hs : e = h.slot
    · exact hs ▸ hl'
    · rw [href e hs] at he
      exact (hl e hs).mpr (H.live_of_pos e he)
  uniq {e e'} he he' hk := by
    by_cases hs : e = h.slot
    · by_cases hs' : e' = h.slot
      · rw [hs, hs']
      · rw [hs, hkey', hkey e' hs'] at hk
        exact absurd hk.symm (hnew e' ((hl e' hs').mp he'))
    · by_cases hs' : e' = h.slot
      · rw [hs', hkey', hkey e hs] at hk
        exact absurd hk (hnew e ((hl e hs).mp he))
      · rw [hkey e hs, hkey e' hs'] at hk
        exact H.uniq ((hl e hs).mp he) ((hl e' hs').mp he') hk

variable [DecidableEq ι] [DecidableEq K]

/-- A handle is given back. -/
theorem drop (hh : h ∈ l)
    (href : ∀ e, ref' e = ref e - if h.slot = e then 1 else 0) (hl : ∀ e, 0 < ref' e → live' e)
    (hl' : ∀ e, live' e → live e) : Handles key live' ref' (l.erase h) where
  ref_eq e := by
    rw [href, H.ref_eq, Handle.count, Handle.count, List.countP_erase]
    by_cases hs : h.slot = e
    · have hpos : 0 < l.countP fun x => decide (x.slot = e) :=
        List.countP_pos_iff.mpr ⟨h, hh, decide_eq_true hs⟩
      simp only [hs, hh, decide_true, and_self, if_true]
      omega
    · simp [hs]
  key_eq h' hh' := H.key_eq h' (List.mem_of_mem_erase hh')
  live_of_pos := hl
  uniq he he' := H.uniq (hl' _ he) (hl' _ he')

/-- A handle is passed on to another user. -/
theorem pass (hh : h ∈ l) (hslot : h'.slot = h.slot) (hkey : h'.key = h.key) :
    Handles key live ref (h' :: l.erase h) := by
  have hd : Handles key live (fun e => ref e - if h.slot = e then 1 else 0) (l.erase h) :=
    H.drop hh (fun _ => rfl) (fun e he => H.live_of_pos e (by split at he <;> omega)) fun _ => id
  refine hd.hit (hslot ▸ H.live_of_mem hh) (by rw [hslot, hkey, H.key_eq h hh]) (fun e => ?_) (fun _ => id)
    fun _ => id
  rw [hslot, sub_add_cancel]

end

end Handles
