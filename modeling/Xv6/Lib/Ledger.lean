import Mathlib.Data.Set.Insert

/-!
# A ledger of resources

Resources are taken from a free list, held by owners, and given back. `Ledger` says that no resource is on
the free list twice, no two owners hold the same one, and what is held is not free. `holds` is a partial
function from owners, so "held by exactly one owner" is injectivity; `hand` is what the running program has
taken and not yet stored. The lemmas are the moves of a program: take, put back, store under an owner, give
an owner's resource back, and rename the owners.
-/

variable {P Ω Ω' : Type}

/-- The books over resources that satisfy `ok`. -/
structure Ledger (ok : P → Prop) (free : List P) (holds : Ω → Option P) (hand : Set P) : Prop where
  nodup : free.Nodup
  inj : ∀ {o o' v}, holds o = some v → holds o' = some v → o = o'
  held_free : ∀ {o v}, holds o = some v → v ∉ free
  held_hand : ∀ {o v}, holds o = some v → v ∉ hand
  hand_free : ∀ {v}, v ∈ hand → v ∉ free
  ok_free : ∀ {v}, v ∈ free → ok v
  ok_held : ∀ {o v}, holds o = some v → ok v
  ok_hand : ∀ {v}, v ∈ hand → ok v

namespace Ledger

variable {ok : P → Prop} {free : List P} {holds : Ω → Option P} {holds' : Ω' → Option P}
  {hand : Set P} {v : P}

/-- The head of the free list moves into the program's hand. -/
theorem take (h : Ledger ok (v :: free) holds hand) : Ledger ok free holds (insert v hand) where
  nodup := (List.nodup_cons.mp h.nodup).2
  inj := h.inj
  held_free ho := fun hm => h.held_free ho (List.mem_cons_of_mem _ hm)
  held_hand := by
    rintro o w ho (rfl | hw)
    · exact h.held_free ho List.mem_cons_self
    · exact h.held_hand ho hw
  hand_free := by
    rintro w (rfl | hw) hm
    · exact (List.nodup_cons.mp h.nodup).1 hm
    · exact h.hand_free hw (List.mem_cons_of_mem _ hm)
  ok_free hm := h.ok_free (List.mem_cons_of_mem _ hm)
  ok_held := h.ok_held
  ok_hand := by
    rintro w (rfl | hw)
    · exact h.ok_free List.mem_cons_self
    · exact h.ok_hand hw

section
variable (h : Ledger ok free holds hand)
include h

/-- A resource in the program's hand goes back to the free list. -/
theorem put (hv : v ∈ hand) :
    Ledger ok (v :: free) holds (hand \ {v}) where
  nodup := List.nodup_cons.mpr ⟨h.hand_free hv, h.nodup⟩
  inj := h.inj
  held_free := by
    intro o w ho hm
    rcases List.mem_cons.mp hm with rfl | hm
    · exact h.held_hand ho hv
    · exact h.held_free ho hm
  held_hand ho hw := h.held_hand ho hw.1
  hand_free := by
    rintro w ⟨hw, hne⟩ hm
    rcases List.mem_cons.mp hm with rfl | hm
    · exact hne rfl
    · exact h.hand_free hw hm
  ok_free := by
    intro w hm
    rcases List.mem_cons.mp hm with rfl | hm
    · exact h.ok_hand hv
    · exact h.ok_free hm
  ok_held := h.ok_held
  ok_hand hw := h.ok_hand hw.1

variable {holds₁ : Ω → Option P}

/-- A resource in the program's hand is stored under the owner `o`; the other owners hold at most what
they held. -/
theorem store (hv : v ∈ hand) (o : Ω)
    (hle : ∀ o' w, holds₁ o' = some w → (o' = o ∧ w = v) ∨ holds o' = some w) :
    Ledger ok free holds₁ (hand \ {v}) where
  nodup := h.nodup
  inj := by
    intro o₁ o₂ w h1 h2
    rcases hle _ _ h1 with ⟨rfl, rfl⟩ | h1 <;> rcases hle _ _ h2 with ⟨rfl, hw⟩ | h2
    · rfl
    · exact absurd hv (h.held_hand h2)
    · subst hw
      exact absurd hv (h.held_hand h1)
    · exact h.inj h1 h2
  held_free := by
    intro o₁ w h1
    rcases hle _ _ h1 with ⟨rfl, rfl⟩ | h1
    · exact h.hand_free hv
    · exact h.held_free h1
  held_hand := by
    rintro o₁ w h1 ⟨hw, hne⟩
    rcases hle _ _ h1 with ⟨rfl, rfl⟩ | h1
    · exact hne rfl
    · exact h.held_hand h1 hw
  hand_free hw := h.hand_free hw.1
  ok_free := h.ok_free
  ok_held := by
    intro o₁ w h1
    rcases hle _ _ h1 with ⟨rfl, rfl⟩ | h1
    · exact h.ok_hand hv
    · exact h.ok_held h1
  ok_hand hw := h.ok_hand hw.1

/-- The resource of the owner `o` goes back to the free list, and `o` no longer holds it. -/
theorem give {o : Ω}
    (ho : holds o = some v) (hle : ∀ o' w, holds₁ o' = some w → holds o' = some w ∧ o' ≠ o) :
    Ledger ok (v :: free) holds₁ hand where
  nodup := List.nodup_cons.mpr ⟨h.held_free ho, h.nodup⟩
  inj h1 h2 := h.inj (hle _ _ h1).1 (hle _ _ h2).1
  held_free := by
    intro o₁ w h1 hm
    obtain ⟨h1, hne⟩ := hle _ _ h1
    rcases List.mem_cons.mp hm with rfl | hm
    · exact hne (h.inj h1 ho)
    · exact h.held_free h1 hm
  held_hand h1 := h.held_hand (hle _ _ h1).1
  hand_free := by
    intro w hw hm
    rcases List.mem_cons.mp hm with rfl | hm
    · exact h.held_hand ho hw
    · exact h.hand_free hw hm
  ok_free := by
    intro w hm
    rcases List.mem_cons.mp hm with rfl | hm
    · exact h.ok_held ho
    · exact h.ok_free hm
  ok_held h1 := h.ok_held (hle _ _ h1).1
  ok_hand := h.ok_hand

/-- The same books with the owners named differently, or some of them forgotten. -/
theorem reindex (f : Ω' → Ω)
    (hf : ∀ {o₁ o₂ v}, holds' o₁ = some v → holds' o₂ = some v → f o₁ = f o₂ → o₁ = o₂)
    (hle : ∀ o v, holds' o = some v → holds (f o) = some v) : Ledger ok free holds' hand where
  nodup := h.nodup
  inj h1 h2 := hf h1 h2 (h.inj (hle _ _ h1) (hle _ _ h2))
  held_free h1 := h.held_free (hle _ _ h1)
  held_hand h1 := h.held_hand (hle _ _ h1)
  hand_free := h.hand_free
  ok_free := h.ok_free
  ok_held h1 := h.ok_held (hle _ _ h1)
  ok_hand := h.ok_hand

/-- Owners may lose what they hold. -/
theorem anti (hle : ∀ o v, holds₁ o = some v → holds o = some v) : Ledger ok free holds₁ hand :=
  h.reindex id (fun _ _ => id) hle

/-- So may the program. -/
theorem drop {hand' : Set P} (hle : hand' ⊆ hand) :
    Ledger ok free holds hand' where
  nodup := h.nodup
  inj := h.inj
  held_free := h.held_free
  held_hand h1 hw := h.held_hand h1 (hle hw)
  hand_free hw := h.hand_free (hle hw)
  ok_free := h.ok_free
  ok_held := h.ok_held
  ok_hand hw := h.ok_hand (hle hw)

end

end Ledger

/-! ## Nothing is lost

Books over a fixed stock of resources, all of which are somewhere. The moves change the holdings of one
owner, so they are stated with `Function.update`. -/

/-- The books, with every resource that satisfies `ok` accounted for. -/
structure FullLedger (ok : P → Prop) (free : List P) (holds : Ω → Option P) (hand : Set P) : Prop
    extends Ledger ok free holds hand where
  all : ∀ {v}, ok v → v ∈ free ∨ v ∈ hand ∨ ∃ o, holds o = some v

namespace FullLedger

variable {ok : P → Prop} {free : List P} {holds : Ω → Option P} {hand : Set P} {v : P}

theorem take (h : FullLedger ok (v :: free) holds hand) : FullLedger ok free holds (insert v hand) where
  toLedger := h.toLedger.take
  all := by
    intro w hw
    rcases h.all hw with hm | hm | ho
    · rcases List.mem_cons.mp hm with rfl | hm
      · exact .inr (.inl (Set.mem_insert _ _))
      · exact .inl hm
    · exact .inr (.inl (Set.mem_insert_of_mem _ hm))
    · exact .inr (.inr ho)

variable (h : FullLedger ok free holds hand)
include h

theorem put (hv : v ∈ hand) :
    FullLedger ok (v :: free) holds (hand \ {v}) where
  toLedger := h.toLedger.put hv
  all := by
    intro w hw
    by_cases hwv : w = v
    · exact .inl (hwv ▸ List.mem_cons_self)
    · rcases h.all hw with hm | hm | ho
      · exact .inl (List.mem_cons_of_mem _ hm)
      · exact .inr (.inl ⟨hm, hwv⟩)
      · exact .inr (.inr ho)

variable [DecidableEq Ω]
variable {o : Ω}

/-- The owner `o`, who held nothing, gets a resource from the program's hand. -/
theorem store (hv : v ∈ hand) (ho : holds o = none) :
    FullLedger ok free (Function.update holds o (some v)) (hand \ {v}) where
  toLedger := by
    refine h.toLedger.store hv o fun o' w hw => ?_
    by_cases hoo : o' = o
    · subst hoo
      rw [Function.update_self] at hw
      exact .inl ⟨rfl, (Option.some.inj hw).symm⟩
    · rw [Function.update_of_ne hoo] at hw
      exact .inr hw
  all := by
    intro w hw
    by_cases hwv : w = v
    · exact .inr (.inr ⟨o, by rw [hwv, Function.update_self]⟩)
    · rcases h.all hw with hm | hm | ⟨o', ho'⟩
      · exact .inl hm
      · exact .inr (.inl ⟨hm, hwv⟩)
      · refine .inr (.inr ⟨o', ?_⟩)
        rwa [Function.update_of_ne]
        rintro rfl
        rw [ho] at ho'
        cases ho'

/-- The owner `o` gives its resource back. -/
theorem give (ho : holds o = some v) :
    FullLedger ok (v :: free) (Function.update holds o none) hand where
  toLedger := by
    refine h.toLedger.give ho fun o' w hw => ?_
    by_cases hoo : o' = o
    · subst hoo
      rw [Function.update_self] at hw
      cases hw
    · rw [Function.update_of_ne hoo] at hw
      exact ⟨hw, hoo⟩
  all := by
    intro w hw
    by_cases hwv : w = v
    · exact .inl (hwv ▸ List.mem_cons_self)
    · rcases h.all hw with hm | hm | ⟨o', ho'⟩
      · exact .inl (List.mem_cons_of_mem _ hm)
      · exact .inr (.inl hm)
      · refine .inr (.inr ⟨o', ?_⟩)
        rwa [Function.update_of_ne]
        rintro rfl
        rw [ho] at ho'
        exact hwv (Option.some.inj ho').symm

/-- The owner `o` hands its resource to the program. -/
theorem fetch (ho : holds o = some v) : FullLedger ok free (Function.update holds o none) (insert v hand) :=
  (h.give ho).take

end FullLedger
