import Xv6.Frame
import Xv6.Paging
import Xv6.Ranges

/-!
# Writing only in new pages

The code that makes an address space or adds a page to one writes only in pages off the free list (`Takes`).
A page that was not free keeps its content, and two pages that were taken are different.
-/

namespace Xv6

open Hoare

variable {S : Set Word} {r₀ r₁ r₂ : Ram} {d d' : PgDir} {E : Stop → Ram → Prop}

/-- `r` comes from `r₀` by taking pages off the free list, and writing only in them and in `S`. -/
structure Takes (S : Set Word) (r₀ r : Ram) : Prop where
  free : r.freelist <:+ r₀.freelist
  mem : ∀ a, a ∉ S → (∀ v ∈ r₀.freelist, a ∉ pageRange v) → r.mem a = r₀.mem a
  kdata : r.kdata = r₀.kdata

theorem Takes.refl (S : Set Word) (r : Ram) : Takes S r r :=
  ⟨List.suffix_refl _, fun _ _ _ => rfl, rfl⟩

theorem takes_kalloc : Triple (Takes S r₀) kalloc
    (fun o r => Takes S r₀ r ∧ ∀ v, o = some v → v ∈ r₀.freelist) E := by
  refine ⟨fun r hr => ?_⟩
  unfold kalloc
  cases hfl : r.freelist with
  | nil => exact ⟨hr, nofun⟩
  | cons v fl =>
    have hfree := hr.free
    rw [hfl] at hfree
    refine ⟨{ hr with free := (List.suffix_cons v fl).trans hfree }, fun v' hv => ?_⟩
    cases hv
    exact hfree.subset List.mem_cons_self

theorem takes_memset {v : Word} (hv : v ∈ r₀.freelist) (c : Byte) : Keeps (Takes S r₀) E (memset v c) := by
  refine .modify fun r hr => { hr with mem := fun a ha hfree => ?_ }
  rw [← hr.mem a ha hfree]
  exact if_neg (hfree v hv)

/-! ## Page tables -/

/-- Both directories let the same accesses through. -/
def PgDir.SameAccess (d d' : PgDir) : Prop := ∀ a u w, d'.access a u w = d.access a u w

theorem setTable_access {k : Nat} (hk : hasFlag (d.pde k) PTE_P = false) (pg : Word) :
    d.SameAccess (d.setTable k pg) := by
  intro a u w
  unfold PgDir.access PgDir.walk
  rw [PgDir.setTable_pde, PgDir.setTable_pte, vpn_div]
  by_cases ha : pdx a = k
  · subst ha
    rw [if_pos rfl, if_pos rfl, if_pos (PgDir.hasFlag_table pg), if_neg (by simp [hk])]
    simp
  · rw [if_neg ha, if_neg ha]

theorem takes_walkpgdir (va : Word) : Triple (Takes S r₀) (walkpgdir d va)
    (fun o r => Takes S r₀ r ∧ ∀ d', o = some d' → hasFlag (d'.pde (pdx va)) PTE_P ∧ d.SameAccess d') E := by
  refine .ite (fun hp => .pure fun r hr => ⟨hr, fun d' hd => ?_⟩) fun hp => ?_
  · cases hd
    exact ⟨hp, fun _ _ _ => rfl⟩
  · refine .bindOption takes_kalloc (.pre_and fun _ => .pure fun r hr => ⟨hr, nofun⟩)
      fun pg => .pre_and fun ho => ?_
    refine .bind (takes_memset (ho pg rfl) 0) fun _ => .pure fun r hr => ⟨hr, fun d' hd => ?_⟩
    cases hd
    refine ⟨?_, setTable_access (by simpa using hp) pg⟩
    rw [PgDir.setTable_pde, if_pos rfl]
    exact PgDir.hasFlag_table pg

/-- The directory `d'` is `d` with the entry `pte` for the page of `a`, which was not present. -/
structure PgDir.Adds (d d' : PgDir) (a pte : Word) : Prop where
  absent : d.access a false false = false
  here : ∀ a', vpn a' = vpn a → d'.walk a' = some pte
  there : ∀ a', vpn a' ≠ vpn a → ∀ u w, d'.access a' u w = d.access a' u w

variable {a b : Word}

theorem pdx_eq_of_vpn (h : vpn a = vpn b) : pdx a = pdx b := by
  rw [← vpn_div, ← vpn_div, h]

theorem walk_congr (h : vpn a = vpn b) : d.walk a = d.walk b := by
  unfold PgDir.walk
  rw [pdx_eq_of_vpn h, h]

theorem access_congr (h : vpn a = vpn b) (u w : Bool) : d.access a u w = d.access b u w := by
  unfold PgDir.access
  rw [walk_congr h]

theorem adds_setPte (pte : Word) (hp : hasFlag (d.pde (pdx a)) PTE_P)
    (hpte : hasFlag (d.pte (vpn a)) PTE_P = false) : d.Adds (d.setPte (vpn a) pte) a pte where
  absent := by simp [PgDir.access, PgDir.walk, hp, hpte]
  here a' ha := by
    unfold PgDir.walk
    rw [PgDir.setPte_pde, pdx_eq_of_vpn ha, if_pos hp, PgDir.setPte_pte, if_pos ha]
  there a' ha u w := by
    unfold PgDir.access PgDir.walk
    rw [PgDir.setPte_pde, PgDir.setPte_pte, if_neg ha]

theorem PgDir.Adds.of_same {d₀ : PgDir} {pte : Word} (h : d.Adds d' a pte)
    (hs : d₀.SameAccess d) : d₀.Adds d' a pte where
  absent := by rw [← hs, h.absent]
  here := h.here
  there a' ha u w := by rw [h.there a' ha, hs]

theorem takes_mapOne (perm a pa : Word) :
    Triple (Takes S r₀) (mappagesLoop perm 0 d a pa) (fun x r => Takes S r₀ r ∧
      (x.1 = true → d.Adds x.2 a (pa ||| perm ||| PTE_P))) (fun _ _ => True) := by
  unfold mappagesLoop
  refine .bind (takes_walkpgdir a) fun o => .pre_and fun ho => ?_
  cases o with
  | none => exact .pure fun r hr => ⟨hr, fun h => by cases h⟩
  | some d' =>
    obtain ⟨hp, hsame⟩ := ho d' rfl
    refine .check (fun _ _ => trivial) fun hpte => .pure fun r hr => ⟨hr, fun _ => ?_⟩
    exact (adds_setPte _ hp (by simpa using hpte)).of_same hsame

theorem takes_mapPage (ha : Aligned a) (mem prot : Word) :
    Triple (Takes S r₀) (mapPage d a mem prot) (fun x r => Takes S r₀ r ∧
      (x.1 = true → d.Adds x.2 a (V2P mem ||| (prot ||| PTE_U) ||| PTE_P))) (fun _ _ => True) := by
  unfold mapPage
  rw [mappages_page ha]
  refine .bind (takes_mapOne _ _ _) fun x => .pre_and fun hx => ?_
  refine .ite (fun _ => ?_) fun _ => .pure fun r hr => ⟨hr, hx⟩
  exact .update (R := Takes S r₀) (fun r hr => { hr with }) <| .pure fun r hr => ⟨hr, hx⟩

end Xv6
