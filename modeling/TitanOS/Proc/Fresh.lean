import TitanOS.Proc.Nodes
import TitanOS.Vmm.Access
import TitanOS.Vmm.Recursion
import TitanOS.Vmm.Spaces

/-!
# A space that has just been created

`create_vmm` makes a root whose slots are empty but for the one of the kernel half.  While it is so
(`Fresh`), nothing outside of the kernel half can be accessed, and the first page that is mapped
there needs a table.  With two freed tables the one that `alloc_pg_table` uses again is the root
itself: it is cleared, and the next access faults.
-/

namespace TitanOS

open Walk

namespace Kernel

variable {k k₁ k' : Kernel} {v e fuel : ℕ}

/-! ### The root of a new space -/

/-- Only the slot of the kernel half is taken in the current root, and a freed table that would be
used again is the root itself. -/
structure Fresh (k : Kernel) : Prop where
  current : k.Accesses k.currentPml4tPtr k.cr3
  known : k.map.getPtblVaddr k.cr3 = some k.currentPml4tPtr
  empty : ∀ j, j ≠ 511 → k.mem k.cr3 j = 0
  reused : ∀ i, k.map.getFreedPgTbl = some i → k.map.ptVaddr i = k.currentPml4tPtr

theorem Fresh.with (h : k.Fresh) (pmm : Pmm) (regions : Regions) (vmm : ℕ) :
    ({ k with pmm := pmm, regions := regions, currentVmm := vmm } : Kernel).Fresh :=
  ⟨h.current, h.known, h.empty, h.reused⟩

theorem Fresh.switchVmSpace (h : k.Fresh) {vmm : Vmm} (hvmm : vmm.pml4t = k.cr3)
    (hk : k.switchVmSpace vmm = some k') : k' = { k with currentVmm := vmm.head } := by
  rw [Kernel.switchVmSpace, hvmm, h.known, Option.map_some, Option.some.injEq] at hk
  exact hk.symm

/-- Outside of the kernel half an access faults. -/
theorem Fresh.store (h : k.Fresh) (hv : getIndex v 3 ≠ 511) : k.store v e = none := by
  have hnone : entry k.mem k.cr3 (getIndex v 3) = none := by simp [entry, h.empty _ hv]
  rw [Kernel.store, translate, indices, follow_cons, hnone]
  rfl

/-- After a freed table has been used again, the root is empty. -/
theorem Fresh.getFreedPgTbl {mmap : Kernel → ℕ → ℕ → ℕ → ℕ → Option (Kernel × Bool)} {t p : ℕ}
    (h : k.Fresh) (hal : k.allocPgTable mmap = some (k₁, t)) (hst : k₁.store p e = some k') :
    k.map.getFreedPgTbl = none := by
  cases hfree : k.map.getFreedPgTbl with
  | none => rfl
  | some i =>
    unfold allocPgTable registerTable at hal
    rw [hfree] at hal
    simp only [h.reused i hfree, h.current.clearPage, Option.bind_eq_bind, Option.bind_some] at hal
    obtain ⟨r, -, hal⟩ := Option.bind_eq_some_iff.1 hal
    obtain ⟨rfl, -⟩ := Prod.mk.inj (Option.some.inj hal)
    simp [Kernel.store, translate, indices, follow_cons, entry] at hst

/-- A table has been made, and none was there to be used again. -/
def Grew (k k' : Kernel) : Prop := k.map.getFreedPgTbl = none ∧ k.map.count < k'.map.count

/-- **The first mapping** outside of the kernel half makes a table. -/
theorem Fresh.mmap {paddr flags : ℕ} {b : Bool} (h : k.Fresh) (hv : getIndex v 3 ≠ 511)
    (hk : Kernel.mmap fuel k k.currentPml4tPtr paddr v flags = some (k', b)) : k.Grew k' := by
  cases fuel with
  | zero => cases hk
  | succ n =>
    rw [Kernel.mmap] at hk
    obtain ⟨⟨k₃, res⟩, hdesc, hk⟩ := Option.bind_eq_some_iff.1 hk
    rw [descend, h.current.load, Option.bind_eq_bind, Option.bind_some, h.empty _ hv,
      if_neg (by decide)] at hdesc
    obtain ⟨⟨k₁, t⟩, hal, hdesc⟩ := Option.bind_eq_some_iff.1 hdesc
    obtain ⟨k₂, hst, hdesc⟩ := Option.bind_eq_some_iff.1 hdesc
    obtain ⟨w, -, hdesc⟩ := Option.bind_eq_some_iff.1 hdesc
    have hfree := h.getFreedPgTbl hal hst
    have hrest : k₁.Steps k₃ := (steps_store hst).trans (steps_descend (fun _ _ _ hal =>
      steps_allocPgTable (fun _ _ _ _ _ _ _ => steps_mmap n) hal) _ hdesc)
    have hlast : k₃.Steps k' := by
      cases res with
      | none =>
        obtain ⟨rfl, -⟩ := Prod.mk.inj (Option.some.inj hk)
        exact .refl _
      | some pt =>
        obtain ⟨k₄, hst, hk⟩ := Option.bind_eq_some_iff.1 hk
        obtain ⟨rfl, -⟩ := Prod.mk.inj (Option.some.inj hk)
        exact steps_store hst
    exact ⟨hfree, (count_lt_allocPgTable n hfree hal).trans_le (hrest.trans hlast).count_map⟩

theorem Fresh.mapPages {flags n args : ℕ} {b : Bool} (h : k.Fresh) (hv : getIndex v 3 ≠ 511)
    (hk : mapPages fuel flags n k v args = some (k', b)) : k.Grew k' ∨ n = 0 ∧ k' = k := by
  cases n with
  | zero =>
    obtain ⟨rfl, -⟩ := Prod.mk.inj (Option.some.inj hk)
    exact Or.inr ⟨rfl, rfl⟩
  | succ n =>
    obtain ⟨pmm, hpmm, -⟩ := k.takeFrame_eq args
    rw [mapPages_succ, hpmm] at hk
    obtain ⟨⟨k₁, ok⟩, hcall, hk⟩ := Option.bind_eq_some_iff.1 hk
    obtain ⟨hfree, hlt⟩ := (h.with pmm k.regions k.currentVmm).mmap hv hcall
    have hrest : k₁.Steps k' := by
      split at hk
      · exact steps_mapPages fuel flags n hk
      · obtain ⟨rfl, -⟩ := Prod.mk.inj (Option.some.inj hk)
        exact .refl _
    exact Or.inl ⟨hfree, hlt.trans_le hrest.count_map⟩

/-- A request that is not at null is placed where it asks for. -/
theorem found_eq {r : Regions} {head start length c found : ℕ} (hs : start ≠ 0)
    (h : findPlace r head start length = some (some (c, found))) : found = start := by
  unfold findPlace at h
  rw [if_neg hs] at h
  split at h
  · cases h
  · split at h
    · cases h
    · exact (Prod.mk.inj (Option.some.inj (Option.some.inj h))).2.symm
  · exact (Prod.mk.inj (Option.some.inj (Option.some.inj h))).2.symm

/-- **`vmm_alloc`** of some pages outside of the kernel half. -/
theorem Fresh.vmmAlloc {start length flags p : ℕ} (h : k.Fresh) (hs : 0x1000 ≤ start)
    (hv : getIndex start 3 ≠ 511) (hk : vmmAlloc fuel k start length flags 0 = some (k', p)) :
    k.Grew k' ∨ k'.Fresh ∧ k'.map = k.map ∧ k'.cr3 = k.cr3 ∧
      (p ≠ 0 → (pageAlign length + 0xfff) % 2 ^ 64 / 0x1000 = 0) := by
  rcases vmmAlloc_cases hk with ⟨-, he⟩ | ⟨c, found, k₁, ok, hfind, hmap, he⟩
  · obtain ⟨rfl, rfl⟩ := Prod.mk.inj he
    exact Or.inr ⟨h, rfl, rfl, fun hp => absurd rfl hp⟩
  · obtain ⟨rfl, -⟩ := Prod.mk.inj he
    have hfound : found = pageAlignDown start := found_eq (by unfold pageAlignDown; omega) hfind
    have hindex : getIndex found 3 = getIndex start 3 := by
      rw [hfound, Fin.ext_iff, getIndex_val, getIndex_val, pageAlignDown]
      omega
    have hplaced := h.with k.pmm
      (insertRegion k.regions c found (pageAlign length) flags) k.currentVmm
    rcases hplaced.mapPages (hindex ▸ hv) hmap with hgrew | ⟨hn, rfl⟩
    · exact Or.inl hgrew
    · exact Or.inr ⟨hplaced, rfl, rfl, fun _ => hn⟩

/-! ### Creating it -/

/-- The page tables of the current space are in order, and so are the freed ones: they are mapped in
the kernel half and not in use.  The next page of the window is free, and the frames of all
registered tables are taken. -/
structure Orderly (k : Kernel) : Prop where
  walkable : k.Walkable (fun r => r = k.cr3) fun _ => False
  aligned : k.windowTop % 0x1000 = 0
  low : 0xffffff8000300000 ≤ k.windowTop
  high : k.windowTop + 0x1000 < 2 ^ 64
  free : k.NoTableAt (k.windowTop + 0x1000)
  taken : ∀ n < 32 * k.pmm.rows, k.map.registered (Pmm.slotAddr n) = true →
    k.pmm.slotTaken n = true
  freed : ∀ i ∈ k.map.freed, k.map.registered (k.map.ptPaddr i) = false ∧
    k.Accesses (k.map.ptVaddr i) (k.map.ptPaddr i) ∧ getIndex (k.map.ptVaddr i) 3 = 511

/-- A table that has been cleared and registered, and that no table leads to.  It is accessed
through the kernel half. -/
structure Blank (k : Kernel) (f w : ℕ) : Prop where
  current : k.Accesses k.currentPml4tPtr k.cr3
  known : k.map.getPtblVaddr f = some w
  accesses : k.Accesses w f
  high : getIndex w 3 = 511
  empty : ∀ j, k.mem f j = 0
  unreached : ¬ Reach (entry k.mem) (fun r => r = k.cr3) 3 f
  reused : ∀ i, k.map.getFreedPgTbl = some i → k.map.ptVaddr i = w

/-- A node that is on no chain, and will not be on one. -/
def Lost (k k' : Kernel) : Prop :=
  ∃ L F, k'.map.Lists L F ∧ k.map.count < k'.map.count ∧ ∀ b, k.map.count ∉ L b

variable {f w n : ℕ}

theorem Walkable.not_reach {R : ℕ → Prop} {C : List (Fin 512) → Prop} (h : k.Walkable R C)
    (hf : k.map.registered f = false) : ¬ Reach (entry k.mem) R 3 f := by
  intro hr
  obtain ⟨L, F, hL⟩ := h.lists
  obtain ⟨w, hw, hw0, -⟩ := h.registered f hr
  rw [hL.getPtblVaddr_of_not hf, Option.some.injEq] at hw
  exact hw0 hw.symm

/-- `switch_vm_space` to a space with a new root. -/
theorem Blank.fresh (h : k.Blank f w) {vmm : Vmm} (hvmm : vmm.pml4t = f)
    (hk : (k.withRoot f).switchVmSpace vmm = some k') : k'.Fresh ∧ k'.map = k.map := by
  have hknown : (k.withRoot f).map.getPtblVaddr f = some w := h.known
  rw [Kernel.switchVmSpace, hvmm, hknown, Option.map_some, Option.some.injEq] at hk
  subst hk
  have hshare := share_withRoot h.empty
  refine ⟨⟨⟨h.accesses.1, ?_⟩, h.known, fun j hj => ?_, h.reused⟩, rfl⟩
  · show translate (k.withRoot f).mem f w = some f
    rw [translate, kernelHalf_of_getIndex h.high,
      hshare.follow_shared h.unreached rfl (show _ ≤ 3 from le_rfl), ← kernelHalf_of_getIndex h.high]
    exact h.accesses.2
  · show writeEntry k.mem f 511 (k.mem k.cr3 511) f j = 0
    simp [writeEntry, Function.update_of_ne hj, h.empty]

theorem Blank.createVmm (h : k₁.Blank f w) (hal : k.allocPgTable (Kernel.mmap n) = some (k₁, f)) :
    k.createVmm n = some (k₁.withRoot f, ⟨k₁.regions.count, f⟩) :=
  createVmm_eq n hal h.current h.known h.accesses

/-- The frame of a new table is not one of the registered ones. -/
theorem Orderly.registered_pmmAllocPage (h : k.Orderly) (hf : k.pmm.pmmAllocPage.2 ≠ 0) :
    k.map.registered k.pmm.pmmAllocPage.2 = false := by
  rw [Pmm.pmmAllocPage_eq] at hf ⊢
  cases hfirst : k.pmm.firstFree with
  | none =>
    rw [hfirst] at hf
    exact absurd rfl hf
  | some s =>
    rw [Bool.eq_false_iff]
    intro hreg
    obtain ⟨hfree, hlt, -⟩ := Pmm.firstFree_eq_some.1 hfirst
    simp only at hreg
    rw [h.taken s hlt hreg] at hfree
    cases hfree

/-- **`alloc_pg_table`** makes a blank table, or its node is lost, or it makes more than one. -/
theorem Orderly.allocPgTable (h : k.Orderly) (hfree : k.map.getFreedPgTbl = none)
    (hal : k.allocPgTable (Kernel.mmap n) = some (k₁, f)) :
    k.Lost k₁ ∨ k.map.count + 2 ≤ k₁.map.count ∨ ∃ w, k₁.Blank f w := by
  obtain ⟨L, F, hL⟩ := h.walkable.lists
  by_cases hf0 : k.pmm.pmmAllocPage.2 = 0
  -- no frame is left
  · unfold Kernel.allocPgTable at hal
    rw [hfree] at hal
    simp only [hf0, if_true] at hal
    obtain ⟨rfl, -⟩ := Prod.mk.inj (Option.some.inj hal)
    exact Or.inl ⟨L, F, hL.newNode 0 0, Nat.lt_succ_self _, fun b hb => (hL.home b _ hb).1.false⟩
  have htop : k.growWindow.windowTop = k.windowTop + 0x1000 := by
    have := h.high
    simp only [windowTop, growWindow, Function.update_self] at this ⊢
    omega
  obtain ⟨k₂, b, hmmap, hrest⟩ := mmap_of_allocPgTable hfree hf0 hal
  cases htw : follow (entry k.mem) k.cr3 (tableIndices (k.windowTop + 0x1000)) with
  -- the window needs a table of its own
  | none =>
    have hreg : (k.newTable k.pmm.pmmAllocPage.1 k.pmm.pmmAllocPage.2).Registered
        (fun r => r = k.cr3) := registered_newTable h.walkable.registered h.walkable.lists
    rw [← htop] at htw
    obtain ⟨m, k₃, f', hal', hsteps⟩ := mmap_missing
      (k := k.newTable k.pmm.pmmAllocPage.1 k.pmm.pmmAllocPage.2) (R := fun r => r = k.cr3)
      h.walkable.root hreg h.walkable.accesses_current htw hmmap
    have hfree' : (k.newTable k.pmm.pmmAllocPage.1 k.pmm.pmmAllocPage.2).map.getFreedPgTbl =
        none := (hL.newNode _ _).getFreedPgTbl_eq_none (hL.length_le_one hfree)
    have hlt := count_lt_allocPgTable m hfree' hal'
    have hle := (hsteps.trans hrest).count_map
    have hone : (k.newTable k.pmm.pmmAllocPage.1 k.pmm.pmmAllocPage.2).map.count =
      k.map.count + 1 := rfl
    exact Or.inr (Or.inl (by omega))
  | some tw =>
    obtain ⟨map, hins, hL', -, -, -, -, hgetf, -, -⟩ :=
      hL.register (h.registered_pmmAllocPage hf0) (k.windowTop + 0x1000)
    obtain ⟨m, rfl⟩ : ∃ m, n = m + 1 := by
      cases n with
      | zero => cases hmmap
      | succ m => exact ⟨m, rfl⟩
    have heq := allocPgTable_eq m hfree h.walkable.forest h.walkable.root h.walkable.registered
      h.walkable.accesses_current h.walkable.lists h.aligned htop htw rfl hf0 hins
    obtain ⟨rfl, rfl⟩ := Prod.mk.inj (Option.some.inj (hal.symm.trans heq))
    have hun := h.walkable.not_reach (h.registered_pmmAllocPage hf0)
    obtain ⟨hsame, htr, hself⟩ := @withTable_walks k _ _ map tw _ h.walkable.forest h.walkable.root
      htw k.pmm.pmmAllocPage_mod hun
    obtain ⟨hal₀, hacc⟩ := h.walkable.accesses_current
    have hne : page k.currentPml4tPtr ≠ page (k.windowTop + 0x1000) := by
      obtain ⟨w, hw, hw0, -⟩ := h.walkable.registered k.cr3 (reach_root h.walkable.root)
      obtain rfl := Option.some.inj (hw.symm.trans h.walkable.current)
      exact h.free k.cr3 _ hw hw0
    have hal := h.aligned
    have hlow := h.low
    have hhigh := h.high
    refine Or.inr (Or.inr ⟨k.windowTop + 0x1000, ⟨hal₀, (htr _ _ h.walkable.root hne).trans hacc⟩,
      hgetf, ⟨by omega, hself⟩, ?_, fun j => by simp [withTable],
      fun hr => hun (hsame.reach_iff.1 hr), fun i hi => ?_⟩)
    · rw [Fin.ext_iff, getIndex_val]
      omega
    · rw [show (k.withTable map tw k.pmm.pmmAllocPage.2).map = map from rfl,
        hL'.getFreedPgTbl_eq_none (hL.length_le_one hfree)] at hi
      cases hi

/-- **`alloc_pg_table`** makes a blank table of a freed one. -/
theorem Orderly.allocPgTable_reused {mmap : Kernel → ℕ → ℕ → ℕ → ℕ → Option (Kernel × Bool)}
    {i : ℕ} (h : k.Orderly) (hi : k.map.getFreedPgTbl = some i)
    (hal : k.allocPgTable mmap = some (k₁, f)) :
    k₁.map.getFreedPgTbl = some i ∧ ∃ w, k₁.Blank f w := by
  obtain ⟨L, F, hL⟩ := h.walkable.lists
  have hmem : i ∈ k.map.freed := by
    obtain ⟨a, F', rfl, -⟩ := hL.eq_cons_of_getFreedPgTbl hi
    simp [hL.freed_eq]
  obtain ⟨hreg, hacc, hhigh⟩ := h.freed i hmem
  obtain ⟨map, hins, hknown, hagain, hvaddr⟩ := hL.pgTblInsert_reused hi hreg
  have hun := h.walkable.not_reach hreg
  -- clearing it changes no walk
  have hsame : Same (entry k.mem) (entry (Function.update k.mem (k.map.ptPaddr i) fun _ => 0))
      (fun r => r = k.cr3) 4 := same_of_unreached hun fun a j ha => entry_clear_of_ne ha
  have hkept : ∀ w t, k.Accesses w t → translate
      (Function.update k.mem (k.map.ptPaddr i) fun _ => 0) k.cr3 w = some t := fun w t hw =>
    (hsame k.cr3 _ rfl (by simp [indices])).trans hw.2
  unfold Kernel.allocPgTable registerTable at hal
  rw [hi] at hal
  simp only [hacc.clearPage, Option.bind_eq_bind, Option.bind_some, hins, if_true] at hal
  obtain ⟨rfl, rfl⟩ := Prod.mk.inj (Option.some.inj hal)
  refine ⟨hagain, k.map.ptVaddr i, ⟨h.walkable.accesses_current.1, hkept _ _
    h.walkable.accesses_current⟩, hknown, ⟨hacc.1, hkept _ _ hacc⟩, hhigh, fun j => by simp,
    fun hr => hun ((hsame.mono (by omega)).reach_iff.1 hr), fun j hj => ?_⟩
  obtain rfl := Option.some.inj (hagain.symm.trans hj)
  exact congrFun hvaddr i

end Kernel

end TitanOS
