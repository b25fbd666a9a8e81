import TitanOS.Vmm.Create

/-!
# What `mmap` and `alloc_pg_table` do

`Tables k R C` is the invariant of the page tables: those within reach of the roots `R` form a
forest, each of them is registered at an address at which it can be accessed, and the table that
maps the window of page tables is there.  While the window has room inside the block mapped at
boot, it can be extended: `allocPgTable_spec` computes the state after creating a table, and
`mmap_spec` the one after a whole call of `mmap`.
-/

namespace TitanOS

open Walk

namespace Kernel

/-- The page of `v` is in the part of the window that has not been handed out. -/
def Unused (k : Kernel) (v : ℕ) : Prop :=
  page k.windowTop < page v ∧ page v < page 0xffffff8000400000

/-- Every table within reach of the roots is registered at an address that accesses it, outside
of the unused part of the window. -/
def Accessible (k : Kernel) (R : ℕ → Prop) : Prop :=
  ∀ t, Reach (entry k.mem) R 3 t →
    ∃ w, k.map.getPtblVaddr t = some w ∧ w ≠ 0 ∧ k.Accesses w t ∧ ¬ k.Unused w

/-- The page tables are in order.  `R` are the root tables, and two of them share tables only
along lists of indices in `C`. -/
structure Tables (k : Kernel) (R : ℕ → Prop) (C : List (Fin 512) → Prop) : Prop where
  root : R k.cr3
  forest : Forest (entry k.mem) R 3 C
  accessible : k.Accessible R
  current : k.map.getPtblVaddr k.cr3 = some k.currentPml4tPtr
  window : ∃ t, follow (entry k.mem) k.cr3 [511, 0, 1] = some t
  lists : ∃ L, k.map.Lists L []

/-- The window has room for `n` more tables inside the block mapped at boot. -/
def Room (k : Kernel) (n : ℕ) : Prop :=
  0xffffff8000300000 ≤ k.windowTop ∧ k.windowTop % 0x1000 = 0 ∧
    k.windowTop + 0x1000 * n < 0xffffff8000400000

variable {k : Kernel} {R : ℕ → Prop} {C : List (Fin 512) → Prop} {r v : ℕ}

theorem Accessible.registered (h : k.Accessible R) : k.Registered R := by
  intro t ht
  obtain ⟨w, hw, hw0, hacc, -⟩ := h t ht
  exact ⟨w, hw, hw0, hacc⟩

theorem Accessible.of_root (ha : k.Accessible R) (hr : R r) :
    ∃ w, k.map.getPtblVaddr r = some w ∧ w ≠ 0 ∧ k.Accesses w r ∧ ¬ k.Unused w :=
  ha r (reach_root hr)

theorem Tables.inOrder (h : k.Tables R C) : k.InOrder R C (page 0xffffff8000400000) :=
  ⟨h.root, h.forest, h.accessible, h.current, h.lists⟩

theorem InOrder.tables (h : k.InOrder R C (page 0xffffff8000400000))
    (hw : ∃ t, follow (entry k.mem) k.cr3 [511, 0, 1] = some t) : k.Tables R C :=
  ⟨h.root, h.forest, h.accessible, h.current, hw, h.lists⟩

theorem Tables.accesses_current (h : k.Tables R C) : k.Accesses k.currentPml4tPtr k.cr3 :=
  h.inOrder.accesses_current

/-! ### The block of the window -/

/-- The pages of the window are mapped by one table. -/
theorem tableIndices_window {w : ℕ} (h : 0xffffff8000300000 ≤ w) (h' : w < 0xffffff8000400000) :
    tableIndices w = [511, 0, 1] := by
  simp only [tableIndices, List.cons.injEq, and_true, Fin.ext_iff, getIndex_val]
  norm_num
  omega

theorem page_window {w : ℕ} (h : 0xffffff8000300000 ≤ w) (h' : w < 0xffffff8000400000) :
    page w = w / 0x1000 - 0xffff000000000 := by
  simp only [page]
  omega

theorem Room.mono {m n : ℕ} (h : k.Room n) (hmn : m ≤ n) : k.Room m :=
  ⟨h.1, h.2.1, by have := h.2.2; omega⟩

/-- While there is room in the block mapped at boot, the window can be extended. -/
theorem Tables.extends {n : ℕ} (h : k.Tables R C) (hroom : k.Room n) :
    k.Extends (page 0xffffff8000400000) n := by
  obtain ⟨hlo, hal, hhi⟩ := hroom
  have hp := page_window hlo (by omega)
  refine ⟨hal, by omega, ?_, by decide, fun j hj => ?_⟩
  · rw [hp, show page 0xffffff8000400000 = 0xff8000400 from rfl]
    omega
  · rw [tableIndices_window (by omega) (by omega)]
    exact h.window

theorem windowTop_newTable {pmm : Pmm} {f : ℕ} (h : k.Room 1) :
    (k.newTable pmm f).windowTop = k.windowTop + 0x1000 := by
  obtain ⟨-, -, h⟩ := h
  simp only [newTable, windowTop, growWindow, Function.update_self] at h ⊢
  omega

/-! ### The calls -/

/-- The state `k'` after a table `f` has been created, cleared, mapped at the next page of the
window and registered, but not yet linked. -/
structure Allocated (k k' : Kernel) (R : ℕ → Prop) (C : List (Fin 512) → Prop) (f : ℕ) : Prop where
  tables : k'.Tables R C
  cr3 : k'.cr3 = k.cr3
  currentPml4tPtr : k'.currentPml4tPtr = k.currentPml4tPtr
  currentVmm : k'.currentVmm = k.currentVmm
  pmm : k'.pmm = k.pmm.pmmAllocPage.1
  regions : k'.regions = k.growWindow.regions
  windowTop : k'.windowTop = k.windowTop + 0x1000
  getPtblVaddr : k'.map.getPtblVaddr f = some k'.windowTop
  getPtblVaddr_of_ne : ∀ q, q ≠ f → k'.map.getPtblVaddr q = k.map.getPtblVaddr q
  registered : ∀ q, k'.map.registered q = true ↔ k.map.registered q = true ∨ q = f
  accesses : k'.Accesses k'.windowTop f
  empty : ∀ j, k'.mem f j = 0
  unreached : ¬ Reach (entry k'.mem) R 3 f
  same : Same (entry k.mem) (entry k'.mem) R 3
  upper : ∀ a j, Reach (entry k.mem) R 2 a → k'.mem a j = k.mem a j
  translate : ∀ r v, R r → page v ≠ page k'.windowTop → translate k'.mem r v = translate k.mem r v

/-- **`alloc_pg_table`** while the window has room and the next frame is fresh. -/
theorem allocPgTable_spec (n : ℕ) (h : k.Tables R C) (hroom : k.Room 1) (hs : k.Supplied 1) :
    ∃ k', k.allocPgTable (mmap (n + 1)) = some (k', k.pmm.pmmAllocPage.2) ∧
      k.Allocated k' R C k.pmm.pmmAllocPage.2 := by
  obtain ⟨k', hcall, hA⟩ := createTable_spec n h.inOrder (h.extends hroom) hs
  obtain ⟨tw, htw⟩ := h.window
  have hwindow : follow (entry k'.mem) k'.cr3 [511, 0, 1] = some tw := by
    rw [hA.cr3, hA.same k.cr3 _ h.root (by simp), htw]
  exact ⟨k', hcall, hA.inOrder.tables ⟨tw, hwindow⟩, hA.cr3, hA.currentPml4tPtr, hA.currentVmm,
    hA.pmm, hA.regions, hA.windowTop, hA.getPtblVaddr, hA.getPtblVaddr_of_ne, hA.registered,
    hA.accesses, hA.empty, hA.unreached, hA.same, hA.upper, hA.translate⟩

/-- **`mmap`** creates the tables that are missing and then writes one entry of the last table of
the walk. -/
theorem mmap_spec {root : ℕ} (n paddr flags : ℕ) (hC : ∀ p j, C p → C (p ++ [j]))
    (h : k.Tables R C) (hr : R r) (hroot : k.map.getPtblVaddr r = some root)
    (hroom : k.Room (missing k.mem r (tableIndices v)))
    (hs : k.Supplied (missing k.mem r (tableIndices v))) :
    ∃ k' t, k'.Tables R C ∧ k.Created k' R (missing k.mem r (tableIndices v)) ∧
      follow (entry k'.mem) r (tableIndices v) = some t ∧
      mmap (n + 2) k root paddr v flags =
        some ({ k' with mem := writeEntry k'.mem t (getIndex v 0) (paddr ||| flags ||| 7) },
          true) := by
  obtain ⟨k', t, hO, hcr, -, ht, hmmap⟩ := mmapCreated_spec n paddr flags hC h.inOrder hr hroot
    (h.extends hroom) hs
  obtain ⟨tw, htw⟩ := h.window
  refine ⟨k', t, hO.tables ⟨tw, ?_⟩, hcr, ht, hmmap⟩
  rw [hcr.cr3]
  exact hcr.kept k.cr3 _ tw h.root (by simp) htw

end Kernel

end TitanOS
