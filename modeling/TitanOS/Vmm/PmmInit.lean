import TitanOS.Pmm.Frames
import TitanOS.Vmm.RegionRuns

/-!
# `pmm_init`

`pmm_init` clears the first page of the bitmap, marks reserved memory and the kernel, and then has
`vmm_lengthen` map the rest of the bitmap, in 279 frames that it takes from the allocator it is
setting up.

* The loop over the pages of a reserved entry runs while `p > addr + len`, which is false from the
  start unless the sum wraps around.  So no reserved page is marked (`markReserved_eq`), and an
  entry that wraps makes the loop run into rows of the bitmap that are not mapped.
* The pages of the kernel are marked through `paddr_to_bitmap`, that is, at the slots of other
  pages (`markWhile_kernel`).
* The rows behind the first page are used as they are found in the frames (`earlyTaken`).

What protects a page in the end is chance: its slot may be one that is marked for another page,
one of the 279 lowest that are not marked, or one that happens to be set.
-/

namespace TitanOS

open Walk Linked

/-- `mmap_entry_t`, as far as `pmm_init` reads it. -/
structure MmapEntry where
  addr : ℕ
  len : ℕ
  addr_lt : addr < 2 ^ 64
  len_lt : len < 2 ^ 64

/-- `e->addr + e->len`. -/
def MmapEntry.stop (e : MmapEntry) : ℕ := (e.addr + e.len) % 2 ^ 64

/-- `mmap_region_list_t`.  The array has `MAX_MMAP_ENTRIES` entries and is zero behind `length`.
From 20 on, `entries` is the memory behind the array, which the loop of `pmm_init` reads. -/
structure MmapRegionList where
  length : ℕ
  entries : ℕ → MmapEntry
  length_le : length ≤ 20
  zero : ∀ i, length ≤ i → i < 20 → (entries i).addr = 0 ∧ (entries i).len = 0

namespace Pmm

/-- `pmm_alloc_specific_page` while only the first page of the bitmap is mapped: it faults beyond
row 512. -/
def markEarly (m : Pmm) (p : ℕ) : Option Pmm :=
  if (paddrToBitmap p).y < 512 then some (m.pmmAllocSpecificPage p).1 else none

/-- `for (; go(p); p += PAGE_SIZE) pmm_alloc_specific_page(p);` -/
def markWhile (go : ℕ → Bool) : ℕ → Pmm → ℕ → Option Pmm
  | 0, _, _ => none
  | n + 1, m, p =>
    if go p then (m.markEarly p).bind fun m => markWhile go n m ((p + 0x1000) % 2 ^ 64)
    else some m

/-- The loop over the reserved entries, from entry `i` on. -/
def markReserved (fuel : ℕ) (r : MmapRegionList) : ℕ → Pmm → ℕ → Option Pmm
  | 0, _, _ => none
  | n + 1, m, i =>
    let e := r.entries i
    if i ≠ r.length ∨ 0x8000000 ≤ e.stop then
      (markWhile (fun p => decide (e.stop < p)) fuel m e.addr).bind fun m =>
        markReserved fuel r n m (i + 1)
    else some m

/-- The bitmap with its first page cleared. -/
def cleared (bitmap : ℕ → BitVec 64) : Pmm where
  numPages := 0x118000 * 8
  bitmap i := if i < 512 then 0#64 else bitmap i
  rows_lt := by decide

/-! ### The marking loops -/

variable {m m' : Pmm} {r : MmapRegionList} {p stop n : ℕ}

theorem markEarly_eq (h : p < 0x8000000) : m.markEarly p = some (m.pmmAllocSpecificPage p).1 := by
  rw [markEarly, if_pos]
  simp only [paddrToBitmap]
  omega

/-- An entry that does not wrap around marks nothing. -/
theorem markWhile_reserved {e : MmapEntry} (h : e.addr + e.len < 2 ^ 64) :
    markWhile (fun p => decide (e.stop < p)) (n + 1) m e.addr = some m := by
  have hnot : ¬ e.stop < e.addr := by
    rw [MmapEntry.stop, Nat.mod_eq_of_lt h]
    omega
  simp [markWhile, hnot]

/-- An entry that wraps around ends in a fault. -/
theorem markWhile_wrapped {e : MmapEntry} (h : 2 ^ 64 ≤ e.addr + e.len) (hp : e.addr ≤ p)
    (hlt : p < 2 ^ 64) : markWhile (fun p => decide (e.stop < p)) n m p = none := by
  have hstop : e.stop < e.addr := by
    have := e.len_lt
    have := e.addr_lt
    unfold MmapEntry.stop
    omega
  induction n generalizing m p with
  | zero => rfl
  | succ n ih =>
    rw [markWhile, if_pos (by simp; omega), markEarly]
    split_ifs with hrow
    · have hnext : p + 0x1000 < 2 ^ 64 := by
        simp only [paddrToBitmap] at hrow
        omega
      rw [Option.bind_some, Nat.mod_eq_of_lt hnext]
      exact ih (by omega) hnext
    · rfl

/-- The entries of the list do not wrap around, and the loop stops behind the last one. -/
def Scanned (r : MmapRegionList) : Prop :=
  (∀ i < r.length, (r.entries i).addr + (r.entries i).len < 2 ^ 64) ∧
    (r.entries r.length).stop < 0x8000000

theorem markReserved_past {fuel i : ℕ} (hi : r.length < i) :
    markReserved fuel r n m i = none := by
  induction n generalizing m i with
  | zero => rfl
  | succ n ih =>
    rw [markReserved, if_pos (Or.inl hi.ne')]
    cases markWhile (fun p => decide ((r.entries i).stop < p)) fuel m (r.entries i).addr with
    | none => rfl
    | some m => exact ih (Nat.lt_succ_of_lt hi)

/-- **The loop over the reserved entries** marks nothing, or it does not return. -/
theorem markReserved_eq {fuel i : ℕ} (hi : i ≤ r.length)
    (hbefore : ∀ j < i, (r.entries j).addr + (r.entries j).len < 2 ^ 64) (hn : r.length - i < n) :
    (Scanned r ∧ markReserved (fuel + 1) r n m i = some m) ∨
      (¬ Scanned r ∧ markReserved (fuel + 1) r n m i = none) := by
  induction n generalizing i with
  | zero => omega
  | succ n ih =>
    rw [markReserved]
    by_cases hend : i = r.length
    · subst hend
      by_cases hstop : 0x8000000 ≤ (r.entries r.length).stop
      · refine Or.inr ⟨fun h => absurd h.2 (by omega), ?_⟩
        rw [if_pos (Or.inr hstop)]
        cases markWhile (fun p => decide ((r.entries r.length).stop < p)) (fuel + 1) m
            (r.entries r.length).addr with
        | none => rfl
        | some m => exact markReserved_past (Nat.lt_succ_self _)
      · refine Or.inl ⟨⟨hbefore, by omega⟩, if_neg ?_⟩
        simpa using hstop
    · rw [if_pos (Or.inl hend)]
      by_cases hwrap : (r.entries i).addr + (r.entries i).len < 2 ^ 64
      · rw [markWhile_reserved hwrap, Option.bind_some]
        refine ih (by omega) (fun j hj => ?_) (by omega)
        by_cases hji : j = i
        · rw [hji]
          exact hwrap
        · exact hbefore j (by omega)
      · refine Or.inr ⟨fun h => hwrap (h.1 i (by omega)), ?_⟩
        rw [markWhile_wrapped (by omega) le_rfl (r.entries i).addr_lt]
        rfl

/-- The slots marked for the kernel: those that `paddr_to_bitmap` gives for its pages. -/
def KernelSlot (stop x : ℕ) : Prop := ∃ j, 0x100000 + 0x1000 * j < stop ∧
  x = slotOf (0x100000 + 0x1000 * j)

/-- The loop over the pages of the kernel. -/
theorem markWhile_pages (hstop : stop ≤ 0x8000000) (hn : stop ≤ p + 0x1000 * n) :
    ∃ m', markWhile (fun p => decide (p < stop)) (n + 1) m p = some m' ∧ m'.rows = m.rows ∧
      ∀ x, m'.slotTaken x = true ↔
        m.slotTaken x = true ∨ ∃ j, p + 0x1000 * j < stop ∧ x = slotOf (p + 0x1000 * j) := by
  induction n generalizing m p with
  | zero =>
    refine ⟨m, by simp [markWhile, show ¬ p < stop by omega], rfl, fun x => ?_⟩
    simp only [iff_self_or, forall_exists_index, and_imp]
    intro j hj
    omega
  | succ n ih =>
    by_cases hp : p < stop
    · obtain ⟨m', hm', hrows, htaken⟩ := @ih (m.pmmAllocSpecificPage p).1 (p + 0x1000) (by omega)
      refine ⟨m', ?_, hrows.trans (m.pmmAllocSpecificPage_rows p), fun x => ?_⟩
      · rw [markWhile, if_pos (by simpa using hp), markEarly_eq (by omega), Option.bind_some,
          Nat.mod_eq_of_lt (by omega), hm']
      · rw [htaken, slotTaken_pmmAllocSpecificPage, Bool.or_eq_true, decide_eq_true_eq, or_assoc]
        refine or_congr_right ⟨?_, ?_⟩
        · rintro (rfl | ⟨j, hj, rfl⟩)
          · exact ⟨0, by simpa using hp, by simp⟩
          · exact ⟨j + 1, by omega, by congr 1; omega⟩
        · rintro ⟨j, hj, rfl⟩
          cases j with
          | zero => exact Or.inl (by simp)
          | succ j => exact Or.inr ⟨j, by omega, by congr 1; omega⟩
    · refine ⟨m, by simp [markWhile, hp], rfl, fun x => ?_⟩
      simp only [iff_self_or, forall_exists_index, and_imp]
      intro j hj
      omega

/-- A kernel that reaches beyond the first page of the bitmap ends in a fault. -/
theorem markWhile_fault (hstop : 0x8000000 < stop) (hp : p ≤ 0x8000000) (hal : p % 0x1000 = 0) :
    markWhile (fun p => decide (p < stop)) n m p = none := by
  induction n generalizing m p with
  | zero => rfl
  | succ n ih =>
    rw [markWhile, if_pos (by simp; omega), markEarly]
    split_ifs with hrow
    · simp only [paddrToBitmap] at hrow
      rw [Option.bind_some, Nat.mod_eq_of_lt (by omega)]
      exact ih (by omega) (by omega)
    · rfl

end Pmm

/-- `kernel_pmm_obj`. -/
def kernelPmmObj : ℕ := 1

/-- The end of the loop over the pages of the kernel. -/
def kernelEnd (kernelByteSize : ℕ) : ℕ := (kernelByteSize + 0x100000 + 0x2000) % 2 ^ 64

namespace Kernel

/-- `pmm_init`.  What `k.pmm.bitmap` holds before is what is found in the frames that the bitmap
gets. -/
def pmmInit (fuel : ℕ) (k : Kernel) (reserved : MmapRegionList) (kernelByteSize : ℕ) :
    Option Kernel := do
  let m ← Pmm.markReserved fuel reserved fuel (Pmm.cleared k.pmm.bitmap) 0
  let m ← Pmm.markWhile (fun p => decide (p < kernelEnd kernelByteSize)) fuel m 0x100000
  let (k, ok) ← vmmLengthen fuel { k with pmm := m } 0xffffff80000e8000 0x117000
  some (if ok then k else { k with pmm := ⟨8 * 0x1000, k.pmm.bitmap, by decide⟩ })

/-! ### Lengthening the bitmap -/

/-- What `pmm_init` finds: the page tables are in order, the rest of the bitmap's range belongs to
a page table that is there and to no other use, and `kernel_pmm_obj` is on the region list with
room behind it. -/
structure BeforePmm (k : Kernel) : Prop where
  tables : k.Tables (fun r => r = k.cr3) (fun _ => False)
  table : ∃ t, follow (entry k.mem) k.cr3 [511, 0, 0] = some t
  unused : ∀ v, 0xffffff80000e9000 ≤ v → v < 0xffffff8000200000 → ¬ k.TableAt v
  found : search k.regions.next (fun c => k.regions.base c == 0xffffff80000e8000)
    (k.regions.count + 1) (some k.currentVmm) = some (some kernelPmmObj)
  base : k.regions.base kernelPmmObj = 0xffffff80000e8000
  length : k.regions.length kernelPmmObj = 0x1000
  flags : isMmio (k.regions.flags kernelPmmObj) = false
  room : ∀ d, k.regions.next kernelPmmObj = some d → 0xffffff8000200000 ≤ k.regions.base d

variable {k : Kernel} {R : ℕ → Prop} {C : List (Fin 512) → Prop} {c t v : ℕ}

theorem tableIndices_bitmap (h : 0xffffff8000000000 ≤ v) (h' : v < 0xffffff8000200000) :
    tableIndices v = [511, 0, 0] := by
  simp only [tableIndices, List.cons.injEq, and_true, Fin.ext_iff, getIndex_val]
  norm_num
  omega

/-- The loop of `vmm_lengthen` over pages whose table is there: each takes one frame, and no other
page changes. -/
theorem lengthenPages_present (fuel n loop : ℕ) (hT : k.Tables R C)
    (ht : follow (entry k.mem) k.cr3 [511, 0, 0] = some t)
    (hunused : ∀ v, 0xffffff80000e9000 ≤ v → v < 0xffffff8000200000 → ¬ k.TableAt v)
    (hend : k.regions.base c + k.regions.length c = 0xffffff8000200000)
    (hflags : isMmio (k.regions.flags c) = false) (hv : 0xffffff80000e9000 ≤ v)
    (hn : v + 0x1000 * n = 0xffffff8000200000) (hloop : n < loop) :
    ∃ k', lengthenPages (fuel + 1) loop k c v = some (k', true) ∧
      k'.pmm = k.pmm.afterFrames n ∧ k'.Tables R C ∧
      ∀ u, translate k'.mem k'.cr3 u = translate k.mem k.cr3 u ∨
        translate k'.mem k'.cr3 u ≠ none ∧ page u < page 0xffffff8000200000 := by
  induction n generalizing k v loop with
  | zero =>
    obtain ⟨loop, rfl⟩ : ∃ i, loop = i + 1 := ⟨loop - 1, by omega⟩
    refine ⟨k, ?_, rfl, hT, fun _ => Or.inl rfl⟩
    rw [lengthenPages, if_neg (by omega)]
  | succ n ih =>
    obtain ⟨loop, rfl⟩ : ∃ i, loop = i + 1 := ⟨loop - 1, by omega⟩
    have hind := tableIndices_bitmap (show 0xffffff8000000000 ≤ v by omega) (by omega)
    have hT₁ := hT.with_pmm k.pmm.pmmAllocPage.1
    have hmmap := @mmap_present { k with pmm := k.pmm.pmmAllocPage.1 } R k.cr3 t v
      k.currentPml4tPtr fuel k.pmm.pmmAllocPage.2 (k.regions.flags c) hT₁.accessible.registered
      hT.root
      hT.accesses_current (by rw [hind]; exact ht)
    have hred : Redirect (entry k.mem) (entry (writeEntry k.mem t (getIndex v 0)
        (k.pmm.pmmAllocPage.2 ||| k.regions.flags c ||| 7))) t (getIndex v 0) :=
      redirect_writeEntry
    have hsame := hred.same hT.forest hT.root rfl ht
    have hT₂ := hT₁.writeEntry hT.root (by rw [hind]; exact ht)
      (k.pmm.pmmAllocPage.2 ||| k.regions.flags c ||| 7) (v := v) fun a w ha hw he => by
        obtain ⟨L, hL⟩ := hT.lists
        obtain ⟨w', hw', hw0, -⟩ := hT.accessible a ha
        obtain rfl : w = w' := Option.some.inj (hw.symm.trans hw')
        obtain ⟨i, hi, rfl⟩ := hL.exists_node hw hw0
        exact hunused v hv (by omega) ⟨i, hi, he⟩
    obtain ⟨k', hk', hpmm, hT', hkept⟩ := @ih { k with
        mem := writeEntry k.mem t (getIndex v 0)
          (k.pmm.pmmAllocPage.2 ||| k.regions.flags c ||| 7)
        pmm := k.pmm.pmmAllocPage.1 } (v + 0x1000) loop hT₂
      ((hsame k.cr3 _ hT.root (by simp)).trans ht) hunused hend hflags (by omega) (by omega)
      (by omega)
    refine ⟨k', ?_, hpmm, hT', fun u => ?_⟩
    · rw [lengthenPages, if_pos (by omega), if_neg (by simp [hflags])]
      simp only [hmmap, Option.bind_eq_bind, Option.bind_some, if_true]
      rw [Nat.mod_eq_of_lt (by omega)]
      exact hk'
    · have ht' : follow (entry k.mem) k.cr3 (tableIndices v) = some t := by rw [hind]; exact ht
      rcases hkept u with hsame' | hnew
      · by_cases hpage : page u = page v
        · refine Or.inr ⟨?_, ?_⟩
          · rw [hsame', translate_congr hpage]
            show translate _ k.cr3 v ≠ none
            rw [translate, indices_eq, hred.follow_self hT.forest hT.root rfl ht',
              entry_writeEntry_self, if_pos (lor_seven_mod_two _)]
            exact Option.some_ne_none _
          · rw [hpage]
            simp only [page]
            omega
        · rw [hsame']
          exact Or.inl (hred.follow_of_ne hT.forest hT.root rfl ht' hT.root rfl fun he => hpage
            (indices_eq_iff.1 (he.trans (indices_eq v).symm)))
      · exact Or.inr hnew

/-- `kernel_pmm_obj` has got its full length, and the allocator is `pmm`. -/
def extended (k : Kernel) (pmm : Pmm) : Kernel :=
  { k with
    pmm := pmm
    regions := { k.regions with
      length := Function.update k.regions.length kernelPmmObj 0x118000 } }

/-- `vmm_lengthen` takes 279 frames for the rest of the bitmap. -/
theorem BeforePmm.vmmLengthen {fuel : ℕ} (h : k.BeforePmm) (pmm : Pmm) (hfuel : 280 ≤ fuel) :
    ∃ k', vmmLengthen fuel { k with pmm := pmm } 0xffffff80000e8000 0x117000 = some (k', true) ∧
      k'.pmm = pmm.afterFrames 279 ∧ (k.extended pmm).Steps k' ∧
      k'.Tables (fun r => r = k.cr3) (fun _ => False) ∧
      ∀ u, translate k'.mem k'.cr3 u = translate k.mem k.cr3 u ∨
        translate k'.mem k'.cr3 u ≠ none ∧ page u < page 0xffffff8000200000 := by
  obtain ⟨t, ht⟩ := h.table
  obtain ⟨fuel, rfl⟩ : ∃ i, fuel = i + 1 := ⟨fuel - 1, by omega⟩
  have hbase := h.base
  have hlength := h.length
  have hT := @Tables.with_regions { k with pmm := pmm } _ _
    { k.regions with length := Function.update k.regions.length kernelPmmObj 0x118000 }
    (h.tables.with_pmm pmm) (by
      simp [windowTop, Function.update_of_ne (show kernelPageTblsObj ≠ kernelPmmObj by decide)])
  obtain ⟨k', hk', hpmm, hT', hkept⟩ := @lengthenPages_present _ _ _ kernelPmmObj t
    0xffffff80000e9000 fuel 279 (fuel + 1) hT ht h.unused (by simp [hbase]) h.flags le_rfl
    (by decide) (by omega)
  refine ⟨k', ?_, hpmm, steps_lengthenPages _ _ hk', hT', hkept⟩
  have hinc : pageAlignInt 0x117000 = 0x117000 := by decide
  rw [Kernel.vmmLengthen, hinc]
  simp only [h.found, Option.bind_eq_bind, Option.bind_some, hbase, hlength]
  rw [if_pos]
  · exact hk'
  · cases hnext : k.regions.next kernelPmmObj with
    | none => rfl
    | some d =>
      have := h.room d hnext
      simp only [decide_eq_true_eq]
      omega

/-! ### The bitmap after `pmm_init` -/

instance (stop x : ℕ) : Decidable (Pmm.KernelSlot stop x) :=
  decidable_of_iff (∃ j < (stop - 0x100000 + 0xfff) / 0x1000, 0x100000 + 0x1000 * j < stop ∧
    x = Pmm.slotOf (0x100000 + 0x1000 * j)) ⟨fun ⟨j, _, h⟩ => ⟨j, h⟩,
      fun ⟨j, h⟩ => ⟨j, by omega, h⟩⟩

/-- Slot `x` is set when `vmm_lengthen` is called: it is marked for the kernel, or it is behind the
first page of the bitmap and happens to be set. -/
def EarlyTaken (k : Kernel) (kernelByteSize x : ℕ) : Prop :=
  if x < 512 * 32 then Pmm.KernelSlot (kernelEnd kernelByteSize) x else k.pmm.slotTaken x = true

instance (k : Kernel) (kernelByteSize x : ℕ) : Decidable (k.EarlyTaken kernelByteSize x) :=
  inferInstanceAs (Decidable (if x < 512 * 32 then
    Pmm.KernelSlot (kernelEnd kernelByteSize) x else k.pmm.slotTaken x = true))

/-- Slot `n` is not free after `pmm_init`: it was set, or it is one of the 279 lowest that were
not. -/
def Covered (k : Kernel) (kernelByteSize n : ℕ) : Prop :=
  k.EarlyTaken kernelByteSize n ∨
    ((Finset.range n).filter fun i => ¬ k.EarlyTaken kernelByteSize i).card < 279

instance (k : Kernel) (kernelByteSize n : ℕ) : Decidable (k.Covered kernelByteSize n) :=
  inferInstanceAs (Decidable (_ ∨ _))

/-- The page at `p` overlaps a reserved entry below the end of the range of the bitmap, or the
kernel with the two pages behind it. -/
def Protected (reserved : MmapRegionList) (kernelByteSize p : ℕ) : Prop :=
  (∃ i < reserved.length,
    (reserved.entries i).addr + (reserved.entries i).len ≤ 0x118000 * 8 * 0x1000 ∧
    Overlap p 0x1000 (reserved.entries i).addr (reserved.entries i).len) ∨
  Overlap p 0x1000 0x100000 (kernelByteSize + 0x2000)

variable {reserved : MmapRegionList} {kernelByteSize fuel : ℕ}

theorem slotTaken_cleared (bitmap : ℕ → BitVec 64) (x : ℕ) :
    (Pmm.cleared bitmap).slotTaken x = true ↔
      ¬ x < 512 * 32 ∧ Pmm.taken (bitmap (x / 32)) (x % 32) := by
  unfold Pmm.slotTaken Pmm.cleared
  simp only
  by_cases hx : x < 512 * 32
  · rw [if_pos (by omega)]
    simp [hx, Pmm.taken]
  · rw [if_neg (by omega)]
    simp [hx]

/-- The bitmap that `vmm_lengthen` finds. -/
theorem slotTaken_early {m : Pmm} (hstop : kernelEnd kernelByteSize ≤ 0x8000000)
    (hm : ∀ x, m.slotTaken x = true ↔ (Pmm.cleared k.pmm.bitmap).slotTaken x = true ∨
      ∃ j, 0x100000 + 0x1000 * j < kernelEnd kernelByteSize ∧
        x = Pmm.slotOf (0x100000 + 0x1000 * j)) (x : ℕ) :
    m.slotTaken x = true ↔ k.EarlyTaken kernelByteSize x := by
  rw [hm, slotTaken_cleared, EarlyTaken]
  split_ifs with hx
  · simp [hx, Pmm.KernelSlot]
  · simp only [hx, not_false_eq_true, true_and, Pmm.slotTaken, or_iff_left_iff_imp]
    rintro ⟨j, hj, rfl⟩
    rw [Pmm.slotOf_eq] at hx
    omega

/-- `pmm_init` returns what `vmm_lengthen` returns after the marking loops. -/
theorem pmmInit_eq {k' : Kernel} {m m' : Pmm}
    (hres : Pmm.markReserved fuel reserved fuel (Pmm.cleared k.pmm.bitmap) 0 = some m)
    (hm : Pmm.markWhile (fun p => decide (p < kernelEnd kernelByteSize)) fuel m 0x100000 = some m')
    (hk : vmmLengthen fuel { k with pmm := m' } 0xffffff80000e8000 0x117000 = some (k', true)) :
    pmmInit fuel k reserved kernelByteSize = some k' := by
  unfold pmmInit
  rw [hres, Option.bind_eq_bind, Option.bind_some, hm, Option.bind_eq_bind, Option.bind_some, hk]
  rfl

/-- **What `pmm_init` does.**  It returns unless a reserved entry wraps around, the loop over the
entries does not stop, or the kernel is too large.  Then the slots that are taken are those that
are covered. -/
theorem pmmInit_spec (h : k.BeforePmm) (hfuel : 0x10000 ≤ fuel) :
    (Pmm.Scanned reserved ∧ kernelEnd kernelByteSize ≤ 0x8000000 ∧
      ∃ k', pmmInit fuel k reserved kernelByteSize = some k' ∧ k'.pmm.rows = 0x23000 ∧
        ∀ n < 0x460000, k'.pmm.slotTaken n = true ↔ k.Covered kernelByteSize n) ∨
    (¬ (Pmm.Scanned reserved ∧ kernelEnd kernelByteSize ≤ 0x8000000) ∧
      pmmInit fuel k reserved kernelByteSize = none) := by
  obtain ⟨fuel, rfl⟩ : ∃ i, fuel = i + 1 := ⟨fuel - 1, by omega⟩
  have hlen := reserved.length_le
  rcases @Pmm.markReserved_eq (Pmm.cleared k.pmm.bitmap) reserved (fuel + 1) fuel 0 (Nat.zero_le _)
    (fun j hj => absurd hj (Nat.not_lt_zero j)) (by omega) with ⟨hscan, hres⟩ | ⟨hscan, hres⟩
  · by_cases hstop : kernelEnd kernelByteSize ≤ 0x8000000
    · obtain ⟨m, hm, hrows, htaken⟩ := @Pmm.markWhile_pages (Pmm.cleared k.pmm.bitmap) 0x100000
        (kernelEnd kernelByteSize) fuel hstop (by omega)
      obtain ⟨k', hk', hpmm, -⟩ := h.vmmLengthen m (show 280 ≤ fuel + 1 by omega)
      have hearly := @slotTaken_early k kernelByteSize m hstop htaken
      have hrows' : m.rows = 0x23000 := by
        rw [hrows]
        show 0x118000 * 8 / 64 = 0x23000
        norm_num
      refine Or.inl ⟨hscan, hstop, k', ?_, ?_, fun n hn => ?_⟩
      · exact pmmInit_eq hres hm hk'
      · rw [hpmm, Pmm.afterFrames_rows, hrows']
      · rw [hpmm, Pmm.slotTaken_afterFrames _ _ (by omega), Covered, hearly, Pmm.freeBelow]
        simp only [← Bool.not_eq_true, hearly]
    · refine Or.inr ⟨fun hboth => hstop hboth.2, ?_⟩
      simp only [pmmInit, hres, Option.bind_eq_bind, Option.bind_some,
        Pmm.markWhile_fault (show 0x8000000 < kernelEnd kernelByteSize by omega)
          (show 0x100000 ≤ 0x8000000 by decide) (by decide), Option.bind_none]
  · refine Or.inr ⟨fun hboth => hscan hboth.1, ?_⟩
    simp only [pmmInit, hres, Option.bind_eq_bind, Option.bind_none]

/-- **`pmm_init` protects memory only by chance.**  No later call of `pmm_alloc_page` returns a
protected page if and only if `pmm_init` does not return or every slot of a protected page is
covered. -/
theorem pmm_init_protects (k : Kernel) (reserved : MmapRegionList) (kernelByteSize fuel : ℕ)
    (h : k.BeforePmm) (hfuel : 0x10000 ≤ fuel) :
    ((∃ k', pmmInit fuel k reserved kernelByteSize = some k') ↔
      Pmm.Scanned reserved ∧ kernelEnd kernelByteSize ≤ 0x8000000) ∧
    ((∀ k', pmmInit fuel k reserved kernelByteSize = some k' →
        ∀ N, ∀ p ∈ k'.pmm.nextFrames N, p ≠ 0 → ¬ Protected reserved kernelByteSize p) ↔
      ¬ (Pmm.Scanned reserved ∧ kernelEnd kernelByteSize ≤ 0x8000000) ∨
      ∀ n < 0x460000, Pmm.slotAddr n ≠ 0 → Protected reserved kernelByteSize (Pmm.slotAddr n) →
        k.Covered kernelByteSize n) := by
  rcases @pmmInit_spec k reserved kernelByteSize fuel h hfuel with
    ⟨hscan, hstop, k', hk', hrows, htaken⟩ | ⟨hnot, hnone⟩
  · refine ⟨iff_of_true ⟨k', hk'⟩ ⟨hscan, hstop⟩, ?_⟩
    rw [or_iff_right (not_not.2 ⟨hscan, hstop⟩)]
    constructor
    · intro hsafe n hn hn0 hprot
      by_contra hcov
      have hfree : k'.pmm.slotTaken n = false := by
        rw [Bool.eq_false_iff, Ne, htaken n hn]
        exact hcov
      obtain ⟨N, hN⟩ := Pmm.exists_mem_nextFrames (by rw [hrows]; omega) hfree
      exact hsafe k' hk' N _ hN hn0 hprot
    · intro hcov k'' hk'' N p hp hp0 hprot
      obtain rfl : k' = k'' := Option.some.inj (hk'.symm.trans hk'')
      obtain ⟨n, hn, hfree, rfl⟩ := Pmm.mem_nextFrames hp hp0
      rw [hrows] at hn
      rw [(htaken n (by omega)).2 (hcov n (by omega) hp0 hprot)] at hfree
      cases hfree
  · refine ⟨iff_of_false (by simp [hnone]) hnot, iff_of_true (fun k' hk' => ?_) (Or.inl hnot)⟩
    rw [hnone] at hk'
    cases hk'

theorem boot_beforePmm : boot.BeforePmm := by
  refine ⟨boot_tables (fun r => Iff.rfl) _, ⟨0x114000, by decide +kernel⟩, fun v hlo hhi => ?_,
    by decide +kernel, rfl, rfl, rfl, fun d hd => ?_⟩
  · have hall : ∀ i < boot.map.count, page (boot.map.ptVaddr i) < 0xff80000e9 := by decide +kernel
    rintro ⟨i, hi, he⟩
    have := hall i hi
    rw [he, page] at this
    omega
  · obtain rfl : kernelPageTblsObj = d := Option.some.inj hd
    decide

/-- A memory map with one reserved page, just behind the frames that `pmm_init` takes. -/
def reservedPage : MmapRegionList where
  length := 1
  entries i := if i = 0 then ⟨0x137000, 0x1000, by decide, by decide⟩
    else ⟨0, 0, by decide, by decide⟩
  length_le := by decide
  zero i hi _ := by simp [show i ≠ 0 by omega]

theorem scanned_reservedPage : Pmm.Scanned reservedPage := by
  refine ⟨fun i hi => ?_, by decide⟩
  obtain rfl : i = 0 := Nat.lt_one_iff.1 hi
  decide

/-- The 33 pages of a kernel of 31 pages are marked at the slots 128 to 159. -/
theorem earlyTaken_boot {x : ℕ} (hx : x < 512 * 32) (h : boot.EarlyTaken 0x1f000 x) :
    128 ≤ x ∧ x < 160 := by
  rw [EarlyTaken, if_pos hx] at h
  obtain ⟨j, hj, rfl⟩ := h
  rw [show kernelEnd 0x1f000 = 0x121000 by decide] at hj
  rw [Pmm.slotOf_eq]
  omega

theorem not_covered_boot : ¬ boot.Covered 0x1f000 311 := by
  rintro (h | h)
  · exact absurd (earlyTaken_boot (by decide) h).2 (by decide)
  · have hsub : Finset.range 128 ∪ Finset.Ico 160 311 ⊆
        (Finset.range 311).filter fun i => ¬ boot.EarlyTaken 0x1f000 i := by
      intro i hi
      simp only [Finset.mem_union, Finset.mem_range, Finset.mem_Ico, Finset.mem_filter] at hi ⊢
      refine ⟨by omega, fun he => ?_⟩
      have := earlyTaken_boot (by omega) he
      omega
    have hcard : (Finset.range 128 ∪ Finset.Ico 160 311).card = 279 := by
      rw [Finset.card_union_of_disjoint, Finset.card_range, Nat.card_Ico]
      rw [Finset.disjoint_left]
      intro i hi hi'
      simp only [Finset.mem_range, Finset.mem_Ico] at hi hi'
      omega
    exact absurd (Finset.card_le_card hsub) (by omega)

/-- With a kernel of 31 pages, `pmm_init` returns. -/
theorem pmm_init_protects_boot :
    (∃ k', pmmInit 0x10000 boot reservedPage 0x1f000 = some k') ∧
    ((∀ k', pmmInit 0x10000 boot reservedPage 0x1f000 = some k' →
        ∀ N, ∀ p ∈ k'.pmm.nextFrames N, p ≠ 0 → ¬ Protected reservedPage 0x1f000 p) ↔
      ¬ (Pmm.Scanned reservedPage ∧ kernelEnd 0x1f000 ≤ 0x8000000) ∨
      ∀ n < 0x460000, Pmm.slotAddr n ≠ 0 → Protected reservedPage 0x1f000 (Pmm.slotAddr n) →
        boot.Covered 0x1f000 n) := by
  obtain ⟨hret, hiff⟩ := pmm_init_protects boot reservedPage 0x1f000 0x10000 boot_beforePmm le_rfl
  exact ⟨hret.2 ⟨scanned_reservedPage, by decide⟩, hiff⟩

/-- Some call of `pmm_alloc_page` then returns the reserved page. -/
theorem reserved_page_returned :
    ∃ k', pmmInit 0x10000 boot reservedPage 0x1f000 = some k' ∧
      Overlap 0x137000 0x1000 (reservedPage.entries 0).addr (reservedPage.entries 0).len ∧
      (reservedPage.entries 0).addr + (reservedPage.entries 0).len ≤ k'.pmm.numPages * 0x1000 ∧
      ∃ N, 0x137000 ∈ k'.pmm.nextFrames N := by
  rcases @pmmInit_spec boot reservedPage 0x1f000 0x10000 boot_beforePmm le_rfl with
    ⟨-, -, k', hk', hrows, htaken⟩ | ⟨hnot, -⟩
  · have hfree : k'.pmm.slotTaken 311 = false := by
      rw [Bool.eq_false_iff, Ne, htaken 311 (by decide)]
      exact not_covered_boot
    refine ⟨k', hk', by decide, ?_, Pmm.exists_mem_nextFrames (by rw [hrows]; decide) hfree⟩
    have : 0x23000 ≤ k'.pmm.numPages / 64 := hrows.ge
    show 0x137000 + 0x1000 ≤ _
    omega
  · exact absurd ⟨scanned_reservedPage, by decide⟩ hnot

end Kernel

end TitanOS
