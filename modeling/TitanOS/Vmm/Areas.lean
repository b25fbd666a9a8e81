import TitanOS.Vmm.PmmInit

/-!
# The areas of the kernel's address space

Behind the kernel image lie, from below, the VGA buffer, the area for device memory, the bitmap of
the physical allocator, the page of the heap, the kernel stacks and the window of page tables.
Device memory, stacks and window are handed out by pointers that only move, upwards from
`VGA_TEXT_BUFFER_BASE + PAGE_SIZE`, downwards from `KERNEL_STACK_START` and upwards from
`KERNEL_PAGE_TBL_START`, and nothing but `vmm_alloc` stands between them.

`alloc_mmio` does not look at the answer of `vmm_alloc`, and `vmm_alloc` does not turn down a
range that starts before the bitmap and ends inside of it.  So what keeps the areas apart is that
the requests for device memory add up to at most the room before the bitmap.  The stacks are kept
out of the page of the heap by `vmm_alloc`, once `pmm_init` has extended `kernel_pmm_obj`.
-/

namespace TitanOS

open Walk Linked Run

/-- The bytes of the pages that `n` bytes need. -/
def roundUp (n : ℕ) : ℕ := (n + 0xfff) / 0x1000 * 0x1000

/-- The kernel, the static variables of `get_mmio_ptr` and `alloc_kernel_stack`, and the ranges that
have been reported as allocated. -/
structure Areas where
  kernel : Kernel
  mmioRegion : ℕ
  kernelStackPtr : ℕ
  ranges : List (ℕ × ℕ)

/-- The calls of a run.  `tarInit` is the request of `tar_init` for a module of the given size. -/
inductive AreaOp
  | allocMmio (physRegionStart length extraFlags : ℕ)
  | tarInit (modStart length : ℕ)
  | allocKernelStack
  | allocPgTable
  | pmmInit (reserved : MmapRegionList) (kernelByteSize : ℕ)

namespace Areas

/-- `get_mmio_ptr`: the state, and the pointer it returns. -/
def getMmioPtr (s : Areas) (length : ℕ) : Areas × ℕ :=
  let length := pageAlign length
  let mmioRegion := (s.mmioRegion + length) % 2 ^ 64
  ({ s with mmioRegion := mmioRegion }, (((mmioRegion : ℤ) - length) % 2 ^ 64).toNat)

/-- The range `r` is reported. -/
def report (s : Areas) (k : Kernel) (r : ℕ × ℕ) : Areas :=
  { s with kernel := k, ranges := r :: s.ranges }

/-- `alloc_mmio`. -/
def allocMmio (fuel : ℕ) (s : Areas) (physRegionStart length extraFlags : ℕ) : Option Areas := do
  let (s, mmioRegion) := s.getMmioPtr length
  let (k, _) ← s.kernel.vmmAlloc fuel mmioRegion length (16 ||| extraFlags) physRegionStart
  some (s.report k (mmioRegion, roundUp length))

/-- The request of `tar_init`. -/
def tarInit (fuel : ℕ) (s : Areas) (modStart length : ℕ) : Option Areas := do
  let (s, mmioRegion) := s.getMmioPtr length
  let (k, tarFile) ← s.kernel.vmmAlloc fuel mmioRegion length 3 modStart
  some (if tarFile = 0 then { s with kernel := k } else s.report k (tarFile, roundUp length))

/-- `alloc_kernel_stack`.  A kernel panic never returns. -/
def allocKernelStack (fuel : ℕ) (s : Areas) : Option Areas := do
  let kernelStackPtr := (((s.kernelStackPtr : ℤ) - 0x3000) % 2 ^ 64).toNat
  let (k, p) ← s.kernel.vmmAlloc fuel kernelStackPtr 0x2000 1 0
  if p = 0 then none
  else
    let k ← k.clearPage kernelStackPtr
    let k ← k.clearPage (kernelStackPtr + 0x1000)
    some ({ s with kernelStackPtr := kernelStackPtr }.report k (kernelStackPtr, 0x2000))

/-- The page at which `alloc_pg_table` maps the table. -/
def tablePage (k : Kernel) : ℕ :=
  match k.map.getFreedPgTbl with
  | some node => k.map.ptVaddr node
  | none => k.growWindow.windowTop

/-- `alloc_pg_table`. -/
def allocPgTable (fuel : ℕ) (s : Areas) : Option Areas := do
  let (k, t) ← s.kernel.allocPgTable (Kernel.mmap fuel)
  some (if t = 0 then { s with kernel := k } else s.report k (tablePage s.kernel, 0x1000))

/-- One call. -/
def step (fuel : ℕ) (s : Areas) : AreaOp → Option Areas
  | .allocMmio physRegionStart length extraFlags => s.allocMmio fuel physRegionStart length extraFlags
  | .tarInit modStart length => s.tarInit fuel modStart length
  | .allocKernelStack => s.allocKernelStack fuel
  | .allocPgTable => s.allocPgTable fuel
  | .pmmInit reserved kernelByteSize =>
    (s.kernel.pmmInit fuel reserved kernelByteSize).map fun k => { s with kernel := k }

/-- The state before the first request. -/
def start (k : Kernel) : Areas := ⟨k, 0xffffff80000c1000, 0xffffff80002fe000, []⟩

/-- The ranges are disjoint from each other, from the bitmap and from the page of the heap. -/
def Apart (s : Areas) : Prop :=
  s.ranges.Pairwise (fun a b => ¬ Overlap a.1 a.2 b.1 b.2) ∧
    ∀ r ∈ s.ranges, ¬ Overlap r.1 r.2 0xffffff80000e8000 0x118000 ∧
      ¬ Overlap r.1 r.2 0xffffff8000200000 0x1000

instance (s : Areas) : Decidable s.Apart := inferInstanceAs (Decidable (_ ∧ _))

end Areas

/-! ### The window of page tables -/

namespace Pmm

variable {m m' : Pmm}

/-- The number of free slots. -/
def freeSlots (m : Pmm) : ℕ := (m.freeBelow (32 * m.rows)).card

theorem freeSlots_le (m : Pmm) : m.freeSlots ≤ 32 * m.rows := by
  refine (Finset.card_filter_le _ _).trans ?_
  rw [Finset.card_range]

theorem freeSlots_mono (h : m.Le m') (hrows : m'.rows = m.rows) : m'.freeSlots ≤ m.freeSlots := by
  rw [freeSlots, freeSlots, hrows]
  refine Finset.card_le_card fun n hn => ?_
  simp only [freeBelow, Finset.mem_filter] at hn ⊢
  refine ⟨hn.1, Bool.eq_false_iff.2 fun ht => ?_⟩
  rw [h n ht] at hn
  exact Bool.noConfusion hn.2

/-- A page that is found was a free slot. -/
theorem freeSlots_pmmAllocPage (h : m.pmmAllocPage.2 ≠ 0) :
    m.pmmAllocPage.1.freeSlots + 1 ≤ m.freeSlots := by
  rw [pmmAllocPage_eq] at h ⊢
  cases hf : m.firstFree with
  | none =>
    rw [hf] at h
    exact absurd rfl h
  | some n =>
    obtain ⟨hfree, hlt, -⟩ := firstFree_eq_some.1 hf
    have hmem : n ∈ m.freeBelow (32 * m.rows) := by
      simp only [freeBelow, Finset.mem_filter, Finset.mem_range]
      exact ⟨hlt, hfree⟩
    show (m.mark n).freeSlots + 1 ≤ m.freeSlots
    rw [freeSlots, mark_rows, freeBelow_mark, Finset.card_erase_of_mem hmem, freeSlots]
    have := Finset.card_pos.2 ⟨n, hmem⟩
    omega

theorem markWhile_rows {go : ℕ → Bool} {n p : ℕ} (h : markWhile go n m p = some m') :
    m'.rows = m.rows := by
  induction n generalizing m p with
  | zero => cases h
  | succ n ih =>
    rw [markWhile] at h
    split_ifs at h
    · obtain ⟨m₁, hm₁, h⟩ := Option.bind_eq_some_iff.1 h
      rw [markEarly] at hm₁
      split_ifs at hm₁
      obtain rfl := Option.some.inj hm₁
      exact (ih h).trans (m.pmmAllocSpecificPage_rows p)
    · rw [Option.some.inj h]

theorem markReserved_rows {r : MmapRegionList} {fuel n i : ℕ}
    (h : markReserved fuel r n m i = some m') : m'.rows = m.rows := by
  induction n generalizing m i with
  | zero => cases h
  | succ n ih =>
    rw [markReserved] at h
    split_ifs at h
    · obtain ⟨m₁, hm₁, h⟩ := Option.bind_eq_some_iff.1 h
      exact (ih h).trans (markWhile_rows hm₁)
    · rw [Option.some.inj h]

end Pmm

namespace Kernel

variable {k k' : Kernel} {s n c : ℕ}

/-- The length of `kernel_page_tbls_obj`. -/
def windowLength (k : Kernel) : ℕ := k.regions.length kernelPageTblsObj

/-- The window grows by no more pages than the allocator gives. -/
structure Widens (k k' : Kernel) : Prop where
  rows : k'.pmm.rows = k.pmm.rows
  tables : k'.map.tables = k.map.tables
  grows : k.windowLength ≤ k'.windowLength
  spent : k'.windowLength + 0x1000 * k'.pmm.freeSlots ≤ k.windowLength + 0x1000 * k.pmm.freeSlots

theorem Widens.refl (k : Kernel) : k.Widens k := ⟨rfl, rfl, le_rfl, le_rfl⟩

theorem Widens.trans {k₁ : Kernel} (h : k.Widens k₁) (h' : k₁.Widens k') : k.Widens k' :=
  ⟨h'.rows.trans h.rows, h'.tables.trans h.tables, h.grows.trans h'.grows, h'.spent.trans h.spent⟩

theorem tables_of_pgTblInsert {h : Hashmap} {node : ℕ} {r : Hashmap × Bool}
    (hr : h.pgTblInsert node = some r) : r.1.tables = h.tables := by
  unfold Hashmap.pgTblInsert at hr
  simp only at hr
  split at hr
  · obtain rfl := Option.some.inj hr
    rfl
  · split at hr
    · cases hr
    · obtain rfl := Option.some.inj hr
      rfl
    · obtain rfl := Option.some.inj hr
      rfl

theorem windowLength_newTable (pmm : Pmm) (paddr : ℕ) (h : k.windowLength + 0x1000 < 2 ^ 64) :
    (k.newTable pmm paddr).windowLength = k.windowLength + 0x1000 := by
  show Function.update k.regions.length kernelPageTblsObj _ kernelPageTblsObj = _
  rw [Function.update_self]
  exact Nat.mod_eq_of_lt h

theorem steps_clearPage {v : ℕ} (h : k.clearPage v = some k') : k.Steps k' := by
  obtain ⟨f, -, rfl⟩ := Option.map_eq_some_iff.1 h
  exact (Step.mem k _).steps

theorem getFreedPgTbl_of_tables {h : Hashmap} (ht : h.tables = none) : h.getFreedPgTbl = none := by
  rw [Hashmap.getFreedPgTbl, ht]

/-- `alloc_pg_table` without freed tables begins with a new one. -/
theorem steps_newTable {fuel t : ℕ} (ht : k.map.tables = none) (ht0 : t ≠ 0)
    (h : k.allocPgTable (mmap fuel) = some (k', t)) : k.pmm.pmmAllocPage.2 ≠ 0 ∧
      (k.newTable k.pmm.pmmAllocPage.1 k.pmm.pmmAllocPage.2).Steps k' := by
  simp only [allocPgTable, getFreedPgTbl_of_tables ht] at h
  split at h
  next =>
    obtain ⟨-, rfl⟩ := Prod.mk.inj (Option.some.inj h)
    exact absurd rfl ht0
  next hpage =>
    refine ⟨hpage, ?_⟩
    split at h
    next => cases h
    next hcall =>
      obtain ⟨-, rfl⟩ := Prod.mk.inj (Option.some.inj h)
      exact absurd rfl ht0
    next hcall => exact (steps_mmap _ hcall).trans (steps_registerTable h)

theorem Step.widens (h : k.Step k')
    (hsum : k.windowLength + 0x1000 * k.pmm.freeSlots < 2 ^ 64) : k.Widens k' := by
  have hframe : ∀ pmm, k.pmm.Le pmm → pmm.rows = k.pmm.rows →
      k.windowLength + 0x1000 * pmm.freeSlots ≤ k.windowLength + 0x1000 * k.pmm.freeSlots := by
    intro pmm hle hrows
    have := Pmm.freeSlots_mono hle hrows
    omega
  have hpage := hframe _ k.pmm.le_pmmAllocPage (Pmm.pmmAllocPage_rows k.pmm)
  cases h with
  | mem mem => exact ⟨rfl, rfl, le_rfl, le_rfl⟩
  | insert h => exact ⟨rfl, tables_of_pgTblInsert h, le_rfl, le_rfl⟩
  | table hfree hpage =>
    have hspent := Pmm.freeSlots_pmmAllocPage hpage
    have hlen := windowLength_newTable k.pmm.pmmAllocPage.1 k.pmm.pmmAllocPage.2
      (show k.windowLength + 0x1000 < 2 ^ 64 by omega)
    refine ⟨Pmm.pmmAllocPage_rows k.pmm, rfl, by omega, ?_⟩
    rw [hlen]
    show _ + 0x1000 * k.pmm.pmmAllocPage.1.freeSlots ≤ _
    omega
  | noTable => exact ⟨Pmm.pmmAllocPage_rows k.pmm, rfl, le_rfl, hpage⟩
  | frame => exact ⟨Pmm.pmmAllocPage_rows k.pmm, rfl, le_rfl, hpage⟩
  | specificFrame p =>
    exact ⟨Pmm.pmmAllocSpecificPage_rows k.pmm p, rfl, le_rfl,
      hframe _ (k.pmm.le_pmmAllocSpecificPage p) (Pmm.pmmAllocSpecificPage_rows k.pmm p)⟩

theorem Steps.widens (h : k.Steps k')
    (hsum : k.windowLength + 0x1000 * k.pmm.freeSlots < 2 ^ 64) : k.Widens k' := by
  induction h with
  | refl => exact .refl k
  | tail _ hstep ih => exact ih.trans (hstep.widens (ih.spent.trans_lt hsum))

/-! ### The region list -/

/-- `pmm_init` has extended `kernel_pmm_obj`. -/
def Extended (k : Kernel) : Prop := k.regions.length kernelPmmObj = 0x118000

instance (k : Kernel) : Decidable k.Extended := inferInstanceAs (Decidable (_ = _))

/-- The pages by which the window can still grow. -/
def spare (k : Kernel) : ℕ := k.pmm.freeSlots + if k.Extended then 0 else 0x464000

/-- The region list is sorted, the bitmap and the window are on it at their places, and no other
region starts between the bitmap and the lowest stack. -/
structure Grounds (k : Kernel) : Prop where
  listed : k.Listed k.vmObjects
  head : k.regions.base k.currentVmm = 0
  bitmap : kernelPmmObj ∈ k.vmObjects
  bitmap_base : k.regions.base kernelPmmObj = 0xffffff80000e8000
  bitmap_length : k.regions.length kernelPmmObj = 0x1000 ∨ k.Extended
  tables : kernelPageTblsObj ∈ k.vmObjects
  tables_base : k.regions.base kernelPageTblsObj = 0xffffff8000300000
  gap : ∀ c ∈ k.vmObjects, c ≠ kernelPmmObj →
    k.regions.base c < 0xffffff80000e8000 ∨ 0xffffff8000202000 ≤ k.regions.base c
  unfreed : k.map.tables = none
  window : 0x6000 ≤ k.windowLength
  room : k.windowLength + 0x1000 * k.spare < 0x7fffcff000

theorem Grounds.sum_lt (h : k.Grounds) :
    k.windowLength + 0x1000 * k.pmm.freeSlots < 2 ^ 64 := by
  have := h.room
  unfold spare at this
  omega

/-- The assignments of `mmap` keep the list. -/
theorem Grounds.steps (h : k.Grounds) (hs : k.Steps k') :
    k'.Grounds ∧ k.windowLength ≤ k'.windowLength ∧ (k'.Extended ↔ k.Extended) := by
  have hk := hs.keeps
  have hw := hs.widens h.sum_lt
  have hext : k'.Extended ↔ k.Extended := by
    rw [Extended, Extended, hk.length _ (by decide)]
  have hch := h.listed.toChained.keeps hk
  refine ⟨⟨?_, ?_, ?_, ?_, ?_, ?_, ?_, ?_, ?_, ?_, ?_⟩, hw.grows, hext⟩
  · rw [hch.vmObjects_eq]
    refine ⟨hch, ?_⟩
    rw [hk.base]
    exact h.listed.sorted
  · rw [hk.base, hk.currentVmm]
    exact h.head
  · rw [hch.vmObjects_eq]
    exact h.bitmap
  · rw [hk.base]
    exact h.bitmap_base
  · rw [hext, hk.length _ (by decide)]
    exact h.bitmap_length
  · rw [hch.vmObjects_eq]
    exact h.tables
  · rw [hk.base]
    exact h.tables_base
  · rw [hch.vmObjects_eq, hk.base]
    exact h.gap
  · rw [hw.tables]
    exact h.unfreed
  · exact h.window.trans hw.grows
  · have hroom := h.room
    have hspent := hw.spent
    simp only [spare, hext] at hroom ⊢
    omega

/-- The region behind the bitmap. -/
theorem Grounds.behind (h : k.Grounds) : ∃ l₁ l₂ d,
    k.vmObjects = l₁ ++ kernelPmmObj :: d :: l₂ ∧ 0xffffff8000202000 ≤ k.regions.base d := by
  obtain ⟨l₁, l₂, hl⟩ := List.append_of_mem h.bitmap
  have hsorted := h.listed.sorted
  have hnodup := h.listed.path.nodup
  have htables := h.tables
  rw [hl] at hsorted hnodup htables
  have hbase := h.bitmap_base
  -- the window is behind the bitmap
  have hbehind : kernelPageTblsObj ∈ l₂ := by
    simp only [List.mem_append, List.mem_cons] at htables
    rcases htables with hmem | hmem | hmem
    · have := (List.pairwise_append.1 hsorted).2.2 _ hmem kernelPmmObj (by simp)
      rw [h.tables_base, hbase] at this
      omega
    · exact absurd hmem (by decide)
    · exact hmem
  cases l₂ with
  | nil => cases hbehind
  | cons d l₂ =>
    have hd : d ∈ k.vmObjects := by
      rw [hl]
      simp
    have hne : d ≠ kernelPmmObj := by
      rintro rfl
      rw [List.nodup_append] at hnodup
      simp at hnodup
    have hle : 0xffffff80000e8000 ≤ k.regions.base d := by
      have := (List.pairwise_cons.1 (List.pairwise_append.1 hsorted).2.1).1 d List.mem_cons_self
      rwa [hbase] at this
    refine ⟨l₁, l₂, d, hl, ?_⟩
    rcases h.gap d hd hne with hlt | hge
    · omega
    · exact hge

/-- **What `vmm_alloc` turns down**: a range that starts in the bitmap and ends below the stacks. -/
theorem Grounds.caught (h : k.Grounds) (hlo : 0xffffff80000e8000 ≤ s)
    (hhi : s < 0xffffff80000e8000 + k.regions.length kernelPmmObj)
    (hend : s + n < 0xffffff8000202000) : k.Caught s n := by
  obtain ⟨l₁, l₂, d, hl, hd⟩ := h.behind
  have hlen : k.regions.length kernelPmmObj ≤ 0x118000 := by
    rcases h.bitmap_length with hlen | hlen
    · omega
    · exact hlen.le
  refine ⟨(kernelPmmObj, d), mem_zip_tail_iff.2 ⟨l₁, l₂, hl⟩, ?_⟩
  simp only [h.bitmap_base]
  omega

/-- A region that starts below the bitmap or among the stacks. -/
theorem Grounds.insertRegion {l₁ l₂ : List ℕ} {flags : ℕ} (h : k.Grounds)
    (hl : k.vmObjects = l₁ ++ c :: l₂) (hle : ∀ d ∈ l₁ ++ [c], k.regions.base d ≤ s)
    (hlt : ∀ d ∈ l₂, s < k.regions.base d)
    (hs : s < 0xffffff80000e8000 ∨ 0xffffff8000202000 ≤ s) :
    ({ k with regions := Kernel.insertRegion k.regions c s n flags } : Kernel).Grounds := by
  have hch := h.listed.toChained
  rw [hl] at hch
  have hmem : ∀ d, d ∈ l₁ ++ c :: k.regions.count :: l₂ ↔
      d ∈ k.vmObjects ∨ d = k.regions.count := by
    intro d
    rw [hl]
    simp only [List.mem_append, List.mem_cons]
    tauto
  have hold := fun d hd => @Chained.insertRegion_of_mem k _ s n c d flags h.listed.toChained hd
  have hnew := @insertRegion_self s n c k.regions flags
  have hobj := (@Chained.insertRegion k s n c l₁ l₂ flags hch).vmObjects_eq
  have hhead : k.currentVmm ∈ k.vmObjects := by
    obtain ⟨r, hr, -⟩ := h.listed.toChained.exists_cons
    rw [hr]
    simp
  have hwin : ({ k with regions := Kernel.insertRegion k.regions c s n flags } :
      Kernel).windowLength = k.windowLength := (hold _ h.tables).2.1
  have hext : ({ k with regions := Kernel.insertRegion k.regions c s n flags } :
      Kernel).Extended ↔ k.Extended := by
    rw [Extended, Extended, (hold _ h.bitmap).2.1]
  refine ⟨?_, ?_, ?_, ?_, ?_, ?_, ?_, ?_, h.unfreed, ?_, ?_⟩
  · rw [hobj]
    refine ⟨hch.insertRegion, pairwise_insert ?_ (fun d hd => ?_) fun d hd => ?_⟩
    · rw [← hl]
      refine h.listed.sorted.imp_of_mem fun {a b} ha hb hab => ?_
      rwa [(hold a ha).1, (hold b hb).1]
    · have hd' : d ∈ k.vmObjects := by
        rw [hl]
        simp only [List.mem_append, List.mem_cons, List.not_mem_nil, or_false] at hd ⊢
        tauto
      rw [(hold d hd').1, hnew.1]
      exact hle d hd
    · rw [(hold d (by rw [hl]; simp [hd])).1, hnew.1]
      exact (hlt d hd).le
  · exact (hold _ hhead).1.trans h.head
  · rw [hobj, hmem]
    exact Or.inl h.bitmap
  · exact (hold _ h.bitmap).1.trans h.bitmap_base
  · rw [hext, (hold _ h.bitmap).2.1]
    exact h.bitmap_length
  · rw [hobj, hmem]
    exact Or.inl h.tables
  · exact (hold _ h.tables).1.trans h.tables_base
  · intro d hd hne
    rw [hobj, hmem] at hd
    rcases hd with hd | rfl
    · rw [(hold d hd).1]
      exact h.gap d hd hne
    · rwa [hnew.1]
  · rw [hwin]
    exact h.window
  · simp only [spare, hwin, hext]
    exact h.room

/-- `vmm_alloc` turns a range down. -/
theorem Grounds.vmmAlloc_caught {fuel length flags args : ℕ} (h : k.Grounds)
    (hal : s % 0x1000 = 0) (hs0 : s ≠ 0) (hcaught : k.Caught s (pageAlign length)) :
    Kernel.vmmAlloc fuel k s length flags args = some (k, 0) := by
  have hdown : pageAlignDown s = s := by
    unfold pageAlignDown
    omega
  rcases @findPlace_spec k _ s (pageAlign length) h.listed hs0 with ⟨-, hfind⟩ | ⟨hnot, -⟩
  · simp only [Kernel.vmmAlloc, hdown, hfind, Option.bind_eq_bind, Option.bind_some]
  · exact absurd hcaught hnot

/-- **`vmm_alloc`** at a page below the bitmap or among the stacks, or one that it turns down. -/
theorem Grounds.vmmAlloc {fuel length flags args p : ℕ} (h : k.Grounds) (hal : s % 0x1000 = 0)
    (hs0 : s ≠ 0) (hs : s < 0xffffff80000e8000 ∨ 0xffffff8000202000 ≤ s ∨
      k.Caught s (pageAlign length))
    (hcall : Kernel.vmmAlloc fuel k s length flags args = some (k', p)) :
    (k'.Grounds ∧ k.windowLength ≤ k'.windowLength ∧ (k'.Extended ↔ k.Extended)) ∧
      (p ≠ 0 → p = s) ∧ (k.Caught s (pageAlign length) → p = 0) := by
  have hdown : pageAlignDown s = s := by
    unfold pageAlignDown
    omega
  rcases @findPlace_spec k _ s (pageAlign length) h.listed hs0 with
    ⟨hcaught, hfind⟩ | ⟨hnot, l₁, c, l₂, hl, hfind, hplace⟩
  · simp only [Kernel.vmmAlloc, hdown, hfind, Option.bind_eq_bind, Option.bind_some,
      Option.some.injEq, Prod.mk.injEq] at hcall
    obtain ⟨rfl, rfl⟩ := hcall
    exact ⟨⟨h, le_rfl, Iff.rfl⟩, fun h0 => absurd rfl h0, fun _ => rfl⟩
  · obtain ⟨hle, hlt⟩ := hplace (by rw [h.head]; exact Nat.zero_le _)
    have hins := @Grounds.insertRegion k s (pageAlign length) c l₁ l₂ flags h hl hle hlt
      (hs.imp_right fun hor => hor.resolve_right hnot)
    simp only [Kernel.vmmAlloc, hdown, hfind, Option.bind_eq_bind, Option.bind_some] at hcall
    obtain ⟨⟨k₁, ok⟩, hmap, hcall⟩ := Option.bind_eq_some_iff.1 hcall
    simp only [Option.some.injEq, Prod.mk.injEq] at hcall
    obtain ⟨rfl, rfl⟩ := hcall
    obtain ⟨hG, hgrow, hext⟩ := hins.steps (steps_mapPages _ _ _ hmap)
    have hold := fun d hd => @Chained.insertRegion_of_mem k _ s (pageAlign length) c d flags
      h.listed.toChained hd
    refine ⟨⟨hG, ?_, hext.trans ?_⟩, fun h0 => ?_, fun hcaught => absurd hcaught hnot⟩
    · refine le_trans (Nat.le_of_eq ?_) hgrow
      exact (hold _ h.tables).2.1.symm
    · rw [Extended, Extended, (hold _ h.bitmap).2.1]
    · split at h0
      next hok => rw [if_pos hok]
      next => exact absurd rfl h0

/-- `vmm_lengthen` finds the bitmap, and there is room behind it. -/
theorem Grounds.vmmLengthen {fuel : ℕ} (h : k.Grounds) (hnot : ¬ k.Extended) (m : Pmm) :
    Kernel.vmmLengthen fuel { k with pmm := m } 0xffffff80000e8000 0x117000 =
      lengthenPages fuel fuel (k.extended m) kernelPmmObj 0xffffff80000e9000 := by
  obtain ⟨l₁, l₂, d, hl, hd⟩ := h.behind
  have hlen : k.regions.length kernelPmmObj = 0x1000 := h.bitmap_length.resolve_right hnot
  have hpath := h.listed.path
  have hfind : k.vmObjects.find? (fun c => k.regions.base c == 0xffffff80000e8000) =
      some kernelPmmObj := by
    cases hf : k.vmObjects.find? (fun c => k.regions.base c == 0xffffff80000e8000) with
    | none =>
      have := List.find?_eq_none.1 hf _ h.bitmap
      simp [h.bitmap_base] at this
    | some c =>
      have hbase : k.regions.base c = 0xffffff80000e8000 := by simpa using List.find?_some hf
      by_contra hne
      have := h.gap c (List.mem_of_find?_eq_some hf) fun heq => hne (by rw [heq])
      omega
  have hsearch := @search_eq _ k.regions.next (some k.currentVmm) k.vmObjects
    (fun c => k.regions.base c == 0xffffff80000e8000) (k.regions.count + 1) hpath
    (Nat.lt_succ_of_le h.listed.toChained.length_le)
  have hnext : k.regions.next kernelPmmObj = some d := by
    rw [hl] at hpath
    exact hpath.suffix.head?
  have hinc : pageAlignInt 0x117000 = 0x117000 := by decide
  rw [Kernel.vmmLengthen, hinc]
  simp only [hsearch, hfind, hnext, Option.bind_eq_bind, Option.bind_some, h.bitmap_base, hlen]
  rw [if_pos]
  · rfl
  · simp only [decide_eq_true_eq]
    omega

/-- `pmm_init` gives `kernel_pmm_obj` its full length. -/
theorem Grounds.pmmInit {fuel kernelByteSize : ℕ} {reserved : MmapRegionList} (h : k.Grounds)
    (hnot : ¬ k.Extended) (hcall : Kernel.pmmInit fuel k reserved kernelByteSize = some k') :
    k'.Grounds ∧ k.windowLength ≤ k'.windowLength ∧ k'.Extended := by
  unfold Kernel.pmmInit at hcall
  obtain ⟨m, hm, hcall⟩ := Option.bind_eq_some_iff.1 hcall
  obtain ⟨m', hm', hcall⟩ := Option.bind_eq_some_iff.1 hcall
  have hrows : m'.rows = 0x23000 := by
    rw [Pmm.markWhile_rows hm', Pmm.markReserved_rows hm]
    show 0x118000 * 8 / 64 = 0x23000
    norm_num
  rw [h.vmmLengthen hnot] at hcall
  obtain ⟨⟨k₁, ok⟩, hk₁, hcall⟩ := Option.bind_eq_some_iff.1 hcall
  have hsteps := steps_lengthenPages fuel fuel hk₁
  have hext : (k.extended m').Extended := by simp [Extended, extended]
  have hwin : (k.extended m').windowLength = k.windowLength := by
    simp [windowLength, extended, Function.update_of_ne
      (show kernelPageTblsObj ≠ kernelPmmObj by decide)]
  have hfree : (k.extended m').pmm.freeSlots ≤ 0x460000 := by
    have := m'.freeSlots_le
    rw [hrows] at this
    exact this
  have hch : (k.extended m').Chained k.vmObjects := ⟨h.listed.path, h.listed.lt⟩
  have hobj := hch.vmObjects_eq
  have hroom := h.room
  simp only [spare, hnot, if_false] at hroom
  have hG : (k.extended m').Grounds := by
    refine ⟨?_, h.head, ?_, h.bitmap_base, Or.inr hext, ?_, h.tables_base, ?_, h.unfreed, ?_, ?_⟩
    · rw [hobj]
      exact ⟨hch, h.listed.sorted⟩
    · rw [hobj]
      exact h.bitmap
    · rw [hobj]
      exact h.tables
    · rw [hobj]
      exact h.gap
    · rw [hwin]
      exact h.window
    · simp only [spare, hwin, hext, if_true]
      omega
  obtain ⟨hG', hgrow, hext'⟩ := hG.steps hsteps
  rw [hwin] at hgrow
  obtain rfl := Option.some.inj hcall
  split_ifs
  · exact ⟨hG', hgrow, hext'.2 hext⟩
  · -- without the rest of the bitmap the allocator keeps to its first page
    have hspent := (hsteps.widens hG.sum_lt).spent
    have hsmall : Pmm.freeSlots ⟨8 * 0x1000, k₁.pmm.bitmap, by decide⟩ ≤
      32 * (8 * 0x1000 / 64) := Pmm.freeSlots_le _
    refine ⟨⟨⟨⟨hG'.listed.path, hG'.listed.lt⟩, hG'.listed.sorted⟩, hG'.head, hG'.bitmap,
      hG'.bitmap_base, hG'.bitmap_length, hG'.tables,
      hG'.tables_base, hG'.gap, hG'.unfreed, hG'.window, ?_⟩, hgrow, hext'.2 hext⟩
    have hwide : k₁.windowLength + 0x1000 * Pmm.freeSlots ⟨8 * 0x1000, k₁.pmm.bitmap, by decide⟩ <
        0x7fffcff000 := by
      omega
    have hlen : k₁.regions.length kernelPmmObj = 0x118000 := hext'.2 hext
    simpa only [spare, Extended, windowLength, hlen, if_true, Nat.add_zero] using hwide

end Kernel

namespace Areas

variable {s s' : Areas} {fuel length : ℕ}

/-- A request for device memory ends before the bitmap, or it is one of `tar_init` that `vmm_alloc`
turns down.  A stack lies above the page of the heap, or `vmm_alloc` sees to it.  `pmm_init` is called
once. -/
def Clear (s : Areas) : AreaOp → Prop
  | .allocMmio _ length _ => s.mmioRegion + roundUp length ≤ 0xffffff80000e8000
  | .tarInit _ length => s.mmioRegion + roundUp length ≤ 0xffffff80000e8000 ∨
    s.kernel.Caught s.mmioRegion (roundUp length) ∧ s.mmioRegion + roundUp length < 2 ^ 64
  | .allocKernelStack => 0xffffff8000204000 ≤ s.kernelStackPtr ∨ s.kernel.Extended
  | .allocPgTable => True
  | .pmmInit _ _ => ¬ s.kernel.Extended

instance (s : Areas) (op : AreaOp) : Decidable (s.Clear op) := by
  cases op <;> unfold Clear <;> infer_instance

/-- In which area a range lies. -/
def Placed (s : Areas) (r : ℕ × ℕ) : Prop :=
  r.1 + r.2 ≤ s.mmioRegion ∧ r.1 + r.2 ≤ 0xffffff80000e8000 ∨
    s.kernelStackPtr ≤ r.1 ∧ r.1 + r.2 ≤ 0xffffff80002fd000 ∨
    0xffffff8000307000 ≤ r.1 ∧ r.1 + r.2 ≤ 0xffffff8000301000 + s.kernel.windowLength

/-- The invariant: where the pointers are, and that every range lies in its area. -/
structure Layout (s : Areas) : Prop where
  grounds : s.kernel.Grounds
  mmio_mod : s.mmioRegion % 0x1000 = 0
  mmio_ge : 0xffffff80000c1000 ≤ s.mmioRegion
  stack : ∃ j ≤ 84, s.kernelStackPtr + 0x3000 * j = 0xffffff80002fe000
  placed : ∀ r ∈ s.ranges, s.Placed r
  disjoint : s.ranges.Pairwise fun a b => ¬ Overlap a.1 a.2 b.1 b.2

theorem Layout.stack_ge (h : s.Layout) : 0xffffff8000202000 ≤ s.kernelStackPtr := by
  obtain ⟨j, hj, he⟩ := h.stack
  omega

theorem Layout.apart (h : s.Layout) : s.Apart := by
  refine ⟨h.disjoint, fun r hr => ?_⟩
  have hstack := h.stack_ge
  have hroom := h.grounds.room
  unfold Overlap
  rcases h.placed r hr with hp | hp | hp <;> omega

/-- A range in one area stays there while the pointers move on. -/
theorem Placed.mono {r : ℕ × ℕ} (h : s.Placed r) (hm : s.mmioRegion ≤ s'.mmioRegion)
    (hk : s'.kernelStackPtr ≤ s.kernelStackPtr)
    (hw : s.kernel.windowLength ≤ s'.kernel.windowLength) : s'.Placed r := by
  unfold Placed at h ⊢
  omega

/-- A new range. -/
theorem Layout.report {k : Kernel} {r : ℕ × ℕ} {m p : ℕ} (h : s.Layout) (hk : k.Grounds)
    (hw : s.kernel.windowLength ≤ k.windowLength) (hmod : m % 0x1000 = 0)
    (hm : s.mmioRegion ≤ m) (hp : p ≤ s.kernelStackPtr)
    (hstack : ∃ j ≤ 84, p + 0x3000 * j = 0xffffff80002fe000)
    (hr : Placed ⟨k, m, p, s.ranges⟩ r) (hfresh : ∀ q ∈ s.ranges, ¬ Overlap r.1 r.2 q.1 q.2) :
    Layout ⟨k, m, p, r :: s.ranges⟩ := by
  refine ⟨hk, hmod, h.mmio_ge.trans hm, hstack, fun q hq => ?_,
    List.pairwise_cons.2 ⟨hfresh, h.disjoint⟩⟩
  rcases List.mem_cons.1 hq with rfl | hq
  · exact hr
  · exact (h.placed q hq).mono hm hp hw

theorem Layout.getMmioPtr (h : s.Layout) (hle : s.mmioRegion + roundUp length < 2 ^ 64) :
    pageAlign length = roundUp length ∧ s.getMmioPtr length =
      ({ s with mmioRegion := s.mmioRegion + roundUp length }, s.mmioRegion) := by
  have hge := h.mmio_ge
  have hal : pageAlign length = roundUp length := by
    unfold pageAlign roundUp at *
    rw [Nat.mod_eq_of_lt (by omega)]
  refine ⟨hal, ?_⟩
  rw [Areas.getMmioPtr]
  simp only [hal]
  rw [Nat.mod_eq_of_lt (by omega)]
  congr 1
  omega

/-- A request for device memory. -/
theorem Layout.mmio {flags args p : ℕ} {k : Kernel} (h : s.Layout)
    (hle : s.mmioRegion + roundUp length ≤ 0xffffff80000e8000)
    (hcall : s.kernel.vmmAlloc fuel s.mmioRegion length flags args = some (k, p)) :
    Layout ⟨k, s.mmioRegion + roundUp length, s.kernelStackPtr, s.ranges⟩ ∧
      Layout ⟨k, s.mmioRegion + roundUp length, s.kernelStackPtr,
        (s.mmioRegion, roundUp length) :: s.ranges⟩ ∧ (p ≠ 0 → p = s.mmioRegion) := by
  have hge := h.mmio_ge
  have hmod := h.mmio_mod
  obtain ⟨hal, -⟩ := h.getMmioPtr (hle.trans_lt (by decide))
  have hround : roundUp length % 0x1000 = 0 := Nat.mul_mod_left _ _
  have hsafe : s.mmioRegion < 0xffffff80000e8000 ∨ 0xffffff8000202000 ≤ s.mmioRegion ∨
      s.kernel.Caught s.mmioRegion (pageAlign length) := by
    by_cases hlt : s.mmioRegion < 0xffffff80000e8000
    · exact Or.inl hlt
    · -- an empty request at the start of the bitmap is turned down
      have hlen : 0x1000 ≤ s.kernel.regions.length kernelPmmObj := by
        rcases h.grounds.bitmap_length with hlen | hlen
        · exact hlen.ge
        · rw [show s.kernel.regions.length kernelPmmObj = 0x118000 from hlen]
          decide
      rw [hal]
      exact Or.inr (Or.inr (h.grounds.caught (by omega) (by omega) (by omega)))
  obtain ⟨⟨hG, hgrow, -⟩, hp, -⟩ := h.grounds.vmmAlloc hmod (by omega) hsafe hcall
  refine ⟨⟨hG, by simp only; omega, by simp only; omega, h.stack, fun r hr => ?_, h.disjoint⟩,
    ?_, hp⟩
  · exact (h.placed r hr).mono (Nat.le_add_right _ _) le_rfl hgrow
  · refine h.report hG hgrow (by omega) (Nat.le_add_right _ _) le_rfl h.stack
      (Or.inl ⟨le_rfl, hle⟩) fun q hq => ?_
    have hstack := h.stack_ge
    rcases h.placed q hq with hq | hq | hq <;> simp only [Overlap] <;> omega

theorem Layout.allocMmio {phys flags : ℕ} (h : s.Layout)
    (hle : s.mmioRegion + roundUp length ≤ 0xffffff80000e8000)
    (hcall : s.allocMmio fuel phys length flags = some s') : s'.Layout := by
  rw [Areas.allocMmio, (h.getMmioPtr (hle.trans_lt (by decide))).2] at hcall
  obtain ⟨⟨k, p⟩, hk, hcall⟩ := Option.bind_eq_some_iff.1 hcall
  obtain rfl := Option.some.inj hcall
  exact (h.mmio hle hk).2.1

/-- A request of `tar_init` that is turned down. -/
theorem Layout.tarInit_caught {modStart : ℕ} (h : s.Layout)
    (hcaught : s.kernel.Caught s.mmioRegion (roundUp length))
    (hlt : s.mmioRegion + roundUp length < 2 ^ 64) : s.tarInit fuel modStart length =
      some { s with mmioRegion := s.mmioRegion + roundUp length } := by
  have hge := h.mmio_ge
  obtain ⟨hal, hptr⟩ := h.getMmioPtr hlt
  rw [Areas.tarInit, hptr]
  simp only [h.grounds.vmmAlloc_caught h.mmio_mod (by omega) (hal ▸ hcaught), Option.bind_eq_bind,
    Option.bind_some, if_true]

theorem Layout.tarInit {modStart : ℕ} (h : s.Layout) (hc : s.Clear (.tarInit modStart length))
    (hcall : s.tarInit fuel modStart length = some s') : s'.Layout := by
  rcases hc with hle | ⟨hcaught, hlt⟩
  · rw [Areas.tarInit, (h.getMmioPtr (hle.trans_lt (by decide))).2] at hcall
    obtain ⟨⟨k, p⟩, hk, hcall⟩ := Option.bind_eq_some_iff.1 hcall
    obtain ⟨hnone, hsome, hp⟩ := h.mmio hle hk
    simp only [Option.some.injEq] at hcall
    split at hcall
    next =>
      rw [← hcall]
      exact hnone
    next hp0 =>
      rw [hp hp0] at hcall
      rw [← hcall]
      exact hsome
  · rw [h.tarInit_caught hcaught hlt] at hcall
    obtain rfl := Option.some.inj hcall
    have hmod := h.mmio_mod
    have hround : roundUp length % 0x1000 = 0 := Nat.mul_mod_left _ _
    refine ⟨h.grounds, ?_, h.mmio_ge.trans (Nat.le_add_right _ _), h.stack, fun r hr => ?_,
      h.disjoint⟩
    · show (s.mmioRegion + roundUp length) % 0x1000 = 0
      omega
    · exact (h.placed r hr).mono (Nat.le_add_right _ _) le_rfl le_rfl

/-- The request for the stack that would reach into the page of the heap is turned down. -/
theorem Layout.stack_refused (h : s.Layout) (hext : s.kernel.Extended)
    (hlow : s.kernelStackPtr < 0xffffff8000204000) :
    s.kernel.vmmAlloc fuel (s.kernelStackPtr - 0x3000) 0x2000 1 0 = some (s.kernel, 0) := by
  obtain ⟨j, hj, he⟩ := h.stack
  obtain rfl : j = 84 := by omega
  have hptr : s.kernelStackPtr - 0x3000 = 0xffffff80001ff000 := by omega
  rw [hptr]
  refine h.grounds.vmmAlloc_caught (by decide) (by decide) (h.grounds.caught (by decide) ?_
    (by decide))
  rw [show s.kernel.regions.length kernelPmmObj = 0x118000 from hext]
  decide

/-- The pages below the last stack and above the heap are in no range. -/
theorem Layout.below_stack {v n : ℕ} (h : s.Layout) (hv : 0xffffff80000e8000 ≤ v)
    (hn : v + n ≤ s.kernelStackPtr) : ∀ q ∈ s.ranges, ¬ Overlap v n q.1 q.2 := by
  intro q hq hover
  have hstack : s.kernelStackPtr ≤ 0xffffff80002fe000 := by
    obtain ⟨j, -, he⟩ := h.stack
    omega
  simp only [Overlap] at hover
  rcases h.placed q hq with hq | hq | hq <;> omega

theorem Layout.allocKernelStack (h : s.Layout)
    (hor : 0xffffff8000204000 ≤ s.kernelStackPtr ∨ s.kernel.Extended)
    (hcall : s.allocKernelStack fuel = some s') : s'.Layout := by
  obtain ⟨j, hj, he⟩ := h.stack
  have hptr : (((s.kernelStackPtr : ℤ) - 0x3000) % 2 ^ 64).toNat = s.kernelStackPtr - 0x3000 := by
    omega
  rw [Areas.allocKernelStack, hptr] at hcall
  by_cases hlow : s.kernelStackPtr < 0xffffff8000204000
  · rw [h.stack_refused (hor.resolve_left (by omega)) hlow] at hcall
    cases hcall
  · obtain ⟨⟨k, p⟩, hk, hcall⟩ := Option.bind_eq_some_iff.1 hcall
    simp only at hcall
    split at hcall
    next => cases hcall
    next =>
      obtain ⟨k₁, hk₁, hcall⟩ := Option.bind_eq_some_iff.1 hcall
      obtain ⟨k₂, hk₂, hcall⟩ := Option.bind_eq_some_iff.1 hcall
      obtain rfl := Option.some.inj hcall
      obtain ⟨⟨hG, hgrow, -⟩, -⟩ := h.grounds.vmmAlloc (by omega) (by omega)
        (Or.inr (Or.inl (by omega))) hk
      obtain ⟨hG₂, hgrow₂, -⟩ := hG.steps
        ((Kernel.steps_clearPage hk₁).trans (Kernel.steps_clearPage hk₂))
      refine @Layout.report s k₂ _ s.mmioRegion (s.kernelStackPtr - 0x3000) h hG₂
        (hgrow.trans hgrow₂) h.mmio_mod le_rfl (Nat.sub_le _ _)
        ⟨j + 1, by omega, by omega⟩ (Or.inr (Or.inl ⟨le_rfl, ?_⟩)) fun q hq => ?_
      · show s.kernelStackPtr - 0x3000 + 0x2000 ≤ 0xffffff80002fd000
        omega
      · exact h.below_stack (by omega) (by omega) q hq

/-- Nor are the pages behind the window. -/
theorem Layout.above_window (h : s.Layout) :
    ∀ q ∈ s.ranges, ¬ Overlap (0xffffff8000301000 + s.kernel.windowLength) 0x1000 q.1 q.2 := by
  intro q hq hover
  simp only [Overlap] at hover
  rcases h.placed q hq with hq | hq | hq <;> omega

theorem Layout.tablePage_eq (h : s.Layout) :
    tablePage s.kernel = 0xffffff8000301000 + s.kernel.windowLength := by
  have hroom := h.grounds.room
  have hbase := h.grounds.tables_base
  rw [tablePage, Kernel.getFreedPgTbl_of_tables h.grounds.unfreed]
  have hgrown : s.kernel.growWindow.windowLength = s.kernel.windowLength + 0x1000 :=
    Kernel.windowLength_newTable s.kernel.pmm 0 (by omega)
  show (s.kernel.regions.base kernelPageTblsObj + s.kernel.growWindow.windowLength) % 2 ^ 64 = _
  rw [hbase, hgrown, Nat.mod_eq_of_lt (by omega)]
  omega

theorem Layout.allocPgTable (h : s.Layout) (hcall : s.allocPgTable fuel = some s') :
    s'.Layout := by
  rw [Areas.allocPgTable] at hcall
  obtain ⟨⟨k, t⟩, hk, hcall⟩ := Option.bind_eq_some_iff.1 hcall
  simp only [Option.some.injEq] at hcall
  obtain ⟨hG, hgrow, -⟩ := h.grounds.steps
    (Kernel.steps_allocPgTable (fun _ _ _ _ _ _ _ => Kernel.steps_mmap fuel) hk)
  split at hcall
  next =>
    rw [← hcall]
    exact ⟨hG, h.mmio_mod, h.mmio_ge, h.stack,
      fun r hr => (h.placed r hr).mono le_rfl le_rfl hgrow, h.disjoint⟩
  next ht =>
    obtain ⟨hpage, hsteps⟩ := Kernel.steps_newTable h.grounds.unfreed ht hk
    have hroom := h.grounds.room
    have hnew := Kernel.windowLength_newTable s.kernel.pmm.pmmAllocPage.1
      s.kernel.pmm.pmmAllocPage.2 (show s.kernel.windowLength + 0x1000 < 2 ^ 64 by omega)
    have hfirst := Kernel.Step.table (k := s.kernel)
      (Kernel.getFreedPgTbl_of_tables h.grounds.unfreed) hpage
    have hgrow' := (hsteps.widens ((hfirst.widens h.grounds.sum_lt).spent.trans_lt
      h.grounds.sum_lt)).grows
    rw [hnew] at hgrow'
    rw [h.tablePage_eq] at hcall
    rw [← hcall]
    refine @Layout.report s k _ s.mmioRegion s.kernelStackPtr h hG hgrow h.mmio_mod le_rfl
      le_rfl h.stack (Or.inr (Or.inr ⟨?_, ?_⟩)) fun q hq => ?_
    · have := h.grounds.window
      show 0xffffff8000307000 ≤ 0xffffff8000301000 + s.kernel.windowLength
      omega
    · show 0xffffff8000301000 + s.kernel.windowLength + 0x1000 ≤
        0xffffff8000301000 + k.windowLength
      omega
    · exact h.above_window q hq

/-- **The step lemma.** -/
theorem Layout.step {op : AreaOp} (h : s.Layout) (hc : s.Clear op)
    (hcall : s.step fuel op = some s') : s'.Layout := by
  cases op with
  | allocMmio physRegionStart length extraFlags => exact h.allocMmio hc hcall
  | tarInit modStart length => exact h.tarInit hc hcall
  | allocKernelStack => exact h.allocKernelStack hc hcall
  | allocPgTable => exact h.allocPgTable hcall
  | pmmInit reserved kernelByteSize =>
    obtain ⟨k, hk, rfl⟩ := Option.map_eq_some_iff.1 hcall
    obtain ⟨hG, hgrow, -⟩ := h.grounds.pmmInit hc hk
    exact ⟨hG, h.mmio_mod, h.mmio_ge, h.stack,
      fun r hr => (h.placed r hr).mono le_rfl le_rfl hgrow, h.disjoint⟩

theorem layout_start {k : Kernel} (h : k.Grounds) : (start k).Layout := by
  refine ⟨h, ?_, le_rfl, ⟨0, Nat.zero_le _, rfl⟩, fun r hr => ?_, List.Pairwise.nil⟩
  · show 0xffffff80000c1000 % 0x1000 = 0
    decide
  · cases hr

/-! ### Runs -/

/-- A request for which there is no range left is turned down: the stack that would reach into the
page of the heap, and a request of `tar_init` that starts in the mapped part of the bitmap and ends
below the stacks. -/
def Refuses (fuel : ℕ) (s : Areas) : Prop :=
  (s.kernel.Extended →
    Overlap (s.kernelStackPtr - 0x3000) 0x2000 0xffffff8000200000 0x1000 →
      s.kernel.vmmAlloc fuel (s.kernelStackPtr - 0x3000) 0x2000 1 0 = some (s.kernel, 0)) ∧
  ∀ modStart length, 0xffffff80000e8000 ≤ s.mmioRegion →
    s.mmioRegion < 0xffffff80000e8000 + s.kernel.regions.length kernelPmmObj →
    s.mmioRegion + roundUp length < 0xffffff8000202000 →
      s.tarInit fuel modStart length =
        some { s with mmioRegion := s.mmioRegion + roundUp length }

theorem Layout.refuses (h : s.Layout) : s.Refuses fuel := by
  refine ⟨fun hext hover => h.stack_refused hext ?_, fun modStart length hlo hhi hend => ?_⟩
  · have := h.stack_ge
    unfold Overlap at hover
    omega
  · exact h.tarInit_caught (h.grounds.caught hlo hhi hend) (hend.trans (by decide))

/-- A request of `alloc_mmio` that ends behind the start of the bitmap is reported all the same. -/
theorem not_apart_of_allocMmio {phys flags : ℕ} (hlo : s.mmioRegion < 0xffffff80000e8000)
    (hend : 0xffffff80000e8000 < s.mmioRegion + roundUp length)
    (hcall : s.allocMmio fuel phys length flags = some s') : ¬ s'.Apart := by
  obtain ⟨⟨k, p⟩, -, hcall⟩ := Option.bind_eq_some_iff.1 hcall
  obtain rfl := Option.some.inj hcall
  intro hapart
  have hptr : (s.getMmioPtr length).2 = s.mmioRegion := by
    simp only [getMmioPtr]
    omega
  have hmem : (s.mmioRegion, roundUp length) ∈
      ((s.getMmioPtr length).1.report k ((s.getMmioPtr length).2, roundUp length)).ranges := by
    rw [hptr]
    exact List.mem_cons_self
  have := (hapart.2 _ hmem).1
  unfold Overlap at this
  omega

/-- **The areas stay apart** in every run whose requests for device memory add up to no more than
the room before the bitmap, and whose stacks are requested while there is room above the heap or
after `pmm_init`; requests for which no range is left are turned down.  A request of `alloc_mmio`
that does not fit before the bitmap is not. -/
theorem areas_apart (fuel : ℕ) (k : Kernel) (ops : List AreaOp) (hk : k.Grounds)
    (hc : Along (step fuel) Clear (start k) ops) :
    Always (step fuel) (fun s => s.Apart ∧ s.Refuses fuel) (start k) ops ∧
      ∀ (s s' : Areas) (phys length flags : ℕ), s.mmioRegion < 0xffffff80000e8000 →
        0xffffff80000e8000 < s.mmioRegion + roundUp length →
        s.step fuel (.allocMmio phys length flags) = some s' → ¬ s'.Apart :=
  ⟨Always.of_inv (fun _ h => ⟨h.apart, h.refuses⟩) (fun _ _ _ h hc => h.step hc) (layout_start hk)
    hc, fun _ _ _ _ _ hlo hend => not_apart_of_allocMmio hlo hend⟩

theorem boot_grounds : boot.Grounds := by
  have hl : boot.vmObjects = [4, 3, 2, 1, 0] := by decide
  have hfree : boot.pmm.freeSlots ≤ 32 * (0x8000 / 64) := boot.pmm.freeSlots_le
  refine ⟨Kernel.boot_separate.toListed, by decide, by decide, by decide, by decide, by decide,
    by decide,
    by decide, by decide +kernel, by decide, ?_⟩
  have hnot : ¬ boot.Extended := by decide
  have hlen : boot.windowLength = 0x6000 := rfl
  rw [Kernel.spare, if_neg hnot, hlen]
  omega

/-- At boot: a page for the local APIC, a module of five pages, a page table and a stack. -/
theorem areas_apart_boot :
    Always (step 4) (fun s => s.Apart ∧ s.Refuses 4) (start boot)
      [.allocMmio 0xfee00000 0x1000 1, .tarInit 0x200000 0x4200, .allocPgTable,
        .allocKernelStack] ∧
    ∀ (s s' : Areas) (phys length flags : ℕ), s.mmioRegion < 0xffffff80000e8000 →
      0xffffff80000e8000 < s.mmioRegion + roundUp length →
      s.step 4 (.allocMmio phys length flags) = some s' → ¬ s'.Apart := by
  have hrun : (([.allocMmio 0xfee00000 0x1000 1, .tarInit 0x200000 0x4200,
      .allocPgTable].foldlM (step 4) (start boot)).map
      fun s => decide (0xffffff8000204000 ≤ s.kernelStackPtr)) = some true := by
    decide +kernel
  obtain ⟨s, hs, hle⟩ := Option.map_eq_some_iff.1 hrun
  refine areas_apart 4 boot _ boot_grounds (@along_append _ _ _ _ _ s [_, _, _] [_] ?_ hs
    ⟨Or.inl (of_decide_eq_true hle), fun _ _ => trivial⟩)
  decide +kernel

/-- The loop of `vmm_alloc` returns when the table of the pages is there. -/
theorem mapPages_returns {k : Kernel} {R : ℕ → Prop} {C : List (Fin 512) → Prop} {t v e args : ℕ}
    (fuel flags n : ℕ) (hT : k.Tables R C) (ht : follow (entry k.mem) k.cr3 [511, 0, 0] = some t)
    (hunused : ∀ v, 0xffffff80000c0000 ≤ v → v < 0xffffff8000200000 → ¬ k.TableAt v)
    (hv : 0xffffff80000c0000 ≤ v) (he : e ≤ 0xffffff8000200000) (hn : v + 0x1000 * n = e) :
    ∃ k', Kernel.mapPages (fuel + 1) flags n k v args = some (k', true) := by
  induction n generalizing k v args with
  | zero => exact ⟨k, rfl⟩
  | succ n ih =>
    have hind := Kernel.tableIndices_bitmap (le_trans (by norm_num) hv)
      (show v < 0xffffff8000200000 by omega)
    obtain ⟨pmm, hpmm, -⟩ := k.takeFrame_eq args
    have hT₁ := hT.with_pmm pmm
    have hmmap := @Kernel.mmap_present { k with pmm := pmm } R k.cr3 t v k.currentPml4tPtr fuel
      (k.takeFrame args).2 flags hT₁.accessible.registered hT.root hT.accesses_current
      (by rw [hind]; exact ht)
    have hred : Redirect (entry k.mem) (entry (writeEntry k.mem t (getIndex v 0)
        ((k.takeFrame args).2 ||| flags ||| 7))) t (getIndex v 0) := redirect_writeEntry
    have hsame := hred.same hT.forest hT.root rfl ht
    have hT₂ := hT₁.writeEntry hT.root (by rw [hind]; exact ht)
      ((k.takeFrame args).2 ||| flags ||| 7) (v := v) fun a w ha hw hpage => by
        obtain ⟨L, hL⟩ := hT.lists
        obtain ⟨w', hw', hw0, -⟩ := hT.accessible a ha
        obtain rfl : w = w' := Option.some.inj (hw.symm.trans hw')
        obtain ⟨i, hi, rfl⟩ := hL.exists_node hw hw0
        exact hunused v hv (by omega) ⟨i, hi, hpage⟩
    obtain ⟨k', hk'⟩ := @ih _ (v + 0x1000) (if args ≠ 0 then (args + 0x1000) % 2 ^ 64 else 0) hT₂
      ((hsame k.cr3 _ hT.root (by simp)).trans ht) hunused (by omega) (by omega)
    refine ⟨k', ?_⟩
    rw [Kernel.mapPages_succ, hpmm]
    simp only [hmmap, Option.bind_some, if_true]
    rw [Nat.mod_eq_of_lt (by omega)]
    exact hk'

/-- A request of `tar_init` that is granted. -/
theorem tarInit_of_mapPages {k : Kernel} {c modStart : ℕ} (h : s.Layout)
    (hlt : s.mmioRegion + roundUp length < 2 ^ 64) (hal : pageAlignDown s.mmioRegion = s.mmioRegion)
    (hne : s.mmioRegion ≠ 0)
    (hfind : Kernel.findPlace s.kernel.regions s.kernel.currentVmm s.mmioRegion (roundUp length) =
      some (some (c, s.mmioRegion)))
    (hmap : Kernel.mapPages fuel 3 ((roundUp length + 0xfff) % 2 ^ 64 / 0x1000)
      { s.kernel with
        regions := Kernel.insertRegion s.kernel.regions c s.mmioRegion (roundUp length) 3 }
      s.mmioRegion (pageAlignDown modStart) = some (k, true)) :
    s.tarInit fuel modStart length = some (report
      { s with mmioRegion := s.mmioRegion + roundUp length } k (s.mmioRegion, roundUp length)) := by
  obtain ⟨hround, hptr⟩ := h.getMmioPtr hlt
  rw [Areas.tarInit, hptr]
  simp only [Kernel.vmmAlloc, hround, hal, hfind, hmap, Option.bind_eq_bind, Option.bind_some,
    if_true, if_neg hne]

/-- A module of forty pages is mapped over the first page of the bitmap. -/
theorem module_over_bitmap :
    ∃ s ∈ (start boot).step 4 (.tarInit 0x200000 0x28000), ¬ s.Apart := by
  have hall : ∀ i < boot.map.count, page (boot.map.ptVaddr i) < 0xff80000c0 := by decide +kernel
  have hT : boot.Tables (fun r => r = boot.cr3) fun _ => False :=
    Kernel.boot_tables (fun _ => Iff.rfl) _
  obtain ⟨k, hk⟩ := @mapPages_returns _ _ _ 0x114000 0xffffff80000c1000 0xffffff80000e9000
    (pageAlignDown 0x200000) 3 3 ((roundUp 0x28000 + 0xfff) % 2 ^ 64 / 0x1000)
    (@Kernel.Tables.with_regions _ _ _ (Kernel.insertRegion boot.regions 2 0xffffff80000c1000
      (roundUp 0x28000) 3) hT (by decide)) (by decide +kernel)
    (fun v hlo hhi hat => by
      obtain ⟨i, hi, hpage⟩ := hat
      have := hall i hi
      rw [hpage, page] at this
      omega) (by decide) (by decide) (by decide)
  refine ⟨_, Option.mem_def.2 (@tarInit_of_mapPages (start boot) 4 0x28000 k 2 0x200000
    (layout_start boot_grounds) (by decide) (by decide) (by decide) (by decide +kernel) hk),
    fun hapart => ?_⟩
  exact absurd (hapart.2 _ List.mem_cons_self).1 (by decide)

end Areas

end TitanOS
