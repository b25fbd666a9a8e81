import TitanOS.Hashmap.Model
import TitanOS.Lib.Walk
import TitanOS.Pmm.Slots

/-!
# The virtual memory manager (`vmm.c`, and `alloc_pg_table` of `vmm_hashmap.c`)

Page tables are frames of 512 entries, named by their physical addresses.  The code reaches them
through the MMU like any other memory: `load` and `store` translate the virtual address in the
current space (`cr3`) first, and answer `none` for a page fault.  So writing an entry may change
what later accesses of the tables themselves see, and the model keeps that.  The TLB is left out.

`mmap` and `alloc_pg_table` call each other: a missing table is created, and creating it maps it
at the next page of the window at `KERNEL_PAGE_TBL_START`.  The recursion takes fuel.  Loops over
lists of regions take one step more than there are regions.

The regions of the address spaces (`vm_object`) are kept field by field, indexed by the address
of the object, and `kmalloc` hands out new ones in order.  The first four are the objects that the
source initialises statically.  The head of a list is the object embedded in its `vmm_t`.
-/

namespace TitanOS

open Linked Walk

/-- `PAGE_ALIGN` on a `size_t`. -/
def pageAlign (n : ℕ) : ℕ := (n + 0xfff) % 2 ^ 64 / 0x1000 * 0x1000

/-- `PAGE_ALIGN` on an `int`; the sum wraps and the division truncates. -/
def pageAlignInt (n : ℤ) : ℤ := (Int.bmod (n + 0xfff) (2 ^ 32)).tdiv 0x1000 * 0x1000

/-- `PAGE_ALIGN_DOWN`. -/
def pageAlignDown (n : ℕ) : ℕ := n / 0x1000 * 0x1000

/-- `VM_FLAG_MMIO` is set. -/
def isMmio (flags : ℕ) : Bool := flags.testBit 4

/-- The fields of `vm_object`, and the number of objects. -/
structure Regions where
  base : ℕ → ℕ
  length : ℕ → ℕ
  flags : ℕ → ℕ
  next : ℕ → Option ℕ
  count : ℕ

/-- `kernel_page_tbls_obj`. -/
def kernelPageTblsObj : ℕ := 0

/-- `kernel_text_obj`. -/
def kernelTextObj : ℕ := 3

/-- `vmm_t`: its head object and the physical address of its root table. -/
structure Vmm where
  head : ℕ
  pml4t : ℕ
  deriving DecidableEq, Repr

/-- Physical memory, as far as it holds page tables, and the state of the memory managers. -/
structure Kernel where
  mem : ℕ → Fin 512 → ℕ
  cr3 : ℕ
  currentPml4tPtr : ℕ
  currentVmm : ℕ
  map : Hashmap
  pmm : Pmm
  regions : Regions

/-- A table has entries: the indices of its slots are numerals. -/
instance neZero_entries : NeZero 512 := ⟨by decide⟩

/-- `get_index`. -/
def getIndex (addr level : ℕ) : Fin 512 := Fin.ofNat 512 (addr / 2 ^ (9 * level + 12))

/-- The labels of the walk for an address. -/
def indices (v : ℕ) : List (Fin 512) := [getIndex v 3, getIndex v 2, getIndex v 1, getIndex v 0]

/-- The table or frame that entry `i` of table `t` points to, if it is present. -/
def entry (mem : ℕ → Fin 512 → ℕ) (t : ℕ) (i : Fin 512) : Option ℕ :=
  if mem t i % 2 = 1 then some (pageAlignDown (mem t i)) else none

/-- The walk through four levels of tables: the frame that the page of `v` is mapped to. -/
def translate (mem : ℕ → Fin 512 → ℕ) (root v : ℕ) : Option ℕ := follow (entry mem) root (indices v)

/-- Set one entry. -/
def writeEntry (mem : ℕ → Fin 512 → ℕ) (t : ℕ) (i : Fin 512) (e : ℕ) : ℕ → Fin 512 → ℕ :=
  Function.update mem t (Function.update (mem t) i e)

namespace Kernel

/-- Read the word at virtual address `v`. -/
def load (k : Kernel) (v : ℕ) : Option ℕ :=
  (translate k.mem k.cr3 v).map fun f => k.mem f (Fin.ofNat 512 (v / 8))

/-- Write the word at virtual address `v`. -/
def store (k : Kernel) (v e : ℕ) : Option Kernel :=
  (translate k.mem k.cr3 v).map fun f =>
    { k with mem := writeEntry k.mem f (Fin.ofNat 512 (v / 8)) e }

/-- `memset(v, 0, PAGE_SIZE)` for a page `v`. -/
def clearPage (k : Kernel) (v : ℕ) : Option Kernel :=
  (translate k.mem k.cr3 v).map fun f => { k with mem := Function.update k.mem f fun _ => 0 }

/-- The last page of the window that is taken: `base + length` of `kernel_page_tbls_obj`. -/
def windowTop (k : Kernel) : ℕ :=
  (k.regions.base kernelPageTblsObj + k.regions.length kernelPageTblsObj) % 2 ^ 64

/-- `kernel_page_tbls_obj.length += 0x1000`. -/
def growWindow (k : Kernel) : Kernel :=
  { k with regions := { k.regions with
      length := Function.update k.regions.length kernelPageTblsObj
        ((k.regions.length kernelPageTblsObj + 0x1000) % 2 ^ 64) } }

/-- The end of `alloc_pg_table`: clear the table of `node` and register it. -/
def registerTable (k : Kernel) (node : ℕ) : Option (Kernel × ℕ) := do
  let k ← k.clearPage (k.map.ptVaddr node)
  let r ← k.map.pgTblInsert node
  some ({ k with map := r.1 }, if r.2 then k.map.ptPaddr node else 0)

/-- A node for a table in the frame `paddr`, at the next page of the window. -/
def newTable (k : Kernel) (pmm : Pmm) (paddr : ℕ) : Kernel :=
  { k.growWindow with pmm := pmm, map := k.map.newNode k.growWindow.windowTop paddr }

/-- `alloc_pg_table`; `mmap` is the function it calls back.  The null pointer is `0`. -/
def allocPgTable (mmap : Kernel → ℕ → ℕ → ℕ → ℕ → Option (Kernel × Bool)) (k : Kernel) :
    Option (Kernel × ℕ) :=
  match k.map.getFreedPgTbl with
  | some node => k.registerTable node
  | none =>
    let (pmm, paddr) := k.pmm.pmmAllocPage
    let node := k.map.count
    if paddr = 0 then some ({ k with pmm := pmm, map := k.map.newNode 0 0 }, 0)
    else
      let k := k.newTable pmm paddr
      match mmap k k.currentPml4tPtr paddr k.windowTop 0 with
      | none => none
      | some (k, false) => some (k, 0)
      | some (k, true) => k.registerTable node

/-- The loop of `mmap` over the levels `ls`, with `pt_vaddr` at `pt`; `none` inside is the return
of `false`. -/
def descend (alloc : Kernel → Option (Kernel × ℕ)) (v : ℕ) :
    List ℕ → Kernel → ℕ → Option (Kernel × Option ℕ)
  | [], k, pt => some (k, some pt)
  | l :: ls, k, pt => do
    let offset := pt + 8 * (getIndex v l).val
    let e ← k.load offset
    if e % 2 = 1 then
      let w ← k.map.getPtblVaddr (pageAlignDown e)
      if w = 0 then some (k, none) else descend alloc v ls k w
    else
      let (k, t) ← alloc k
      let k ← k.store offset (t ||| 7)
      let w ← k.map.getPtblVaddr t
      descend alloc v ls k w

/-- `mmap`, at most `n` calls deep. -/
def mmap : ℕ → Kernel → ℕ → ℕ → ℕ → ℕ → Option (Kernel × Bool)
  | 0, _, _, _, _, _ => none
  | n + 1, k, root, paddr, v, flags => do
    match ← descend (allocPgTable (mmap n)) v [3, 2, 1] k root with
    | (k, none) => some (k, false)
    | (k, some pt) =>
      let k ← k.store (pt + 8 * (getIndex v 0).val) (paddr ||| flags ||| 7)
      some (k, true)

/-- `switch_vm_space`. -/
def switchVmSpace (k : Kernel) (vmm : Vmm) : Option Kernel :=
  (k.map.getPtblVaddr vmm.pml4t).map fun w =>
    { k with cr3 := vmm.pml4t, currentPml4tPtr := w, currentVmm := vmm.head }

/-- `create_new_pml4t`. -/
def createNewPml4t (fuel : ℕ) (k : Kernel) : Option (Kernel × ℕ) := do
  let (k, t) ← k.allocPgTable (mmap fuel)
  let w ← k.map.getPtblVaddr t
  let e ← k.load (k.currentPml4tPtr + 8 * 511)
  let k ← k.store (w + 8 * 511) e
  some (k, t)

/-- A new region object from `kmalloc`, with its fields set. -/
def newRegion (r : Regions) (base length flags : ℕ) (next : Option ℕ) : Regions where
  base := Function.update r.base r.count base
  length := Function.update r.length r.count length
  flags := Function.update r.flags r.count flags
  next := Function.update r.next r.count next
  count := r.count + 1

/-- `create_vmm`. -/
def createVmm (fuel : ℕ) (k : Kernel) : Option (Kernel × Vmm) := do
  let (k, t) ← k.createNewPml4t fuel
  some ({ k with regions := newRegion k.regions 0 0 1 (some kernelTextObj) },
    ⟨k.regions.count, t⟩)

/-- `get_block_vaddr`: the shift is in 32-bit `int` arithmetic, with the count modulo 32. -/
def getBlockVaddr (tableVirtAddr tableIndex tableLevel : ℕ) : ℕ :=
  ((tableVirtAddr + Int.bmod (tableIndex * 2 ^ ((9 * tableLevel + 12) % 32)) (2 ^ 32)) %
    2 ^ 64).toNat

/-- `umap`.  Both ends of the loop are computed from `region_start_addr`. -/
def umap : ℕ → Kernel → ℕ → ℕ → ℕ → ℕ → Option Kernel
  | tableLevel, k, tablePtr, tableVirtAddr, regionStart, regionEnd =>
    let startIndex := (getIndex regionStart tableLevel).val
    let endIndex := (getIndex regionStart tableLevel).val
    (List.range' startIndex (endIndex - startIndex)).foldlM (fun k i => do
      let e ← k.load (tablePtr + 8 * i)
      match tableLevel with
      | level + 1 =>
        let blockStart := getBlockVaddr tableVirtAddr i (level + 1)
        let blockEnd := getBlockVaddr tableVirtAddr (i + 1) (level + 1)
        let startAddr := if regionStart ≤ blockStart then blockStart else regionStart
        let startAddr := if blockEnd ≤ regionEnd then blockStart else startAddr
        let w ← k.map.getPtblVaddr (pageAlignDown e)
        let k ← umap level k w blockStart startAddr regionEnd
        if regionStart ≤ blockStart ∧ blockEnd ≤ regionEnd then
          let e ← k.load (tablePtr + 8 * i)
          let r ← k.map.vmmHashmapRemove (pageAlignDown e)
          store { k with map := r.1 } (tablePtr + 8 * i) 0
        else some k
      | 0 => store { k with pmm := k.pmm.pmmFreePage (pageAlignDown e) } (tablePtr + 8 * i) 0) k

/-- The pages of a region are backed one by one: `n` pages from `v` on, with frames from `args`
on, or from the physical allocator if `args` is null.  Answers whether all calls of `mmap`
succeed. -/
def mapPages (fuel flags : ℕ) : ℕ → Kernel → ℕ → ℕ → Option (Kernel × Bool)
  | 0, k, _, _ => some (k, true)
  | n + 1, k, v, args => do
    let (k, paddr) := if args ≠ 0 then
        ({ k with pmm := (k.pmm.pmmAllocSpecificPage args).1 }, args)
      else ({ k with pmm := k.pmm.pmmAllocPage.1 }, k.pmm.pmmAllocPage.2)
    let (k, ok) ← mmap fuel k k.currentPml4tPtr paddr v flags
    if ok then
      mapPages fuel flags n k ((v + 0x1000) % 2 ^ 64)
        (if args ≠ 0 then (args + 0x1000) % 2 ^ 64 else 0)
    else some (k, false)

/-- The search of `vmm_alloc`: the object that the new region is inserted behind and the base it
gets, or `none` inside for a request that is turned down.  A request at null that finds no gap
leaves the base uninitialised, and has no answer. -/
def findPlace (r : Regions) (head start length : ℕ) : Option (Option (ℕ × ℕ)) :=
  if start = 0 then
    match scan r.next (fun c d => decide
      ((r.base c + r.length c + length) % 2 ^ 64 < r.base d)) (r.count + 1) head with
    | some (c, some _) => some (some (c, (r.base c + r.length c) % 2 ^ 64))
    | _ => none
  else
    match scan r.next (fun c d => decide (r.base c ≤ start ∧ start < r.base d)) (r.count + 1) head with
    | none => none
    | some (c, some d) =>
      if start < (r.base c + r.length c) % 2 ^ 64 ∧ (start + length) % 2 ^ 64 < r.base d then
        some none
      else some (some (c, start))
    | some (c, none) => some (some (c, start))

/-- Insert a new region behind the object `c`. -/
def insertRegion (r : Regions) (c base length flags : ℕ) : Regions :=
  let r' := newRegion r base length flags (r.next c)
  { r' with next := Function.update r'.next c (some r.count) }

/-- `vmm_alloc`; the null pointer is `0`. -/
def vmmAlloc (fuel : ℕ) (k : Kernel) (start length flags args : ℕ) : Option (Kernel × ℕ) := do
  let length := pageAlign length
  let start := pageAlignDown start
  let args := pageAlignDown args
  match ← findPlace k.regions k.currentVmm start length with
  | none => some (k, 0)
  | some (c, found) =>
    let k := { k with regions := insertRegion k.regions c found length flags }
    let (k, ok) ← mapPages fuel flags ((length + 0xfff) % 2 ^ 64 / 0x1000) k found args
    some (k, if ok then found else 0)

/-- The loop of `vmm_lengthen` over the new pages of the object `c`; its end is read afresh in
every step. -/
def lengthenPages (fuel : ℕ) : ℕ → Kernel → ℕ → ℕ → Option (Kernel × Bool)
  | 0, _, _, _ => none
  | n + 1, k, c, v =>
    if v < (k.regions.base c + k.regions.length c) % 2 ^ 64 then
      if isMmio (k.regions.flags c) then some (k, false)
      else do
        let paddr := k.pmm.pmmAllocPage.2
        let k := { k with pmm := k.pmm.pmmAllocPage.1 }
        let (k, ok) ← mmap fuel k k.currentPml4tPtr paddr v (k.regions.flags c)
        if ok then lengthenPages fuel n k c ((v + 0x1000) % 2 ^ 64) else some (k, false)
    else some (k, true)

/-- `vmm_lengthen`; `inc` is an `int`. -/
def vmmLengthen (fuel : ℕ) (k : Kernel) (start : ℕ) (inc : ℤ) : Option (Kernel × Bool) := do
  let inc := pageAlignInt inc
  let r := k.regions
  match ← search r.next (fun c => r.base c == start) (r.count + 1) (some k.currentVmm) with
  | none => some (k, false)
  | some c =>
    let room := match r.next c with
      | some d => decide (((r.base c + r.length c + inc) % 2 ^ 64).toNat ≤ r.base d)
      | none => true
    if room then
      let v := (r.base c + r.length c) % 2 ^ 64
      let length := ((r.length c + inc) % 2 ^ 64).toNat
      let k := { k with regions := { r with length := Function.update r.length c length } }
      lengthenPages fuel fuel k c v
    else some (k, false)

/-- The loop of `vmm_free`, which does not test for the end of the list. -/
def findRegion (r : Regions) (start : ℕ) : ℕ → ℕ → Option (ℕ × ℕ)
  | 0, _ => none
  | n + 1, c =>
    match r.next c with
    | none => none
    | some d => if r.base d = start then some (c, d) else findRegion r start n d

/-- `vmm_free`. -/
def vmmFree (k : Kernel) (start : ℕ) : Option Kernel :=
  let r := k.regions
  if r.base k.currentVmm = start then some k
  else do
    let (c, d) ← findRegion r start (r.count + 1) k.currentVmm
    let k ← umap 3 k k.cr3 k.currentPml4tPtr start ((start + r.length d) % 2 ^ 64)
    some { k with regions := { k.regions with
      next := Function.update k.regions.next c (k.regions.next d) } }

end Kernel

end TitanOS
