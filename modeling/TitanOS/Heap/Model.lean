import Mathlib.Tactic

/-!
# The kernel heap (`kernel_heap_manager.c`)

The heap is a sequence of blocks in memory: a packed five-byte header (`used`, one byte, and
`size`, four bytes, least significant first) followed by `size` bytes of payload.  The next header
is found by adding `size + 5`.  Memory is modelled byte by byte, because headers are written by
hand and nothing prevents one from landing on another.

Growing the heap calls `vmm_lengthen`; its answers are a parameter `lengthens`, indexed by the
number `calls` of calls made so far, and memory behind `heapEnd` holds whatever it holds.  The
loops of `kmalloc` take fuel and answer `none` when it runs out.

The local `new_region` that `kmalloc` fills in after growing the heap in its third case is a
variable on the stack; writing it has no effect on the heap and is left out.
-/

namespace TitanOS

/-- `KERNEL_HEAP_START`. -/
@[irreducible] def heapStart : ℕ := 0xffffff8000200000

/-- Memory, `heap_end`, and the number of calls of `vmm_lengthen` so far. -/
structure Heap where
  mem : ℕ → UInt8
  heapEnd : ℕ
  calls : ℕ

/-- A value converted to a 32-bit `int`. -/
def toInt32 (n : ℕ) : ℤ := Int.bmod n (2 ^ 32)

/-- `PAGE_ROUND`: the number of pages that `n` bytes need. -/
def pageRound (n : ℕ) : ℕ := (n + 0xfff) / 0x1000

namespace Heap

/-- `->used` of the header at `a`. -/
def used (h : Heap) (a : ℕ) : Bool := h.mem a != 0

/-- `->size` of the header at `a`. -/
def size (h : Heap) (a : ℕ) : ℕ :=
  (h.mem (a + 1)).toNat + 0x100 * (h.mem (a + 2)).toNat + 0x10000 * (h.mem (a + 3)).toNat +
    0x1000000 * (h.mem (a + 4)).toNat

/-- Assign `->used`. -/
def setUsed (h : Heap) (a : ℕ) (b : Bool) : Heap :=
  { h with mem := Function.update h.mem a (if b then 1 else 0) }

/-- Assign `->size`, a `uint32_t`. -/
def setSize (h : Heap) (a n : ℕ) : Heap :=
  { h with mem := fun x =>
      if x = a + 1 then UInt8.ofNat n
      else if x = a + 2 then UInt8.ofNat (n / 0x100)
      else if x = a + 3 then UInt8.ofNat (n / 0x10000)
      else if x = a + 4 then UInt8.ofNat (n / 0x1000000)
      else h.mem x }

/-- `go_to_next_memory_region`. -/
def goToNextMemoryRegion (h : Heap) (a : ℕ) : ℕ := (a + h.size a + 5) % 2 ^ 64

/-- `get_more_pages`: one page is requested whatever `num_pages` is. -/
def getMorePages (lengthens : ℕ → Bool) (h : Heap) (numPages : ℤ) : Heap :=
  if lengthens h.calls then
    { h with
      heapEnd := ((h.heapEnd + 0x1000 * numPages) % 2 ^ 64).toNat
      calls := h.calls + 1 }
  else { h with calls := h.calls + 1 }

/-- `write_new_mem_reg` on a header of the heap. -/
def writeNewMemReg (h : Heap) (a : ℕ) : Heap :=
  (h.setUsed a false).setSize a (((h.heapEnd : ℤ) - a) % 2 ^ 32).toNat

/-- Hand out the block at `a` cut to `size`, with a free block behind it that makes up for the
rest of `total`: the assignments shared by the two places of `kmalloc` that split. -/
def split (h : Heap) (a size total : ℕ) : Heap :=
  let h := (h.setUsed a true).setSize a size
  let next := h.goToNextMemoryRegion a
  (h.setUsed next false).setSize next (((total : ℤ) - size - 5) % 2 ^ 32).toNat

/-- Case 2 of `kmalloc`; the comparison is in 64-bit unsigned arithmetic. -/
def takeBlock (h : Heap) (a size : ℕ) : Heap :=
  if size < (((h.size a : ℤ) - 5) % 2 ^ 64).toNat then h.split a size (h.size a)
  else h.setUsed a true

/-- The end of case 3; the comparison is in 32-bit unsigned arithmetic, and without a split the
recorded size stays as it was. -/
def takeMerged (h : Heap) (a size total : ℕ) : Heap :=
  if size < (((total : ℤ) - 5) % 2 ^ 32).toNat then h.split a size total else h.setUsed a true

/-- The inner loop of case 3, with `next` at `nxt` and `mem_reg_size` at `total`.  It hands out
the merged block (`inl`) or leaves the used block it met (`inr`). -/
def mergeLoop (lengthens : ℕ → Bool) (curr size : ℕ) :
    ℕ → Heap → ℕ → ℕ → Option (Heap × (ℕ ⊕ ℕ))
  | 0, _, _, _ => none
  | n + 1, h, nxt, total =>
    if h.used nxt then some (h, .inr nxt)
    else
      let total := (total + h.size nxt + 5) % 2 ^ 32
      if size ≤ total then some (h.takeMerged curr size total, .inl (curr + 5))
      else
        let nxt := h.goToNextMemoryRegion nxt
        let h := if h.heapEnd ≤ nxt then
            h.getMorePages lengthens (toInt32 (pageRound (size - total))) else h
        mergeLoop lengthens curr size n h nxt total

/-- The outer loop of `kmalloc`, at `curr_mem_region`. -/
def kmallocLoop (lengthens : ℕ → Bool) (size : ℕ) : ℕ → Heap → ℕ → Option (Heap × ℕ)
  | 0, _, _ => none
  | n + 1, h, curr =>
    let h := if h.heapEnd ≤ curr then (h.getMorePages lengthens 1).writeNewMemReg curr else h
    if h.used curr then kmallocLoop lengthens size n h (h.goToNextMemoryRegion curr)
    else if size ≤ h.size curr then some (h.takeBlock curr size, curr + 5)
    else
      let total := h.size curr
      let nxt := h.goToNextMemoryRegion curr
      let h := if h.heapEnd ≤ nxt then
          h.getMorePages lengthens (toInt32 (pageRound (size - total))) else h
      match mergeLoop lengthens curr size n h nxt total with
      | none => none
      | some (h, .inl p) => some (h, p)
      | some (h, .inr nxt) => kmallocLoop lengthens size n h (h.goToNextMemoryRegion nxt)

/-- `kmalloc`. -/
def kmalloc (lengthens : ℕ → Bool) (fuel : ℕ) (h : Heap) (size : ℕ) : Option (Heap × ℕ) :=
  kmallocLoop lengthens size fuel h heapStart

/-- `kfree`. -/
def kfree (h : Heap) (p : ℕ) : Heap := h.setUsed (p - 5) false

/-- `kheap_init`, on a heap of one page with arbitrary contents. -/
def kheapInit (mem : ℕ → UInt8) : Heap :=
  let h : Heap := ⟨mem, heapStart + 0x1000, 0⟩
  (h.setUsed heapStart false).setSize heapStart (((h.heapEnd : ℤ) - heapStart - 5) % 2 ^ 32).toNat

/-! ### Reading headers after writing them -/

variable (h : Heap) (a b n x : ℕ)

@[simp] theorem setUsed_heapEnd (u : Bool) : (h.setUsed a u).heapEnd = h.heapEnd := rfl
@[simp] theorem setSize_heapEnd : (h.setSize a n).heapEnd = h.heapEnd := rfl
@[simp] theorem setUsed_calls (u : Bool) : (h.setUsed a u).calls = h.calls := rfl
@[simp] theorem setSize_calls : (h.setSize a n).calls = h.calls := rfl

@[simp] theorem getMorePages_calls (lengthens : ℕ → Bool) (k : ℤ) :
    (h.getMorePages lengthens k).calls = h.calls + 1 := by
  unfold getMorePages
  split <;> rfl

@[simp] theorem writeNewMemReg_calls : (h.writeNewMemReg a).calls = h.calls := rfl

@[simp] theorem takeBlock_calls : (h.takeBlock a n).calls = h.calls := by
  unfold takeBlock
  split <;> rfl

@[simp] theorem takeMerged_calls : (h.takeMerged a n x).calls = h.calls := by
  unfold takeMerged
  split <;> rfl

@[simp] theorem takeBlock_heapEnd : (h.takeBlock a n).heapEnd = h.heapEnd := by
  unfold takeBlock
  split <;> rfl

@[simp] theorem takeMerged_heapEnd : (h.takeMerged a n x).heapEnd = h.heapEnd := by
  unfold takeMerged
  split <;> rfl

theorem size_lt : h.size a < 2 ^ 32 := by
  have h1 := (h.mem (a + 1)).toNat_lt
  have h2 := (h.mem (a + 2)).toNat_lt
  have h3 := (h.mem (a + 3)).toNat_lt
  have h4 := (h.mem (a + 4)).toNat_lt
  unfold size
  omega

@[simp] theorem used_setUsed_self (u : Bool) : (h.setUsed a u).used a = u := by
  cases u <;> simp [used, setUsed]

@[simp] theorem used_setSize_self : (h.setSize a n).used a = h.used a := by simp [used, setSize]

@[simp] theorem size_setUsed_self (u : Bool) : (h.setUsed a u).size a = h.size a := by
  simp [size, setUsed]

@[simp] theorem size_setSize_self : (h.setSize a n).size a = n % 2 ^ 32 := by
  simp only [size, setSize, if_true, Nat.add_right_inj, Nat.reduceEqDiff, if_false,
    UInt8.toNat_ofNat']
  omega

/-- Writing `used` changes one byte. -/
theorem setUsed_mem_of_ne {u : Bool} (hx : x ≠ a) : (h.setUsed a u).mem x = h.mem x := by
  simp [setUsed, hx]

/-- Writing `size` changes four bytes. -/
theorem setSize_mem_of_ne (hx : x ≤ a ∨ a + 5 ≤ x) : (h.setSize a n).mem x = h.mem x := by
  simp only [setSize]
  rw [if_neg (by omega), if_neg (by omega), if_neg (by omega), if_neg (by omega)]

end Heap

end TitanOS
