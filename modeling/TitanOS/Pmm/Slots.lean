import TitanOS.Pmm.Bitmap

/-!
# The bitmap as a set of slots

Every row has 32 distinguishable bits, so the bitmap is a set of *slots*: slot `32 * i + j` is
bit `j` of row `i`.  In these terms the operations of `pmm.c` are short:

* `pmm_alloc_page` takes the first free slot and returns `slotAddr` of it, its number times the
  page size modulo `2 ^ 32` (`pmmAllocPage_eq`);
* `pmm_alloc_specific_page` and `pmm_free_page` mark and clear the slot `slotOf p`
  (`pmmAllocSpecificPage_eq`, `pmmFreePage_eq`).

The slot whose address is `p` is `ownSlot p`.  It is the slot that the last two operations touch
only for the first 32 pages (`slotOf_eq_ownSlot_iff`).
-/

namespace TitanOS

namespace Pmm

/-- Slot `n` is marked. -/
def slotTaken (m : Pmm) (n : ℕ) : Bool := taken (m.bitmap (n / 32)) (n % 32)

/-- Mark slot `n`. -/
def mark (m : Pmm) (n : ℕ) : Pmm := m.setRow (n / 32) (m.bitmap (n / 32) ||| bitMask (n % 32))

/-- Clear slot `n`. -/
def clear (m : Pmm) (n : ℕ) : Pmm :=
  m.setRow (n / 32) (m.bitmap (n / 32) &&& (0xffffffffffffffff#64 ^^^ bitMask (n % 32)))

/-- The first free slot among the scanned rows. -/
def firstFree (m : Pmm) : Option ℕ := (List.range (32 * m.rows)).find? fun n => !m.slotTaken n

/-- The address that `pmm_alloc_page` returns for slot `n`. -/
def slotAddr (n : ℕ) : ℕ := bitmapToPaddr (n % 32) (n / 32)

/-- The slot that `pmm_alloc_specific_page` and `pmm_free_page` touch for `p`. -/
def slotOf (p : ℕ) : ℕ := 32 * (paddrToBitmap p).y + (paddrToBitmap p).x % 32

/-- The slot for which `pmm_alloc_page` returns `p`. -/
def ownSlot (p : ℕ) : ℕ := p / 0x1000

@[simp] theorem setRow_numPages (m : Pmm) (i : ℕ) (w : BitVec 64) :
    (m.setRow i w).numPages = m.numPages := rfl
@[simp] theorem setRow_rows (m : Pmm) (i : ℕ) (w : BitVec 64) : (m.setRow i w).rows = m.rows := rfl
@[simp] theorem mark_rows (m : Pmm) (n : ℕ) : (m.mark n).rows = m.rows := rfl
@[simp] theorem clear_rows (m : Pmm) (n : ℕ) : (m.clear n).rows = m.rows := rfl
@[simp] theorem mark_numPages (m : Pmm) (n : ℕ) : (m.mark n).numPages = m.numPages := rfl

@[simp] theorem slotTaken_mark (m : Pmm) (n k : ℕ) :
    (m.mark n).slotTaken k = (m.slotTaken k || decide (k = n)) := by
  by_cases hrow : k / 32 = n / 32
  · have hk : (k = n) ↔ k % 32 % 32 = n % 32 % 32 := by omega
    simp only [slotTaken, mark, setRow, hrow, Function.update_self, taken_or, hk]
  · have hk : k ≠ n := fun e => hrow (by rw [e])
    simp only [slotTaken, mark, setRow, Function.update_of_ne hrow, hk, decide_false,
      Bool.or_false]

@[simp] theorem slotTaken_clear (m : Pmm) (n k : ℕ) :
    (m.clear n).slotTaken k = (m.slotTaken k && decide (k ≠ n)) := by
  by_cases hrow : k / 32 = n / 32
  · have hk : (k ≠ n) ↔ k % 32 % 32 ≠ n % 32 % 32 := by omega
    simp only [slotTaken, clear, setRow, hrow, Function.update_self, taken_andNot, hk]
  · have hk : k ≠ n := fun e => hrow (by rw [e])
    simp [slotTaken, clear, setRow, Function.update_of_ne hrow, hk]

theorem slotAddr_eq (n : ℕ) : slotAddr n = n * 0x1000 % 2 ^ 32 := by
  have h : n % 32 * 0x1000 + n / 32 * 0x20000 = n * 0x1000 := by omega
  rw [slotAddr, bitmapToPaddr, h]

theorem slotAddr_of_lt {n : ℕ} (h : n < 2 ^ 20) : slotAddr n = n * 0x1000 := by
  rw [slotAddr_eq, Nat.mod_eq_of_lt (by omega)]

theorem slotOf_eq (p : ℕ) : slotOf p = 32 * (p / 0x40000 % 2 ^ 32) + p / 0x1000 % 32 := by
  unfold slotOf paddrToBitmap
  simp only
  omega

/-- The two translations agree on the first 32 pages and nowhere else. -/
theorem slotOf_eq_ownSlot_iff {p : ℕ} (hp : p < 2 ^ 32) : slotOf p = ownSlot p ↔ p < 0x20000 := by
  rw [slotOf_eq, ownSlot]
  omega

/-! ### The scan of `pmm_alloc_page` -/

theorem findBit_eq_some {w : BitVec 64} {j : ℕ} (h : findBit w = some j) :
    j < 32 ∧ taken w j = false ∧ ∀ k < j, taken w k = true := by
  unfold findBit at h
  split_ifs at h
  rw [List.find?_range_eq_some] at h
  obtain ⟨hj, -, hlt⟩ := h
  have hlt' : ∀ k < j, taken w k = true := fun k hk => by simpa using hlt k hk
  refine ⟨?_, by simpa using hj, hlt'⟩
  -- a test from 32 on repeats the one 32 before it
  by_contra hge
  have hrep : taken w (j - 32) = taken w j := by
    rw [← taken_mod, ← taken_mod w j]
    congr 1
    omega
  rw [hlt' (j - 32) (by omega)] at hrep
  simp [← hrep] at hj

theorem findBit_eq_none {w : BitVec 64} (h : findBit w = none) {j : ℕ} : taken w j = true := by
  by_contra hj
  rw [Bool.not_eq_true] at hj
  unfold findBit at h
  rw [if_pos (lt_ones_of_not_taken hj), List.find?_eq_none] at h
  have := h (j % 32) (by simp; omega)
  rw [taken_mod, hj] at this
  exact this rfl

/-- The nested loops stop at the first free slot. -/
theorem findFree_eq (m : Pmm) :
    m.findFree = m.firstFree.map fun n => (n % 32, n / 32) := by
  cases hff : m.findFree with
  | none =>
    have hnone : m.firstFree = none := by
      unfold findFree at hff
      rw [List.findSome?_eq_none_iff] at hff
      rw [firstFree, List.find?_eq_none]
      intro n hn
      rw [List.mem_range] at hn
      have hrow := hff (n / 32) (by rw [List.mem_range]; omega)
      simp [slotTaken, findBit_eq_none (Option.map_eq_none_iff.1 hrow)]
    rw [hnone]
    rfl
  | some ji =>
    obtain ⟨l₁, i, l₂, hl, hi, hbefore⟩ := List.findSome?_eq_some_iff.1 hff
    obtain ⟨j, hj, rfl⟩ := Option.map_eq_some_iff.1 hi
    obtain ⟨hj32, hfree, hlow⟩ := findBit_eq_some hj
    have hlen : l₁.length < m.rows := by
      have := congrArg List.length hl
      simp at this
      omega
    have hil : i = l₁.length := by
      have h1 : (List.range m.rows)[l₁.length]? = some i := by rw [hl]; simp
      rw [List.getElem?_range hlen] at h1
      exact (Option.some.inj h1).symm
    have hmem : ∀ k < i, k ∈ l₁ := by
      intro k hk
      rw [List.mem_iff_getElem?]
      refine ⟨k, ?_⟩
      have h1 : (List.range m.rows)[k]? = some k := List.getElem?_range (by omega)
      rwa [hl, List.getElem?_append_left (by omega)] at h1
    have hsome : m.firstFree = some (32 * i + j) := by
      rw [firstFree, List.find?_range_eq_some]
      have hdiv : (32 * i + j) / 32 = i := by omega
      have hmod : (32 * i + j) % 32 = j := by omega
      refine ⟨by simp [slotTaken, hdiv, hmod, hfree], by simp; omega, fun n hn => ?_⟩
      rw [Bool.not_not, slotTaken]
      by_cases hrow : n / 32 = i
      · rw [hrow]; exact hlow _ (by omega)
      · exact findBit_eq_none (Option.map_eq_none_iff.1 (hbefore (n / 32) (hmem _ (by omega))))
    rw [hsome]
    simp only [Option.map_some, Option.some.injEq, Prod.mk.injEq]
    omega

theorem firstFree_eq_some {m : Pmm} {n : ℕ} : m.firstFree = some n ↔
    m.slotTaken n = false ∧ n < 32 * m.rows ∧ ∀ k < n, m.slotTaken k = true := by
  rw [firstFree, List.find?_range_eq_some]
  simp

theorem firstFree_eq_none {m : Pmm} :
    m.firstFree = none ↔ ∀ n < 32 * m.rows, m.slotTaken n = true := by
  rw [firstFree, List.find?_eq_none]
  simp

/-! ### The operations on slots -/

/-- `pmm_alloc_page` marks the first free slot and returns its address. -/
theorem pmmAllocPage_eq (m : Pmm) : m.pmmAllocPage =
    match m.firstFree with
    | some n => (m.mark n, slotAddr n)
    | none => (m, 0) := by
  unfold pmmAllocPage
  rw [findFree_eq]
  cases m.firstFree <;> rfl

/-- `pmm_alloc_page` returns the address of a page. -/
theorem pmmAllocPage_mod (m : Pmm) : m.pmmAllocPage.2 % 0x1000 = 0 := by
  rw [pmmAllocPage_eq]
  cases m.firstFree with
  | none => rfl
  | some n =>
    simp only [slotAddr_eq]
    omega

theorem pmmAllocSpecificPage_eq (m : Pmm) (p : ℕ) : m.pmmAllocSpecificPage p =
    if m.slotTaken (slotOf p) then (m, true) else (m.mark (slotOf p), false) := by
  have hy : slotOf p / 32 = (paddrToBitmap p).y := by unfold slotOf; omega
  have hx : slotOf p % 32 = (paddrToBitmap p).x % 32 := by unfold slotOf; omega
  have hmask : bitMask ((paddrToBitmap p).x % 32) = bitMask (paddrToBitmap p).x := by
    simp [bitMask]
  simp only [pmmAllocSpecificPage, slotTaken, mark, hy, hx, taken_mod, hmask]

theorem pmmFreePage_eq (m : Pmm) (p : ℕ) : m.pmmFreePage p = m.clear (slotOf p) := by
  have hy : slotOf p / 32 = (paddrToBitmap p).y := by unfold slotOf; omega
  have hx : slotOf p % 32 = (paddrToBitmap p).x % 32 := by unfold slotOf; omega
  have hmask : bitMask ((paddrToBitmap p).x % 32) = bitMask (paddrToBitmap p).x := by
    simp [bitMask]
  simp only [pmmFreePage, clear, hy, hx, hmask]

/-- After `pmm_alloc_specific_page(p)` exactly `slotOf p` is marked in addition. -/
theorem slotTaken_pmmAllocSpecificPage (m : Pmm) (p k : ℕ) :
    (m.pmmAllocSpecificPage p).1.slotTaken k = (m.slotTaken k || decide (k = slotOf p)) := by
  rw [pmmAllocSpecificPage_eq]
  split_ifs with h
  · by_cases hk : k = slotOf p
    · simp [hk, h]
    · simp [hk]
  · exact slotTaken_mark m _ k

theorem pmmAllocSpecificPage_rows (m : Pmm) (p : ℕ) :
    (m.pmmAllocSpecificPage p).1.rows = m.rows := by
  rw [pmmAllocSpecificPage_eq]
  split_ifs <;> rfl

theorem pmmAllocPage_rows (m : Pmm) : m.pmmAllocPage.1.rows = m.rows := by
  rw [pmmAllocPage_eq]
  cases m.firstFree <;> rfl

end Pmm

end TitanOS
