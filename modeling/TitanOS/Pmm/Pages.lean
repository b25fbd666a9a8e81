import TitanOS.Pmm.Frames

/-!
# Pages and their slots

The queries and claims of `pmm.c` are keyed by a page, and reach the bitmap through
`paddr_to_bitmap`, whose rows are 64 pages long; `pmm_alloc_page` counts slots, 32 to a row.

* From an empty bitmap `pmm_alloc_page` returns the pages in order (`zeroed_consecutive`): with
  the stride of 32 slots per row its address arithmetic is exact up to 4 GiB.
* It agrees with `pmm_check_page_taken` only while it stays among the first 32 pages and does not
  return page 0 (`allocAgrees_iff`).
* Two pages share a slot when they lie 32 apart in one block of 64 (`slotOf_eq_slotOf_iff`), and
  exactly then claiming or releasing one changes the answer about the other
  (`keyedToPage_iff`).
* The two translations are inverse to each other on the first row only (`coords_inverse_iff`).
-/

namespace TitanOS

namespace Pmm

/-! ### Pages handed out from an empty bitmap -/

/-- The allocator after its bitmap has been filled with zeros. -/
def zeroed (m : Pmm) : Pmm := { m with bitmap := fun _ => 0#64 }

theorem zeroed_slotTaken (m : Pmm) (n : ℕ) : m.zeroed.slotTaken n = false := by
  simp [zeroed, slotTaken, taken]

theorem zeroed_nextFrames {m : Pmm} {n : ℕ} (hn : n ≤ min (2 ^ 20) (32 * m.rows)) :
    m.zeroed.nextFrames n = (List.range n).map (· * 0x1000) := by
  obtain ⟨hn20, hrows⟩ := le_min_iff.1 hn
  have hpages := @nextFrames_eq m.zeroed 0 n (by simpa [zeroed, rows] using hrows)
    (fun i hi => absurd hi (Nat.not_lt_zero i)) fun i _ => m.zeroed_slotTaken i
  rw [hpages, ← List.range_eq_range']
  refine List.map_congr_left fun i hi => ?_
  have := List.mem_range.1 hi
  exact slotAddr_of_lt (by omega)

/-- **Consecutive pages.**  From an empty bitmap, the `n`th call of `pmm_alloc_page` returns
`n * 0x1000`, as long as there are rows left and the address is below 4 GiB. -/
theorem zeroed_consecutive (m : Pmm) :
    (∀ n < min (2 ^ 20) (32 * (m.numPages / 64)),
      (m.zeroed.afterFrames n).pmmAllocPage.2 = n * 0x1000) ∧
    (m.zeroed.nextFrames (min (2 ^ 20) (32 * (m.numPages / 64)))).Nodup := by
  constructor
  · intro n hn
    have hlast : m.zeroed.nextFrames (n + 1) =
        m.zeroed.nextFrames n ++ [(m.zeroed.afterFrames n).pmmAllocPage.2] :=
      nextFrames_add n 1 m.zeroed
    rw [@zeroed_nextFrames m (n + 1) hn, @zeroed_nextFrames m n hn.le, List.range_succ,
      List.map_append] at hlast
    simpa using (List.append_cancel_left hlast).symm
  · have hall := @zeroed_nextFrames m _ le_rfl
    rw [rows] at hall
    rw [hall]
    exact List.nodup_range.map fun i j hij => by simpa using hij

/-! ### The allocator and the query -/

/-- `pmm_check_page_taken` reads the slot of the page. -/
theorem pmmCheckPageTaken_eq (m : Pmm) (p : ℕ) :
    m.pmmCheckPageTaken p = m.slotTaken (slotOf p) := by
  have hy : slotOf p / 32 = (paddrToBitmap p).y := by unfold slotOf; omega
  have hx : slotOf p % 32 = (paddrToBitmap p).x % 32 := by unfold slotOf; omega
  rw [pmmCheckPageTaken, slotTaken, hy, hx, taken_mod]

/-- The slot that the query reads for the page with index `i`. -/
theorem slotOf_page (m : Pmm) {i : ℕ} (hi : i < m.numPages) :
    slotOf (i * 0x1000) = 32 * (i / 64) + i % 32 := by
  have := m.rows_lt
  rw [slotOf_eq]
  omega

/-- `pmm_alloc_page` returns null exactly when every page is reported taken; a page that it
returns was reported free before the call and is reported taken after it. -/
def AllocAgrees (m : Pmm) : Prop :=
  (m.pmmAllocPage.2 = 0 ↔ ∀ i < m.numPages, m.pmmCheckPageTaken (i * 0x1000) = true) ∧
    (m.pmmAllocPage.2 ≠ 0 → m.pmmCheckPageTaken m.pmmAllocPage.2 = false ∧
      m.pmmAllocPage.1.pmmCheckPageTaken m.pmmAllocPage.2 = true)

/-- A free slot is reported through the first page of its row that reads it. -/
theorem checkPageTaken_of_slot (m : Pmm) {n : ℕ} (hn : n < 32 * m.rows) :
    64 * (n / 32) + n % 32 < m.numPages ∧
      m.pmmCheckPageTaken ((64 * (n / 32) + n % 32) * 0x1000) = m.slotTaken n := by
  have hlt : 64 * (n / 32) + n % 32 < m.numPages := by
    unfold rows at hn
    omega
  refine ⟨hlt, ?_⟩
  rw [pmmCheckPageTaken_eq, slotOf_page m hlt]
  congr 1
  omega

/-- When every page is reported taken, the scan finds nothing. -/
theorem firstFree_of_allTaken {m : Pmm}
    (h : ∀ i < m.numPages, m.pmmCheckPageTaken (i * 0x1000) = true) : m.firstFree = none :=
  firstFree_eq_none.2 fun _ hn => by
    obtain ⟨hlt, hslot⟩ := m.checkPageTaken_of_slot hn
    rw [← hslot, h _ hlt]

/-- The slot that the query reads for the page of slot `n` is `n` itself only among the first
32, and lies before `n` otherwise. -/
theorem slotOf_slotAddr (n : ℕ) :
    (n < 32 → slotOf (slotAddr n) = n) ∧ (32 ≤ n → slotOf (slotAddr n) < n) := by
  rw [slotOf_eq, slotAddr_eq]
  omega

/-- The allocator that stops at slot `n` agrees with the query iff `n` is one of the slots 1
to 31. -/
theorem allocAgrees_iff_of_some {m : Pmm} {n : ℕ} (hn : m.firstFree = some n) :
    m.AllocAgrees ↔ 0 < n ∧ n < 32 := by
  obtain ⟨hfree, hrows, hlow⟩ := firstFree_eq_some.1 hn
  have hpage : m.pmmAllocPage = (m.mark n, slotAddr n) := by rw [pmmAllocPage_eq, hn]
  -- not every page is reported taken, so null may not be returned
  have hnull : ¬ ∀ i < m.numPages, m.pmmCheckPageTaken (i * 0x1000) = true := by
    intro hall
    rw [firstFree_of_allTaken hall] at hn
    cases hn
  rw [AllocAgrees, hpage, iff_false_right hnull]
  simp only [pmmCheckPageTaken_eq, slotTaken_mark]
  constructor
  · rintro ⟨h0, hagree⟩
    have hbefore := (hagree h0).1
    have hn32 : n < 32 := by
      by_contra hge
      rw [hlow _ ((slotOf_slotAddr n).2 (by omega))] at hbefore
      cases hbefore
    refine ⟨Nat.pos_of_ne_zero ?_, hn32⟩
    rintro rfl
    exact h0 rfl
  · rintro ⟨hpos, hn32⟩
    have haddr := @slotAddr_of_lt n (by omega)
    refine ⟨by omega, fun _ => ?_⟩
    rw [(slotOf_slotAddr n).1 hn32]
    simp [hfree]

/-- The allocator that finds nothing agrees with the query iff the pages behind the last full row
are reported taken too. -/
theorem allocAgrees_iff_of_none {m : Pmm} (hn : m.firstFree = none) :
    m.AllocAgrees ↔ ∀ i < m.numPages, m.pmmCheckPageTaken (i * 0x1000) = true := by
  have hpage : m.pmmAllocPage = (m, 0) := by rw [pmmAllocPage_eq, hn]
  simp [AllocAgrees, hpage]

/-- **When the allocator agrees with the query**: every page is reported taken, or page 0 is and
one of the pages 1 to 31 is not. -/
theorem allocAgrees_iff (m : Pmm) : m.AllocAgrees ↔
    (∀ i < m.numPages, m.pmmCheckPageTaken (i * 0x1000) = true) ∨
      (64 ≤ m.numPages ∧ m.pmmCheckPageTaken 0 = true ∧
        ∃ i < 32, m.pmmCheckPageTaken (i * 0x1000) = false) := by
  have hslot : ∀ i < 32, slotOf (i * 0x1000) = i := fun i hi => by rw [slotOf_eq]; omega
  have hzero : m.pmmCheckPageTaken 0 = m.slotTaken 0 := by
    rw [pmmCheckPageTaken_eq]
    rfl
  cases hff : m.firstFree with
  | none =>
    rw [allocAgrees_iff_of_none hff]
    refine ⟨Or.inl, ?_⟩
    rintro (hall | ⟨h64, -, i, hi, hfree⟩)
    · exact hall
    · -- the free page is read from the first row, which was scanned
      rw [pmmCheckPageTaken_eq, hslot i hi,
        firstFree_eq_none.1 hff i (by unfold rows; omega)] at hfree
      cases hfree
  | some n =>
    obtain ⟨hfree, hrows, hlow⟩ := firstFree_eq_some.1 hff
    rw [allocAgrees_iff_of_some hff]
    constructor
    · rintro ⟨hpos, hn32⟩
      refine Or.inr ⟨by unfold rows at hrows; omega, hzero.trans (hlow 0 hpos), n, hn32, ?_⟩
      rw [pmmCheckPageTaken_eq, hslot n hn32, hfree]
    · rintro (hall | ⟨-, h0, i, hi, hfreei⟩)
      · rw [firstFree_of_allTaken hall] at hff
        cases hff
      · rw [pmmCheckPageTaken_eq, hslot i hi] at hfreei
        have hni : ¬ i < n := fun h => by simp [hlow i h] at hfreei
        refine ⟨Nat.pos_of_ne_zero ?_, by omega⟩
        rintro rfl
        rw [hzero, hfree] at h0
        cases h0

/-- Page 0 is free and is handed out, which reads as a failure. -/
theorem page_zero_is_null : ¬ (zeroed ⟨0x8000, fun _ => 0, by decide⟩).AllocAgrees := by
  rw [allocAgrees_iff_of_some (firstFree_eq_some.2 ⟨zeroed_slotTaken _ 0, by decide, by simp⟩)]
  omega

/-! ### Claiming and releasing one page -/

/-- What `pmm_alloc_specific_page(p)` and `pmm_free_page(p)` are to do, and that they leave the
answer about `q` alone. -/
def KeyedToPage (m : Pmm) (p q : ℕ) : Prop :=
  (m.pmmAllocSpecificPage p).1.pmmCheckPageTaken p = true ∧
    (m.pmmFreePage p).pmmCheckPageTaken p = false ∧
    ((m.pmmAllocSpecificPage p).2 = true ↔ m.pmmCheckPageTaken p = true) ∧
    (q ≠ p → (m.pmmAllocSpecificPage p).1.pmmCheckPageTaken q = m.pmmCheckPageTaken q ∧
      (m.pmmFreePage p).pmmCheckPageTaken q = m.pmmCheckPageTaken q)

/-- Two pages share a slot iff they lie in one block of 64 pages at the same place modulo 32. -/
theorem slotOf_eq_slotOf_iff {m : Pmm} {p q : ℕ} (hp : p / 0x1000 < m.numPages)
    (hq : q / 0x1000 < m.numPages) : slotOf p = slotOf q ↔
      p / 0x40000 = q / 0x40000 ∧ p / 0x1000 % 32 = q / 0x1000 % 32 := by
  have := m.rows_lt
  rw [slotOf_eq, slotOf_eq]
  omega

theorem keyedToPage_iff_slotOf (m : Pmm) (p q : ℕ) :
    m.KeyedToPage p q ↔ q = p ∨ slotOf q ≠ slotOf p := by
  have hret : (m.pmmAllocSpecificPage p).2 = m.slotTaken (slotOf p) := by
    rw [pmmAllocSpecificPage_eq]
    split_ifs with h
    · exact h.symm
    · simpa using h
  simp only [KeyedToPage, pmmCheckPageTaken_eq, slotTaken_pmmAllocSpecificPage, pmmFreePage_eq,
    slotTaken_clear, hret, decide_true, Bool.or_true, true_and, ne_eq, not_true_eq_false,
    decide_false, Bool.and_false]
  by_cases hqp : q = p
  · simp [hqp]
  · by_cases hslot : slotOf q = slotOf p
    · -- claiming makes the answer about `q` true and releasing makes it false
      cases ht : m.slotTaken (slotOf p) <;> simp [hqp, hslot, ht]
    · simp [hqp, hslot]

/-- **When claiming and releasing act on one page only**: unless the two pages are 32 apart in one
block of 64. -/
theorem keyedToPage_iff (m : Pmm) {p q : ℕ} (hp : p % 0x1000 = 0 ∧ p / 0x1000 < m.numPages)
    (hq : q % 0x1000 = 0 ∧ q / 0x1000 < m.numPages) :
    m.KeyedToPage p q ↔ ¬ (p / 0x40000 = q / 0x40000 ∧ (p = q + 0x20000 ∨ q = p + 0x20000)) := by
  rw [keyedToPage_iff_slotOf, ← not_iff_not, not_or, not_not, not_not,
    slotOf_eq_slotOf_iff hq.2 hp.2]
  omega

/-- Pages 0 and 31 have slots of their own. -/
theorem keyedToPage_thirtyOne :
    (zeroed ⟨0x8000, fun _ => 0, by decide⟩).KeyedToPage 0 0x1f000 :=
  (keyedToPage_iff _ (by decide) (by decide)).2 (by decide)

/-- Claiming page 0 makes page 32 appear taken. -/
theorem page_zero_claims_page_thirtyTwo :
    ¬ (zeroed ⟨0x8000, fun _ => 0, by decide⟩).KeyedToPage 0 0x20000 := by
  rw [keyedToPage_iff_slotOf]
  decide

/-! ### The two translations -/

/-- What comes back for a page: its row counts for half of its length. -/
theorem bitmapToPaddr_paddrToBitmap {p : ℕ} (hp : p % 0x1000 = 0) (hlt : p / 0x1000 < 0x8C0000) :
    bitmapToPaddr (paddrToBitmap p).x (paddrToBitmap p).y = (p - p / 0x40000 * 0x20000) % 2 ^ 32 := by
  simp only [paddrToBitmap, bitmapToPaddr]
  congr 1
  omega

/-- What comes back for a bit: the number of its slot, cut in rows of 64. -/
theorem paddrToBitmap_bitmapToPaddr (x y : ℕ) : paddrToBitmap (bitmapToPaddr x y) =
    ⟨(x + 32 * y) % 2 ^ 20 / 64, (x + 32 * y) % 64⟩ := by
  simp only [paddrToBitmap, bitmapToPaddr, BitmapCoords.mk.injEq]
  omega

/-- **Where the two translations are inverse to each other**: on the 64 pages of the first row, and
for the bits of the first row. -/
theorem coords_inverse_iff (m : Pmm) (hn : m.numPages ≤ 0x8C0000) :
    (∀ p, p % 0x1000 = 0 → p / 0x1000 < m.numPages →
      (bitmapToPaddr (paddrToBitmap p).x (paddrToBitmap p).y = p ↔ p < 0x40000)) ∧
    (∀ x y, y < m.numPages / 64 → x < 64 →
      (paddrToBitmap (bitmapToPaddr x y) = ⟨y, x⟩ ↔ y = 0)) := by
  constructor
  · intro p hp hlt
    have hback := bitmapToPaddr_paddrToBitmap hp (by omega)
    rw [hback]
    omega
  · intro x y hy hx
    rw [paddrToBitmap_bitmapToPaddr, BitmapCoords.mk.injEq]
    omega

/-- With the largest bitmap, beyond 4 GiB: the last page of the first row and its last bit. -/
theorem coords_inverse_firstRow :
    bitmapToPaddr (paddrToBitmap 0x3f000).x (paddrToBitmap 0x3f000).y = 0x3f000 ∧
      paddrToBitmap (bitmapToPaddr 63 0) = ⟨0, 63⟩ := by
  have hboth := coords_inverse_iff ⟨0x8C0000, fun _ => 0, by decide⟩ le_rfl
  exact ⟨(hboth.1 0x3f000 (by decide) (by decide)).2 (by decide),
    (hboth.2 63 0 (by decide) (by decide)).2 rfl⟩

/-- The first page and the first bit of the second row. -/
theorem second_row_not_inverse :
    bitmapToPaddr (paddrToBitmap 0x40000).x (paddrToBitmap 0x40000).y ≠ 0x40000 ∧
      paddrToBitmap (bitmapToPaddr 0 1) ≠ ⟨1, 0⟩ := by
  decide

end Pmm

end TitanOS
