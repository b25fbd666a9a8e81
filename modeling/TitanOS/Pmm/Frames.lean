import TitanOS.Pmm.Slots

/-!
# Runs of `pmm_alloc_page`

`pmm_alloc_page` takes the free slots in order.  So after `j` calls a slot is taken if it was
before or if fewer than `j` free slots precede it (`slotTaken_afterFrames`), and the pages that
calls return sooner or later are those of the free slots (`mem_nextFrames`,
`exists_mem_nextFrames`).
-/

namespace TitanOS

/-- The addresses that the next `n` calls of `pmm_alloc_page` return. -/
def Pmm.nextFrames : ℕ → Pmm → List ℕ
  | 0, _ => []
  | n + 1, m => m.pmmAllocPage.2 :: nextFrames n m.pmmAllocPage.1

/-- The allocator after `n` calls of `pmm_alloc_page`. -/
def Pmm.afterFrames : ℕ → Pmm → Pmm
  | 0, m => m
  | n + 1, m => afterFrames n m.pmmAllocPage.1

namespace Pmm

theorem nextFrames_add (a b : ℕ) (m : Pmm) :
    m.nextFrames (a + b) = m.nextFrames a ++ (m.afterFrames a).nextFrames b := by
  induction a generalizing m with
  | zero => simp [nextFrames, afterFrames]
  | succ a ih =>
    rw [Nat.succ_add, nextFrames, ih]
    rfl

theorem afterFrames_add (a b : ℕ) (m : Pmm) :
    m.afterFrames (a + b) = (m.afterFrames a).afterFrames b := by
  induction a generalizing m with
  | zero => simp [afterFrames]
  | succ a ih =>
    rw [Nat.succ_add, afterFrames, ih]
    rfl

/-- The free slots before slot `n`. -/
def freeBelow (m : Pmm) (n : ℕ) : Finset ℕ :=
  (Finset.range n).filter fun i => m.slotTaken i = false

theorem freeBelow_mark {m : Pmm} {f : ℕ} (n : ℕ) :
    (m.mark f).freeBelow n = (m.freeBelow n).erase f := by
  ext i
  simp only [freeBelow, Finset.mem_filter, Finset.mem_range, slotTaken_mark, Finset.mem_erase,
    Bool.or_eq_false_iff, decide_eq_false_iff_not]
  tauto

theorem afterFrames_rows (j : ℕ) (m : Pmm) : (m.afterFrames j).rows = m.rows := by
  induction j generalizing m with
  | zero => rfl
  | succ j ih => rw [afterFrames, ih, pmmAllocPage_rows]

/-- **The slots that are taken after `j` calls.** -/
theorem slotTaken_afterFrames (j : ℕ) (m : Pmm) {n : ℕ} (hn : n < 32 * m.rows) :
    (m.afterFrames j).slotTaken n = true ↔
      m.slotTaken n = true ∨ (m.freeBelow n).card < j := by
  induction j generalizing m with
  | zero => simp [afterFrames]
  | succ j ih =>
    rw [afterFrames, ih _ (by rwa [pmmAllocPage_rows]), pmmAllocPage_eq]
    cases hf : m.firstFree with
    | none =>
      simp [firstFree_eq_none.1 hf n hn]
    | some f =>
      obtain ⟨hfree, -, hlow⟩ := firstFree_eq_some.1 hf
      simp only [slotTaken_mark, Bool.or_eq_true, decide_eq_true_eq, freeBelow_mark]
      rcases lt_trichotomy n f with hnf | rfl | hnf
      · simp [hlow n hnf]
      · have hnone : m.freeBelow n = ∅ := by
          ext i
          simp only [freeBelow, Finset.mem_filter, Finset.mem_range, Finset.notMem_empty, iff_false,
            not_and, Bool.not_eq_false]
          exact fun hi => hlow i hi
        simp [hnone]
      · have hmem : f ∈ m.freeBelow n := by simp [freeBelow, hnf, hfree]
        have hpos : 0 < (m.freeBelow n).card := Finset.card_pos.2 ⟨f, hmem⟩
        rw [Finset.card_erase_of_mem hmem]
        simp only [hnf.ne', or_false]
        exact or_congr_right (by omega)

/-- A page that is returned is null or that of a free slot. -/
theorem mem_nextFrames {N p : ℕ} {m : Pmm} (hp : p ∈ m.nextFrames N) (hp0 : p ≠ 0) :
    ∃ n < 32 * m.rows, m.slotTaken n = false ∧ p = slotAddr n := by
  induction N generalizing m with
  | zero => cases hp
  | succ N ih =>
    rw [nextFrames, List.mem_cons] at hp
    rcases hp with rfl | hp
    · rw [pmmAllocPage_eq] at hp0 ⊢
      cases hf : m.firstFree with
      | none => simp [hf] at hp0
      | some f =>
        obtain ⟨hfree, hlt, -⟩ := firstFree_eq_some.1 hf
        exact ⟨f, hlt, hfree, rfl⟩
    · obtain ⟨n, hn, hfree, rfl⟩ := ih hp
      rw [pmmAllocPage_rows] at hn
      refine ⟨n, hn, ?_, rfl⟩
      rw [pmmAllocPage_eq] at hfree
      cases hf : m.firstFree with
      | none => simpa [hf] using hfree
      | some f =>
        simp only [hf, slotTaken_mark, Bool.or_eq_false_iff] at hfree
        exact hfree.1

/-- The pages that are handed out if the free slots follow each other. -/
theorem nextFrames_eq {m : Pmm} {s n : ℕ} (hn : s + n ≤ 32 * m.rows)
    (htaken : ∀ i < s, m.slotTaken i = true) (hfree : ∀ i, s ≤ i → m.slotTaken i = false) :
    m.nextFrames n = (List.range' s n).map slotAddr := by
  induction n generalizing m s with
  | zero => rfl
  | succ n ih =>
    have hfirst : m.firstFree = some s := firstFree_eq_some.2 ⟨hfree s le_rfl, by omega, htaken⟩
    have hpage : m.pmmAllocPage = (m.mark s, slotAddr s) := by rw [pmmAllocPage_eq, hfirst]
    rw [nextFrames, hpage, List.range'_succ, List.map_cons]
    refine congrArg _ (ih ?_ (fun i hi => ?_) fun i hi => ?_)
    · rw [mark_rows]
      omega
    · rw [slotTaken_mark]
      by_cases his : i = s
      · simp [his]
      · simp [htaken i (by omega)]
    · rw [slotTaken_mark, hfree i (by omega)]
      simpa using (show i ≠ s by omega)

/-- The page of a free slot is returned sooner or later. -/
theorem exists_mem_nextFrames {n : ℕ} {m : Pmm} (hn : n < 32 * m.rows)
    (hfree : m.slotTaken n = false) : ∃ N, slotAddr n ∈ m.nextFrames N := by
  refine ⟨(m.freeBelow n).card + 1, ?_⟩
  rw [nextFrames_add, List.mem_append]
  refine Or.inr ?_
  -- by then all slots before `n` are taken, and `n` is not
  have hfirst : (m.afterFrames (m.freeBelow n).card).firstFree = some n := by
    rw [firstFree_eq_some, afterFrames_rows]
    refine ⟨?_, hn, fun i hi => ?_⟩
    · rw [Bool.eq_false_iff, Ne, slotTaken_afterFrames _ _ hn]
      simp [hfree]
    · rw [slotTaken_afterFrames _ _ (hi.trans hn)]
      by_cases ht : m.slotTaken i = true
      · exact Or.inl ht
      · refine Or.inr (Finset.card_lt_card ⟨fun x hx => ?_, fun hsub => ?_⟩)
        · simp only [freeBelow, Finset.mem_filter, Finset.mem_range] at hx ⊢
          exact ⟨hx.1.trans hi, hx.2⟩
        · have := hsub (show i ∈ m.freeBelow n by simp [freeBelow, hi, ht])
          simp [freeBelow] at this
  simp [nextFrames, pmmAllocPage_eq, hfirst]

end Pmm

end TitanOS
