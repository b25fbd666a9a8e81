import TitanOS.Heap.Refused

/-!
# When the heap is given more pages

`get_more_pages` asks `vmm_lengthen` for one page whatever is needed, moves `heap_end` by the number
of pages that is needed, and the header of the new block gives it five bytes too many or, in the
third case of `kmalloc`, is not written at all.  So even when every request for pages is granted,
growing the heap does not leave it consistent.

* If the last block is used and a page suffices, the new block ends five bytes behind the heap
  (`not_growthConsistent_small`).
* In all other cases the loops go by a header that nothing has written.  For every chain and every
  request there is a header that leads them astray (`LeadsAstray`): where more than one page is
  needed, `heap_end` moves past what is backed; where one is enough, a block behind the backed pages
  is handed out.
-/

namespace TitanOS

open Block

namespace Heap

/-- `vmm_lengthen` returns true. -/
def grant : ℕ → Bool := fun _ => true

/-- The end of what is backed after the call that leads from `h` to `h'`: every call of
`vmm_lengthen` backs one page, which is all that it is asked for. -/
def backedEnd (h h' : Heap) : ℕ := h.heapEnd + 0x1000 * (h'.calls - h.calls)

/-- `kmalloc(n)` returns a payload inside the backed range, `heap_end` is the end of that range, and
the chain tiles the heap again. -/
def GrowthConsistent (h : Heap) (n : ℕ) : Prop :=
  ∃ fuel h' q bs', h.kmalloc grant fuel n = some (h', q) ∧ heapStart + 5 ≤ q ∧
    q + n ≤ h.backedEnd h' ∧ h'.heapEnd = h.backedEnd h' ∧ h'.Tiles heapStart bs' h'.heapEnd

variable {lengthens : ℕ → Bool} {h h' g : Heap} {n a e e' curr x total fuel q : ℕ}
  {bs l l' : List Block}

theorem Returns.unique {s r r' : Heap × ℕ} (hr : Returns lengthens n s r)
    (hr' : Returns lengthens n s r') : r = r' := by
  obtain ⟨fuel, hf⟩ := hr
  obtain ⟨fuel', hf'⟩ := hr'
  have hmax := kmallocLoop_mono (le_max_left fuel fuel') hf
  rw [kmallocLoop_mono (le_max_right fuel fuel') hf'] at hmax
  exact (Option.some.inj hmax).symm

/-- The sizes are 32 bits wide, so that larger requests are never served. -/
theorem lt_of_mergeLoop (hf : mergeLoop lengthens curr n fuel h x total = some (h', .inl q)) :
    n < 2 ^ 32 := by
  induction fuel generalizing h x total with
  | zero => cases hf
  | succ fuel ih =>
    simp only [mergeLoop] at hf
    split_ifs at hf with hu hfit hend
    · cases hf
    · exact hfit.trans_lt (Nat.mod_lt _ (by norm_num))
    · exact ih hf
    · exact ih hf

theorem lt_of_kmallocLoop (hf : kmallocLoop lengthens n fuel h curr = some (h', q)) :
    n < 2 ^ 32 := by
  induction fuel generalizing h curr with
  | zero => cases hf
  | succ fuel ih =>
    rw [kmallocLoop_succ] at hf
    simp only at hf
    split_ifs at hf with hu hfit
    · exact ih hf
    · exact hfit.trans_lt (size_lt _ _)
    · obtain ⟨⟨g, p | nxt⟩, hx, hr⟩ := Option.bind_eq_some_iff.1 hf
      · exact lt_of_mergeLoop hx
      · exact ih hr

/-- Two chains from one place follow the same headers. -/
theorem Tiles.prefix (ht : h.Tiles a l e) (ht' : h.Tiles a l' e') (he : e ≤ e') :
    ∃ l'', l' = l ++ l'' := by
  induction l generalizing a l' with
  | nil => exact ⟨l', rfl⟩
  | cons b l ih =>
    cases l' with
    | nil =>
      have hend := ht.end_eq
      rw [span_cons] at hend
      have : a = e' := ht'
      omega
    | cons c l' =>
      obtain ⟨hu, hs, ht⟩ := ht
      obtain ⟨hu', hs', ht'⟩ := ht'
      obtain ⟨u, s⟩ := b
      obtain ⟨u', s'⟩ := c
      obtain rfl : u = u' := hu.symm.trans hu'
      obtain rfl : s = s' := hs.symm.trans hs'
      obtain ⟨l'', rfl⟩ := ih ht ht'
      exact ⟨l'', rfl⟩

/-! ### One page behind a used block -/

theorem getMorePages_grant (k : ℤ) : (h.getMorePages grant k).heapEnd =
    ((h.heapEnd + 0x1000 * k) % 2 ^ 64).toNat := rfl

/-- Behind `heap_end` the outer loop gets a page and writes a header that counts it whole. -/
theorem arrive_grant (hroom : h.heapEnd + 0x1000 < 2 ^ 64) (hx : h.heapEnd ≤ x) :
    (h.arrive grant x).heapEnd = h.heapEnd + 0x1000 ∧ (h.arrive grant x).calls = h.calls + 1 ∧
      (h.arrive grant x).used x = false ∧
      (h.arrive grant x).size x = (((h.heapEnd : ℤ) + 0x1000 - x) % 2 ^ 32).toNat ∧
      ∀ y, y < x ∨ x + 5 ≤ y → (h.arrive grant x).mem y = h.mem y := by
  have hend : ((h.heapEnd + 0x1000 * 1 : ℤ) % 2 ^ 64).toNat = h.heapEnd + 0x1000 := by omega
  have hcast : (((h.heapEnd + 0x1000 : ℕ) : ℤ) - x) % 2 ^ 32 =
      ((h.heapEnd : ℤ) + 0x1000 - x) % 2 ^ 32 := by push_cast; rfl
  have hmod : (((h.heapEnd : ℤ) + 0x1000 - x) % 2 ^ 32).toNat % 2 ^ 32 =
      (((h.heapEnd : ℤ) + 0x1000 - x) % 2 ^ 32).toNat := by omega
  rw [arrive, if_pos hx]
  refine ⟨?_, by simp, ?_, ?_, fun y hy => ?_⟩
  · rw [← hend]
    rfl
  · rw [writeNewMemReg, used_setSize_self, used_setUsed_self]
  · rw [writeNewMemReg, size_setSize_self, getMorePages_grant, hend, hcast, hmod]
  · rw [writeNewMemReg, setSize_mem_of_ne _ _ _ _ (by omega), setUsed_mem_of_ne _ _ _ (by omega),
      getMorePages_mem]

/-- A block of a page and five bytes leaves no header where the page ends. -/
theorem not_tiles_takeBlock (hs : h.size a = 0x1000) (ha : a + 0x1005 < 2 ^ 64) (hn : n ≤ 0x1000) :
    ¬ (h.takeBlock a n).Tiles a l (a + 0x1000) := by
  intro ht
  have hend := ht.end_eq
  by_cases hsplit : n < 0x1000 - 5
  · have hblock : h.takeBlock a n = h.split a n 0x1000 := by
      rw [takeBlock, hs, if_pos (by omega)]
    rw [hblock] at ht
    obtain ⟨l'', hl⟩ := ht.prefix (@split_tiles h a n 0x1000 (by omega) (by norm_num)
      (by omega)).1 (by omega)
    rcases l with - | ⟨b, - | ⟨c, - | ⟨d, l⟩⟩⟩
    · simp at hend
    · simp only [List.cons_append, List.cons.injEq] at hl
      rw [← hl.1] at hend
      simp only [span_cons, span_nil] at hend
      omega
    · simp only [List.cons_append, List.cons.injEq] at hl
      rw [← hl.1, ← hl.2.1] at hend
      simp only [span_cons, span_nil] at hend
      omega
    · simp at hl
  · have hblock : h.takeBlock a n = h.setUsed a true := by
      rw [takeBlock, hs, if_neg (by omega)]
    rw [hblock] at ht
    obtain ⟨l'', hl⟩ := ht.prefix (@setUsed_tiles h a true) (by omega)
    rcases l with - | ⟨b, - | ⟨c, l⟩⟩
    · simp at hend
    · simp only [List.cons_append, List.cons.injEq] at hl
      rw [← hl.1] at hend
      simp only [span_cons, span_nil, hs] at hend
      omega
    · simp at hl

/-- A used last block and a request of at most a page: whatever the new page holds, the chain does
not tile the heap afterwards. -/
theorem not_growthConsistent_small (hroom : h.heapEnd + 0x1005 < 2 ^ 64)
    (ht : h.Tiles heapStart bs h.heapEnd) (hp : placement n bs = none)
    (hrun : openRun 0 none bs = none) (hn : n ≤ 0x1000) : ¬ h.GrowthConsistent n := by
  rintro ⟨fuel, h', q, bs', hcall, -, -, hend', ht'⟩
  have hends : h.Ends grant n heapStart heapStart (openRun 0 none bs) :=
    @ends_openRun grant n h bs 0 heapStart (by omega) ht hp
  rw [hrun] at hends
  obtain ⟨hgend, -, hgused, hgsize, hgmem⟩ := @arrive_grant h h.heapEnd (by omega) le_rfl
  have hsize : (h.arrive grant h.heapEnd).size h.heapEnd = 0x1000 := by omega
  have hret : Returns grant n (h, heapStart) (h', q) := ⟨fuel, hcall⟩
  rw [Reaches.returns_iff hends, returns_fit hgused (by rwa [hsize]), Prod.mk.injEq] at hret
  obtain ⟨rfl, -⟩ := hret
  rw [takeBlock_heapEnd, hgend] at ht'
  -- the chain is kept up to the old end, and goes on from there
  obtain ⟨-, -, -, -, -, hout⟩ := @takeBlock_handsOut (h.arrive grant h.heapEnd) h.heapEnd n
    ⟨false, 0x1000⟩ hsize hn (by norm_num) (by simp only; omega)
  have hold := ht.congr fun y _ hy => (hout y (Or.inl hy)).trans (hgmem y (Or.inl hy))
  obtain ⟨l, rfl⟩ := hold.prefix ht' (by omega)
  rw [tiles_append, ← ht.end_eq] at ht'
  exact not_tiles_takeBlock hsize (by omega) hn ht'.2

/-! ### A header that nothing has written -/

/-- The header at `x` leads a `kmalloc(n)` astray that gets there with `total`: if one more page is
enough it looks used, and the next one lies a byte behind the page that is then requested;
otherwise it looks free and makes up for the request. -/
structure LeadsAstray (g : Heap) (n x total : ℕ) : Prop where
  used : g.used x = decide (n - total ≤ 0x1000)
  size : g.size x = if n - total ≤ 0x1000 then g.heapEnd + 0x1ffc - x
    else (n + 2 ^ 32 - total - 5) % 2 ^ 32

theorem toInt32_pageRound (hn : n < 2 ^ 32) : toInt32 (pageRound n) = (pageRound n : ℤ) := by
  have hle : pageRound n ≤ 2 ^ 20 := by
    unfold pageRound
    omega
  refine Int.bmod_eq_of_le ?_ ?_
  · omega
  · omega

/-- A byte behind the page that it requests, the outer loop writes a header of negative size, and
hands out the block. -/
theorem returns_behind (hroom : g.heapEnd + 0x1000 < 2 ^ 64) (hx : x = g.heapEnd + 0x1001)
    (hn : n < 2 ^ 32) : ∃ h', Returns grant n (g, x) (h', x + 5) ∧ h'.calls = g.calls + 1 := by
  obtain ⟨-, hcalls, hused, hsize, -⟩ := @arrive_grant g x hroom (by omega)
  have hret := (@returns_fit grant n x g hused (by omega) _).2 rfl
  exact ⟨_, hret, (takeBlock_calls _ _ _).trans hcalls⟩

/-- The inner loop goes astray: `heap_end` moves by more than what is backed, or the pointer that
is returned lies behind what is backed. -/
theorem LeadsAstray.afterMerge (hw : g.LeadsAstray n x total) (hroom : g.heapEnd + 0x3000 ≤ 2 ^ 64)
    (hx : g.heapEnd ≤ x) (hx5 : x ≤ g.heapEnd + 5) (htot : total < n) (hn : n < 2 ^ 32) :
    ∃ y h' q, Merges grant curr n
        (g.getMorePages grant (toInt32 (pageRound (n - total)))) x total y ∧
      (∃ fuel, afterMerge grant n fuel y = some (h', q)) ∧ g.calls ≤ h'.calls ∧
      (h'.heapEnd ≠ g.backedEnd h' ∨ g.backedEnd h' < q) := by
  obtain ⟨hu, hs⟩ := hw
  rw [toInt32_pageRound (by omega)]
  by_cases hone : n - total ≤ 0x1000
  · rw [decide_eq_true hone] at hu
    rw [if_pos hone] at hs
    have hround : pageRound (n - total) = 1 := by
      unfold pageRound
      omega
    rw [hround]
    have hend : (g.getMorePages grant (1 : ℕ)).heapEnd = g.heapEnd + 0x1000 := by
      rw [getMorePages_grant]
      omega
    obtain ⟨hused, hsize⟩ := @header_of_mem g _ (@getMorePages_mem g grant (1 : ℕ)) x
    have hnxt : (g.getMorePages grant (1 : ℕ)).goToNextMemoryRegion x = g.heapEnd + 0x2001 := by
      rw [goToNextMemoryRegion, hsize, hs]
      omega
    obtain ⟨h', ⟨fuel, hf⟩, hcalls⟩ := @returns_behind (g.getMorePages grant (1 : ℕ)) n
      (g.heapEnd + 0x2001) (by omega) (by omega) hn
    rw [getMorePages_calls] at hcalls
    refine ⟨_, h', g.heapEnd + 0x2001 + 5, (merges_used (hused.trans hu)).2 rfl, ⟨fuel, ?_⟩,
      by omega, Or.inr ?_⟩
    · rw [Heap.afterMerge]
      simp only [hnxt]
      exact hf
    · rw [backedEnd]
      omega
  · rw [decide_eq_false hone] at hu
    rw [if_neg hone] at hs
    have hround : 1 < pageRound (n - total) ∧ pageRound (n - total) ≤ 2 ^ 20 := by
      unfold pageRound
      omega
    generalize pageRound (n - total) = k at hround
    obtain ⟨hused, hsize⟩ := @header_of_mem g _ (@getMorePages_mem g grant k) x
    have hsum : (total + (g.getMorePages grant k).size x + 5) % 2 ^ 32 = n := by
      rw [hsize, hs]
      omega
    refine ⟨_, _, _, (merges_fit (hused.trans hu) (Nat.le_of_eq hsum.symm)).2 rfl, ⟨0, rfl⟩, ?_,
      Or.inl ?_⟩
    · rw [takeMerged_calls, getMorePages_calls]
      omega
    · rw [takeMerged_heapEnd, getMorePages_grant, backedEnd, takeMerged_calls, getMorePages_calls]
      omega

/-- A call that ends this way is not consistent. -/
theorem not_growthConsistent_of_returns {q : ℕ} (hret : Returns grant n (h, heapStart) (h', q))
    (hbad : h'.heapEnd ≠ h.backedEnd h' ∨ h.backedEnd h' < q) : ¬ h.GrowthConsistent n := by
  rintro ⟨fuel, h'', q', bs', hcall, -, hpay, hend, -⟩
  have heq := hret.unique ⟨fuel, hcall⟩
  rw [Prod.mk.injEq] at heq
  obtain ⟨rfl, rfl⟩ := heq
  rcases hbad with hne | hlt
  · exact hne hend
  · omega

/-- The chain ends in free blocks, and a header behind it leads astray. -/
theorem not_growthConsistent_run {r : Placement} (hroom : h.heapEnd + 0x3000 ≤ 2 ^ 64)
    (ht : h.Tiles heapStart bs h.heapEnd) (hp : placement n bs = none)
    (hrun : openRun 0 none bs = some r) (hn : n < 2 ^ 32)
    (hw : h.LeadsAstray n h.heapEnd r.total) : ¬ h.GrowthConsistent n := by
  have hends : h.Ends grant n heapStart heapStart (openRun 0 none bs) :=
    @ends_openRun grant n h bs 0 heapStart (by omega) ht hp
  rw [hrun] at hends
  obtain ⟨hreach, hin, hu, hsize, hmerges⟩ := hends
  have htot := (openRun_short hp (fun _ hx => by cases hx) hrun).1
  rw [Nat.mod_eq_of_lt (htot.trans hn)] at hmerges
  have harr := @arrive_of_lt grant _ h hin
  obtain ⟨y, h', q, hmerge, hafter, -, hbad⟩ :=
    @LeadsAstray.afterMerge h n (heapStart + r.offset) _ _ hw hroom le_rfl (by omega) htot hn
  refine @not_growthConsistent_of_returns h h' n q ?_ hbad
  rw [hreach.returns_iff, returns_merge (by rwa [harr]) (by rwa [harr]), harr]
  exact ⟨y, (hmerges y).2 hmerge, hafter⟩

/-- The last block is used, and a header in the second page behind it leads astray. -/
theorem not_growthConsistent_used (hroom : h.heapEnd + 0x4000 ≤ 2 ^ 64)
    (ht : h.Tiles heapStart bs h.heapEnd) (hp : placement n bs = none)
    (hrun : openRun 0 none bs = none) (hn : n < 2 ^ 32) (hlarge : 0x1000 < n)
    (hw : (h.arrive grant h.heapEnd).LeadsAstray n (h.heapEnd + 0x1005) 0x1000) :
    ¬ h.GrowthConsistent n := by
  have hends : h.Ends grant n heapStart heapStart (openRun 0 none bs) :=
    @ends_openRun grant n h bs 0 heapStart (by omega) ht hp
  rw [hrun] at hends
  obtain ⟨hgend, hgcalls, hgused, hgsize, -⟩ := @arrive_grant h h.heapEnd (by omega) le_rfl
  have hsize : (h.arrive grant h.heapEnd).size h.heapEnd = 0x1000 := by omega
  have hnxt : (h.arrive grant h.heapEnd).goToNextMemoryRegion h.heapEnd = h.heapEnd + 0x1005 := by
    rw [goToNextMemoryRegion, hsize]
    omega
  obtain ⟨y, h', q, hmerge, hafter, hcalls, hbad⟩ := @LeadsAstray.afterMerge _ n h.heapEnd _ _ hw
    (by omega) (by omega) (by omega) hlarge hn
  refine @not_growthConsistent_of_returns h h' n q ?_ ?_
  · rw [Reaches.returns_iff hends, returns_merge hgused (by rwa [hsize]), hnxt, hsize, growAt,
      if_pos (by omega)]
    exact ⟨y, hmerge, hafter⟩
  · have hbacked : (h.arrive grant h.heapEnd).backedEnd h' = h.backedEnd h' := by
      rw [backedEnd, backedEnd, hgend, hgcalls]
      omega
    rwa [hbacked] at hbad

/-- A header that holds such values, its size stored in 32 bits. -/
theorem LeadsAstray.of_header (hend : g.heapEnd ≤ x) (hu : g.used x = decide (n - total ≤ 0x1000))
    (hs : g.size x = (if n - total ≤ 0x1000 then g.heapEnd + 0x1ffc - x
      else (n + 2 ^ 32 - total - 5) % 2 ^ 32) % 2 ^ 32) : g.LeadsAstray n x total := by
  refine ⟨hu, ?_⟩
  rw [hs]
  split_ifs
  · omega
  · exact Nat.mod_mod _ _

/-- **Growth is never consistent.**  For every chain and every request without a place, there are
contents of the memory behind the heap for which it is not, although every request for pages is
granted. -/
theorem never_growthConsistent (h : Heap) (bs : List Block) (n : ℕ)
    (hroom : h.heapEnd + 0x4000 ≤ 2 ^ 64) (ht : h.Tiles heapStart bs h.heapEnd)
    (hp : placement n bs = none) :
    ¬ ∀ mem, h.Outside mem → (h.withMem mem).GrowthConsistent n := by
  intro hall
  have hn : n < 2 ^ 32 := by
    obtain ⟨fuel, h', q, -, hcall, -⟩ := hall h.mem fun _ _ => rfl
    exact lt_of_kmallocLoop hcall
  -- the claim for a heap with a header put behind it
  have hput : ∀ a u s, h.heapEnd ≤ a → ∃ g : Heap, g.heapEnd = h.heapEnd ∧
      g.Tiles heapStart bs g.heapEnd ∧ g.used a = u ∧ g.size a = s % 2 ^ 32 ∧
      g.GrowthConsistent n := fun a u s ha =>
    ⟨h.putHeader a u s, rfl, (outside_putHeader ha u s).tiles ht, used_putHeader a u s,
      size_putHeader a u s, hall _ (outside_putHeader ha u s)⟩
  cases hrun : openRun 0 none bs with
  | none =>
    by_cases hsmall : n ≤ 0x1000
    · exact not_growthConsistent_small (by omega) ht hp hrun hsmall (hall h.mem fun _ _ => rfl)
    · -- the header lies in the second page, behind the one that is written
      obtain ⟨g, hg, hgt, hgu, hgs, hcons⟩ := hput (h.heapEnd + 0x1005)
        (decide (n - 0x1000 ≤ 0x1000))
        (if n - 0x1000 ≤ 0x1000 then h.heapEnd + 0x1000 + 0x1ffc - (h.heapEnd + 0x1005)
          else (n + 2 ^ 32 - 0x1000 - 5) % 2 ^ 32) (by omega)
      rw [← hg] at hgu hgs hroom
      refine not_growthConsistent_used hroom hgt hp hrun hn (by omega) ?_ hcons
      obtain ⟨hend, -, -, -, hmem⟩ := @arrive_grant g g.heapEnd (by omega) le_rfl
      obtain ⟨hu, hs⟩ := @header_congr g _ (g.heapEnd + 0x1005) fun y hy _ => hmem y (by omega)
      refine LeadsAstray.of_header (by omega) (hu.trans hgu) ?_
      rw [hend]
      exact hs.trans hgs
  | some r =>
    obtain ⟨g, hg, hgt, hgu, hgs, hcons⟩ := hput h.heapEnd (decide (n - r.total ≤ 0x1000))
      (if n - r.total ≤ 0x1000 then h.heapEnd + 0x1ffc - h.heapEnd
        else (n + 2 ^ 32 - r.total - 5) % 2 ^ 32) le_rfl
    rw [← hg] at hgu hgs hroom
    exact not_growthConsistent_run (by omega) hgt hp hrun hn
      (LeadsAstray.of_header le_rfl hgu hgs) hcons

/-- One more byte than the page has. -/
theorem never_growthConsistent_fullPage :
    ¬ ∀ mem, fullPage.Outside mem → (fullPage.withMem mem).GrowthConsistent 1 :=
  never_growthConsistent fullPage [⟨true, 0x1000 - 5⟩] 1
    (by rw [fullPage_heapEnd]; norm_num [heapStart]) fullPage_tiles rfl

/-- The page is full, a page is granted for one more byte, and the chain then leads five bytes past
the end of the heap. -/
theorem granted_block_overshoots : ¬ fullPage.GrowthConsistent 1 :=
  not_growthConsistent_small (by rw [fullPage_heapEnd]; norm_num [heapStart]) fullPage_tiles rfl rfl
    (by norm_num)

end Heap

end TitanOS
