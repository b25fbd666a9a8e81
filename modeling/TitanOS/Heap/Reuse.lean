import TitanOS.Heap.Chain

/-!
# Where `kmalloc` stops

`Skips n l`: the loops of `kmalloc(n)` pass over the blocks `l` and start afresh behind them.  On a
heap that is tiled, however large, a call that does not grow the heap skips some blocks and then
takes the next one, directly or merged with the free blocks behind it (`kmalloc_cases`); and a call
only reads the headers of the blocks it skips (`kmalloc_of_skips`).

From this it follows that freeing and requesting again hands out the same block
(`kmalloc_kfree_kmalloc`), and when a block that is taken directly is split without losing or
inventing bytes (`split_exact_iff`).
-/

namespace TitanOS

namespace Block

/-- The loops pass over the blocks; `total` is the size of the free blocks being merged, if there
are any. -/
def skips (n : ℕ) : Option ℕ → List Block → Bool
  | total, [] => total.isNone
  | total, b :: bs =>
    if b.used then skips n none bs
    else
      let total := match total with
        | none => b.size
        | some t => (t + b.size + 5) % 2 ^ 32
      decide (total < n) && skips n (some total) bs

/-- The loops of `kmalloc(n)` pass over the blocks. -/
def Skips (n : ℕ) (l : List Block) : Prop := skips n none l = true

variable {n t : ℕ} {b : Block} {l : List Block}

theorem skips_used (hb : b.used = true) (total : Option ℕ) :
    skips n total (b :: l) = skips n none l := by
  simp [skips, hb]

theorem skips_free_none (hb : b.used = false) :
    skips n none (b :: l) = (decide (b.size < n) && skips n (some b.size) l) := by
  rw [skips, if_neg (by simp [hb])]

theorem skips_free_some (hb : b.used = false) : skips n (some t) (b :: l) =
    (decide ((t + b.size + 5) % 2 ^ 32 < n) && skips n (some ((t + b.size + 5) % 2 ^ 32)) l) := by
  rw [skips, if_neg (by simp [hb])]

end Block

namespace Heap

open Block

variable {h h' g : Heap} {lengthens : ℕ → Bool} {a e n fuel curr total : ℕ} {bs l₁ l₂ : List Block}
  {b : Block}

/-- The inner loop on a tiled heap that it does not grow: it merges blocks, or it passes over free
blocks and stops at a used one. -/
theorem mergeLoop_cases {x : ℕ ⊕ ℕ} (hlt : h.heapEnd < 2 ^ 64) (ht : h.Tiles a bs h.heapEnd)
    (hne : bs ≠ []) (hcall : mergeLoop lengthens curr n fuel h a total = some (h', x))
    (hcalls : h'.calls = h.calls) :
    (∃ t, n ≤ t ∧ t < 2 ^ 32 ∧ t ≤ total + span bs ∧ h' = h.takeMerged curr n t ∧
      x = .inl (curr + 5)) ∨
    (∃ l₁ c l₂, bs = l₁ ++ c :: l₂ ∧ c.used = true ∧ h' = h ∧ x = .inr (a + span l₁) ∧
      ∀ l, skips n (some total) (l₁ ++ c :: l) = skips n none l) := by
  induction bs generalizing a total fuel with
  | nil => exact absurd rfl hne
  | cons b bs ih =>
    cases fuel with
    | zero => cases hcall
    | succ fuel =>
      have hend := ht.end_eq
      obtain ⟨hu, hs, ht⟩ := ht
      simp only [span_cons] at hend
      cases hb : b.used with
      | true =>
        simp only [mergeLoop, hu, hb, if_true, Option.some.injEq, Prod.mk.injEq] at hcall
        refine Or.inr ⟨[], b, bs, rfl, hb, hcall.1.symm, hcall.2.symm, fun l => ?_⟩
        rw [List.nil_append, skips_used hb]
      | false =>
        have hnxt := @goToNextMemoryRegion_eq h a b hs (by omega)
        simp only [mergeLoop, hu, hb, Bool.false_eq_true, if_false, hs, hnxt] at hcall
        by_cases hfit : n ≤ (total + b.size + 5) % 2 ^ 32
        · rw [if_pos hfit] at hcall
          simp only [Option.some.injEq, Prod.mk.injEq] at hcall
          refine Or.inl ⟨_, hfit, Nat.mod_lt _ (by norm_num), ?_, hcall.1.symm, hcall.2.symm⟩
          have := Nat.mod_le (total + b.size + 5) (2 ^ 32)
          simp only [span_cons]
          omega
        · rw [if_neg hfit] at hcall
          by_cases hlast : bs = []
          · -- behind the last block the heap would grow
            subst hlast
            have hpast : h.heapEnd ≤ a + (b.size + 5) := Nat.le_of_eq ht.symm
            rw [if_pos hpast] at hcall
            have := calls_le_of_mergeLoop hcall
            simp at this
            omega
          · have hin : ¬ h.heapEnd ≤ a + (b.size + 5) := by
              have := span_pos hlast
              omega
            rw [if_neg hin] at hcall
            have hskip : ∀ l, skips n (some total) (b :: l) =
                skips n (some ((total + b.size + 5) % 2 ^ 32)) l := by
              intro l
              rw [skips_free_some hb, decide_eq_true (Nat.lt_of_not_le hfit), Bool.true_and]
            rcases ih ht hlast hcall with ⟨t, hnt, ht32, hle, hx⟩ |
              ⟨l₁, c, l₂, rfl, hc, hh, hx, hl⟩
            · refine Or.inl ⟨t, hnt, ht32, ?_, hx⟩
              have := Nat.mod_le (total + b.size + 5) (2 ^ 32)
              simp only [span_cons]
              omega
            · refine Or.inr ⟨b :: l₁, c, l₂, rfl, hc, hh, ?_, fun l => ?_⟩
              · rw [hx, span_cons, Nat.add_assoc]
              · rw [List.cons_append, hskip, hl]

/-- The outer loop on a tiled heap that it does not grow. -/
theorem kmallocLoop_cases {q : ℕ} (hlt : h.heapEnd < 2 ^ 64) (ht : h.Tiles a bs h.heapEnd)
    (hcall : kmallocLoop lengthens n fuel h a = some (h', q)) (hcalls : h'.calls = h.calls) :
    ∃ l₁ b l₂, bs = l₁ ++ b :: l₂ ∧ b.used = false ∧ Skips n l₁ ∧ q = a + span l₁ + 5 ∧
      (n ≤ b.size ∧ h' = h.takeBlock (a + span l₁) n ∨
        b.size < n ∧ ∃ t, n ≤ t ∧ t < 2 ^ 32 ∧ t ≤ b.size + span l₂ ∧
          h' = h.takeMerged (a + span l₁) n t) := by
  induction fuel generalizing a bs with
  | zero => cases hcall
  | succ fuel ih =>
    have hle := calls_le_of_kmallocLoop hcall
    have hin : ¬ h.heapEnd ≤ a := by
      intro hpast
      rw [if_pos hpast] at hle
      omega
    cases bs with
    | nil => exact absurd (Nat.le_of_eq (Eq.symm ht)) hin
    | cons b bs =>
      have hend := ht.end_eq
      obtain ⟨hu, hs, ht⟩ := ht
      simp only [span_cons] at hend
      have hnxt := @goToNextMemoryRegion_eq h a b hs (by omega)
      cases hb : b.used with
      | true =>
        simp only [kmallocLoop, hin, if_false, hu, hb, if_true, hnxt] at hcall
        obtain ⟨l₁, c, l₂, rfl, hc, hskip, hq, hcase⟩ := ih ht hcall
        refine ⟨b :: l₁, c, l₂, rfl, hc, (skips_used hb none).trans hskip, ?_, ?_⟩
        · simp only [span_cons]
          omega
        · rwa [span_cons, ← Nat.add_assoc a]
      | false =>
        simp only [kmallocLoop, hin, if_false, hu, hb, Bool.false_eq_true, hs, hnxt] at hcall
        by_cases hfit : n ≤ b.size
        · rw [if_pos hfit] at hcall
          simp only [Option.some.injEq, Prod.mk.injEq] at hcall
          exact ⟨[], b, bs, rfl, hb, rfl, by simp [hcall.2], Or.inl ⟨hfit, by simp [hcall.1]⟩⟩
        · rw [if_neg hfit] at hcall
          obtain ⟨f, x, hmerge, hf⟩ := exists_mergeLoop_of_case3 calls_le_of_kmallocLoop' hcall
          by_cases hlast : bs = []
          · subst hlast
            rw [if_pos (Nat.le_of_eq ht.symm)] at hmerge
            have := calls_le_of_mergeLoop hmerge
            simp at this
            omega
          · have hin' : ¬ h.heapEnd ≤ a + (b.size + 5) := by
              have := span_pos hlast
              omega
            rw [if_neg hin'] at hcall hmerge
            have hcalls' := calls_le_of_mergeLoop hmerge
            have hskip : ∀ l, skips n none (b :: l) = skips n (some b.size) l := by
              intro l
              rw [skips_free_none hb, decide_eq_true (Nat.lt_of_not_le hfit), Bool.true_and]
            rcases mergeLoop_cases hlt ht hlast hmerge (by omega) with
              ⟨t, hnt, ht32, hle, rfl, rfl⟩ | ⟨l₁, c, l₂, rfl, hc, rfl, rfl, hl⟩
            · rw [hmerge] at hcall
              simp only [Option.some.injEq, Prod.mk.injEq] at hcall
              exact ⟨[], b, bs, rfl, hb, rfl, by simp [hcall.2], Or.inr ⟨Nat.lt_of_not_le hfit, t,
                hnt, ht32, hle, by simp [hcall.1]⟩⟩
            · rw [hmerge] at hcall
              rw [tiles_append] at ht
              obtain ⟨-, -, hsc, htc⟩ := ht
              have hend' := htc.end_eq
              have hnxt' := goToNextMemoryRegion_eq (b := c) hsc (by omega)
              simp only [hnxt'] at hcall
              obtain ⟨l₃, d, l₄, rfl, hd, hskip', hq, hcase⟩ := ih htc hcall
              have hspan : a + span (b :: l₁ ++ c :: l₃) =
                  a + (b.size + 5) + span l₁ + (c.size + 5) + span l₃ := by
                simp only [span_append, span_cons]
                omega
              refine ⟨b :: l₁ ++ c :: l₃, d, l₄, by simp, hd, ?_, ?_, ?_⟩
              · rw [Skips, List.cons_append, hskip, hl]
                exact hskip'
              · rw [hspan, hq]
              · rwa [hspan]

/-- The inner loop passes over free blocks that are skipped. -/
theorem mergeLoop_of_skips (hlt : g.heapEnd < 2 ^ 64) (ht : g.Tiles a l₁ e) (he : e < g.heapEnd)
    (hskip : skips n (some total) l₁ = true) (hf : l₁.length ≤ fuel) :
    ∃ l c l', l₁ = l ++ c :: l' ∧ Skips n l' ∧
      mergeLoop lengthens curr n fuel g a total = some (g, .inr (a + span l)) := by
  induction l₁ generalizing a total fuel with
  | nil => cases hskip
  | cons b l₁ ih =>
    obtain ⟨fuel, rfl⟩ : ∃ m, fuel = m + 1 := ⟨fuel - 1, by simp at hf; omega⟩
    have hend := ht.end_eq
    obtain ⟨hu, hs, ht⟩ := ht
    simp only [span_cons] at hend
    cases hb : b.used with
    | true =>
      rw [skips_used hb] at hskip
      exact ⟨[], b, l₁, rfl, hskip, by simp [mergeLoop, hu, hb]⟩
    | false =>
      rw [skips_free_some hb, Bool.and_eq_true, decide_eq_true_eq] at hskip
      have hnxt := @goToNextMemoryRegion_eq g a b hs (by omega)
      obtain ⟨l, c, l', rfl, hskip', hcall⟩ := @ih _ fuel _ ht hskip.2 (by simpa using hf)
      refine ⟨b :: l, c, l', rfl, hskip', ?_⟩
      have hin : ¬ g.heapEnd ≤ a + (b.size + 5) := by omega
      simp only [mergeLoop, hu, hb, Bool.false_eq_true, if_false, hs, hnxt,
        Nat.not_le_of_lt hskip.1, hin]
      rw [hcall, span_cons, Nat.add_assoc]

/-- The outer loop gets to the block behind the blocks that it skips. -/
theorem kmallocLoop_of_skips (hlt : g.heapEnd < 2 ^ 64) (ht : g.Tiles a l₁ e) (he : e < g.heapEnd)
    (hskip : Skips n l₁) (hf : l₁.length < fuel) :
    ∃ m, kmallocLoop lengthens n fuel g a = kmallocLoop lengthens n (m + 1) g e := by
  induction fuel generalizing a l₁ with
  | zero => omega
  | succ fuel ih =>
    cases l₁ with
    | nil =>
      obtain rfl : a = e := ht
      exact ⟨fuel, rfl⟩
    | cons b l₁ =>
      have hend := ht.end_eq
      obtain ⟨hu, hs, ht⟩ := ht
      simp only [span_cons] at hend
      have hin : ¬ g.heapEnd ≤ a := by omega
      have hnxt := @goToNextMemoryRegion_eq g a b hs (by omega)
      cases hb : b.used with
      | true =>
        rw [Skips, skips_used hb] at hskip
        obtain ⟨m, hm⟩ := ih ht hskip (by simpa using hf)
        refine ⟨m, ?_⟩
        simp only [kmallocLoop, hin, if_false, hu, hb, if_true, hnxt] at hm ⊢
        exact hm
      | false =>
        rw [Skips, skips_free_none hb, Bool.and_eq_true, decide_eq_true_eq] at hskip
        obtain ⟨l, c, l', rfl, hskip', hmerge⟩ := @mergeLoop_of_skips g lengthens _ _ _ fuel a _ _
          hlt ht he hskip.2 (by simp at hf ⊢; omega)
        rw [tiles_append] at ht
        obtain ⟨-, -, hsc, htc⟩ := ht
        have hend' := htc.end_eq
        have hnxt' := goToNextMemoryRegion_eq (b := c) hsc (by omega)
        obtain ⟨m, hm⟩ := ih htc hskip' (by simp at hf; omega)
        refine ⟨m, ?_⟩
        have hin' : ¬ g.heapEnd ≤ a + (b.size + 5) := by
          simp only [span_append, span_cons] at hend
          omega
        rw [← hm]
        simp only [kmallocLoop, hin, if_false, hu, hb, Bool.false_eq_true, hs, hnxt,
          Nat.not_le_of_lt hskip.1, hin', hmerge, hnxt']

/-- **What `kmalloc` does** on a tiled heap that it does not grow. -/
theorem kmalloc_cases {q : ℕ} (hlt : h.heapEnd < 2 ^ 64) (ht : h.Tiles heapStart bs h.heapEnd)
    (hcall : h.kmalloc lengthens fuel n = some (h', q)) (hcalls : h'.calls = h.calls) :
    ∃ l₁ b l₂, bs = l₁ ++ b :: l₂ ∧ b.used = false ∧ Skips n l₁ ∧ q = heapStart + span l₁ + 5 ∧
      (n ≤ b.size ∧ h' = h.takeBlock (heapStart + span l₁) n ∨
        b.size < n ∧ ∃ t, n ≤ t ∧ t < 2 ^ 32 ∧ t ≤ b.size + span l₂ ∧
          h' = h.takeMerged (heapStart + span l₁) n t) :=
  kmallocLoop_cases hlt ht hcall hcalls

/-- The block behind the blocks that are skipped is taken if it is free and large enough. -/
theorem kmalloc_of_skips (hlt : g.heapEnd < 2 ^ 64) (ht : g.Tiles heapStart l₁ e)
    (he : e < g.heapEnd) (hskip : Skips n l₁) (hf : l₁.length < fuel) (hu : g.used e = false)
    (hn : n ≤ g.size e) : g.kmalloc lengthens fuel n = some (g.takeBlock e n, e + 5) := by
  obtain ⟨m, hm⟩ : ∃ m, kmallocLoop lengthens n fuel g heapStart =
    kmallocLoop lengthens n (m + 1) g e := kmallocLoop_of_skips hlt ht he hskip hf
  rw [kmalloc, hm]
  simp [kmallocLoop, Nat.not_le_of_lt he, hu, hn]

/-! ### Freeing and requesting again -/

@[simp] theorem setUsed_setUsed (u v : Bool) : (h.setUsed a u).setUsed a v = h.setUsed a v := by
  simp [setUsed]

/-- A flag that is written as it was. -/
theorem setUsed_eq_self {u : Bool} (hu : h.mem a = if u then 1 else 0) : h.setUsed a u = h := by
  rw [setUsed, ← hu, Function.update_eq_self]

/-- Taking a block of exactly the requested size changes its flag only. -/
theorem takeBlock_of_size (hn : 5 ≤ n) (hs : h.size a = n) :
    h.takeBlock a n = h.setUsed a true := by
  rw [takeBlock, hs]
  exact if_neg (by omega)

/-- The headers that splitting writes, and the bytes that it leaves. -/
theorem split_headers (hn : n < 2 ^ 32) (ha : a + n + 5 < 2 ^ 64) :
    (h.split a n total).mem a = 1 ∧ (h.split a n total).size a = n ∧
      (h.split a n total).used (a + n + 5) = false ∧
      (h.split a n total).size (a + n + 5) = (((total : ℤ) - n - 5) % 2 ^ 32).toNat ∧
      ∀ x, x < a ∨ a + 5 ≤ x → x < a + n + 5 ∨ a + n + 5 + 5 ≤ x →
        (h.split a n total).mem x = h.mem x := by
  have hnext : ((h.setUsed a true).setSize a n).goToNextMemoryRegion a = a + n + 5 := by
    rw [goToNextMemoryRegion, size_setSize_self]
    omega
  have hmem : ∀ x, x < a + n + 5 ∨ a + n + 5 + 5 ≤ x →
      (h.split a n total).mem x = ((h.setUsed a true).setSize a n).mem x := by
    intro x hx
    rw [split, hnext, setSize_mem_of_ne _ _ _ _ (by omega), setUsed_mem_of_ne _ _ _ (by omega)]
  refine ⟨?_, ?_, ?_, ?_, fun x hx hx' => ?_⟩
  · rw [hmem a (by omega), setSize_mem_of_ne _ _ _ _ (by omega)]
    simp [setUsed]
  · simp only [size, hmem (a + 1) (by omega), hmem (a + 2) (by omega), hmem (a + 3) (by omega),
      hmem (a + 4) (by omega)]
    rw [← size, size_setSize_self, Nat.mod_eq_of_lt hn]
  · rw [split, hnext, used_setSize_self, used_setUsed_self]
  · rw [split, hnext, size_setSize_self]
    omega
  · rw [hmem x hx', setSize_mem_of_ne _ _ _ _ (by omega), setUsed_mem_of_ne _ _ _ (by omega)]

/-- A header is five bytes. -/
theorem header_congr (hm : ∀ x, a ≤ x → x < a + 5 → h'.mem x = h.mem x) :
    h'.used a = h.used a ∧ h'.size a = h.size a := by
  constructor
  · rw [used, used, hm a (by omega) (by omega)]
  · rw [size, size, hm (a + 1) (by omega) (by omega), hm (a + 2) (by omega) (by omega),
      hm (a + 3) (by omega) (by omega), hm (a + 4) (by omega) (by omega)]

theorem takeBlock_cases (h : Heap) (a n : ℕ) :
    h.takeBlock a n = h.setUsed a true ∨ h.takeBlock a n = h.split a n (h.size a) := by
  unfold takeBlock
  split
  · exact Or.inr rfl
  · exact Or.inl rfl

theorem takeMerged_cases (h : Heap) (a n t : ℕ) :
    h.takeMerged a n t = h.setUsed a true ∨ h.takeMerged a n t = h.split a n t := by
  unfold takeMerged
  split
  · exact Or.inr rfl
  · exact Or.inl rfl

/-- **Freeing and requesting again** hands out the same block and leaves the same headers. -/
theorem kmalloc_kfree_kmalloc (lengthens : ℕ → Bool) (fuel : ℕ) (h h' : Heap) (bs : List Block)
    (n p : ℕ) (hlt : h.heapEnd < 2 ^ 64) (ht : h.Tiles heapStart bs h.heapEnd)
    (hf : bs.length < fuel) (hn : 5 ≤ n) (hcall : h.kmalloc lengthens fuel n = some (h', p))
    (hcalls : h'.calls = h.calls) :
    (h'.kfree p).kmalloc lengthens fuel n = some (h', p) := by
  obtain ⟨l₁, b, l₂, rfl, hb, hskip, rfl, hcase⟩ := kmalloc_cases hlt ht hcall hcalls
  have hend := ht.end_eq
  rw [tiles_append] at ht
  obtain ⟨ht₁, hu, hs, -⟩ := ht
  have hsize := size_lt h (heapStart + span l₁)
  simp only [span_append, span_cons, ← Nat.add_assoc] at hend
  simp only [kfree, Nat.add_sub_cancel]
  have hways : h' = h.setUsed (heapStart + span l₁) true ∨ n < 2 ^ 32 ∧ n ≤ b.size + span l₂ ∧
      ∃ t, h' = h.split (heapStart + span l₁) n t := by
    rcases hcase with ⟨hfit, rfl⟩ | ⟨-, t, hnt, ht32, htle, rfl⟩
    · refine (takeBlock_cases h _ n).imp_right fun hsplit => ⟨by omega, by omega, _, hsplit⟩
    · refine (takeMerged_cases h _ n t).imp_right fun hsplit => ⟨by omega, by omega, _, hsplit⟩
  rcases hways with rfl | ⟨hn32, hfits, t, rfl⟩
  · -- only the flag was changed, and is changed back
    have hzero : h.mem (heapStart + span l₁) = 0 := by
      rw [hb, used] at hu
      simpa using hu
    rw [setUsed_setUsed, setUsed_eq_self (by simpa using hzero)]
    exact hcall
  · obtain ⟨hone, hsz, -, -, hkept⟩ := @split_headers h (heapStart + span l₁) n t hn32 (by omega)
    have htake := @takeBlock_of_size ((h.split (heapStart + span l₁) n t).setUsed
      (heapStart + span l₁) false) (heapStart + span l₁) n hn (by rw [size_setUsed_self, hsz])
    rw [setUsed_setUsed, setUsed_eq_self (u := true) (by simpa using hone)] at htake
    have hsame : ((h.split (heapStart + span l₁) n t).setUsed (heapStart + span l₁) false).Tiles
        heapStart l₁ (heapStart + span l₁) := by
      refine ht₁.congr fun x _ hx => ?_
      rw [setUsed_mem_of_ne _ _ _ (by omega), hkept x (by omega) (by omega)]
    rw [@kmalloc_of_skips ((h.split (heapStart + span l₁) n t).setUsed (heapStart + span l₁) false)
      lengthens (heapStart + span l₁) n fuel l₁ hlt hsame
      (show heapStart + span l₁ < h.heapEnd by omega) hskip (by simp at hf; omega)
      (used_setUsed_self _ _ false) (by rw [size_setUsed_self, hsz]), htake]

/-- The first block of the heap after `kheap_init`. -/
theorem kmalloc_kfree_kmalloc_first :
    ∃ r ∈ (kheapInit fun _ => 0).kmalloc (fun _ => true) 2 16,
      (r.1.kfree r.2).kmalloc (fun _ => true) 2 16 = some r := by
  have hcall : ((kheapInit fun _ => 0).kmalloc (fun _ => true) 2 16).map (fun r => r.1.calls) =
      some 0 := by
    decide +kernel
  obtain ⟨r, hr, hcalls⟩ := Option.map_eq_some_iff.1 hcall
  exact ⟨r, hr, kmalloc_kfree_kmalloc _ 2 _ r.1 [⟨false, 0x1000 - 5⟩] 16 r.2
    (show heapStart + 0x1000 < 2 ^ 64 by norm_num [heapStart]) (Live.backed_start fun _ => 0).tiles
    (by decide) (by decide) hr hcalls⟩

/-! ### Splitting -/

/-- The block at `i`, of recorded size `s`, has kept its size, or it has size `n` and is followed by
a free block that makes up for the rest; and the headers of all other blocks are as before. -/
def SplitExact (h : Heap) (bs : List Block) (i n s : ℕ) : Prop :=
  (h.size (heapStart + i) = s ∨ h.size (heapStart + i) = n ∧
    ∃ r, h.used (heapStart + i + n + 5) = false ∧ h.size (heapStart + i + n + 5) = r ∧
      n + 5 + r = s) ∧
  ∀ j c, j ≠ i → blockAt bs j = some c →
    h.used (heapStart + j) = c.used ∧ h.size (heapStart + j) = c.size

theorem blockAt_span (l₁ l₂ : List Block) (b : Block) :
    blockAt (l₁ ++ b :: l₂) (span l₁) = some b := by
  simpa [blockAt] using @blockAt_append_right l₁ (b :: l₂) 0

/-- The other blocks keep their headers when the bytes outside of the block are kept. -/
theorem others_kept (ht : h.Tiles heapStart (l₁ ++ b :: l₂) e)
    (hout : ∀ x, x < heapStart + span l₁ ∨ heapStart + span l₁ + (b.size + 5) ≤ x →
      h'.mem x = h.mem x) : ∀ j c, j ≠ span l₁ → blockAt (l₁ ++ b :: l₂) j = some c →
        h'.used (heapStart + j) = c.used ∧ h'.size (heapStart + j) = c.size := by
  intro j c hne hc
  obtain ⟨hu, hs⟩ := Live.tiles_blockAt ht hc
  have hb := blockAt_span l₁ l₂ b
  rw [← hu, ← hs]
  refine header_congr fun x hx hx' => hout x ?_
  rcases Nat.lt_or_gt_of_ne hne with hlt | hgt
  · have := blockAt_disjoint hc hb hlt
    omega
  · have := blockAt_disjoint hb hc hgt
    omega

/-- A block with room for a header is split exactly, or taken whole. -/
theorem splitExact_of_room (ht : h.Tiles heapStart (l₁ ++ b :: l₂) e) (he : e < 2 ^ 64)
    (hn : n ≤ b.size) (hfive : 5 ≤ b.size) :
    (h.takeBlock (heapStart + span l₁) n).SplitExact (l₁ ++ b :: l₂) (span l₁) n b.size := by
  have hend := ht.end_eq
  have hs := (Live.tiles_blockAt ht (blockAt_span l₁ l₂ b)).2
  have hlt := size_lt h (heapStart + span l₁)
  simp only [span_append, span_cons] at hend
  unfold takeBlock
  split
  next hroom =>
    obtain ⟨-, hsz, hu', hsz', hkept⟩ := @split_headers h (heapStart + span l₁) n
      (h.size (heapStart + span l₁)) (by omega) (by omega)
    refine ⟨Or.inr ⟨hsz, _, hu', hsz', by omega⟩, others_kept ht fun x hx => ?_⟩
    exact hkept x (by omega) (by omega)
  next =>
    refine ⟨Or.inl ?_, others_kept ht fun x hx => setUsed_mem_of_ne _ _ _ (by omega)⟩
    rw [size_setUsed_self, hs]

/-- Between a block and one further behind there is a block right behind the first. -/
theorem blockAt_second {c : Block} {j : ℕ} (hc : blockAt (l₁ ++ b :: l₂) j = some c)
    (hj : span l₁ + (b.size + 5) < j) :
    ∃ d, blockAt (l₁ ++ b :: l₂) (span l₁ + (b.size + 5)) = some d := by
  cases l₂ with
  | nil =>
    have := add_le_span hc
    simp only [span_append, span_cons, span_nil] at this
    omega
  | cons d l₂ =>
    have := blockAt_span (l₁ ++ [b]) l₂ d
    simp only [List.append_assoc, span_append, span_cons, span_nil, List.cons_append,
      List.nil_append, Nat.add_zero] at this
    exact ⟨d, this⟩

/-- A block without room for a header is split all the same: `size - 5` wraps around. -/
theorem splitExact_of_small (ht : h.Tiles heapStart (l₁ ++ b :: l₂) e) (he : e < 2 ^ 64)
    (hn : n ≤ b.size) (hsmall : b.size < 5) :
    (h.takeBlock (heapStart + span l₁) n).SplitExact (l₁ ++ b :: l₂) (span l₁) n b.size ↔
      n = b.size ∧ ∀ c, blockAt (l₁ ++ b :: l₂) (span l₁ + (b.size + 5)) = some c →
        c = ⟨false, 2 ^ 32 - 5⟩ := by
  have hend := ht.end_eq
  have hb := blockAt_span l₁ l₂ b
  have hs := (Live.tiles_blockAt ht hb).2
  simp only [span_append, span_cons] at hend
  have htake : h.takeBlock (heapStart + span l₁) n = h.split (heapStart + span l₁) n b.size := by
    rw [takeBlock, hs]
    exact if_pos (by omega)
  obtain ⟨-, hsz, hu', hsz', hkept⟩ := @split_headers h (heapStart + span l₁) n b.size (by omega)
    (by omega)
  have hrest : n = b.size → (((b.size : ℤ) - n - 5) % 2 ^ 32).toNat = 2 ^ 32 - 5 := by
    rintro rfl
    rw [sub_self]
    rfl
  rw [htake]
  constructor
  · rintro ⟨hfirst, hothers⟩
    have hnb : n = b.size := by
      rcases hfirst with hsame | ⟨-, r, -, -, hr⟩
      · rw [hsz] at hsame
        exact hsame
      · omega
    refine ⟨hnb, fun c hc => ?_⟩
    obtain ⟨hcu, hcs⟩ := hothers _ c (by omega) hc
    rw [show heapStart + (span l₁ + (b.size + 5)) = heapStart + span l₁ + n + 5 by omega] at hcu hcs
    rw [hu'] at hcu
    rw [hsz', hrest hnb] at hcs
    cases c
    exact Block.mk.injEq .. ▸ ⟨hcu.symm, hcs.symm⟩
  · rintro ⟨hnb, hnext⟩
    refine ⟨Or.inl (hsz.trans hnb), fun j c hne hc => ?_⟩
    by_cases hj : j = span l₁ + (b.size + 5)
    · subst hj
      obtain rfl := hnext c hc
      rw [show heapStart + (span l₁ + (b.size + 5)) = heapStart + span l₁ + n + 5 by omega]
      exact ⟨hu', hsz'.trans (hrest hnb)⟩
    · -- a block further behind is not reached by the header that is written
      obtain ⟨hu, hs'⟩ := Live.tiles_blockAt ht hc
      rw [← hu, ← hs']
      refine header_congr fun x hx hx' => ?_
      rcases Nat.lt_or_gt_of_ne hne with hlt | hgt
      · have := blockAt_disjoint hc hb hlt
        exact hkept x (by omega) (by omega)
      · have hbehind := blockAt_disjoint hb hc hgt
        have hd := blockAt_second hc (by omega)
        obtain ⟨d, hd⟩ := hd
        have := blockAt_disjoint hd hc (by omega)
        exact hkept x (by omega) (by omega)

/-- **Splitting** a block that is taken directly neither loses nor invents bytes if and only if the
block has room for a header, or all of it is requested and no header behind it is overwritten. -/
theorem split_exact_iff (lengthens : ℕ → Bool) (fuel : ℕ) (h h' : Heap) (bs : List Block)
    (b : Block) (n i : ℕ) (hlt : h.heapEnd < 2 ^ 64) (ht : h.Tiles heapStart bs h.heapEnd)
    (hb : blockAt bs i = some b) (hn : n ≤ b.size)
    (hcall : h.kmalloc lengthens fuel n = some (h', heapStart + i + 5))
    (hcalls : h'.calls = h.calls) :
    h'.SplitExact bs i n b.size ↔ 5 ≤ b.size ∨
      n = b.size ∧ ∀ c, blockAt bs (i + (b.size + 5)) = some c → c = ⟨false, 2 ^ 32 - 5⟩ := by
  obtain ⟨l₁, b', l₂, rfl, -, -, hq, hcase⟩ := kmalloc_cases hlt ht hcall hcalls
  obtain rfl : i = span l₁ := by omega
  obtain rfl : b' = b := Option.some.inj ((blockAt_span l₁ l₂ b').symm.trans hb)
  obtain ⟨-, rfl⟩ := hcase.resolve_right fun hmerged => absurd hmerged.1 (by omega)
  by_cases hfive : 5 ≤ b'.size
  · exact iff_of_true (splitExact_of_room ht hlt hn hfive) (Or.inl hfive)
  · rw [splitExact_of_small ht hlt hn (by omega)]
    exact (or_iff_right hfive).symm

/-- The first block of the heap after `kheap_init` is split exactly. -/
theorem split_exact_first : ∃ r ∈ (kheapInit fun _ => 0).kmalloc (fun _ => true) 2 16,
    (r.1.SplitExact [⟨false, 0x1000 - 5⟩] 0 16 (0x1000 - 5) ↔ 5 ≤ 0x1000 - 5 ∨ 16 = 0x1000 - 5 ∧
      ∀ c, blockAt [⟨false, 0x1000 - 5⟩] (0 + (0x1000 - 5 + 5)) = some c →
        c = ⟨false, 2 ^ 32 - 5⟩) := by
  have hcall : ((kheapInit fun _ => 0).kmalloc (fun _ => true) 2 16).map
      (fun r => (r.1.calls, r.2)) = some (0, heapStart + 0 + 5) := by
    decide +kernel
  obtain ⟨⟨h, p⟩, hr, hcalls⟩ := Option.map_eq_some_iff.1 hcall
  obtain ⟨hcalls, rfl⟩ := Prod.mk.inj hcalls
  exact ⟨_, hr, split_exact_iff _ 2 _ h [⟨false, 0x1000 - 5⟩] ⟨false, 0x1000 - 5⟩ 16 0
    (show heapStart + 0x1000 < 2 ^ 64 by norm_num [heapStart]) (Live.backed_start fun _ => 0).tiles
    rfl (by decide) hr hcalls⟩

instance Tiles.decidable (h : Heap) : ∀ a bs e, Decidable (h.Tiles a bs e)
  | a, [], e => inferInstanceAs (Decidable (a = e))
  | a, b :: bs, e =>
    have := Tiles.decidable h (a + (b.size + 5)) bs e
    inferInstanceAs (Decidable (_ ∧ _ ∧ _))

/-- A request of 4083 bytes leaves a free block of three bytes.  A request of two bytes takes it, and
records a free block of almost four gigabytes behind it. -/
theorem small_block_split :
    ∃ r ∈ (kheapInit fun _ => 0).kmalloc (fun _ => true) 2 4083,
      ∃ r' ∈ r.1.kmalloc (fun _ => true) 3 2, r'.1.calls = r.1.calls ∧
        r.1.Tiles heapStart [⟨true, 4083⟩, ⟨false, 3⟩] r.1.heapEnd ∧
        r'.2 = heapStart + 4088 + 5 ∧
        ¬ r'.1.SplitExact [⟨true, 4083⟩, ⟨false, 3⟩] 4088 2 3 := by
  have hrun : ∃ r ∈ (kheapInit fun _ => 0).kmalloc (fun _ => true) 2 4083,
      ∃ r' ∈ r.1.kmalloc (fun _ => true) 3 2, r'.1.calls = r.1.calls ∧
        r.1.Tiles heapStart [⟨true, 4083⟩, ⟨false, 3⟩] r.1.heapEnd ∧
        r'.2 = heapStart + 4088 + 5 ∧ r'.1.size (heapStart + 4088) = 2 := by
    decide +kernel
  obtain ⟨r, hr, r', hr', hcalls, htiles, hp, hsize⟩ := hrun
  refine ⟨r, hr, r', hr', hcalls, htiles, hp, fun hexact => ?_⟩
  rcases hexact.1 with hsame | ⟨-, rest, -, -, hrest⟩
  · rw [hsize] at hsame
    exact absurd hsame (by decide)
  · omega

end Heap

end TitanOS
