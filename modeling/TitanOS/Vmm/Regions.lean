import TitanOS.Lib.Run
import TitanOS.Vmm.Boot
import TitanOS.Vmm.Events

/-!
# The region list

`vmm_alloc` walks to the last region that starts at or below the request and then tests

  `start < base + length && start + length < next->base`

before it turns the request down.  The conjunction makes the test catch only one kind of overlap:
the request starts inside of that region and ends before the next one (`Caught`).  A request that
runs into the next region, or that starts in the last one, is granted.

`vmmAlloc_null_iff` says when the answer is right all the same.  `Separate` is the invariant of
runs in which it is: the list is sorted, the regions are disjoint, and nothing lies behind
`kernel_page_tbls_obj`, which `alloc_pg_table` lengthens without looking.
-/

namespace TitanOS

open Walk Linked Run

/-- The ranges of `n` bytes from `b` on and of `n'` bytes from `b'` on have an address in
common. -/
def Overlap (b n b' n' : ℕ) : Prop := max b b' < min (b + n) (b' + n')

instance (b n b' n' : ℕ) : Decidable (Overlap b n b' n') := inferInstanceAs (Decidable (_ < _))

/-- Neighbours in a list that is cut between `d` and `e`. -/
theorem mem_zip_tail {d e x y : ℕ} {l₁ l₂ : List ℕ}
    (h : (x, y) ∈ (l₁ ++ d :: e :: l₂).zip (l₁ ++ d :: e :: l₂).tail) :
    y ∈ l₁ ++ [d] ∨ (x = d ∧ y = e) ∨ x ∈ e :: l₂ := by
  induction l₁ with
  | nil =>
    rcases List.mem_cons.1 h with h | h
    · cases h
      exact Or.inr (Or.inl ⟨rfl, rfl⟩)
    · exact Or.inr (Or.inr (List.of_mem_zip h).1)
  | cons a l₁ ih =>
    cases l₁ with
    | nil =>
      rcases List.mem_cons.1 h with h | h
      · cases h
        simp
      · rcases ih h with h | h
        · exact Or.inl (List.mem_cons_of_mem _ h)
        · exact Or.inr h
    | cons b l₁ =>
      rcases List.mem_cons.1 h with h | h
      · cases h
        simp
      · rcases ih h with h | h
        · exact Or.inl (List.mem_cons_of_mem _ h)
        · exact Or.inr h

theorem mem_zip_tail_iff {x y : ℕ} {l : List ℕ} :
    (x, y) ∈ l.zip l.tail ↔ ∃ l₁ l₂, l = l₁ ++ x :: y :: l₂ := by
  constructor
  · induction l with
    | nil => simp
    | cons a l ih =>
      cases l with
      | nil => simp
      | cons b l =>
        intro h
        rcases List.mem_cons.1 h with h | h
        · cases h
          exact ⟨[], l, rfl⟩
        · obtain ⟨l₁, l₂, hl⟩ := ih h
          exact ⟨a :: l₁, l₂, by rw [hl]; rfl⟩
  · rintro ⟨l₁, l₂, rfl⟩
    induction l₁ with
    | nil => simp
    | cons a l₁ ih =>
      cases l₁ with
      | nil => simp
      | cons b l₁ => exact List.mem_cons_of_mem _ ih

theorem pairwise_insert {R : ℕ → ℕ → Prop} {l₁ l₂ : List ℕ} {c x : ℕ}
    (h : (l₁ ++ c :: l₂).Pairwise R) (hle : ∀ d ∈ l₁ ++ [c], R d x) (hge : ∀ d ∈ l₂, R x d) :
    (l₁ ++ c :: x :: l₂).Pairwise R := by
  rw [List.append_cons, List.pairwise_append] at h ⊢
  obtain ⟨h₁, h₂, h₁₂⟩ := h
  refine ⟨h₁, List.pairwise_cons.2 ⟨hge, h₂⟩, fun d hd e he => ?_⟩
  rcases List.mem_cons.1 he with rfl | he
  · exact hle d hd
  · exact h₁₂ d hd e he

namespace Kernel

/-- The objects on the region list of the current space. -/
def vmObjects (k : Kernel) : List ℕ :=
  toList k.regions.next k.regions.count (some k.currentVmm)

/-- Region `c` overlaps the range of `n` bytes from `s` on. -/
def Meets (k : Kernel) (s n c : ℕ) : Prop := Overlap s n (k.regions.base c) (k.regions.length c)

instance (k : Kernel) (s n c : ℕ) : Decidable (k.Meets s n c) := inferInstanceAs (Decidable (_ < _))

/-- The range starts inside of a region that has a successor and ends before the successor. -/
def Caught (k : Kernel) (s n : ℕ) : Prop :=
  ∃ x ∈ k.vmObjects.zip k.vmObjects.tail, k.regions.base x.1 ≤ s ∧ s < k.regions.base x.2 ∧
    s < (k.regions.base x.1 + k.regions.length x.1) % 2 ^ 64 ∧
    (s + n) % 2 ^ 64 < k.regions.base x.2

instance (k : Kernel) (s n : ℕ) : Decidable (k.Caught s n) :=
  inferInstanceAs (Decidable (∃ x ∈ _, _))

/-- The region list of the current space is `l`. -/
structure Chained (k : Kernel) (l : List ℕ) : Prop where
  path : Path k.regions.next (some k.currentVmm) l
  lt : ∀ c ∈ l, c < k.regions.count

/-- The region list of the current space is `l`, sorted by base. -/
structure Listed (k : Kernel) (l : List ℕ) : Prop extends k.Chained l where
  sorted : l.Pairwise fun c d => k.regions.base c ≤ k.regions.base d

variable {k k' : Kernel} {l : List ℕ} {s n c : ℕ}

theorem Chained.length_le (h : k.Chained l) : l.length ≤ k.regions.count := h.path.length_le h.lt

theorem Chained.vmObjects_eq (h : k.Chained l) : k.vmObjects = l := toList_eq h.path h.length_le

theorem Chained.exists_cons (h : k.Chained l) :
    ∃ r, l = k.currentVmm :: r ∧ Path k.regions.next (k.regions.next k.currentVmm) r :=
  path_some.1 h.path

theorem Chained.count_pos (h : k.Chained l) : 0 < k.regions.count := by
  obtain ⟨r, rfl, -⟩ := h.exists_cons
  exact (Nat.zero_le _).trans_lt (h.lt k.currentVmm (by simp))

theorem Chained.keeps (h : k.Chained l) (hk : k.Keeps k') : k'.Chained l := by
  refine ⟨?_, fun c hc => ?_⟩
  · rw [hk.next, hk.currentVmm]
    exact h.path
  · rw [hk.count]
    exact h.lt c hc

/-- A new region is linked behind `c`. -/
theorem Chained.insertRegion {l₁ l₂ : List ℕ} {flags : ℕ} (h : k.Chained (l₁ ++ c :: l₂)) :
    ({ k with regions := Kernel.insertRegion k.regions c s n flags } : Kernel).Chained
      (l₁ ++ c :: k.regions.count :: l₂) := by
  have hout : k.regions.count ∉ l₁ ++ c :: l₂ := fun hx => (h.lt _ hx).false
  refine ⟨?_, fun d hd => ?_⟩
  · have hpath := h.path.update_of_notMem (q := k.regions.next c) hout
    refine hpath.splice ⟨rfl, ?_⟩ ?_
    · rw [Function.update_self]
      exact h.path.suffix.update_of_notMem fun hx => hout (by simp [hx])
    · have hnd := h.path.nodup
      intro hc
      rcases List.mem_cons.1 hc with hc | hc
      · exact hout (hc ▸ by simp)
      · exact (List.nodup_cons.1 (List.nodup_append.1 hnd).2.1).1 hc
  · simp only [List.mem_append, List.mem_cons] at hd
    rcases hd with hd | rfl | rfl | hd
    · exact Nat.lt_succ_of_lt (h.lt d (by simp [hd]))
    · exact Nat.lt_succ_of_lt (h.lt d (by simp))
    · exact Nat.lt_succ_self _
    · exact Nat.lt_succ_of_lt (h.lt d (by simp [hd]))

/-- The regions that are there keep their fields. -/
theorem insertRegion_of_lt {r : Regions} {d flags : ℕ} (hd : d < r.count) :
    (Kernel.insertRegion r c s n flags).base d = r.base d ∧
      (Kernel.insertRegion r c s n flags).length d = r.length d ∧
      (Kernel.insertRegion r c s n flags).flags d = r.flags d := by
  simp [Kernel.insertRegion, newRegion, Function.update_of_ne hd.ne]

theorem Chained.insertRegion_of_mem {d flags : ℕ} (h : k.Chained l) (hd : d ∈ l) :
    (Kernel.insertRegion k.regions c s n flags).base d = k.regions.base d ∧
      (Kernel.insertRegion k.regions c s n flags).length d = k.regions.length d ∧
      (Kernel.insertRegion k.regions c s n flags).flags d = k.regions.flags d :=
  insertRegion_of_lt (h.lt d hd)

theorem insertRegion_self (r : Regions) (flags : ℕ) :
    (insertRegion r c s n flags).base r.count = s ∧
      (insertRegion r c s n flags).length r.count = n := by
  simp [insertRegion, newRegion]

/-! ### The search of `vmm_alloc` -/

theorem Listed.split {l₁ l₂ : List ℕ} (h : k.Listed (l₁ ++ c :: l₂)) {d : ℕ} :
    (d ∈ l₁ ++ [c] → k.regions.base d ≤ k.regions.base c) ∧
      (d ∈ l₂ → k.regions.base c ≤ k.regions.base d) := by
  obtain ⟨-, hc, hcross⟩ := List.pairwise_append.1 h.sorted
  refine ⟨fun hd => ?_, fun hd => (List.pairwise_cons.1 hc).1 d hd⟩
  rcases List.mem_append.1 hd with hd | hd
  · exact hcross d hd c (by simp)
  · rw [List.mem_singleton.1 hd]

theorem Listed.base_head_le (h : k.Listed l) {d : ℕ} (hd : d ∈ l) :
    k.regions.base k.currentVmm ≤ k.regions.base d := by
  obtain ⟨r, rfl, -⟩ := h.exists_cons
  rcases List.mem_cons.1 hd with rfl | hd
  · rfl
  · exact (List.pairwise_cons.1 h.sorted).1 d hd

theorem forall_base_le {r : List ℕ} (h : (c :: r).IsChain fun c d =>
    decide (k.regions.base c ≤ s ∧ s < k.regions.base d) = false) (hc : k.regions.base c ≤ s) :
    ∀ d ∈ c :: r, k.regions.base d ≤ s := by
  induction r generalizing c with
  | nil => simpa using hc
  | cons e r ih =>
    obtain ⟨hce, h⟩ := List.isChain_cons_cons.1 h
    have he : k.regions.base e ≤ s := by
      have := of_decide_eq_false hce
      omega
    intro d hd
    rcases List.mem_cons.1 hd with rfl | hd
    · exact hc
    · exact ih h he d hd

/-- The search turns a request down exactly if it is caught.  Otherwise it finds the place that
keeps the list sorted. -/
theorem findPlace_spec (h : k.Listed l) (hs : s ≠ 0) :
    (k.Caught s n ∧ findPlace k.regions k.currentVmm s n = some none) ∨
    (¬ k.Caught s n ∧ ∃ l₁ c l₂, l = l₁ ++ c :: l₂ ∧
      findPlace k.regions k.currentVmm s n = some (some (c, s)) ∧
      (k.regions.base k.currentVmm ≤ s →
        (∀ d ∈ l₁ ++ [c], k.regions.base d ≤ s) ∧ ∀ d ∈ l₂, s < k.regions.base d)) := by
  obtain ⟨r, rfl, hr⟩ := h.exists_cons
  have hlen : r.length < k.regions.count + 1 := by
    have := h.length_le
    simp at this
    omega
  rw [findPlace, if_neg hs, scan_eq hr hlen, Caught, h.vmObjects_eq]
  set stop : ℕ → ℕ → Bool := fun c d => decide (k.regions.base c ≤ s ∧ s < k.regions.base d)
    with hstop
  rcases scanList_cases stop k.currentVmm r with ⟨l₁, d, hl, hchain, hscan⟩ |
    ⟨l₁, d, e, l₂, hl, -, hde, hscan⟩
  · -- the loop ran to the end
    have hnot : ∀ x ∈ (k.currentVmm :: r).zip (k.currentVmm :: r).tail,
        ¬ (k.regions.base x.1 ≤ s ∧ s < k.regions.base x.2) := by
      rintro ⟨x, y⟩ hx
      obtain ⟨m₁, m₂, hm⟩ := mem_zip_tail_iff.1 hx
      rw [hm, List.isChain_split] at hchain
      have := (List.isChain_cons_cons.1 hchain.2).1
      simpa [hstop] using this
    refine Or.inr ⟨?_, l₁, d, [], hl, by rw [hscan], fun hhead => ⟨?_, by simp⟩⟩
    · rintro ⟨x, hx, hlo, hhi, -⟩
      exact hnot x hx ⟨hlo, hhi⟩
    · rw [← hl]
      exact forall_base_le hchain hhead
  · have hbetween : k.regions.base d ≤ s ∧ s < k.regions.base e := by simpa [hstop] using hde
    rw [hl] at h
    have hcaught : (∃ x ∈ (k.currentVmm :: r).zip (k.currentVmm :: r).tail,
        k.regions.base x.1 ≤ s ∧ s < k.regions.base x.2 ∧
          s < (k.regions.base x.1 + k.regions.length x.1) % 2 ^ 64 ∧
          (s + n) % 2 ^ 64 < k.regions.base x.2) ↔
        s < (k.regions.base d + k.regions.length d) % 2 ^ 64 ∧
          (s + n) % 2 ^ 64 < k.regions.base e := by
      constructor
      · rintro ⟨⟨x, y⟩, hx, hlo, hhi, htest⟩
        rw [hl] at hx
        -- in a sorted list only one region and its successor enclose `s`
        rcases mem_zip_tail hx with hy | ⟨rfl, rfl⟩ | hx
        · have := h.split.1 hy
          simp only at hhi
          omega
        · exact htest
        · rw [List.append_cons] at h
          have : k.regions.base e ≤ k.regions.base x := by
            rcases List.mem_cons.1 hx with rfl | hx
            · rfl
            · exact h.split.2 hx
          simp only at hlo
          omega
      · intro htest
        exact ⟨(d, e), mem_zip_tail_iff.2 ⟨l₁, l₂, hl⟩, hbetween.1, hbetween.2, htest⟩
    rw [hcaught, hscan]
    simp only
    by_cases htest : s < (k.regions.base d + k.regions.length d) % 2 ^ 64 ∧
        (s + n) % 2 ^ 64 < k.regions.base e
    · exact Or.inl ⟨htest, if_pos htest⟩
    · refine Or.inr ⟨htest, l₁, d, e :: l₂, hl, if_neg htest,
        fun _ => ⟨fun x hx => ?_, fun x hx => ?_⟩⟩
      · exact (h.split.1 hx).trans hbetween.1
      · rw [List.append_cons] at h
        rcases List.mem_cons.1 hx with rfl | hx
        · exact hbetween.2
        · exact hbetween.2.trans_le (h.split.2 hx)

/-- The search of `vmm_alloc` ends at a region on the list, and grants the base asked for. -/
theorem Chained.findPlace {found : ℕ} (h : k.Chained l) (hs : s ≠ 0)
    (hf : findPlace k.regions k.currentVmm s n = some (some (c, found))) :
    found = s ∧ c ∈ l := by
  obtain ⟨r, rfl, hr⟩ := h.exists_cons
  have hlen : r.length < k.regions.count + 1 := by
    have := h.length_le
    simp at this
    omega
  rw [Kernel.findPlace, if_neg hs, scan_eq hr hlen] at hf
  rcases scanList_cases (fun c d => decide (k.regions.base c ≤ s ∧ s < k.regions.base d))
    k.currentVmm r with ⟨l₁, d, hl, -, hscan⟩ | ⟨l₁, d, e, l₂, hl, -, -, hscan⟩
  · rw [hscan] at hf
    obtain ⟨rfl, rfl⟩ := Prod.mk.inj (Option.some.inj (Option.some.inj hf))
    exact ⟨rfl, by rw [hl]; simp⟩
  · rw [hscan] at hf
    simp only at hf
    split at hf
    · cases Option.some.inj hf
    · obtain ⟨rfl, rfl⟩ := Prod.mk.inj (Option.some.inj (Option.some.inj hf))
      exact ⟨rfl, by rw [hl]; simp⟩

/-! ### The answer of `vmm_alloc` -/

theorem windowTop_insertRegion {flags : ℕ} (h : 0 < k.regions.count) :
    ({ k with regions := insertRegion k.regions c s n flags } : Kernel).windowTop =
      k.windowTop := by
  have h0 : kernelPageTblsObj ≠ k.regions.count := h.ne
  simp [windowTop, insertRegion, newRegion, Function.update_of_ne h0]

theorem pageAlignDown_ne_zero (h : 0x1000 ≤ s) : pageAlignDown s ≠ 0 := by
  unfold pageAlignDown
  omega

/-- The page-rounded range of a request can be backed, wherever its region is linked. -/
def Backed (fuel : ℕ) (k : Kernel) (start length flags args : ℕ) : Prop :=
  ∀ c ∈ k.vmObjects, Backable fuel flags ((pageAlign length + 0xfff) % 2 ^ 64 / 0x1000)
    { k with regions := insertRegion k.regions c (pageAlignDown start) (pageAlign length) flags }
    (pageAlignDown start) (pageAlignDown args)

/-- `vmm_alloc` returns null exactly if the request is caught. -/
theorem vmmAlloc_eq {R : ℕ → Prop} {C : List (Fin 512) → Prop} {m start length flags args : ℕ}
    (hC : ∀ p j, C p → C (p ++ [j])) (h : k.Listed l) (hT : k.Tables R C)
    (hstart : 0x1000 ≤ start) (hb : Backed (m + 2) k start length flags args) :
    (k.Caught (pageAlignDown start) (pageAlign length) ∧
      vmmAlloc (m + 2) k start length flags args = some (k, 0)) ∨
    (¬ k.Caught (pageAlignDown start) (pageAlign length) ∧
      ∃ k', vmmAlloc (m + 2) k start length flags args = some (k', pageAlignDown start)) := by
  rcases @findPlace_spec k l (pageAlignDown start) (pageAlign length) h
    (pageAlignDown_ne_zero hstart) with ⟨hcaught, hfind⟩ | ⟨hnot, l₁, c, l₂, hl, hfind, -⟩
  · refine Or.inl ⟨hcaught, ?_⟩
    simp only [vmmAlloc, hfind, Option.bind_eq_bind, Option.bind_some]
  · refine Or.inr ⟨hnot, ?_⟩
    have hT' := @Tables.with_regions k R C
      (insertRegion k.regions c (pageAlignDown start) (pageAlign length) flags) hT
      (windowTop_insertRegion h.count_pos)
    have hc : c ∈ k.vmObjects := by
      rw [h.vmObjects_eq, hl]
      simp
    obtain ⟨k', hmap, -⟩ := mapPages_spec m flags hC _ hT' (hb c hc)
    refine ⟨k', ?_⟩
    simp only [vmmAlloc, hfind, Option.bind_eq_bind, Option.bind_some, hmap, if_true]

theorem Caught.meets (h : k.Caught s n) (hn : n ≠ 0) : ∃ c ∈ k.vmObjects, k.Meets s n c := by
  obtain ⟨⟨c, d⟩, hx, hlo, -, htop, -⟩ := h
  refine ⟨c, (List.of_mem_zip hx).1, ?_⟩
  have := Nat.mod_le (k.regions.base c + k.regions.length c) (2 ^ 64)
  simp only [Meets, Overlap] at hlo htop ⊢
  omega

theorem not_meets_zero : ¬ k.Meets s 0 c := by
  simp only [Meets, Overlap]
  omega

/-! ### Disjoint regions -/

/-- The ranges of the regions on the list are pairwise disjoint. -/
def RegionsDisjoint (k : Kernel) : Prop :=
  k.vmObjects.Pairwise fun c d => ¬ k.Meets (k.regions.base c) (k.regions.length c) d

/-- The list is sorted from 0 on, the regions are disjoint, and all regions but
`kernel_page_tbls_obj` end below it if it is on the list. -/
structure Separate (k : Kernel) (l : List ℕ) : Prop extends k.Listed l where
  head : k.regions.base k.currentVmm = 0
  disjoint : l.Pairwise fun c d => ¬ k.Meets (k.regions.base c) (k.regions.length c) d
  window : kernelPageTblsObj ∈ l → ∀ c ∈ l, c ≠ kernelPageTblsObj →
    k.regions.base c + k.regions.length c ≤ k.regions.base kernelPageTblsObj

theorem Separate.regionsDisjoint (h : k.Separate l) : k.RegionsDisjoint := by
  rw [RegionsDisjoint, h.vmObjects_eq]
  exact h.disjoint

/-- The length of `kernel_page_tbls_obj` does not matter. -/
theorem Separate.keeps (h : k.Separate l) (hk : k.Keeps k') : k'.Separate l := by
  have hbase : ∀ c, k'.regions.base c = k.regions.base c := fun c => by rw [hk.base]
  refine ⟨⟨h.toChained.keeps hk, ?_⟩, ?_, ?_, fun h0 c hc hne => ?_⟩
  · simpa only [hk.base] using h.sorted
  · rw [hk.currentVmm, hbase, h.head]
  · refine (h.disjoint.and h.path.nodup).imp_of_mem fun {c d} hc hd hcd => ?_
    obtain ⟨hcd, hne⟩ := hcd
    simp only [Meets, Overlap, hbase] at hcd ⊢
    by_cases hc0 : c = kernelPageTblsObj
    · have hd0 : d ≠ kernelPageTblsObj := fun hd0 => hne (hc0.trans hd0.symm)
      have := h.window (hc0 ▸ hc) d hd hd0
      rw [hk.length d hd0, hc0]
      omega
    · by_cases hd0 : d = kernelPageTblsObj
      · have := h.window (hd0 ▸ hd) c hc hc0
        rw [hk.length c hc0, hd0]
        omega
      · rw [hk.length c hc0, hk.length d hd0]
        exact hcd
  · rw [hbase, hk.length c hne, hbase]
    exact h.window h0 c hc hne

/-- A region that meets no other is inserted. -/
theorem Separate.insertRegion {l₁ l₂ : List ℕ} {flags : ℕ} (h : k.Separate (l₁ ++ c :: l₂))
    (hle : ∀ d ∈ l₁ ++ [c], k.regions.base d ≤ s) (hlt : ∀ d ∈ l₂, s < k.regions.base d)
    (hfree : ∀ d ∈ l₁ ++ c :: l₂, ¬ k.Meets s n d)
    (hwin : kernelPageTblsObj ∈ l₁ ++ c :: l₂ → s + n ≤ k.regions.base kernelPageTblsObj) :
    ({ k with regions := Kernel.insertRegion k.regions c s n flags } : Kernel).Separate
      (l₁ ++ c :: k.regions.count :: l₂) := by
  have hmem : ∀ d, d ∈ l₁ ++ c :: k.regions.count :: l₂ ↔
      d ∈ l₁ ++ c :: l₂ ∨ d = k.regions.count := by
    intro d
    simp only [List.mem_append, List.mem_cons]
    tauto
  have hleft : ∀ d ∈ l₁ ++ [c], d ∈ l₁ ++ c :: l₂ := by
    intro d hd
    simp only [List.mem_append, List.mem_cons, List.not_mem_nil, or_false] at hd ⊢
    tauto
  have hright : ∀ d ∈ l₂, d ∈ l₁ ++ c :: l₂ := fun d hd => by simp [hd]
  have hold := fun d hd => @Chained.insertRegion_of_mem k _ s n c d flags h.toChained hd
  have hnew := @insertRegion_self s n c k.regions flags
  have hlast : kernelPageTblsObj ≠ k.regions.count := h.count_pos.ne
  refine ⟨⟨h.toChained.insertRegion, ?_⟩, ?_, ?_, fun h0 d hd hne => ?_⟩
  · refine pairwise_insert (h.sorted.imp_of_mem fun {a b} ha hb hab => ?_) (fun d hd => ?_)
      fun d hd => ?_
    · rwa [(hold a ha).1, (hold b hb).1]
    · rw [(hold d (hleft d hd)).1, hnew.1]
      exact hle d hd
    · rw [(hold d (hright d hd)).1, hnew.1]
      exact (hlt d hd).le
  · obtain ⟨r, hr, -⟩ := h.exists_cons
    rw [(hold k.currentVmm (by rw [hr]; simp)).1]
    exact h.head
  · refine pairwise_insert (h.disjoint.imp_of_mem fun {a b} ha hb hab => ?_) (fun d hd => ?_)
      fun d hd => ?_
    · simpa only [Meets, hold a ha, hold b hb] using hab
    · have := hfree d (hleft d hd)
      simp only [Meets, Overlap, hold d (hleft d hd), hnew] at this ⊢
      omega
    · simpa only [Meets, hold d (hright d hd), hnew] using hfree d (hright d hd)
  · have h0' := ((hmem _).1 h0).resolve_right hlast
    rw [(hold _ h0').1]
    rcases (hmem d).1 hd with hd | rfl
    · rw [(hold d hd).1, (hold d hd).2.1]
      exact h.window h0' d hd hne
    · rw [hnew.1, hnew.2]
      exact hwin h0'

/-- `vmm_alloc` keeps the regions disjoint if it grants only what meets no region. -/
theorem Separate.vmmAlloc {fuel start length flags args p : ℕ} (h : k.Separate l)
    (hstart : 0x1000 ≤ start)
    (hreq : k.Caught (pageAlignDown start) (pageAlign length) ∨
      ∀ c ∈ k.vmObjects, ¬ k.Meets (pageAlignDown start) (pageAlign length) c)
    (hwin : kernelPageTblsObj ∈ k.vmObjects →
      pageAlignDown start + pageAlign length ≤ k.regions.base kernelPageTblsObj)
    (hcall : vmmAlloc fuel k start length flags args = some (k', p)) : ∃ l', k'.Separate l' := by
  rw [h.vmObjects_eq] at hreq hwin
  rcases @findPlace_spec k l (pageAlignDown start) (pageAlign length) h.toListed
    (pageAlignDown_ne_zero hstart) with ⟨-, hfind⟩ | ⟨hnot, l₁, c, l₂, rfl, hfind, hplace⟩
  · simp only [Kernel.vmmAlloc, hfind, Option.bind_eq_bind, Option.bind_some, Option.some.injEq,
      Prod.mk.injEq] at hcall
    exact ⟨l, hcall.1 ▸ h⟩
  · obtain ⟨hle, hlt⟩ := hplace (by rw [h.head]; exact Nat.zero_le _)
    have hins := @Separate.insertRegion k _ _ c l₁ l₂ flags h hle hlt (hreq.resolve_left hnot) hwin
    simp only [Kernel.vmmAlloc, hfind, Option.bind_eq_bind, Option.bind_some] at hcall
    obtain ⟨⟨k₁, ok⟩, hmap, hcall⟩ := Option.bind_eq_some_iff.1 hcall
    simp only [Option.some.injEq, Prod.mk.injEq] at hcall
    rw [← hcall.1]
    exact ⟨_, hins.keeps (keeps_mapPages _ _ _ hmap)⟩

/-! ### `vmm_lengthen` -/

/-- `PAGE_ALIGN` of an increment that does not overflow. -/
theorem pageAlignInt_of_le {inc : ℤ} (h0 : 0 < inc) (h1 : inc ≤ 0x7ffff000) :
    pageAlignInt inc = (pageAlign inc.toNat : ℕ) := by
  have hb : Int.bmod (inc + 0xfff) (2 ^ 32) = inc + 0xfff :=
    Int.bmod_eq_of_le (by omega) (by omega)
  rw [pageAlignInt, hb, pageAlign, Int.tdiv_eq_ediv_of_nonneg (by omega),
    Nat.mod_eq_of_lt (by omega)]
  omega

/-- `vmm_lengthen` extends a region on the list. -/
theorem Chained.lengthened {start length : ℕ} {inc : ℤ} (h : k.Chained l)
    (hf : k.lengthened start inc = some (c, length)) :
    c ∈ l ∧ k.regions.base c = start ∧
      length = ((k.regions.length c + pageAlignInt inc) % 2 ^ 64).toNat := by
  rw [Kernel.lengthened] at hf
  simp only [search_eq h.path (Nat.lt_succ_of_le h.length_le)] at hf
  cases hfind : l.find? fun c => k.regions.base c == start with
  | none =>
    rw [hfind] at hf
    cases hf
  | some d =>
    rw [hfind, Option.ite_none_right_eq_some] at hf
    obtain ⟨rfl, rfl⟩ := Prod.mk.inj (Option.some.inj hf.2)
    exact ⟨List.mem_of_find?_eq_some hfind, by simpa using List.find?_some hfind, rfl⟩

/-- What the region at `start` has to be like for an increment of `m` bytes: it does not wrap
around, and if it is empty it does not lie inside of another one. -/
def Growable (k : Kernel) (start m : ℕ) : Prop :=
  ∀ c ∈ k.vmObjects, k.regions.base c = start → c ≠ kernelPageTblsObj →
    start + k.regions.length c + m < 2 ^ 64 ∧ (k.regions.length c ≠ 0 ∨
      ∀ e ∈ k.vmObjects, ¬ (k.regions.base e ≤ start ∧
        start < k.regions.base e + k.regions.length e))

/-- Region `c` with another length. -/
def withLength (k : Kernel) (c n : ℕ) : Kernel :=
  { k with regions := { k.regions with length := Function.update k.regions.length c n } }

@[simp] theorem withLength_base : (k.withLength c n).regions.base = k.regions.base := rfl

@[simp] theorem withLength_length :
    (k.withLength c n).regions.length = Function.update k.regions.length c n := rfl

/-- A region grows up to the base of its successor. -/
theorem Separate.grow {l₁ l₂ : List ℕ} {m : ℕ} (h : k.Separate (l₁ ++ c :: l₂))
    (hfirst : ∀ d ∈ l₁, k.regions.base d ≠ k.regions.base c) (hc : c ≠ kernelPageTblsObj)
    (hroom : ∀ d ∈ l₂.head?, k.regions.base c + k.regions.length c + m ≤ k.regions.base d)
    (hempty : k.regions.length c ≠ 0 ∨ ∀ e ∈ l₁ ++ c :: l₂, ¬ (k.regions.base e ≤ k.regions.base c ∧
      k.regions.base c < k.regions.base e + k.regions.length e)) :
    (k.withLength c (k.regions.length c + m)).Separate (l₁ ++ c :: l₂) := by
  have hnd := h.path.nodup
  have hnext : ∀ d ∈ l₂, k.regions.base c + k.regions.length c + m ≤ k.regions.base d := by
    intro d hd
    cases l₂ with
    | nil => simp at hd
    | cons e l₂ =>
      have he := hroom e rfl
      have hlist := h.toListed
      rw [List.append_cons] at hlist
      rcases List.mem_cons.1 hd with rfl | hd
      · exact he
      · exact he.trans (hlist.split.2 hd)
  have hprev : ∀ d ∈ l₁, k.regions.base d + k.regions.length d ≤ k.regions.base c ∨
      k.regions.length d = 0 := by
    intro d hd
    have hle := h.toListed.split.1 (List.mem_append_left [c] hd)
    rcases hempty with hne | hempty
    · have := (List.pairwise_append.1 h.disjoint).2.2 d hd c (by simp)
      simp only [Meets, Overlap] at this
      omega
    · have := hempty d (by simp [hd])
      omega
  refine ⟨⟨⟨h.path, h.lt⟩, h.sorted⟩, h.head, ?_, fun h0 d hd hne => ?_⟩
  · rw [List.pairwise_append, List.pairwise_cons]
    obtain ⟨h₁, h₂, h₁₂⟩ := List.pairwise_append.1 h.disjoint
    obtain ⟨-, h₂⟩ := List.pairwise_cons.1 h₂
    obtain ⟨-, hcl, hdisj⟩ := List.nodup_append.1 hnd
    have hne₁ : ∀ d ∈ l₁, d ≠ c := fun d hd => hdisj d hd c (by simp)
    have hne₂ : ∀ d ∈ l₂, d ≠ c := fun d hd he => (List.nodup_cons.1 hcl).1 (he ▸ hd)
    refine ⟨h₁.imp_of_mem fun {a b} ha hb hab => ?_, ⟨fun d hd => ?_,
      h₂.imp_of_mem fun {a b} ha hb hab => ?_⟩, fun d hd e he => ?_⟩
    · simpa only [Meets, withLength_base, withLength_length, Function.update_of_ne (hne₁ a ha),
        Function.update_of_ne (hne₁ b hb)]
        using hab
    · have := hnext d hd
      simp only [Meets, Overlap, withLength_base, withLength_length, Function.update_self,
        Function.update_of_ne (hne₂ d hd)]
      omega
    · simpa only [Meets, withLength_base, withLength_length, Function.update_of_ne (hne₂ a ha),
        Function.update_of_ne (hne₂ b hb)]
        using hab
    · rcases List.mem_cons.1 he with rfl | he
      · have := hprev d hd
        simp only [Meets, Overlap, withLength_base, withLength_length, Function.update_self,
          Function.update_of_ne (hne₁ d hd)]
        omega
      · simpa only [Meets, withLength_base, withLength_length, Function.update_of_ne (hne₁ d hd),
          Function.update_of_ne (hne₂ e he)]
          using h₁₂ d hd e (List.mem_cons_of_mem _ he)
  · by_cases hdc : d = c
    · subst hdc
      simp only [withLength_base, withLength_length, Function.update_self]
      -- the window is not in front of `d`: it would have the same base
      rcases List.mem_append.1 h0 with h0' | h0'
      · have hle := h.toListed.split.1 (List.mem_append_left [d] h0')
        have hwin := h.window h0 d hd hne
        exact absurd (by omega) (hfirst _ h0')
      · rw [← Nat.add_assoc]
        exact hnext _ ((List.mem_cons.1 h0').resolve_left (Ne.symm hne))
    · simp only [withLength_base, withLength_length, Function.update_of_ne hdc]
      exact h.window h0 d hd hne

/-- `vmm_lengthen` keeps the regions disjoint. -/
theorem Separate.vmmLengthen {fuel start : ℕ} {inc : ℤ} {b : Bool} (h : k.Separate l)
    (h0 : 0 < inc) (h1 : inc ≤ 0x7ffff000) (hgrow : k.Growable start (pageAlign inc.toNat))
    (hcall : vmmLengthen fuel k start inc = some (k', b)) : k'.Separate l := by
  rw [Growable, h.vmObjects_eq] at hgrow
  rw [Kernel.vmmLengthen, pageAlignInt_of_le h0 h1] at hcall
  generalize pageAlign inc.toNat = m at hcall hgrow
  simp only [search_eq h.path (Nat.lt_succ_of_le h.length_le), Option.bind_eq_bind,
    Option.bind_some] at hcall
  cases hfind : l.find? fun c => k.regions.base c == start with
  | none =>
    simp only [hfind, Option.some.injEq, Prod.mk.injEq] at hcall
    exact hcall.1 ▸ h
  | some c =>
    obtain ⟨hbase, l₁, l₂, rfl, hfirst⟩ := List.find?_eq_some_iff_append.1 hfind
    have hstart : k.regions.base c = start := by simpa using hbase
    -- the region with its new length, once there is room for it
    have hsep : (∀ d, k.regions.next c = some d →
        (((k.regions.base c : ℤ) + k.regions.length c + (m : ℕ)) % 2 ^ 64).toNat ≤
          k.regions.base d) →
        (k.withLength c (((k.regions.length c : ℤ) + (m : ℕ)) % 2 ^ 64).toNat).Separate
          (l₁ ++ c :: l₂) := by
      intro hroom
      by_cases hc : c = kernelPageTblsObj
      · -- the window may grow as it likes
        refine h.keeps ⟨rfl, rfl, rfl, rfl, fun d hd => ?_, rfl, rfl, rfl, fun _ hn => hn⟩
        exact Function.update_of_ne (hc ▸ hd) _ _
      · obtain ⟨hwrap, hempty⟩ := hgrow c (by simp) hstart hc
        have hlen : (((k.regions.length c : ℤ) + (m : ℕ)) % 2 ^ 64).toNat =
            k.regions.length c + m := by
          omega
        rw [hlen]
        subst hstart
        refine h.grow (fun d hd => by simpa using hfirst d hd) hc (fun d hd => ?_) hempty
        have := hroom d (h.path.suffix.head?.trans hd)
        omega
    simp only [hfind] at hcall
    cases hnext : k.regions.next c with
    | none =>
      simp only [hnext, if_true] at hcall
      exact (hsep fun d hd => by simp [hnext] at hd).keeps (keeps_lengthenPages _ _ hcall)
    | some d =>
      simp only [hnext, decide_eq_true_eq] at hcall
      split at hcall
      · rename_i hroom
        refine (hsep fun e he => ?_).keeps (keeps_lengthenPages _ _ hcall)
        rw [hnext, Option.some.injEq] at he
        exact he ▸ hroom
      · simp only [Option.some.injEq, Prod.mk.injEq] at hcall
        exact hcall.1 ▸ h

/-! ### `vmm_free` -/

/-- Both ends of the loop of `umap` are the same, so that it does nothing. -/
theorem umap_eq (level : ℕ) (k : Kernel) (tablePtr tableVirtAddr regionStart regionEnd : ℕ) :
    umap level k tablePtr tableVirtAddr regionStart regionEnd = some k := by
  rw [umap]
  simp only [Nat.sub_self, List.range'_zero, List.foldlM_nil]
  rfl

theorem findRegion_eq (r : Regions) (start m c : ℕ) :
    findRegion r start m c = (scan r.next (fun _ d => r.base d == start) m c).bind
      fun x => x.2.map fun d => (x.1, d) := by
  induction m generalizing c with
  | zero => rfl
  | succ m ih =>
    rw [findRegion, scan]
    cases r.next c with
    | none => rfl
    | some d =>
      simp only [beq_iff_eq]
      split_ifs
      · rfl
      · exact ih d

theorem forall_base_ne {start : ℕ} {r : List ℕ} (h : (c :: r).IsChain fun _ d =>
    (k.regions.base d == start) = false) (hc : k.regions.base c ≠ start) :
    ∀ d ∈ c :: r, k.regions.base d ≠ start := by
  induction r generalizing c with
  | nil => simpa using hc
  | cons e r ih =>
    obtain ⟨hce, h⟩ := List.isChain_cons_cons.1 h
    intro d hd
    rcases List.mem_cons.1 hd with rfl | hd
    · exact hc
    · exact ih h (by simpa using hce) d hd

/-- `vmm_free` unlinks the first region behind the head that starts at `start`. -/
theorem vmmFree_eq {start : ℕ} (h : k.Chained l) (hhead : k.regions.base k.currentVmm ≠ start) :
    (k.vmmFree start = none ∧ ∀ d ∈ l, k.regions.base d ≠ start) ∨
    ∃ l₁ c d l₂, l = l₁ ++ c :: d :: l₂ ∧ k.regions.base d = start ∧
      (∀ e ∈ l₁ ++ [c], k.regions.base e ≠ start) ∧
      k.vmmFree start = some { k with regions := { k.regions with
        next := Function.update k.regions.next c (k.regions.next d) } } := by
  obtain ⟨r, rfl, hr⟩ := h.exists_cons
  have hlen : r.length < k.regions.count + 1 := by
    have := h.length_le
    simp at this
    omega
  rw [vmmFree]
  simp only [if_neg hhead, findRegion_eq, scan_eq hr hlen, Option.bind_eq_bind, Option.bind_some]
  rcases scanList_cases (fun _ d => k.regions.base d == start) k.currentVmm r with
    ⟨l₁, d, hl, hchain, hscan⟩ | ⟨l₁, c, d, l₂, hl, hchain, hhit, hscan⟩
  · refine Or.inl ⟨by rw [hscan]; rfl, ?_⟩
    exact forall_base_ne hchain hhead
  · refine Or.inr ⟨l₁, c, d, l₂, hl, by simpa using hhit, ?_, ?_⟩
    · cases l₁ with
      | nil =>
        obtain ⟨rfl, -⟩ : k.currentVmm = c ∧ _ := by simpa using hl
        simpa using hhead
      | cons a l₁ =>
        obtain ⟨rfl, -⟩ : k.currentVmm = a ∧ _ := by simpa using hl
        exact forall_base_ne hchain hhead
    · rw [hscan]
      simp only [Option.map_some, Option.bind_some, umap_eq]

theorem Separate.sublist {l' : List ℕ} {next : ℕ → Option ℕ} (h : k.Separate l)
    (hsub : l'.Sublist l) (hpath : Path next (some k.currentVmm) l') :
    ({ k with regions := { k.regions with next := next } } : Kernel).Separate l' :=
  ⟨⟨⟨hpath, fun c hc => h.lt c (hsub.subset hc)⟩, h.sorted.sublist hsub⟩, h.head,
    h.disjoint.sublist hsub, fun h0 c hc hne => h.window (hsub.subset h0) c (hsub.subset hc) hne⟩

theorem Separate.vmmFree {start : ℕ} (h : k.Separate l) (hcall : k.vmmFree start = some k') :
    ∃ l', k'.Separate l' := by
  by_cases hhead : k.regions.base k.currentVmm = start
  · rw [Kernel.vmmFree, if_pos hhead, Option.some.injEq] at hcall
    exact ⟨l, hcall ▸ h⟩
  · rcases vmmFree_eq h.toChained hhead with ⟨hnone, -⟩ | ⟨l₁, c, d, l₂, rfl, -, -, hfree⟩
    · rw [hnone] at hcall
      cases hcall
    · rw [hfree, Option.some.injEq] at hcall
      rw [← hcall]
      refine ⟨l₁ ++ c :: l₂, h.sublist ?_ h.path.unlink⟩
      exact List.Sublist.append_left (List.Sublist.cons_cons c (List.sublist_cons_self d l₂)) l₁

end Kernel

end TitanOS
