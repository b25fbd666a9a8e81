import TitanOS.Vmm.FirstFit

/-!
# Calls that fail

`vmm_alloc` inserts its region before it maps the pages, and `vmm_lengthen` writes the new length
before it does.  Neither takes this back.  So a call that fails leaves the list alone exactly if it
fails before that point: the occupancy test turns the request down, there is no region to lengthen,
or there is no room behind it.

The page tables that a call creates on the way are no change that counts: `Unchanged` leaves out
the pages at which they are accessed, and the length by which each of them extends
`kernel_page_tbls_obj`.
-/

namespace TitanOS

open Walk Linked

/-- The number of nodes that have been made for a table. -/
def Hashmap.tableNodes (h : Hashmap) : ℕ := (List.range h.count).countP fun i => h.ptPaddr i ≠ 0

namespace Hashmap

variable {h : Hashmap} {node v p : ℕ} {r : Hashmap × Bool}

theorem tableNodes_newNode (h : Hashmap) (v p : ℕ) :
    (h.newNode v p).tableNodes = h.tableNodes + if p = 0 then 0 else 1 := by
  have hold : (List.range h.count).countP (fun i => (h.newNode v p).ptPaddr i ≠ 0) =
      (List.range h.count).countP fun i => h.ptPaddr i ≠ 0 := by
    refine List.countP_congr fun i hi => ?_
    simp [newNode, Function.update_of_ne (List.mem_range.1 hi).ne]
  have hcount : (h.newNode v p).count = h.count + 1 := rfl
  have hself : (h.newNode v p).ptPaddr h.count = p := Function.update_self _ _ _
  rw [tableNodes, hcount, List.range_succ, List.countP_append, hold, List.countP_singleton, hself]
  by_cases hp : p = 0 <;> simp [tableNodes, hp]

/-- Registering a node makes no other. -/
theorem tableNodes_pgTblInsert (hr : h.pgTblInsert node = some r) :
    r.1.tableNodes = h.tableNodes := by
  unfold pgTblInsert at hr
  simp only at hr
  split at hr
  · obtain rfl := Option.some.inj hr
    rfl
  · split at hr
    · cases hr
    · obtain rfl := Option.some.inj hr
      rfl
    · obtain rfl := Option.some.inj hr
      rfl

end Hashmap

namespace Kernel

variable {k k' : Kernel} {l : List ℕ} {c fuel start length flags args : ℕ} {inc : ℤ}

/-- From `k` to `k'`, `kernel_page_tbls_obj` has been extended by one page for each table made. -/
structure WindowGrown (k k' : Kernel) : Prop where
  nodes : k.map.tableNodes ≤ k'.map.tableNodes
  length : k'.regions.length kernelPageTblsObj % 2 ^ 64 = (k.regions.length kernelPageTblsObj +
    0x1000 * (k'.map.tableNodes - k.map.tableNodes)) % 2 ^ 64

theorem WindowGrown.refl (k : Kernel) : k.WindowGrown k := ⟨le_rfl, by simp⟩

theorem WindowGrown.trans {k₁ k₂ : Kernel} (h : k.WindowGrown k₁) (h' : k₁.WindowGrown k₂) :
    k.WindowGrown k₂ := by
  obtain ⟨hn, hl⟩ := h
  obtain ⟨hn', hl'⟩ := h'
  exact ⟨hn.trans hn', by omega⟩

/-- Neither a table nor the length of the object changes. -/
theorem windowGrown_of_eq (hn : k'.map.tableNodes = k.map.tableNodes)
    (hl : k'.regions.length kernelPageTblsObj = k.regions.length kernelPageTblsObj) :
    k.WindowGrown k' := ⟨hn.ge, by simp [hn, hl]⟩

theorem Step.windowGrown (h : k.Step k') : k.WindowGrown k' := by
  cases h with
  | mem mem => exact windowGrown_of_eq rfl rfl
  | insert h => exact windowGrown_of_eq (Hashmap.tableNodes_pgTblInsert h) rfl
  | table hfree hpage =>
    have hn : (k.newTable k.pmm.pmmAllocPage.1 k.pmm.pmmAllocPage.2).map.tableNodes =
        k.map.tableNodes + 1 := by
      rw [newTable, Hashmap.tableNodes_newNode, if_neg hpage]
    have hl : (k.newTable k.pmm.pmmAllocPage.1 k.pmm.pmmAllocPage.2).regions.length
        kernelPageTblsObj = (k.regions.length kernelPageTblsObj + 0x1000) % 2 ^ 64 := by
      simp only [newTable, growWindow, Function.update_self]
    exact ⟨by omega, by omega⟩
  | noTable =>
    exact windowGrown_of_eq (by rw [Hashmap.tableNodes_newNode, if_pos rfl, Nat.add_zero]) rfl
  | frame => exact windowGrown_of_eq rfl rfl
  | specificFrame p => exact windowGrown_of_eq rfl rfl

theorem Steps.windowGrown (h : k.Steps k') : k.WindowGrown k' := by
  induction h with
  | refl => exact .refl k
  | tail _ hstep ih => exact ih.trans hstep.windowGrown

/-! ### What must not change -/

/-- The region list of `k'` and its translations are those of `k`, apart from the page tables that
have been made since. -/
structure Unchanged (k k' : Kernel) : Prop where
  list : k'.vmObjects = k.vmObjects
  fields : ∀ c ∈ k.vmObjects, k'.regions.base c = k.regions.base c ∧
    k'.regions.flags c = k.regions.flags c ∧
    (c ≠ kernelPageTblsObj → k'.regions.length c = k.regions.length c)
  window : k.WindowGrown k'
  translations : ∀ v, (∀ i, k.map.count ≤ i → i < k'.map.count →
    page (k'.map.ptVaddr i) ≠ page v) → translate k'.mem k'.cr3 v = translate k.mem k.cr3 v

theorem Unchanged.refl (k : Kernel) : k.Unchanged k :=
  ⟨rfl, fun _ _ => ⟨rfl, rfl, fun _ => rfl⟩, .refl k, fun _ _ => rfl⟩

/-- The occupancy test of `vmm_alloc` turns a request for `n` bytes at `s` down: of the first
neighbours with `s` between their bases, the first contains `s` and the second starts behind the
request. -/
def TurnedDown (k : Kernel) (s n : ℕ) : Prop :=
  s ≠ 0 ∧ ∃ x ∈ (k.vmObjects.zip k.vmObjects.tail).find? fun x =>
      k.regions.base x.1 ≤ s ∧ s < k.regions.base x.2,
    s < k.regionEnd x.1 ∧ (s + n) % 2 ^ 64 < k.regions.base x.2

instance (k : Kernel) (s n : ℕ) : Decidable (k.TurnedDown s n) :=
  inferInstanceAs (Decidable (_ ∧ ∃ x ∈ _, _))

/-- The search answers that the request is turned down if the test does. -/
theorem Chained.findPlace_eq_none {s n : ℕ} (h : k.Chained l) :
    Kernel.findPlace k.regions k.currentVmm s n = some none ↔ k.TurnedDown s n := by
  by_cases hs : s = 0
  · subst hs
    rw [h.firstFit]
    refine iff_of_false ?_ fun hd => hd.1 rfl
    cases k.firstRoom n <;> simp
  · have hobjs := h.vmObjects_eq
    obtain ⟨r, rfl, hr⟩ := h.exists_cons
    have hlen : r.length < k.regions.count + 1 := by
      have := h.length_le
      simp at this
      omega
    rw [TurnedDown, hobjs, List.tail_cons, ← scanList_eq_find (fun c d =>
      decide (k.regions.base c ≤ s ∧ s < k.regions.base d)) k.currentVmm r, Kernel.findPlace,
      if_neg hs, scan_eq hr hlen]
    generalize scanList _ k.currentVmm r = x
    obtain ⟨c, _ | d⟩ := x
    · simp
    · simp [hs, regionEnd]

/-! ### The calls -/

/-- **A failing call of `vmm_alloc`** changes nothing exactly if the request is turned down. -/
theorem vmmAlloc_unchanged_iff (h : k.Chained k.vmObjects)
    (hcall : k.vmmAlloc fuel start length flags args = some (k', 0)) :
    k.Unchanged k' ↔ k.TurnedDown (pageAlignDown start) (pageAlign length) := by
  rw [← h.findPlace_eq_none]
  rcases vmmAlloc_cases hcall with ⟨hfind, hx⟩ | ⟨c, found, k₁, ok, hfind, hmap, hx⟩
  · obtain ⟨rfl, -⟩ := Prod.mk.inj hx
    exact iff_of_true (.refl k') hfind
  · -- the region is on the list, whether or not its pages are mapped
    obtain ⟨rfl, -⟩ := Prod.mk.inj hx
    have hlong := h.length_vmObjects (h.findPlace_mem hfind) (keeps_mapPages _ _ _ hmap)
    refine iff_of_false (fun hu => ?_) (by simp [hfind])
    rw [hu.list] at hlong
    omega

/-- The loop of `vmm_lengthen` fails only if it has a page to map. -/
theorem lt_of_lengthenPages {n v : ℕ} (h : lengthenPages fuel n k c v = some (k', false)) :
    v < (k.regions.base c + k.regions.length c) % 2 ^ 64 := by
  cases n with
  | zero => cases h
  | succ n =>
    by_contra hv
    rw [lengthenPages, if_neg hv] at h
    cases h

/-- **A failing call of `vmm_lengthen`** changes nothing exactly if there is no region to lengthen,
or no room behind it. -/
theorem vmmLengthen_unchanged_iff (h : k.Chained k.vmObjects)
    (hcall : k.vmmLengthen fuel start inc = some (k', false)) :
    k.Unchanged k' ↔ k.lengthened start inc = none := by
  rcases vmmLengthen_cases hcall with ⟨hnone, hx⟩ | ⟨c, length, hlen, hmap⟩
  · obtain ⟨rfl, -⟩ := Prod.mk.inj hx
    exact iff_of_true (.refl k') hnone
  · refine iff_of_false (fun hu => ?_) (by simp [hlen])
    have hsteps := steps_lengthenPages _ _ hmap
    have hlt := lt_of_lengthenPages hmap
    have hself : (Function.update k.regions.length c length) c = length :=
      Function.update_self _ _ _
    simp only [hself] at hlt
    obtain ⟨hc, -, -⟩ := h.lengthened hlen
    by_cases h0 : c = kernelPageTblsObj
    · -- the tables that have been made do not account for the increment
      subst h0
      have hext := hsteps.windowGrown.length
      have hwin := hu.window.length
      simp only [hself] at hext
      omega
    · have hkept := hsteps.keeps.length c h0
      rw [(hu.fields c hc).2.2 h0] at hkept
      simp only [hself] at hkept
      rw [hkept] at hlt
      exact hlt.false

/-- **Failed calls that change nothing.**  Of the calls that fail, those that leave the region list
and the translations as they were are the requests that `vmm_alloc` turns down, and the calls of
`vmm_lengthen` that find no region or no room. -/
theorem failed_calls_unchanged (k : Kernel) (h : k.Chained k.vmObjects) :
    (∀ fuel start length flags args k', k.vmmAlloc fuel start length flags args = some (k', 0) →
      (k.Unchanged k' ↔ k.TurnedDown (pageAlignDown start) (pageAlign length))) ∧
    ∀ fuel start inc k', k.vmmLengthen fuel start inc = some (k', false) →
      (k.Unchanged k' ↔ k.lengthened start inc = none) :=
  ⟨fun _ _ _ _ _ _ hcall => vmmAlloc_unchanged_iff h hcall,
    fun _ _ _ _ hcall => vmmLengthen_unchanged_iff h hcall⟩

/-- At boot, a page inside of the kernel is requested, and the kernel is lengthened beyond the VGA
buffer. -/
theorem failed_calls_unchanged_boot :
    (∃ k', vmmAlloc 2 boot 0xffffff8000001000 0x1000 1 0 = some (k', 0) ∧
      (boot.Unchanged k' ↔
        boot.TurnedDown (pageAlignDown 0xffffff8000001000) (pageAlign 0x1000))) ∧
    ∃ k', vmmLengthen 2 boot 0xffffff8000000000 0x200000 = some (k', false) ∧
      (boot.Unchanged k' ↔ boot.lengthened 0xffffff8000000000 0x200000 = none) := by
  have hboot := boot_separate.toChained
  have halloc : (vmmAlloc 2 boot 0xffffff8000001000 0x1000 1 0).map Prod.snd = some 0 := by
    decide +kernel
  have hlengthen : (vmmLengthen 2 boot 0xffffff8000000000 0x200000).map Prod.snd = some false := by
    decide +kernel
  obtain ⟨⟨k₁, p⟩, halloc, rfl⟩ := Option.map_eq_some_iff.1 halloc
  obtain ⟨⟨k₂, b⟩, hlengthen, rfl⟩ := Option.map_eq_some_iff.1 hlengthen
  exact ⟨⟨k₁, halloc, (failed_calls_unchanged boot hboot).1 _ _ _ _ _ _ halloc⟩,
    k₂, hlengthen, (failed_calls_unchanged boot hboot).2 _ _ _ _ hlengthen⟩

/-- Lengthening the VGA buffer fails, because its pages are not ordinary memory, and leaves it
longer than it was. -/
theorem failed_call_lengthens :
    ∃ k', vmmLengthen 2 boot 0xffffff80000c0000 0x1000 = some (k', false) ∧
      boot.regions.length 2 = 0x1000 ∧ k'.regions.length 2 = 0x2000 ∧ ¬ boot.Unchanged k' := by
  have hcall : (vmmLengthen 2 boot 0xffffff80000c0000 0x1000).map
      (fun x => (x.2, x.1.regions.length 2)) = some (false, 0x2000) := by
    decide +kernel
  obtain ⟨⟨k', b⟩, hcall, hx⟩ := Option.map_eq_some_iff.1 hcall
  obtain ⟨rfl, hlen⟩ := Prod.mk.inj hx
  refine ⟨k', hcall, rfl, hlen, fun h => ?_⟩
  have hkept := (h.fields 2 (by decide)).2.2 (by decide)
  rw [show k'.regions.length 2 = 0x2000 from hlen] at hkept
  exact absurd hkept (by decide)

end Kernel

end TitanOS
