import TitanOS.Vmm.PointUpdate
import TitanOS.Vmm.RegionRuns

/-!
# `vmm_free` after `vmm_alloc`

`vmm_free` leaves unmapping to `umap`, whose loop runs from the index of the start of the region
to the index of the start of the region, that is, not at all (`umap_eq`).  So it only takes an
object off the list: the pages stay mapped and their frames stay taken.

`Undone` is what undoing a call of `vmm_alloc` would mean.  Only the empty request is undone, and
only if no other region starts where it does, because `vmm_free` unlinks the first that does.
-/

namespace TitanOS

open Walk Linked

namespace Kernel

/-- The slots of the frames that the loop of `vmm_alloc` takes from the physical allocator. -/
def frameSlots (fuel flags : ℕ) : ℕ → Kernel → ℕ → List ℕ
  | 0, _, _ => []
  | n + 1, k, v => k.pmm.firstFree.toList ++
      match mmap fuel (k.takeFrame 0).1 k.currentPml4tPtr (k.takeFrame 0).2 v flags with
      | some (k', true) => frameSlots fuel flags n k' ((v + 0x1000) % 2 ^ 64)
      | _ => []

/-- The slots of the frames that `vmm_alloc(start, length, flags, NULL)` obtains for its pages. -/
def obtained (fuel : ℕ) (k : Kernel) (start length flags : ℕ) : List ℕ :=
  match findPlace k.regions k.currentVmm (pageAlignDown start) (pageAlign length) with
  | some (some (c, found)) =>
    frameSlots fuel flags ((pageAlign length + 0xfff) % 2 ^ 64 / 0x1000)
      { k with regions := insertRegion k.regions c found (pageAlign length) flags } found
  | _ => []

/-- In `k'` the request that was made in `k` is undone: the region list is what it was, no page of
the range is translated, the frames are free again, and all other pages are translated as before. -/
structure Undone (fuel : ℕ) (k k' : Kernel) (start length flags : ℕ) : Prop where
  list : k'.vmObjects = k.vmObjects
  fields : ∀ c ∈ k.vmObjects, k'.regions.base c = k.regions.base c ∧
    k'.regions.length c = k.regions.length c ∧ k'.regions.flags c = k.regions.flags c
  unmapped : ∀ v, start ≤ v → v < start + length → translate k'.mem k'.cr3 v = none
  released : ∀ j ∈ obtained fuel k start length flags, k'.pmm.slotTaken j = false
  others : ∀ v, Canonical v → v / 0x1000 < start / 0x1000 ∨ start + length ≤ v / 0x1000 * 0x1000 →
    translate k'.mem k'.cr3 v = translate k.mem k.cr3 v

variable {k k₁ k₂ : Kernel} {l : List ℕ} {fuel start length flags c : ℕ}

/-- What a call that succeeds did. -/
theorem vmmAlloc_eq_some (hal : start % 0x1000 = 0) (hstart : 0x1000 ≤ start)
    (h : k.Listed l) (hcall : vmmAlloc fuel k start length flags 0 = some (k₁, start)) :
    ∃ l₁ c l₂, l = l₁ ++ c :: l₂ ∧
      findPlace k.regions k.currentVmm start (pageAlign length) = some (some (c, start)) ∧
      (k.regions.base k.currentVmm ≤ start → ∀ d ∈ l₂, start < k.regions.base d) ∧
      mapPages fuel flags ((pageAlign length + 0xfff) % 2 ^ 64 / 0x1000)
        { k with regions := insertRegion k.regions c start (pageAlign length) flags } start 0 =
          some (k₁, true) := by
  have hdown : pageAlignDown start = start := by
    unfold pageAlignDown
    omega
  rcases @findPlace_spec k l start (pageAlign length) h (by omega) with
    ⟨-, hfind⟩ | ⟨-, l₁, c, l₂, hl, hfind, hplace⟩
  · simp only [vmmAlloc, hdown, hfind, Option.bind_eq_bind, Option.bind_some, Option.some.injEq,
      Prod.mk.injEq] at hcall
    omega
  · refine ⟨l₁, c, l₂, hl, hfind, fun hh => (hplace hh).2, ?_⟩
    simp only [vmmAlloc, hdown, hfind, Option.bind_eq_bind, Option.bind_some] at hcall
    obtain ⟨⟨k', ok⟩, hmap, hcall⟩ := Option.bind_eq_some_iff.1 hcall
    cases ok with
    | false =>
      simp only [Bool.false_eq_true, if_false, Option.some.injEq, Prod.mk.injEq] at hcall
      omega
    | true =>
      simp only [if_true, Option.some.injEq, Prod.mk.injEq, and_true] at hcall
      rw [← hcall]
      exact hmap

/-! ### A non-empty request -/

theorem pages_pos (hstart : 0x1000 ≤ start) (hwrap : start + length < 2 ^ 64) (hlen : length ≠ 0) :
    ∃ n, (pageAlign length + 0xfff) % 2 ^ 64 / 0x1000 = n + 1 ∧ 0x1000 * n < length := by
  refine ⟨(length + 0xfff) / 0x1000 - 1, ?_, ?_⟩
  · unfold pageAlign
    omega
  · omega

/-- The first frame that is taken is not given back. -/
theorem frameSlots_taken {n v : ℕ} (hfree : k.pmm.firstFree ≠ none)
    (h : mapPages fuel flags (n + 1) k v 0 = some (k₁, true)) :
    ∃ j ∈ frameSlots fuel flags (n + 1) k v, k₁.pmm.slotTaken j = true := by
  obtain ⟨j, hj⟩ := Option.ne_none_iff_exists'.1 hfree
  refine ⟨j, by simp [frameSlots, hj], ?_⟩
  rw [mapPages_succ] at h
  obtain ⟨⟨k', ok⟩, hmmap, h⟩ := Option.bind_eq_some_iff.1 h
  have hmark : (k.takeFrame 0).1.pmm.slotTaken j = true := by
    simp [takeFrame, Pmm.pmmAllocPage_eq, hj]
  have hk' := (keeps_mmap fuel hmmap).taken j hmark
  cases ok with
  | false => simp at h
  | true => exact (keeps_mapPages fuel flags n h).taken j hk'

/-- A request for at least one page is not undone by a state with the same tables and the same
allocator as after the request. -/
theorem not_undone {m : ℕ} (hal : start % 0x1000 = 0) (hstart : 0x1000 ≤ start)
    (hwrap : start + length < 2 ^ 64) (hlen : length ≠ 0) (h : k.Listed k.vmObjects)
    (hsup : k.pmm.firstFree ≠ none ∨ (k.Tables (fun r => r = k.cr3) (fun _ => False) ∧
      Backed (m + 2) k start length flags 0))
    (hcall : vmmAlloc (m + 2) k start length flags 0 = some (k₁, start))
    (hmem : k₂.mem = k₁.mem) (hcr3 : k₂.cr3 = k₁.cr3) (hpmm : k₂.pmm = k₁.pmm) :
    ¬ Undone (m + 2) k k₂ start length flags := by
  intro hun
  obtain ⟨l₁, c, l₂, hl, hfind, -, hmap⟩ := vmmAlloc_eq_some hal hstart h hcall
  obtain ⟨n, hpages, hn⟩ := pages_pos hstart hwrap hlen
  have hdown : pageAlignDown start = start := by
    unfold pageAlignDown
    omega
  rcases hsup with hfree | ⟨hT, hb⟩
  · -- a frame is still taken
    rw [hpages] at hmap
    obtain ⟨j, hj, htaken⟩ := frameSlots_taken (by exact hfree) hmap
    have hrel := hun.released j (by rw [obtained, hdown, hfind]; simpa only [hpages] using hj)
    rw [hpmm, htaken] at hrel
    cases hrel
  · -- the last page is still mapped
    have hc : c ∈ k.vmObjects := by
      rw [hl]
      simp
    have hback := hb c hc
    rw [hdown, show pageAlignDown 0 = 0 from rfl] at hback
    obtain ⟨k', hmap', -, hlast, -⟩ := mapPages_spec m flags (fun _ _ hp => hp) _
      (hT.with_regions (windowTop_insertRegion h.count_pos)) hback
    rw [hmap, Option.some.injEq, Prod.mk.injEq] at hmap'
    obtain ⟨rfl, -⟩ := hmap'
    obtain ⟨f, hf⟩ := hlast (by omega)
    have hnone := hun.unmapped ((start + 0x1000 * n) % 2 ^ 64) (by omega) (by omega)
    rw [hpages, Nat.add_sub_cancel] at hf
    rw [hmem, hcr3, hf] at hnone
    cases hnone

/-! ### The list -/

/-- What `vmm_free` leaves behind: the old list exactly if no region started there. -/
theorem vmmFree_vmmAlloc (hal : start % 0x1000 = 0) (hstart : 0x1000 ≤ start)
    (h : k.Listed k.vmObjects)
    (hcall : vmmAlloc fuel k start length flags 0 = some (k₁, start)) :
    ∃ k₂, k₁.vmmFree start = some k₂ ∧ k₂.mem = k₁.mem ∧ k₂.cr3 = k₁.cr3 ∧ k₂.pmm = k₁.pmm ∧
      k₂.regions.base = k₁.regions.base ∧ k₂.regions.length = k₁.regions.length ∧
      k₂.regions.flags = k₁.regions.flags ∧
      (k₂.vmObjects = k.vmObjects ↔ ∀ c ∈ k.vmObjects, k.regions.base c ≠ start) := by
  obtain ⟨l₁, c, l₂, hl, hfind, hplace, hmap⟩ := vmmAlloc_eq_some hal hstart h hcall
  rw [hl] at h ⊢
  have hkeep := keeps_mapPages _ _ _ hmap
  have hins := (@Chained.insertRegion k start (pageAlign length) c l₁ l₂ flags h.toChained)
  have hch := hins.keeps hkeep
  -- the bases after the call
  have hold : ∀ d ∈ l₁ ++ c :: l₂, k₁.regions.base d = k.regions.base d := fun d hd => by
    rw [hkeep.base]
    exact (h.toChained.insertRegion_of_mem hd).1
  have hnew : k₁.regions.base k.regions.count = start := by
    rw [hkeep.base]
    exact (insertRegion_self k.regions flags).1
  have hout : k.regions.count ∉ l₁ ++ c :: l₂ := fun hx => (h.lt _ hx).false
  have hcur : k₁.currentVmm = k.currentVmm := hkeep.currentVmm
  have hhead : k.currentVmm ∈ l₁ ++ c :: l₂ := by
    obtain ⟨r, hr, -⟩ := h.exists_cons
    rw [hr]
    simp
  by_cases hb : k.regions.base k.currentVmm = start
  · -- the head starts there, and `vmm_free` does nothing
    refine ⟨k₁, ?_, rfl, rfl, rfl, rfl, rfl, rfl, ?_⟩
    · rw [vmmFree, if_pos (by rw [hcur, hold _ hhead, hb])]
    · rw [hch.vmObjects_eq]
      refine ⟨fun he => absurd ?_ hout, fun hne => absurd hb (hne _ hhead)⟩
      rw [← he]
      simp
  · rcases @vmmFree_eq k₁ _ start hch (by rw [hcur, hold _ hhead]; exact hb) with
      ⟨-, hnone⟩ | ⟨m₁, a, d, m₂, hm, hd, hfirst, hfree⟩
    · exact absurd hnew (hnone _ (by simp))
    refine ⟨_, hfree, rfl, rfl, rfl, rfl, rfl, rfl, ?_⟩
    have hpath := hch.path
    rw [hm] at hpath
    have hch₂ : Chained { k₁ with regions := { k₁.regions with
        next := Function.update k₁.regions.next a (k₁.regions.next d) } } (m₁ ++ a :: m₂) := by
      refine ⟨hpath.unlink, fun e he => hch.lt e ?_⟩
      rw [hm]
      simp only [List.mem_append, List.mem_cons] at he ⊢
      tauto
    rw [hch₂.vmObjects_eq]
    by_cases hdx : d = k.regions.count
    · -- the new region is the one that goes
      subst hdx
      have hx₁ : k.regions.count ∉ l₁ ++ [c] := fun hx => hout (by
        simp only [List.mem_append, List.mem_cons, List.not_mem_nil, or_false] at hx ⊢
        tauto)
      have hx₂ : k.regions.count ∉ l₂ := fun hx => hout (by simp [hx])
      rw [List.append_cons l₁, List.append_cons m₁,
        List.append_cons_inj_of_notMem hx₁ hx₂] at hm
      obtain ⟨hm₁, -, rfl⟩ := hm
      rw [List.append_cons m₁, ← hm₁, ← List.append_cons]
      refine iff_of_true rfl fun e he => ?_
      rw [← hold e he]
      rw [List.append_cons] at he
      rcases List.mem_append.1 he with he | he
      · exact hfirst e (hm₁ ▸ he)
      · rw [hold e (by simp [he])]
        have hle : k.regions.base k.currentVmm ≤ k.regions.base e := h.base_head_le (by simp [he])
        by_cases hhd : k.regions.base k.currentVmm ≤ start
        · exact (hplace hhd e he).ne'
        · omega
    · -- another region goes, and the new one stays
      have hmem : ∀ e, e ∈ l₁ ++ c :: k.regions.count :: l₂ ↔ e ∈ m₁ ++ a :: d :: m₂ := by
        intro e
        rw [hm]
      have hd' : d ∈ l₁ ++ c :: l₂ := by
        have := (hmem d).2 (by simp)
        simp only [List.mem_append, List.mem_cons] at this ⊢
        tauto
      refine iff_of_false (fun he => hout ?_) fun hne => hne d hd' (by rw [← hold d hd', hd])
      have := (hmem k.regions.count).1 (by simp)
      rw [← he]
      simp only [List.mem_append, List.mem_cons] at this ⊢
      have hxd : k.regions.count ≠ d := fun hx => hdx hx.symm
      tauto

/-- **`vmm_free` undoes `vmm_alloc` only for an empty request** at an address where no region
starts.  The call succeeds in a state with a sorted region list, in which a frame is free or else
the page tables are in order and the range can be backed. -/
theorem vmm_free_undoes (k k₁ : Kernel) (m start length flags : ℕ) (h : k.Listed k.vmObjects)
    (hal : start % 0x1000 = 0) (hstart : 0x1000 ≤ start) (hwrap : start + length < 2 ^ 64)
    (hsup : k.pmm.firstFree ≠ none ∨ (k.Tables (fun r => r = k.cr3) (fun _ => False) ∧
      Backed (m + 2) k start length flags 0))
    (hcall : vmmAlloc (m + 2) k start length flags 0 = some (k₁, start)) :
    ∃ k₂, k₁.vmmFree start = some k₂ ∧
      (Undone (m + 2) k k₂ start length flags ↔
        length = 0 ∧ ∀ c ∈ k.vmObjects, k.regions.base c ≠ start) := by
  obtain ⟨k₂, hfree, hmem, hcr3, hpmm, hbase, hlength, hflags, hlist⟩ :=
    vmmFree_vmmAlloc hal hstart h hcall
  refine ⟨k₂, hfree, fun hun => ⟨?_, hlist.1 hun.list⟩, fun ⟨hlen, hne⟩ => ?_⟩
  · by_contra hlen
    exact not_undone hal hstart hwrap hlen h hsup hcall hmem hcr3 hpmm hun
  · subst hlen
    obtain ⟨l₁, c, l₂, hl, hfind, -, hmap⟩ := vmmAlloc_eq_some hal hstart h hcall
    have hdown : pageAlignDown start = start := by
      unfold pageAlignDown
      omega
    have hpages : (pageAlign 0 + 0xfff) % 2 ^ 64 / 0x1000 = 0 := rfl
    simp only [hpages, mapPages, Option.some.injEq, Prod.mk.injEq, and_true] at hmap
    subst hmap
    refine ⟨hlist.2 hne, fun c hc => ?_, fun v hlo hhi => ?_, fun j hj => ?_, fun v _ _ => ?_⟩
    · rw [hbase, hlength, hflags]
      exact h.toChained.insertRegion_of_mem hc
    · omega
    · rw [obtained, hdown, hfind] at hj
      simp only [hpages, frameSlots, List.not_mem_nil] at hj
    · rw [hmem, hcr3]

/-- At boot, one page is requested and freed. -/
theorem vmm_free_undoes_boot :
    ∃ k₁ k₂, vmmAlloc 2 boot 0x180000 0x1000 3 0 = some (k₁, 0x180000) ∧
      k₁.vmmFree 0x180000 = some k₂ ∧
      (Undone 2 boot k₂ 0x180000 0x1000 3 ↔
        0x1000 = 0 ∧ ∀ c ∈ boot.vmObjects, boot.regions.base c ≠ 0x180000) := by
  have hcall : (vmmAlloc 2 boot 0x180000 0x1000 3 0).map Prod.snd = some 0x180000 := by
    decide +kernel
  obtain ⟨⟨k₁, p⟩, hcall, rfl⟩ := Option.map_eq_some_iff.1 hcall
  have hfree : boot.pmm.firstFree ≠ none := by decide +kernel
  obtain ⟨k₂, hk₂, hiff⟩ := vmm_free_undoes boot k₁ 0 0x180000 0x1000 3 boot_separate.toListed
    (by decide) (by decide) (by decide) (Or.inl hfree) hcall
  exact ⟨k₁, k₂, hcall, hk₂, hiff⟩

/-- The page is still mapped, and its frame is still taken. -/
theorem page_stays_mapped :
    (∀ c ∈ boot.vmObjects, ¬ boot.Meets 0x180000 0x1000 c) ∧ boot.pmm.slotTaken 64 = false ∧
    ∃ x ∈ vmmAlloc 2 boot 0x180000 0x1000 3 0, x.2 = 0x180000 ∧
      ∃ k₂ ∈ x.1.vmmFree 0x180000, translate k₂.mem k₂.cr3 0x180000 = some 0x40000 ∧
        64 ∈ obtained 2 boot 0x180000 0x1000 3 ∧ k₂.pmm.slotTaken 64 = true := by
  decide +kernel

end Kernel

end TitanOS
