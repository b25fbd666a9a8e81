import TitanOS.Vmm.RegionRuns

/-!
# Independent requests

`vmm_alloc` inserts a region behind the last one that starts at or below it.  On the list of bases,
lengths and flags this is insertion by base (`vmmAlloc_orderedInsert`), and two insertions with
different bases commute.  So requests that meet neither each other nor a region are all granted,
and leave the same list in whatever order they are issued.

The length of `kernel_page_tbls_obj` is left out: it grows with the tables that the requests need,
and a table may be needed by one request or the other.
-/

namespace TitanOS

open Linked Run

/-! ### Insertion by a key -/

section OrderedInsert

variable {α : Type*} {key : α → ℕ} {x y : α} {l l₁ l₂ : List α}

/-- The new element goes behind those with at most its key, and in front of the others. -/
theorem orderedInsert_append (h₁ : ∀ a ∈ l₁, key a ≤ key x) (h₂ : ∀ a ∈ l₂, key x < key a) :
    (l₁ ++ l₂).orderedInsert (fun a b => key a < key b) x = l₁ ++ x :: l₂ := by
  induction l₁ with
  | nil =>
    cases l₂ with
    | nil => rfl
    | cons a l₂ => exact List.orderedInsert_cons_of_le _ _ (h₂ a List.mem_cons_self)
  | cons a l₁ ih =>
    have ha : ¬ key x < key a := (h₁ a List.mem_cons_self).not_gt
    rw [List.cons_append, List.orderedInsert_cons, if_neg ha,
      ih fun b hb => h₁ b (List.mem_cons_of_mem a hb)]
    rfl

/-- Insertions with different keys commute. -/
theorem orderedInsert_comm (h : key x ≠ key y) :
    (l.orderedInsert (fun a b => key a < key b) x).orderedInsert (fun a b => key a < key b) y =
      (l.orderedInsert (fun a b => key a < key b) y).orderedInsert (fun a b => key a < key b)
        x := by
  induction l with
  | nil =>
    simp only [List.orderedInsert_nil, List.orderedInsert_cons]
    split_ifs <;> first | rfl | omega
  | cons a l ih =>
    by_cases hx : key x < key a <;> by_cases hy : key y < key a <;>
      simp only [List.orderedInsert_cons, hx, hy, if_true, if_false, ih] <;>
      split_ifs <;> first | rfl | omega

end OrderedInsert

/-! ### Requests -/

/-- `KERNEL_PAGE_TBL_START`. -/
def kernelPageTblStart : ℕ := 0xffffff8000300000

/-- The arguments of a call of `vmm_alloc`. -/
structure Request where
  start : ℕ
  length : ℕ
  flags : ℕ
  args : ℕ
  deriving DecidableEq, Repr

namespace Request

/-- The length in whole pages. -/
def size (r : Request) : ℕ := (r.length + 0xfff) / 0x1000 * 0x1000

/-- The request is for whole pages between the first page and `KERNEL_PAGE_TBL_START`. -/
structure Valid (r : Request) : Prop where
  low : 0x1000 ≤ r.start
  aligned : r.start % 0x1000 = 0
  pos : 0 < r.length
  high : r.start + r.size ≤ kernelPageTblStart

/-- The pages of the two requests are different. -/
def Apart (r q : Request) : Prop := ¬ Overlap r.start r.size q.start q.size

instance (r q : Request) : Decidable (r.Apart q) := inferInstanceAs (Decidable (¬ _))

instance : Std.Symm Apart := by
  refine ⟨fun r q hrq => ?_⟩
  simp only [Apart, Overlap] at hrq ⊢
  omega

variable {r q : Request}

/-- The entry of a request in the layout of the region list. -/
def entry (r : Request) : ℕ × Option ℕ × ℕ := (r.start, some r.size, r.flags)

theorem Valid.pageAlignDown_start (h : r.Valid) : pageAlignDown r.start = r.start := by
  have := h.aligned
  rw [pageAlignDown]
  omega

theorem Valid.pageAlign_length (h : r.Valid) : pageAlign r.length = r.size := by
  have := h.high
  simp only [size, kernelPageTblStart] at this
  rw [pageAlign, size, Nat.mod_eq_of_lt (by omega)]

theorem Valid.size_pos (h : r.Valid) : 0 < r.size := by
  have := h.pos
  rw [size]
  omega

theorem Valid.start_ne (h : r.Valid) (hq : q.Valid) (hrq : r.Apart q) : r.start ≠ q.start := by
  have := h.size_pos
  have := hq.size_pos
  simp only [Apart, Overlap] at hrq
  omega

end Request

namespace Kernel

/-- The request meets no region on the list. -/
def Clear (k : Kernel) (r : Request) : Prop := ∀ c ∈ k.vmObjects, ¬ k.Meets r.start r.size c

instance (k : Kernel) (r : Request) : Decidable (k.Clear r) :=
  inferInstanceAs (Decidable (∀ c ∈ _, _))

/-- Base, length and flags of a region, without the length of `kernel_page_tbls_obj`. -/
def layoutEntry (k : Kernel) (c : ℕ) : ℕ × Option ℕ × ℕ :=
  (k.regions.base c, if c = kernelPageTblsObj then none else some (k.regions.length c),
    k.regions.flags c)

/-- Base, length and flags of the regions on the list. -/
def layout (k : Kernel) : List (ℕ × Option ℕ × ℕ) := k.vmObjects.map k.layoutEntry


/-- All calls of `mmap` for the request succeed. -/
def PagesMapped (fuel : ℕ) (k : Kernel) (r : Request) : Prop :=
  (match findPlace k.regions k.currentVmm (pageAlignDown r.start) (pageAlign r.length) with
    | some (some (c, found)) =>
      (mapPages fuel r.flags ((pageAlign r.length + 0xfff) % 2 ^ 64 / 0x1000)
        { k with regions := insertRegion k.regions c found (pageAlign r.length) r.flags } found
        (pageAlignDown r.args)).any Prod.snd
    | _ => true) = true

instance (fuel : ℕ) (k : Kernel) (r : Request) : Decidable (k.PagesMapped fuel r) :=
  inferInstanceAs (Decidable (_ = true))

/-- The call of `vmm_alloc` for a request. -/
def allocStep (fuel : ℕ) (k : Kernel) (r : Request) : Option Kernel :=
  (k.vmmAlloc fuel r.start r.length r.flags r.args).map Prod.fst

/-- The calls for the requests all succeed, and lead from the first state to the second. -/
def Grants (fuel : ℕ) : Kernel → List Request → Kernel → Prop
  | k, [], k' => k' = k
  | k, r :: rs, k' => ∃ k₁, k.vmmAlloc fuel r.start r.length r.flags r.args = some (k₁, r.start) ∧
      Grants fuel k₁ rs k'

/-- The list is sorted from 0 on, and `kernel_page_tbls_obj` is where the source puts it. -/
structure Anchored (k : Kernel) (l : List ℕ) : Prop extends k.Listed l where
  zero : k.regions.base k.currentVmm = 0
  tables : k.regions.base kernelPageTblsObj = kernelPageTblStart

variable {k k' : Kernel} {l l₁ l₂ : List ℕ} {r q : Request} {c fuel : ℕ}

/-- The fields of the regions after an insertion and the calls of `mmap`. -/
theorem Chained.keeps_insertRegion {s n flags : ℕ} (h : k.Chained l)
    (hk : ({ k with regions := Kernel.insertRegion k.regions c s n flags } : Kernel).Keeps k') :
    (∀ d ∈ l, k'.regions.base d = k.regions.base d ∧ k'.layoutEntry d = k.layoutEntry d ∧
      (d ≠ kernelPageTblsObj → k'.regions.length d = k.regions.length d)) ∧
    k'.regions.base k.regions.count = s ∧ k'.regions.length k.regions.count = n ∧
      k'.layoutEntry k.regions.count = (s, some n, flags) := by
  have hpos : k.regions.count ≠ kernelPageTblsObj := h.count_pos.ne'
  have hself : k'.regions.base k.regions.count = s ∧ k'.regions.length k.regions.count = n ∧
      k'.regions.flags k.regions.count = flags := by
    rw [hk.base, hk.flags, hk.length _ hpos]
    simp [Kernel.insertRegion, newRegion]
  refine ⟨fun d hd => ?_, hself.1, hself.2.1, ?_⟩
  · obtain ⟨hb, hlen, hf⟩ := @Chained.insertRegion_of_mem k _ s n c d flags h hd
    have hb' : k'.regions.base d = k.regions.base d := by rw [hk.base, ← hb]
    have hf' : k'.regions.flags d = k.regions.flags d := by rw [hk.flags, ← hf]
    have hlen' : d ≠ kernelPageTblsObj → k'.regions.length d = k.regions.length d :=
      fun hne => (hk.length d hne).trans hlen
    refine ⟨hb', ?_, hlen'⟩
    rw [layoutEntry, layoutEntry, hb', hf']
    split_ifs with h0
    · rfl
    · rw [hlen' h0]
  · rw [layoutEntry, if_neg hpos, hself.1, hself.2.1, hself.2.2]

/-- A request that meets no region is granted, behind the last region that starts at or below
it. -/
theorem Anchored.vmmAlloc (h : k.Anchored l) (hr : r.Valid) (hclear : k.Clear r)
    (hmap : k.PagesMapped fuel r) :
    ∃ l₁ c l₂ k', l = l₁ ++ c :: l₂ ∧ (∀ d ∈ l₁ ++ [c], k.regions.base d ≤ r.start) ∧
      (∀ d ∈ l₂, r.start < k.regions.base d) ∧
      ({ k with regions := insertRegion k.regions c r.start r.size r.flags } : Kernel).Keeps k' ∧
      k.vmmAlloc fuel r.start r.length r.flags r.args = some (k', r.start) := by
  have hne : r.start ≠ 0 := by
    have := hr.low
    omega
  rw [PagesMapped, hr.pageAlignDown_start, hr.pageAlign_length] at hmap
  rcases @findPlace_spec k l r.start r.size h.toListed hne with
    ⟨hcaught, -⟩ | ⟨-, l₁, c, l₂, hl, hfind, hplace⟩
  · obtain ⟨c, hc, hmeets⟩ := hcaught.meets hr.size_pos.ne'
    exact absurd hmeets (hclear c hc)
  · obtain ⟨hle, hlt⟩ := hplace (by rw [h.zero]; exact Nat.zero_le _)
    simp only [hfind, Option.any_eq_true] at hmap
    obtain ⟨⟨k', ok⟩, hpages, hok⟩ := hmap
    obtain rfl : ok = true := hok
    refine ⟨l₁, c, l₂, k', hl, hle, hlt, keeps_mapPages _ _ _ hpages, ?_⟩
    rw [Kernel.vmmAlloc, hr.pageAlignDown_start, hr.pageAlign_length]
    simp only [hfind, Option.bind_eq_bind, Option.bind_some, hpages, if_true]

/-- What a granted request does to the list, to the layout and to the other requests. -/
theorem Anchored.step (h : k.Anchored l) (hr : r.Valid) (hclear : k.Clear r)
    (hmap : k.PagesMapped fuel r) :
    ∃ k' l', k.vmmAlloc fuel r.start r.length r.flags r.args = some (k', r.start) ∧
      k'.Anchored l' ∧
      k'.layout = k.layout.orderedInsert (fun x y => x.1 < y.1) r.entry ∧
      ∀ q : Request, q.Valid → r.Apart q → k.Clear q → k'.Clear q := by
  obtain ⟨l₁, c, l₂, k', rfl, hle, hlt, hk, hcall⟩ := h.vmmAlloc hr hclear hmap
  have hlist := (@Chained.insertRegion k r.start r.size c l₁ l₂ r.flags h.toChained).keeps hk
  obtain ⟨hold, hbase, hlength, hentry⟩ := h.toChained.keeps_insertRegion hk
  have hleft : ∀ d ∈ l₁ ++ [c], d ∈ l₁ ++ c :: l₂ := by
    intro d hd
    simp only [List.mem_append, List.mem_cons, List.not_mem_nil, or_false] at hd ⊢
    tauto
  have hright : ∀ d ∈ l₂, d ∈ l₁ ++ c :: l₂ := fun d hd => by simp [hd]
  refine ⟨k', _, hcall, ⟨⟨hlist, ?_⟩, ?_, ?_⟩, ?_, fun q hq hrq hclear' d hd => ?_⟩
  · refine pairwise_insert (h.sorted.imp_of_mem fun {a b} ha hb hab => ?_) (fun d hd => ?_)
      fun d hd => ?_
    · rwa [(hold a ha).1, (hold b hb).1]
    · rw [(hold d (hleft d hd)).1, hbase]
      exact hle d hd
    · rw [(hold d (hright d hd)).1, hbase]
      exact (hlt d hd).le
  · obtain ⟨t, ht, -⟩ := h.exists_cons
    have hcur : k'.currentVmm = k.currentVmm := hk.currentVmm
    rw [hcur, (hold k.currentVmm (by rw [ht]; simp)).1]
    exact h.zero
  · rw [hk.base]
    exact (insertRegion_of_lt h.count_pos).1.trans h.tables
  · -- the entries on both sides of the new one are the old ones
    have hmapl : (l₁ ++ [c]).map k'.layoutEntry = (l₁ ++ [c]).map k.layoutEntry :=
      List.map_congr_left fun d hd => (hold d (hleft d hd)).2.1
    have hmapr : l₂.map k'.layoutEntry = l₂.map k.layoutEntry :=
      List.map_congr_left fun d hd => (hold d (hright d hd)).2.1
    have hnew : k'.layout =
        (l₁ ++ [c]).map k.layoutEntry ++ r.entry :: l₂.map k.layoutEntry := by
      rw [layout, hlist.vmObjects_eq, List.append_cons, List.map_append, hmapl, List.map_cons,
        hmapr, hentry]
      rfl
    have hcut : k.layout = (l₁ ++ [c]).map k.layoutEntry ++ l₂.map k.layoutEntry := by
      rw [layout, h.vmObjects_eq, List.append_cons, List.map_append]
    rw [hnew, hcut]
    refine (orderedInsert_append (fun x hx => ?_) fun x hx => ?_).symm
    · obtain ⟨d, hd, rfl⟩ := List.mem_map.1 hx
      exact hle d hd
    · obtain ⟨d, hd, rfl⟩ := List.mem_map.1 hx
      exact hlt d hd
  · rw [hlist.vmObjects_eq] at hd
    rw [Clear, h.vmObjects_eq] at hclear'
    have hmem : d ∈ l₁ ++ c :: l₂ ∨ d = k.regions.count := by
      simp only [List.mem_append, List.mem_cons] at hd ⊢
      tauto
    rcases hmem with hd | rfl
    · have hq' := hclear' d hd
      have hb := (hold d hd).1
      by_cases h0 : d = kernelPageTblsObj
      · -- the window may have grown, but no request reaches it
        have hhigh := hq.high
        rw [h0] at hb
        rw [h.tables] at hb
        rw [h0, Meets, Overlap, hb]
        omega
      · rw [Meets, hb, (hold d hd).2.2 h0]
        exact hq'
    · rw [Meets, hbase, hlength]
      simp only [Request.Apart, Overlap] at hrq ⊢
      omega

/-- The requests that are issued in a row are granted, and are inserted one by one. -/
theorem Anchored.grants {rs : List Request} (h : k.Anchored l) (hvalid : ∀ r ∈ rs, r.Valid)
    (hapart : rs.Pairwise Request.Apart) (hclear : ∀ r ∈ rs, k.Clear r)
    (hmap : Along (allocStep fuel) (PagesMapped fuel) k rs) :
    ∃ k', Grants fuel k rs k' ∧ k'.layout =
      rs.foldl (fun t r => t.orderedInsert (fun x y => x.1 < y.1) r.entry) k.layout := by
  induction rs generalizing k l with
  | nil => exact ⟨k, rfl, rfl⟩
  | cons r rs ih =>
    obtain ⟨hr, hvalid⟩ := List.forall_mem_cons.1 hvalid
    obtain ⟨hcr, hclear⟩ := List.forall_mem_cons.1 hclear
    obtain ⟨har, hapart⟩ := List.pairwise_cons.1 hapart
    obtain ⟨k₁, l₁, hcall, h₁, hlayout, hkeep⟩ := h.step hr hcr hmap.1
    have hstep : k.allocStep fuel r = some k₁ := by rw [allocStep, hcall, Option.map_some]
    obtain ⟨k', hgrants, hlayout'⟩ := ih h₁ hvalid hapart
      (fun q hq => hkeep q (hvalid q hq) (har q hq) (hclear q hq)) (hmap.2 k₁ hstep)
    refine ⟨k', ⟨k₁, hcall, hgrants⟩, ?_⟩
    rw [hlayout', hlayout, List.foldl_cons]

/-- **The order of independent requests does not matter.**  Requests that meet neither each other
nor a region all succeed, in any order, and leave the same bases, lengths and flags. -/
theorem alloc_order_irrelevant (fuel : ℕ) (k : Kernel) (l : List ℕ) (rs rs' : List Request)
    (h : k.Anchored l) (hvalid : ∀ r ∈ rs, r.Valid) (hapart : rs.Pairwise Request.Apart)
    (hclear : ∀ r ∈ rs, k.Clear r) (hperm : rs.Perm rs')
    (hmap : Along (allocStep fuel) (PagesMapped fuel) k rs)
    (hmap' : Along (allocStep fuel) (PagesMapped fuel) k rs') :
    ∃ k₁ k₂, Grants fuel k rs k₁ ∧ Grants fuel k rs' k₂ ∧ k₁.layout = k₂.layout := by
  obtain ⟨k₁, hk₁, hlayout₁⟩ := h.grants hvalid hapart hclear hmap
  obtain ⟨k₂, hk₂, hlayout₂⟩ := h.grants (fun r hr => hvalid r (hperm.mem_iff.2 hr))
    ((hperm.pairwise_iff fun {r q} => Std.Symm.symm r q).1 hapart)
    (fun r hr => hclear r (hperm.mem_iff.2 hr)) hmap'
  refine ⟨k₁, k₂, hk₁, hk₂, ?_⟩
  rw [hlayout₁, hlayout₂]
  refine hperm.foldl_eq' (fun r hr q hq t => ?_) _
  by_cases hrq : r = q
  · rw [hrq]
  · have hne : r.start ≠ q.start :=
      (hvalid r hr).start_ne (hvalid q hq) (hapart.forall hr hq hrq)
    exact orderedInsert_comm hne

/-- Two requests on both sides of the kernel, and one between its regions. -/
theorem alloc_order_irrelevant_boot :
    ∃ k₁ k₂, Grants 4 boot [⟨0x400000, 0x1800, 3, 0⟩, ⟨0xffffff80002fb000, 0x1000, 1, 0⟩,
        ⟨0xffffff80000c1000, 0x1000, 16, 0xfee00000⟩] k₁ ∧
      Grants 4 boot [⟨0xffffff80000c1000, 0x1000, 16, 0xfee00000⟩, ⟨0x400000, 0x1800, 3, 0⟩,
        ⟨0xffffff80002fb000, 0x1000, 1, 0⟩] k₂ ∧ k₁.layout = k₂.layout := by
  have hboot : boot.Anchored boot.vmObjects := ⟨boot_separate.toListed, rfl, rfl⟩
  refine alloc_order_irrelevant 4 boot boot.vmObjects _ _ hboot ?_ (by decide) (by decide)
    (by decide) (by decide +kernel) (by decide +kernel)
  intro r hr
  simp only [List.mem_cons, List.not_mem_nil, or_false] at hr
  rcases hr with rfl | rfl | rfl <;> exact ⟨by decide, by decide, by decide, by decide⟩

end Kernel

end TitanOS
