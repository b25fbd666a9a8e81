import TitanOS.Vmm.Access
import TitanOS.Vmm.RegionRuns

/-!
# The region list against the page tables

`vmm_alloc` and `vmm_lengthen` write a range into the region list and then map its pages, so that
the list covers what is mapped.  `alloc_pg_table` adds a page to the length of
`kernel_page_tbls_obj` and then maps the page at `base + length`, which is the first one outside of
the object.  The page of the newest table is therefore on no region, until another table is created.

So the list and the tables agree along runs that create no table (`Recorded`), and they disagree
after every call of `alloc_pg_table`.
-/

namespace TitanOS

open Walk Linked Run

/-- The pages of the `n` bytes from `b` on. -/
def pagesOf (b n : ℕ) : List ℕ := (List.range (n / 0x1000)).map fun i => b + 0x1000 * i

theorem mem_pagesOf {b n v : ℕ} : v ∈ pagesOf b n ↔ ∃ i < n / 0x1000, b + 0x1000 * i = v := by
  simp [pagesOf]

theorem pagesOf_succ (b m : ℕ) :
    pagesOf b (0x1000 * (m + 1)) = b :: pagesOf (b + 0x1000) (0x1000 * m) := by
  simp only [pagesOf, Nat.mul_div_cancel_left _ (show 0 < 0x1000 by norm_num), List.range_succ_eq_map,
    List.map_cons, List.map_map, Nat.mul_zero, Nat.add_zero, List.cons.injEq, true_and]
  refine List.map_congr_left fun i _ => ?_
  simp only [Function.comp_apply]
  omega

namespace Kernel

/-- The whole page of `v` lies inside of region `c`. -/
def Covers (k : Kernel) (v c : ℕ) : Prop :=
  k.regions.base c ≤ pageAlignDown v ∧
    pageAlignDown v + 0x1000 ≤ k.regions.base c + k.regions.length c

instance (k : Kernel) (v c : ℕ) : Decidable (k.Covers v c) := inferInstanceAs (Decidable (_ ∧ _))

/-- The pages that a call adds to the regions. -/
def MapOp.added (k : Kernel) : MapOp → List ℕ
  | .vmmAlloc start length _ _ => pagesOf (pageAlignDown start) (pageAlign length)
  | .vmmLengthen start inc =>
    match k.lengthened start inc with
    | some (c, length) =>
      pagesOf (k.regions.base c + k.regions.length c) (length - k.regions.length c)
    | none => []
  | _ => []

/-- A call that reports success, with the pages mapped so far and the pages added so far. -/
def MapOp.succeed (fuel : ℕ) (x : Kernel × List ℕ × List ℕ) (o : MapOp) :
    Option (Kernel × List ℕ × List ℕ) :=
  match o.call fuel x.1 with
  | some (k, true) => some (k, x.2.1 ++ (Event.maps (o.events fuel x.1)).map Prod.fst,
      x.2.2 ++ o.added x.1)
  | _ => none

/-- Every page mapped lies inside of a region on the list, and every page added is mapped. -/
def Agrees (x : Kernel × List ℕ × List ℕ) : Prop :=
  (∀ v ∈ x.2.1, ∃ c ∈ x.1.vmObjects, x.1.Covers v c) ∧
    ∀ v ∈ x.2.2, translate x.1.mem x.1.cr3 v ≠ none

instance (x : Kernel × List ℕ × List ℕ) : Decidable (Agrees x) :=
  inferInstanceAs (Decidable (_ ∧ _))

/-- The call creates no table and hides none, and its range does not wrap around. -/
def MapOp.Recorded (k : Kernel) : MapOp → Prop
  | .vmmAlloc start length _ _ => 0x1000 ≤ start ∧
      pageAlignDown start + pageAlign length ≤ 2 ^ 64 ∧
      ∀ v ∈ pagesOf (pageAlignDown start) (pageAlign length), k.Present v
  | .vmmLengthen start inc => 0 < inc ∧ inc ≤ 0x7ffff000 ∧
      ∀ c length, k.lengthened start inc = some (c, length) →
        k.regions.base c + k.regions.length c + pageAlign inc.toNat < 2 ^ 64 ∧
        ∀ v ∈ pagesOf (k.regions.base c + k.regions.length c) (pageAlign inc.toNat), k.Present v
  | _ => False

instance (k : Kernel) (v : ℕ) : Decidable (k.Present v) :=
  decidable_of_iff ((follow (entry k.mem) k.cr3 (tableIndices v)).isSome ∧ ¬ k.TableAt v)
    ⟨fun h => ⟨Option.isSome_iff_exists.1 h.1, h.2⟩,
      fun h => ⟨Option.isSome_iff_exists.2 h.table, h.free⟩⟩

instance (k : Kernel) : ∀ o : MapOp, Decidable (o.Recorded k)
  | .mmap _ _ _ => .isFalse id
  | .vmmAlloc _ _ _ _ => inferInstanceAs (Decidable (_ ∧ _ ∧ _))
  | .vmmLengthen start inc =>
    have : Decidable (∀ c length, k.lengthened start inc = some (c, length) →
        k.regions.base c + k.regions.length c + pageAlign inc.toNat < 2 ^ 64 ∧
        ∀ v ∈ pagesOf (k.regions.base c + k.regions.length c) (pageAlign inc.toNat),
          k.Present v) :=
      match h : k.lengthened start inc with
      | none => .isTrue nofun
      | some (d, _) => decidable_of_iff
        (k.regions.base d + k.regions.length d + pageAlign inc.toNat < 2 ^ 64 ∧
          ∀ v ∈ pagesOf (k.regions.base d + k.regions.length d) (pageAlign inc.toNat),
            k.Present v) (by simp)
    inferInstanceAs (Decidable (_ ∧ _ ∧ _))
  | .allocPgTable => .isFalse id

/-- The tables can be walked, and the regions on the list are made of pages. -/
structure Paged (k : Kernel) (R : ℕ → Prop) (C : List (Fin 512) → Prop) : Prop where
  walkable : k.Walkable R C
  chained : k.Chained k.vmObjects
  aligned : ∀ c ∈ k.vmObjects, k.regions.base c % 0x1000 = 0 ∧ k.regions.length c % 0x1000 = 0

variable {k k' : Kernel} {R : ℕ → Prop} {C : List (Fin 512) → Prop} {l : List ℕ}
  {v c n m stop : ℕ}

/-! ### The pages of the loops -/

theorem pagesFrom_eq (h : v + 0x1000 * m ≤ 2 ^ 64) : pagesFrom m v = pagesOf v (0x1000 * m) := by
  induction m generalizing v with
  | zero => rfl
  | succ m ih =>
    rw [pagesOf_succ, pagesFrom]
    rcases Nat.eq_zero_or_pos m with rfl | hm
    · simp [pagesFrom, pagesOf]
    · rw [Nat.mod_eq_of_lt (by omega), ih (by omega)]

theorem newPages_eq (h : v + 0x1000 * m = stop) (hstop : stop + 0x1000 ≤ 2 ^ 64) (hn : m < n) :
    newPages stop n v = pagesOf v (0x1000 * m) := by
  induction m generalizing v n with
  | zero =>
    obtain ⟨n, rfl⟩ : ∃ j, n = j + 1 := ⟨n - 1, by omega⟩
    rw [newPages, if_neg (by omega)]
    rfl
  | succ m ih =>
    obtain ⟨n, rfl⟩ : ∃ j, n = j + 1 := ⟨n - 1, by omega⟩
    rw [newPages, if_pos (by omega), pagesOf_succ, Nat.mod_eq_of_lt (by omega),
      ih (by omega) (by omega)]

theorem mem_newPages_add {j u : ℕ} (h : u ∈ newPages stop n v) : u ∈ newPages stop (n + j) v := by
  induction n generalizing v with
  | zero => cases h
  | succ n ih =>
    rw [Nat.add_right_comm, newPages]
    rw [newPages] at h
    split at h
    next hv =>
      rw [if_pos hv]
      rcases List.mem_cons.1 h with rfl | h
      · exact List.mem_cons_self
      · exact List.mem_cons_of_mem v (ih h)
    next => cases h

/-- The pages of a range of pages lie inside of a region that contains it. -/
theorem covers_of_mem_pagesOf (hv : v ∈ pagesOf n m) (hn : n % 0x1000 = 0)
    (hlo : k.regions.base c ≤ n) (hhi : n + m ≤ k.regions.base c + k.regions.length c) :
    k.Covers v c := by
  obtain ⟨i, hi, rfl⟩ := mem_pagesOf.1 hv
  simp only [Covers, pageAlignDown]
  omega

theorem Chained.congr (h : k.Chained l) (hr : k'.regions = k.regions)
    (hv : k'.currentVmm = k.currentVmm) : k'.Chained l := by
  refine ⟨?_, ?_⟩
  · rw [hr, hv]
    exact h.path
  · rw [hr]
    exact h.lt

/-! ### One call -/

/-- What a call leaves behind that maps the pages `maps` and adds the pages `added`: no region is
removed or shrinks, and no page loses its mapping. -/
structure Grows (k k' : Kernel) (R : ℕ → Prop) (C : List (Fin 512) → Prop)
    (maps added : List ℕ) : Prop where
  paged : k'.Paged R C
  regions : ∀ c ∈ k.vmObjects, c ∈ k'.vmObjects ∧ k'.regions.base c = k.regions.base c ∧
    k.regions.length c ≤ k'.regions.length c
  covered : ∀ u ∈ maps, ∃ c ∈ k'.vmObjects, k'.Covers u c
  mapped : ∀ u ∈ added, translate k'.mem k'.cr3 u ≠ none
  kept : ∀ u, translate k.mem k.cr3 u ≠ none → translate k'.mem k'.cr3 u ≠ none

theorem Grows.agrees {a b maps added : List ℕ} (h : k.Grows k' R C maps added)
    (ha : Agrees (k, a, b)) : Agrees (k', a ++ maps, b ++ added) := by
  refine ⟨fun u hu => ?_, fun u hu => ?_⟩
  · rcases List.mem_append.1 hu with hu | hu
    · obtain ⟨c, hc, hlo, hhi⟩ := ha.1 u hu
      obtain ⟨hc', hbase, hlen⟩ := h.regions c hc
      exact ⟨c, hc', by rw [hbase]; exact hlo, by rw [hbase]; exact hhi.trans (by simpa using hlen)⟩
    · exact h.covered u hu
  · rcases List.mem_append.1 hu with hu | hu
    · exact h.kept u (ha.2 u hu)
    · exact h.mapped u hu

/-- A new region and its pages. -/
theorem Paged.insertRegion {s flags : ℕ} (h : k.Paged R C) (hc : c ∈ k.vmObjects)
    (hs : s % 0x1000 = 0) (hn : n % 0x1000 = 0)
    (hM : Maps { k with regions := Kernel.insertRegion k.regions c s n flags } k' R C
      (pagesOf s n)) : k.Grows k' R C (pagesOf s n) (pagesOf s n) := by
  obtain ⟨l₁, l₂, hl⟩ := List.append_of_mem hc
  have hch := h.chained
  rw [hl] at hch
  have hch' : k'.Chained (l₁ ++ c :: k.regions.count :: l₂) :=
    hch.insertRegion.congr hM.regions hM.currentVmm
  have hmem : ∀ d, d ∈ l₁ ++ c :: k.regions.count :: l₂ ↔
      d ∈ k.vmObjects ∨ d = k.regions.count := by
    intro d
    rw [hl]
    simp only [List.mem_append, List.mem_cons]
    tauto
  have hold := fun d hd => @Chained.insertRegion_of_mem k _ s n c d flags h.chained hd
  have hnew := @insertRegion_self s n c k.regions flags
  have hreg : k'.regions = Kernel.insertRegion k.regions c s n flags := hM.regions
  rw [← hreg] at hold hnew
  have hcr3 : k'.cr3 = k.cr3 := hM.same.cr3
  refine ⟨⟨hM.walkable, ?_, fun d hd => ?_⟩, fun d hd => ?_, fun u hu => ?_, ?_, ?_⟩
  · rwa [hch'.vmObjects_eq]
  · rw [hch'.vmObjects_eq, hmem] at hd
    rcases hd with hd | rfl
    · rw [(hold d hd).1, (hold d hd).2.1]
      exact h.aligned d hd
    · rw [hnew.1, hnew.2]
      exact ⟨hs, hn⟩
  · rw [hch'.vmObjects_eq, hmem]
    exact ⟨Or.inl hd, (hold d hd).1, (hold d hd).2.1.ge⟩
  · refine ⟨k.regions.count, ?_, covers_of_mem_pagesOf hu hs hnew.1.le (by rw [hnew.1, hnew.2])⟩
    rw [hch'.vmObjects_eq, hmem]
    exact Or.inr rfl
  · rw [hcr3]
    exact hM.mapped
  · rw [hcr3]
    exact hM.kept

/-- A region that grows, and its new pages. -/
theorem Paged.withLength (h : k.Paged R C) (hc : c ∈ k.vmObjects) (hm : m % 0x1000 = 0)
    (hM : (k.withLength c (k.regions.length c + m)).Maps k' R C
      (pagesOf (k.regions.base c + k.regions.length c) m)) :
    k.Grows k' R C (pagesOf (k.regions.base c + k.regions.length c) m)
      (pagesOf (k.regions.base c + k.regions.length c) m) := by
  have hlong : (k.withLength c (k.regions.length c + m)).Chained k.vmObjects :=
    ⟨h.chained.path, h.chained.lt⟩
  have hch : k'.Chained k.vmObjects := hlong.congr hM.regions hM.currentVmm
  have hbase : k'.regions.base = k.regions.base := by rw [hM.regions, withLength_base]
  have hlen : k'.regions.length =
      Function.update k.regions.length c (k.regions.length c + m) := by
    rw [hM.regions, withLength_length]
  have hcr3 : k'.cr3 = k.cr3 := hM.same.cr3
  have hal := h.aligned c hc
  refine ⟨⟨hM.walkable, ?_, fun d hd => ?_⟩, fun d hd => ?_, fun u hu => ?_, ?_, ?_⟩
  · rwa [hch.vmObjects_eq]
  · rw [hch.vmObjects_eq] at hd
    rw [hbase, hlen]
    by_cases hdc : d = c
    · subst hdc
      rw [Function.update_self]
      omega
    · rw [Function.update_of_ne hdc]
      exact h.aligned d hd
  · rw [hch.vmObjects_eq, hbase, hlen]
    refine ⟨hd, rfl, ?_⟩
    by_cases hdc : d = c
    · subst hdc
      rw [Function.update_self]
      omega
    · rw [Function.update_of_ne hdc]
  · refine ⟨c, by rwa [hch.vmObjects_eq], covers_of_mem_pagesOf hu (by omega) ?_ ?_⟩
    · rw [hbase]
      omega
    · rw [hbase, hlen, Function.update_self]
      omega
  · rw [hcr3]
    exact hM.mapped
  · rw [hcr3]
    exact hM.kept

theorem pageAlign_mod (length : ℕ) : pageAlign length % 0x1000 = 0 := Nat.mul_mod_left _ _

theorem pageAlignDown_mod (start : ℕ) : pageAlignDown start % 0x1000 = 0 := Nat.mul_mod_left _ _

theorem map_fst_pair (l : List ℕ) (flags : ℕ) :
    (l.map fun u => (u, flags)).map Prod.fst = l := by
  rw [List.map_map]
  exact List.map_id l

/-- The pages of `vmm_alloc`. -/
theorem Paged.vmmAlloc {fuel start length flags args : ℕ} (h : k.Paged R C)
    (ho : MapOp.Recorded k (.vmmAlloc start length flags args))
    (hx : MapOp.call (fuel + 1) k (.vmmAlloc start length flags args) = some (k', true)) :
    k.Grows k' R C ((Event.maps (MapOp.events (fuel + 1) k
      (.vmmAlloc start length flags args))).map Prod.fst)
      (MapOp.added k (.vmmAlloc start length flags args)) := by
  obtain ⟨hstart, hwrap, hp⟩ := ho
  obtain ⟨y, hy, hyx⟩ := Option.map_eq_some_iff.1 hx
  rcases vmmAlloc_cases hy with ⟨-, rfl⟩ | ⟨c, found, k₁, ok, hfind, hmap, rfl⟩
  · simp at hyx
  · obtain ⟨rfl, hc⟩ := h.chained.findPlace (pageAlignDown_ne_zero hstart) hfind
    obtain ⟨rfl, -⟩ := Prod.mk.inj hyx
    have hal := pageAlign_mod length
    have hdown := pageAlignDown_ne_zero hstart
    have hcount : (pageAlign length + 0xfff) % 2 ^ 64 / 0x1000 = pageAlign length / 0x1000 := by
      omega
    have hmul : 0x1000 * (pageAlign length / 0x1000) = pageAlign length := by omega
    have hpages : pagesFrom (pageAlign length / 0x1000) (pageAlignDown start) =
        pagesOf (pageAlignDown start) (pageAlign length) := by
      rw [pagesFrom_eq (by rwa [hmul]), hmul]
    rw [hcount] at hmap
    obtain ⟨hW, hS⟩ := h.walkable.with k.pmm
      (Kernel.insertRegion k.regions c (pageAlignDown start) (pageAlign length) flags)
    obtain ⟨k₂, hmap', hM, hev⟩ := hW.mapPages fuel (pageAlign length / 0x1000) fun u hu =>
      (hp u (hpages ▸ hu)).congr hS rfl h.walkable.root
    obtain ⟨rfl, -⟩ := Prod.mk.inj (Option.some.inj (hmap'.symm.trans hmap))
    rw [hpages] at hM hev
    simp only [MapOp.events, vmmAllocEvents, hfind, hcount, hev, map_fst_pair]
    exact h.insertRegion hc (pageAlignDown_mod start) hal hM

/-- The pages of `vmm_lengthen`. -/
theorem Paged.vmmLengthen {fuel start : ℕ} {inc : ℤ} (h : k.Paged R C)
    (ho : MapOp.Recorded k (.vmmLengthen start inc))
    (hx : Kernel.vmmLengthen (fuel + 1) k start inc = some (k', true)) :
    k.Grows k' R C ((Event.maps (MapOp.events (fuel + 1) k (.vmmLengthen start inc))).map Prod.fst)
      (MapOp.added k (.vmmLengthen start inc)) := by
  obtain ⟨h0, h1, hgrow⟩ := ho
  rcases vmmLengthen_cases hx with ⟨-, hk⟩ | ⟨c, length, hfind, hcall⟩
  · cases hk
  · obtain ⟨hwrap, hp⟩ := hgrow c length hfind
    obtain ⟨hc, -, hlen⟩ := h.chained.lengthened hfind
    rw [pageAlignInt_of_le h0 h1] at hlen
    simp only [MapOp.added, MapOp.events, vmmLengthenEvents, hfind]
    have hpos : 0 < pageAlign inc.toNat := by
      unfold pageAlign
      omega
    have hal := pageAlign_mod inc.toNat
    generalize pageAlign inc.toNat = m at hwrap hp hlen hpos hal
    obtain rfl : length = k.regions.length c + m := by omega
    obtain ⟨hbal, hlal⟩ := h.aligned c hc
    have hv : (k.regions.base c + k.regions.length c) % 2 ^ 64 =
        k.regions.base c + k.regions.length c := Nat.mod_eq_of_lt (by omega)
    have hstop : ((k.withLength c (k.regions.length c + m)).regions.base c +
        (k.withLength c (k.regions.length c + m)).regions.length c) % 2 ^ 64 =
        k.regions.base c + k.regions.length c + m := by
      rw [withLength_base, withLength_length, Function.update_self, ← Nat.add_assoc,
        Nat.mod_eq_of_lt hwrap]
    -- the loop gets to all new pages
    have hall : newPages (k.regions.base c + k.regions.length c + m) (fuel + 1 + m)
        (k.regions.base c + k.regions.length c) =
        pagesOf (k.regions.base c + k.regions.length c) m := by
      rw [newPages_eq (m := m / 0x1000) (by omega) (by omega) (by omega),
        show 0x1000 * (m / 0x1000) = m by omega]
    rw [hv] at hcall ⊢
    have hmmio : isMmio (k.regions.flags c) = false := by
      cases hflag : isMmio (k.regions.flags c) with
      | false => rfl
      | true =>
        rw [Kernel.lengthenPages, if_pos hflag, if_pos] at hcall
        · cases hcall
        · exact (Nat.lt_add_of_pos_right hpos).trans_eq hstop.symm
    obtain ⟨hW, hS⟩ := h.walkable.with k.pmm (k.withLength c (k.regions.length c + m)).regions
    obtain ⟨hM, hev, hfuel⟩ := hW.lengthenPages fuel (fuel + 1) hmmio hstop (fun u hu =>
      (hp u (hall ▸ mem_newPages_add hu)).congr hS rfl h.walkable.root) hcall
    rw [← hfuel m, hall] at hM hev
    have hgrown : ∀ maps, maps = pagesOf (k.regions.base c + k.regions.length c) m →
        k.Grows k' R C maps (pagesOf (k.regions.base c + k.regions.length c) m) := by
      rintro _ rfl
      exact h.withLength hc hal hM
    rw [Nat.add_sub_cancel_left]
    exact hgrown _ ((congrArg (List.map Prod.fst) hev).trans (map_fst_pair _ _))

/-- One call. -/
theorem Paged.call {fuel : ℕ} {o : MapOp} (h : k.Paged R C) (ho : o.Recorded k)
    (hx : o.call (fuel + 1) k = some (k', true)) :
    k.Grows k' R C ((Event.maps (o.events (fuel + 1) k)).map Prod.fst) (o.added k) := by
  cases o with
  | mmap paddr v flags => exact ho.elim
  | vmmAlloc start length flags args => exact h.vmmAlloc ho hx
  | vmmLengthen start inc => exact h.vmmLengthen ho hx
  | allocPgTable => exact ho.elim

/-! ### Runs -/

/-- `alloc_pg_table` maps a page that is on no region of the list. -/
theorem not_covers_allocPgTable (fuel : ℕ) (h : k.Tables R C) (hroom : k.Room 1)
    (hs : k.Supplied 1) (hsep : k.Separate k.vmObjects) (hmem : kernelPageTblsObj ∈ k.vmObjects)
    (htop : k.regions.base kernelPageTblsObj + k.regions.length kernelPageTblsObj < 2 ^ 64) :
    ∃ k', MapOp.call (fuel + 1) k .allocPgTable = some (k', true) ∧
      k'.windowTop ∈ (Event.maps (MapOp.events (fuel + 1) k .allocPgTable)).map Prod.fst ∧
      ∀ c ∈ k'.vmObjects, ¬ k'.Covers k'.windowTop c := by
  obtain ⟨k', hcall, hA⟩ := allocPgTable_spec fuel h hroom hs
  have hf0 : k.pmm.pmmAllocPage.2 ≠ 0 := (hs.2 _ (by simp [Pmm.nextFrames])).1
  have hwin : k.windowTop = k.regions.base kernelPageTblsObj +
      k.regions.length kernelPageTblsObj := Nat.mod_eq_of_lt htop
  refine ⟨k', ?_, ?_, fun c hc hcov => ?_⟩
  · simp only [MapOp.call, hcall, Option.map_some, bne_iff_ne.2 hf0]
  · obtain ⟨tw, htw⟩ := h.window
    have hfree : k.map.getFreedPgTbl = none := by
      obtain ⟨L, hL⟩ := h.lists
      rw [Hashmap.getFreedPgTbl, path_nil.1 hL.free]
    have hnew := @windowTop_newTable k k.pmm.pmmAllocPage.1 k.pmm.pmmAllocPage.2 hroom
    have hind := @tableIndices_window (k.windowTop + 0x1000) (by have := hroom.1; omega)
      (by have := hroom.2.2; omega)
    have hev := @mmapEvents_present (k.newTable k.pmm.pmmAllocPage.1 k.pmm.pmmAllocPage.2) R k.cr3
      tw (k.windowTop + 0x1000) k.currentPml4tPtr fuel k.pmm.pmmAllocPage.2 0
      (registered_newTable h.accessible.registered (h.lists.imp fun _ hL => ⟨[], hL⟩)) h.root
      h.accesses_current (by rw [hind]; exact htw)
    have hcalls : MapOp.events (fuel + 1) k .allocPgTable = .frame k.pmm.firstFree ::
        [.write (k.pmm.pmmAllocPage.2 ||| 0 ||| 7), .map (k.windowTop + 0x1000) 0] := by
      simp only [MapOp.events, allocPgTableEvents, hfree, if_neg hf0, hnew, ← hev]
      rfl
    rw [hcalls, hA.windowTop]
    simp [Event.maps]
  · have hkeeps : k.Keeps k' := keeps_allocPgTable _ hcall
    have hsep' := hsep.keeps hkeeps
    have htop' := hA.windowTop
    have hbase : k'.regions.base = k.regions.base := hkeeps.base
    have hlen : k'.regions.length kernelPageTblsObj =
        (k.regions.length kernelPageTblsObj + 0x1000) % 2 ^ 64 := by
      rw [hA.regions, growWindow]
      simp
    have hhigh := hroom.2.2
    rw [hsep'.vmObjects_eq] at hc
    obtain ⟨-, hhi⟩ := hcov
    have hdown : k'.windowTop < pageAlignDown k'.windowTop + 0x1000 := by
      unfold pageAlignDown
      omega
    by_cases hc0 : c = kernelPageTblsObj
    · rw [hc0, hbase, hlen] at hhi
      omega
    · have := hsep'.window hmem c hc hc0
      rw [hbase] at this hhi
      omega

/-- **Regions and page tables.**  In a run of successful calls that create no table, every page
mapped lies inside of a region on the list, and every page added is mapped; and `alloc_pg_table`
maps a page for which that is not so. -/
theorem regions_match_tables (fuel : ℕ) (k : Kernel) (R : ℕ → Prop) (C : List (Fin 512) → Prop) :
    (k.Paged R C → ∀ os, Along (MapOp.succeed (fuel + 1)) (fun x o => o.Recorded x.1) (k, [], []) os →
      Always (MapOp.succeed (fuel + 1)) Agrees (k, [], []) os) ∧
    (k.Tables R C → k.Room 1 → k.Supplied 1 → k.Separate k.vmObjects →
      kernelPageTblsObj ∈ k.vmObjects →
      k.regions.base kernelPageTblsObj + k.regions.length kernelPageTblsObj < 2 ^ 64 →
      ∃ x, MapOp.succeed (fuel + 1) (k, [], []) .allocPgTable = some x ∧ ¬ Agrees x) := by
  refine ⟨fun h os hos => ?_, fun h hroom hs hsep hmem htop => ?_⟩
  · refine Always.of_inv (I := fun x => x.1.Paged R C ∧ Agrees x) (fun x hx => hx.2)
      (fun x o x' hx ho hstep => ?_) ⟨h, nofun, nofun⟩ hos
    unfold MapOp.succeed at hstep
    split at hstep
    next k' hcall =>
      obtain rfl := Option.some.inj hstep
      have hG := hx.1.call ho hcall
      exact ⟨hG.paged, hG.agrees hx.2⟩
    next => cases hstep
  · obtain ⟨k', hcall, hmaps, hnot⟩ := not_covers_allocPgTable fuel h hroom hs hsep hmem htop
    refine ⟨_, by rw [MapOp.succeed, hcall], fun hag => ?_⟩
    obtain ⟨c, hc, hcov⟩ := hag.1 k'.windowTop (List.mem_append_right _ hmaps)
    exact hnot c hc hcov

/-- Two pages of the identity mapped megabytes are requested and lengthened by one more. -/
theorem regions_match_tables_lower :
    Always (MapOp.succeed 4) Agrees (boot, [], [])
      [.vmmAlloc 0x150000 0x1800 1 0, .vmmLengthen 0x150000 0x1000] ∧
    ∃ x, MapOp.succeed 4 (boot, [], []) .allocPgTable = some x ∧ ¬ Agrees x := by
  have hT := boot_tables (R := fun r => r = 0x111000) (fun _ => Iff.rfl) fun _ => True
  have hpaged : boot.Paged (fun r => r = 0x111000) fun _ => True :=
    ⟨hT.walkable, boot_separate.toChained, by decide +kernel⟩
  obtain ⟨hruns, htable⟩ := regions_match_tables 3 boot (fun r => r = 0x111000) fun _ => True
  exact ⟨hruns hpaged _ (by decide +kernel), htable hT (by decide +kernel) (by decide +kernel)
    boot_separate (by decide +kernel) (by decide +kernel)⟩

/-- After the first table has been created, its page is on no region. -/
theorem table_page_unrecorded :
    ∃ x ∈ MapOp.succeed 4 (boot, [], []) .allocPgTable,
      x.2.1 = [0xffffff8000307000] ∧ ¬ Agrees x := by
  decide +kernel

end Kernel

end TitanOS
