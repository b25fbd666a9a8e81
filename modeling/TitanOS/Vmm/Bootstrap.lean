import TitanOS.Boot.KernelInit
import TitanOS.Vmm.PmmInit
import TitanOS.Vmm.Spaces

/-!
# From `kernel_init.S` through `vmm_init` to `pmm_init`

The tables that `_setup_pt` writes and the registrations of `vmm_init` establish what the memory
managers rely on, for every layout of the image: the tables are in order (`kernel_tables`), and
`pmm_init` finds what it needs (`kernel_beforePmm`).

The first pages of the heap and of the bitmap are not behind the image, where `pmm_init` marks
two pages for them: their physical addresses lack `KERNEL_PHYS`.  `boot_shares_iff` says when the
frames are handed out again.
-/

namespace TitanOS

open Walk LittleEndian

/-! ### `vmm_init` -/

/-- Tables at distinct addresses that are not registered yet can all be registered. -/
theorem foldlM_vmmHashmapPut (xs : List (ℕ × ℕ)) (h : Hashmap) (hlists : ∃ L, h.Lists L [])
    (hnew : ∀ x ∈ xs, h.registered x.2 = false) (hnd : (xs.map Prod.snd).Nodup) :
    ∃ h', xs.foldlM (fun h x => (h.vmmHashmapPut 1 x.1 x.2).map Prod.fst) h = some h' ∧
      (∃ L, h'.Lists L []) ∧ (∀ x ∈ xs, h'.getPtblVaddr x.2 = some x.1) ∧
      (∀ p, p ∉ xs.map Prod.snd → h'.getPtblVaddr p = h.getPtblVaddr p) ∧
      ∀ i < h'.count, (i < h.count ∧ h'.ptVaddr i = h.ptVaddr i) ∨ h'.ptVaddr i ∈ xs.map Prod.fst := by
  induction xs generalizing h with
  | nil => exact ⟨h, rfl, hlists, nofun, fun _ _ => rfl, fun i hi => Or.inl ⟨hi, rfl⟩⟩
  | cons x xs ih =>
    obtain ⟨L, hL⟩ := hlists
    obtain ⟨hx, hnd'⟩ := List.nodup_cons.1 hnd
    obtain ⟨h₁, hput, hL₁, -, hvaddr, -, hcount, hget, hother, hreg⟩ :=
      hL.register (hnew x List.mem_cons_self) x.1
    have hne : ∀ y ∈ xs, y.2 ≠ x.2 := fun y hy he => hx (he ▸ List.mem_map_of_mem hy)
    have hfree : ∀ y ∈ xs, h₁.registered y.2 = false := by
      intro y hy
      rw [Bool.eq_false_iff, Ne, hreg, not_or]
      exact ⟨by simp [hnew y (List.mem_cons_of_mem _ hy)], hne y hy⟩
    obtain ⟨h', hfold, hlists', hall, hkept, hnodes⟩ := ih h₁ ⟨_, hL₁⟩ hfree hnd'
    refine ⟨h', ?_, hlists', fun y hy => ?_, fun p hp => ?_, fun i hi => ?_⟩
    · rw [List.foldlM_cons, Hashmap.vmmHashmapPut, hput]
      exact hfold
    · rcases List.mem_cons.1 hy with rfl | hy
      · rw [hkept _ hx, hget]
      · exact hall y hy
    · rw [List.map_cons, List.mem_cons, not_or] at hp
      rw [hkept p hp.2, hother p hp.1]
    · rcases hnodes i hi with ⟨hlt, hsame⟩ | hmem
      · rw [hsame, hvaddr]
        show _ ∨ Function.update h.ptVaddr h.count x.1 i ∈ _
        by_cases hic : i = h.count
        · rw [hic, Function.update_self]
          exact Or.inr List.mem_cons_self
        · exact Or.inl ⟨by omega, Function.update_of_ne hic _ _⟩
      · exact Or.inr (List.mem_cons_of_mem _ hmem)

/-- **`vmm_init`** registers all tables. -/
theorem vmmInit_spec {tables : List (ℕ × ℕ)} (hnd : (tables.map Prod.snd).Nodup) :
    ∃ h, vmmInit tables = some h ∧ (∃ L, h.Lists L []) ∧
      (∀ x ∈ tables, h.getPtblVaddr x.2 = some x.1) ∧
      ∀ i < h.count, h.ptVaddr i ∈ tables.map Prod.fst := by
  obtain ⟨h, hfold, hlists, hall, -, hnodes⟩ := foldlM_vmmHashmapPut tables
    Hashmap.vmmHashmapInit ⟨_, Hashmap.lists_init⟩ (fun _ _ => rfl) hnd
  exact ⟨h, hfold, hlists, hall, fun i hi => (hnodes i hi).resolve_left fun h => absurd h.1 (Nat.not_lt_zero i)⟩

namespace Layout

/-- The virtual address of a place in the image: `KERNEL_OFFSET` is added to the physical one. -/
def virt (l : Layout) (p : ℕ) : ℕ := 0xffffff8000000000 + (p - l.kernelText)

/-- The tables as `vmm_init` registers them. -/
def bootTables (l : Layout) : List (ℕ × ℕ) :=
  (List.range 8).map fun n => (l.virt (l.table n), l.table n)

/-- The state after `vmm_init`. -/
def kernel (l : Layout) (mem : ℕ → UInt8) (pmm : Pmm) : Kernel where
  mem := entries mem
  cr3 := l.table 0
  currentPml4tPtr := l.virt (l.table 0)
  currentVmm := 4
  map := (vmmInit l.bootTables).getD Hashmap.vmmHashmapInit
  pmm := pmm
  regions := { bootRegions with
    length := Function.update bootRegions.length kernelTextObj l.kernelByteSize }

/-! ### The tables at boot -/

/-- The way to each of the tables. -/
def wayTo : ℕ → List (Fin 512)
  | 0 => []
  | 1 => [511]
  | 2 => [511, 0]
  | 3 => [511, 0, 0]
  | 4 => [0]
  | 5 => [0, 0]
  | 6 => [0, 0, 0]
  | _ => [511, 0, 1]

variable {l : Layout} {mem₀ mem : ℕ → UInt8} {info : Option ℕ} {pmm : Pmm} {n m : ℕ}

theorem table_injective (h : l.table n = l.table m) : n = m := by
  unfold table at h
  omega

/-- The entries of a table that is not the last on its way. -/
theorem Shows.step (h : l.Shows mem₀ mem (l.tables info)) (hn : n < 8)
    (hway : (wayTo n).length ≤ 2) {i : Fin 512} {t : ℕ}
    (ht : entry (entries mem) (l.table n) i = some t) :
    ∃ m < 8, t = l.table m ∧ wayTo n ++ [i] = wayTo m := by
  have hsingle : ∀ {m m' : ℕ}, m < 8 → (if i = 0 then some (l.table m) else none) = some t →
      wayTo m' ++ [0] = wayTo m → ∃ m < 8, t = l.table m ∧ wayTo m' ++ [i] = wayTo m := by
    intro m m' hm hif hto
    split_ifs at hif with hi
    subst hi
    exact ⟨m, hm, (Option.some.inj hif).symm, hto⟩
  interval_cases n
  · rw [h.entry_root] at ht
    split_ifs at ht with h0 h511
    · exact ⟨4, by norm_num, (Option.some.inj ht).symm, by rw [h0]; rfl⟩
    · exact ⟨1, by norm_num, (Option.some.inj ht).symm, by rw [h511]; rfl⟩
  · exact hsingle (by norm_num) (h.entry_pdpt i ▸ ht) rfl
  · rw [h.entry_pd] at ht
    split_ifs at ht with h1 h0
    · exact ⟨7, by norm_num, (Option.some.inj ht).symm, by rw [h1]; rfl⟩
    · exact ⟨3, by norm_num, (Option.some.inj ht).symm, by rw [h0]; rfl⟩
  · exact absurd hway (by decide)
  · exact hsingle (by norm_num) (h.entry_pdpt2 i ▸ ht) rfl
  · exact hsingle (by norm_num) (h.entry_pd2 i ▸ ht) rfl
  · exact absurd hway (by decide)
  · exact absurd hway (by decide)

/-- Within three steps of the root there are the eight tables, each in one way. -/
theorem Shows.reached (h : l.Shows mem₀ mem (l.tables info)) {p : List (Fin 512)} {t : ℕ}
    (hp : p.length ≤ 3) (ht : follow (entry (entries mem)) (l.table 0) p = some t) :
    ∃ n < 8, t = l.table n ∧ p = wayTo n := by
  induction p using List.reverseRecOn generalizing t with
  | nil => exact ⟨0, by norm_num, (Option.some.inj ht).symm, rfl⟩
  | append_singleton q i ih =>
    rw [List.length_append, List.length_singleton] at hp
    rw [follow_snoc] at ht
    obtain ⟨u, hu, hi⟩ := Option.bind_eq_some_iff.1 ht
    obtain ⟨n, hn, rfl, rfl⟩ := ih (by omega) hu
    exact h.step hn (by omega) hi

theorem forest (h : l.Shows mem₀ mem (l.tables info)) {R : ℕ → Prop} (hR : ∀ r, R r → r = l.table 0)
    (C : List (Fin 512) → Prop) : Forest (entry (entries mem)) R 3 C := by
  intro r r' p p' t hr hr' hp hp' ht ht'
  obtain rfl := hR r hr
  obtain rfl := hR r' hr'
  obtain ⟨n, -, rfl, rfl⟩ := h.reached hp ht
  obtain ⟨m, -, hnm, rfl⟩ := h.reached hp' ht'
  rw [table_injective hnm]
  exact ⟨rfl, Or.inl rfl⟩

/-- A place of the image is mapped at its virtual address. -/
theorem Shows.translate_virt (h : l.Shows mem₀ mem (l.tables info))
    (hinfo : ∀ p ∈ info, p % 0x1000 = 0) {p : ℕ} (hp : l.kernelText ≤ p) (hend : p < l.bssEnd) :
    translate (entries mem) (l.table 0) (l.virt p) = some (p / 0x1000 * 0x1000) := by
  have htext := l.text_aligned
  have hbss := l.bssEnd_le
  have hlt := l.lt_text
  have hpages : (p - l.kernelText) / 0x1000 < l.kernelPageSize := by
    unfold kernelPageSize
    omega
  have hfew := l.kernelPageSize_lt
  rw [h.translate_eq hinfo, virt, l.frame_kernel info (by omega), kernelFrame, if_neg (by omega),
    if_neg (by omega), if_neg (by omega), if_neg (by omega), if_pos hpages, Option.some.injEq]
  omega

theorem table_mem (hn : n < 8) : l.kernelText ≤ l.table n ∧ l.table n + 0x1000 ≤ l.bssEnd := by
  have h₁ := l.text_le
  have h₂ := l.tables_le
  unfold table
  omega

/-- The registrations. -/
theorem kernel_map (l : Layout) (mem : ℕ → UInt8) (pmm : Pmm) :
    (∃ L, (l.kernel mem pmm).map.Lists L []) ∧
      (∀ n < 8, (l.kernel mem pmm).map.getPtblVaddr (l.table n) = some (l.virt (l.table n))) ∧
      ∀ i < (l.kernel mem pmm).map.count, ∃ n < 8,
        (l.kernel mem pmm).map.ptVaddr i = l.virt (l.table n) := by
  have hnd : (l.bootTables.map Prod.snd).Nodup := by
    rw [bootTables, List.map_map]
    exact List.nodup_range.map fun _ _ => table_injective
  obtain ⟨h, hinit, hlists, hall, hnodes⟩ := vmmInit_spec hnd
  have hmap : (l.kernel mem pmm).map = h := by
    show (vmmInit l.bootTables).getD Hashmap.vmmHashmapInit = h
    rw [hinit, Option.getD_some]
  rw [hmap]
  refine ⟨hlists, fun n hn => ?_, fun i hi => ?_⟩
  · exact hall (l.virt (l.table n), l.table n) (List.mem_map.2 ⟨n, List.mem_range.2 hn, rfl⟩)
  · obtain ⟨x, hx, hxi⟩ := List.mem_map.1 (hnodes i hi)
    obtain ⟨n, hn, rfl⟩ := List.mem_map.1 hx
    exact ⟨n, List.mem_range.1 hn, hxi.symm⟩

/-- Tables are registered in the image. -/
theorem virt_table (hn : n < 8) : 0xffffff8000000000 ≤ l.virt (l.table n) ∧
    l.virt (l.table n) < 0xffffff80000c0000 ∧ l.virt (l.table n) % 0x1000 = 0 := by
  obtain ⟨hle, hend⟩ := @table_mem l n hn
  have hbss := l.bssEnd_lt
  have hlt := l.lt_text
  have htext := l.text_aligned
  have htable := l.table_mod n
  unfold virt
  omega

theorem length_kernel {c : ℕ} (hc : c ≠ kernelTextObj) :
    (l.kernel mem pmm).regions.length c = bootRegions.length c :=
  Function.update_of_ne hc _ _

theorem windowTop_kernel (l : Layout) (mem : ℕ → UInt8) (pmm : Pmm) :
    (l.kernel mem pmm).windowTop = 0xffffff8000306000 := by
  have hbase : (l.kernel mem pmm).regions.base kernelPageTblsObj = 0xffffff8000300000 := rfl
  rw [Kernel.windowTop, length_kernel (by decide), hbase]
  rfl

/-- **The page tables are in order** when `vmm_init` returns. -/
theorem kernel_tables (h : l.Shows mem₀ mem (l.tables info)) (hinfo : ∀ p ∈ info, p % 0x1000 = 0)
    {R : ℕ → Prop} (hR : ∀ r, R r ↔ r = l.table 0) (C : List (Fin 512) → Prop) :
    (l.kernel mem pmm).Tables R C := by
  obtain ⟨hlists, hget, -⟩ := l.kernel_map mem pmm
  refine ⟨(hR _).2 rfl, forest h (fun r => (hR r).1) C, fun t ht => ?_, hget 0 (by norm_num), ?_,
    hlists⟩
  · obtain ⟨r, p, hr, hp, ht⟩ := ht
    obtain rfl := (hR r).1 hr
    obtain ⟨n, hn, rfl, -⟩ := h.reached hp ht
    obtain ⟨hle, hend⟩ := @table_mem l n hn
    obtain ⟨hlo, hhi, hal⟩ := @virt_table l n hn
    refine ⟨l.virt (l.table n), hget n hn, by omega, ⟨hal, ?_⟩, fun hun => ?_⟩
    · rw [show (l.kernel mem pmm).mem = entries mem from rfl,
        show (l.kernel mem pmm).cr3 = l.table 0 from rfl, h.translate_virt hinfo hle (by omega),
        Option.some.injEq]
      have := l.table_mod n
      omega
    · have htop := windowTop_kernel l mem pmm
      obtain ⟨habove, -⟩ := hun
      rw [htop] at habove
      unfold page at habove
      omega
  · refine ⟨l.table 7, ?_⟩
    show follow (entry (entries mem)) (l.table 0) [511, 0, 1] = some (l.table 7)
    rw [follow_cons, h.entry_root, if_neg (by decide), if_pos rfl, Option.bind_some, follow_cons,
      h.entry_pdpt, if_pos rfl, Option.bind_some, follow_cons, h.entry_pd, if_pos rfl]
    rfl

/-- **What `pmm_init` finds.** -/
theorem kernel_beforePmm (h : l.Shows mem₀ mem (l.tables info))
    (hinfo : ∀ p ∈ info, p % 0x1000 = 0) : (l.kernel mem pmm).BeforePmm := by
  refine ⟨kernel_tables h hinfo (fun r => Iff.rfl) _, ⟨l.table 3, ?_⟩, fun v hlo hhi => ?_,
    ?_, rfl, length_kernel (by decide),
    show isMmio (bootRegions.flags kernelPmmObj) = false by decide, fun d hd => ?_⟩
  · show follow (entry (entries mem)) (l.table 0) [511, 0, 0] = some (l.table 3)
    rw [follow_cons, h.entry_root, if_neg (by decide), if_pos rfl, Option.bind_some, follow_cons,
      h.entry_pdpt, if_pos rfl, Option.bind_some, follow_cons, h.entry_pd, if_neg (by decide),
      if_pos rfl]
    rfl
  · rintro ⟨i, hi, he⟩
    obtain ⟨n, hn, hvirt⟩ := (l.kernel_map mem pmm).2.2 i hi
    obtain ⟨hle, hlt, -⟩ := @virt_table l n hn
    rw [hvirt] at he
    unfold page at he
    omega
  · show Linked.search bootRegions.next (fun c => bootRegions.base c == 0xffffff80000e8000) 6
      (some 4) = some (some kernelPmmObj)
    decide
  · obtain rfl : kernelPageTblsObj = d := Option.some.inj hd
    show 0xffffff8000200000 ≤ bootRegions.base kernelPageTblsObj
    decide

end Layout

/-! ### The address spaces after boot -/

namespace Spaces

variable {s : Spaces} {u f : ℕ}

/-- The page of `u`, in the kernel half and outside of the unused part of the window, is mapped to
`f`. -/
structure Maps (s : Spaces) (u f : ℕ) : Prop where
  ordered : s.Ordered
  high : getIndex u 3 = 511
  used : ¬ s.kernel.Unused u
  mapped : translate s.kernel.mem s.kernel.cr3 u = some f

/-- It is mapped so in all spaces. -/
theorem Maps.translate (h : s.Maps u f) {a : Vmm} (ha : a ∈ s.spaces) :
    translate s.kernel.mem a.pml4t u = some f :=
  (h.ordered.translate_kernelHalf ⟨a, ha, rfl⟩ h.high).trans h.mapped

theorem Maps.createVmm {k : Kernel} {vmm : Vmm} (n : ℕ) (h : s.Maps u f) (hroom : s.kernel.Room 1)
    (hs : s.kernel.Supplied 1) (hcall : s.kernel.createVmm (n + 1) = some (k, vmm)) :
    Maps ⟨k, s.spaces ++ [vmm]⟩ u f := by
  obtain ⟨k', vmm', hcall', hord⟩ := h.ordered.createVmm n hroom hs
  obtain ⟨rfl, rfl⟩ := Prod.mk.inj (Option.some.inj (hcall'.symm.trans hcall))
  obtain ⟨k₁, halloc, hA⟩ := Kernel.allocPgTable_spec n h.ordered.tables hroom hs
  generalize s.kernel.pmm.pmmAllocPage.2 = g at halloc hA
  have hcount : 0 < k₁.regions.count := by
    rw [(Kernel.keeps_allocPgTable (n + 1) halloc).count]
    exact h.ordered.objects
  have heq := Kernel.createVmm_eq _ halloc hA.tables.accesses_current hA.getPtblVaddr hA.accesses
  obtain ⟨rfl, -⟩ := Prod.mk.inj (Option.some.inj (heq.symm.trans hcall'))
  have htop : page k₁.windowTop = page s.kernel.windowTop + 1 := by
    obtain ⟨hlo, hal, hhi⟩ := hroom
    rw [hA.windowTop]
    unfold page
    omega
  have hused := Kernel.not_unused_iff.1 h.used
  have hend : page k₁.windowTop < page 0xffffff8000400000 := by
    obtain ⟨hlo, hal, hhi⟩ := hroom
    rw [hA.windowTop]
    unfold page
    omega
  refine ⟨hord, h.high, ?_, ?_⟩
  · rw [Kernel.Unused, Kernel.windowTop_withRoot hcount]
    omega
  · have hsame := (Kernel.share_withRoot hA.empty).same hA.unreached
    show TitanOS.translate (k₁.withRoot g).mem k₁.cr3 u = some f
    rw [TitanOS.translate, hsame k₁.cr3 _ hA.tables.root (by simp [indices]), hA.cr3]
    exact (hA.translate s.kernel.cr3 u h.ordered.tables.root (by omega)).trans h.mapped

/-- **One call keeps the mapping** unless it maps the page anew. -/
theorem Maps.step {o : SpaceOp} {s' : Spaces} (n : ℕ) (h : s.Maps u f) (hv : s.Valid o)
    (ho : ∀ paddr v flags, o = .mmap paddr v flags → page v ≠ page u)
    (hstep : s.step (n + 2) o = some s') : s'.Maps u f := by
  cases o with
  | createVmm =>
    obtain ⟨x, hcall, rfl⟩ := Option.map_eq_some_iff.1 hstep
    exact h.createVmm (n + 1) hv.1 hv.2 hcall
  | switchVmSpace vmm =>
    obtain ⟨k, hcall, hord⟩ := h.ordered.switchVmSpace hv
    rw [Spaces.step, hcall, Option.map_some] at hstep
    cases hstep
    obtain ⟨w, -, rfl⟩ := Option.map_eq_some_iff.1 hcall
    exact ⟨hord, h.high, h.used, h.translate hv⟩
  | mmap paddr v flags =>
    obtain ⟨hroom, hs, hat⟩ := hv
    obtain ⟨k, hcall, hord, -⟩ := @Ordered.mmap s v paddr flags n h.ordered hroom hs hat
    obtain ⟨k', hcall', -, -, hkept⟩ := @Kernel.Tables.mmap_outside s.kernel s.Root KernelHalf v paddr
      flags n (fun p j hp => hp.snoc j) h.ordered.tables hroom hs hat
    obtain rfl : k = k' := (Prod.mk.inj (Option.some.inj (hcall.symm.trans hcall'))).1
    rw [Spaces.step, hcall, Option.map_some] at hstep
    cases hstep
    obtain ⟨hused, hsame⟩ := hkept u h.used
    exact ⟨hord, h.high, hused, (hsame (ho paddr v flags rfl).symm).trans h.mapped⟩

end Spaces

namespace Layout

open Spaces

variable {l : Layout} {mem₀ mem : ℕ → UInt8} {info : Option ℕ} {pmm : Pmm}

/-- The space that is there at boot. -/
def spaces (l : Layout) (mem : ℕ → UInt8) (pmm : Pmm) : Spaces := ⟨l.kernel mem pmm, [⟨4, l.table 0⟩]⟩

theorem spaces_ordered (h : l.Shows mem₀ mem (l.tables info)) (hinfo : ∀ p ∈ info, p % 0x1000 = 0) :
    (l.spaces mem pmm).Ordered := by
  have hroot : ∀ r, (l.spaces mem pmm).Root r ↔ r = l.table 0 := by
    intro r
    simp [Spaces.Root, spaces, eq_comm]
  refine ⟨kernel_tables h hinfo hroot _, Nat.succ_pos 4, fun r hr => ?_, fun t w ht hw => ?_⟩
  · rw [(hroot r).1 hr]
    rfl
  · obtain ⟨r, p, hr, hp, ht⟩ := ht
    obtain rfl := (hroot r).1 hr
    obtain ⟨n, hn, rfl, -⟩ := h.reached hp ht
    obtain rfl : l.virt (l.table n) = w :=
      Option.some.inj (((l.kernel_map mem pmm).2.1 n hn).symm.trans hw)
    obtain ⟨hlo, hhi, -⟩ := @virt_table l n hn
    rw [Fin.ext_iff, getIndex_val]
    show _ = 511
    omega

/-- **The kernel stays mapped in every address space.**  From boot on, whatever spaces are created
and switched to and whatever is mapped, every page of the kernel half that `_setup_pt` has mapped
is mapped to the same frame in all spaces, as long as no `mmap` is for this page. -/
theorem kernel_stays_mapped (l : Layout) (mem mem' : ℕ → UInt8) (ebx n : ℕ) (pmm : Pmm)
    (ops : List SpaceOp) (h : l.Cleared mem) (hebx : ebx < 2 ^ 32)
    (hinfo : ebx + 4 ≤ l.table 0 ∨ l.table 8 ≤ ebx) (hret : setupPt l mem ebx = some mem')
    (hops : Run.Along (step (n + 2)) Valid (l.spaces mem' pmm) ops) (u f : ℕ)
    (hu : kernelPage ≤ page u) (hf : l.frame (l.infoPage ebx) u = some f)
    (hmaps : ∀ paddr v flags, SpaceOp.mmap paddr v flags ∈ ops → page v ≠ page u) :
    Run.Always (step (n + 2)) (fun s => ∀ a ∈ s.spaces, translate s.kernel.mem a.pml4t u = some f)
      (l.spaces mem' pmm) ops := by
  have hshows := shows_setupPt h hebx hinfo hret
  have hal : ∀ p ∈ l.infoPage ebx, p % 0x1000 = 0 := fun _ => infoPage_mod
  have hstart : (l.spaces mem' pmm).Maps u f := by
    refine ⟨spaces_ordered hshows hal, ?_, ?_, (hshows.translate_eq hal u).trans hf⟩
    · have hlt := page_lt u
      rw [Fin.ext_iff, (getIndex_page u).1]
      show _ = 511
      unfold kernelPage at hu
      omega
    · -- behind the window nothing is mapped
      rw [frame, if_neg (by unfold kernelPage at hu; omega), if_neg (by omega)] at hf
      rw [Kernel.Unused, show (l.spaces mem' pmm).kernel.windowTop = 0xffffff8000306000 from
        windowTop_kernel l mem' pmm]
      rintro ⟨habove, -⟩
      have htop : page 0xffffff8000306000 = kernelPage + 0x306 := by decide
      rw [kernelFrame_of_le _ (by omega), if_neg (by omega)] at hf
      cases hf
  have hno : Run.Along (step (n + 2)) (fun _ o => ∀ paddr v flags, o = .mmap paddr v flags →
      page v ≠ page u) (l.spaces mem' pmm) ops :=
    Run.along_of_forall fun o ho paddr v flags he => hmaps paddr v flags (he ▸ ho)
  refine Run.Always.of_inv (I := fun s => s.Maps u f) (fun s hs => ?_)
    (fun s o s' hs hc hstep => hs.step n hc.1 hc.2 hstep) hstart (hops.and hno)
  exact fun a ha => hs.translate ha

/-- The first page of the image, when a second space has been created. -/
theorem kernel_stays_mapped_small : ∃ mem', setupPt small infoBehind 0x120010 = some mem' ∧
    Run.Always (step 2) (fun s => ∀ a ∈ s.spaces,
        translate s.kernel.mem a.pml4t 0xffffff8000000000 = some 0x101000)
      (small.spaces mem' bootPmm) [.createVmm, .switchVmSpace ⟨4, small.table 0⟩] := by
  obtain ⟨-, mem', hret, -⟩ := (small.setupPt_spec cleared_infoBehind
    (show 0x120010 < 2 ^ 32 by norm_num) (Or.inr (by decide))).resolve_right
    fun hnot => hnot.1 onOnePage_infoBehind
  have htop : (small.spaces mem' bootPmm).kernel.windowTop = 0xffffff8000306000 :=
    windowTop_kernel small mem' bootPmm
  have hroom : (small.spaces mem' bootPmm).kernel.Room 1 := by
    rw [Kernel.Room, htop]
    norm_num
  have hsupplied : (small.spaces mem' bootPmm).kernel.Supplied 1 := by
    show (bootPmm.nextFrames 1).Nodup ∧ ∀ f ∈ bootPmm.nextFrames 1, f ≠ 0 ∧
      ((vmmInit small.bootTables).getD Hashmap.vmmHashmapInit).registered f = false
    decide +kernel
  refine ⟨mem', hret, kernel_stays_mapped small infoBehind mem' 0x120010 0 bootPmm
    [.createVmm, .switchVmSpace ⟨4, small.table 0⟩] cleared_infoBehind (by norm_num)
    (Or.inr (by decide)) hret ⟨⟨hroom, hsupplied⟩, fun s hs => ⟨?_, fun _ _ => trivial⟩⟩
    0xffffff8000000000 0x101000 (by decide) (by decide) (by simp)⟩
  obtain ⟨x, -, rfl⟩ := Option.map_eq_some_iff.1 hs
  exact List.mem_append_left _ List.mem_cons_self

end Layout

/-! ### The frames that back the bitmap -/

namespace Pmm

variable {m : Pmm} {N B x : ℕ}

/-- While there are enough free slots below `B`, the pages that are handed out are those of the
lowest free slots. -/
theorem slotAddr_mem_nextFrames (hB : B ≤ 2 ^ 20) (hrows : B ≤ 32 * m.rows)
    (hN : N ≤ (m.freeBelow B).card) (hx : x < 2 ^ 20) :
    slotAddr x ∈ m.nextFrames N ↔ m.slotTaken x = false ∧ (m.freeBelow x).card < N := by
  induction N generalizing m with
  | zero => simp [nextFrames]
  | succ N ih =>
    obtain ⟨y, hy⟩ : (m.freeBelow B).Nonempty := Finset.card_pos.1 (by omega)
    rw [freeBelow, Finset.mem_filter, Finset.mem_range] at hy
    cases hf : m.firstFree with
    | none =>
      rw [firstFree_eq_none.1 hf y (by omega)] at hy
      cases hy.2
    | some f =>
      obtain ⟨hfree, hflt, hlow⟩ := firstFree_eq_some.1 hf
      have hfB : f < B := by
        by_contra hge
        rw [hlow y (by omega)] at hy
        cases hy.2
      have hmem : f ∈ m.freeBelow B := by simp [freeBelow, hfB, hfree]
      have hpage : m.pmmAllocPage = (m.mark f, slotAddr f) := by rw [pmmAllocPage_eq, hf]
      have hcard : N ≤ ((m.mark f).freeBelow B).card := by
        rw [freeBelow_mark, Finset.card_erase_of_mem hmem]
        omega
      have hsame : slotAddr x = slotAddr f ↔ x = f := by
        rw [slotAddr_of_lt hx, slotAddr_of_lt (by omega)]
        omega
      rw [nextFrames, hpage, List.mem_cons, hsame, ih (by rwa [mark_rows]) hcard, slotTaken_mark,
        freeBelow_mark]
      rcases lt_trichotomy x f with hxf | rfl | hxf
      · simp [hlow x hxf, hxf.ne]
      · have hnone : m.freeBelow x = ∅ := by
          rw [freeBelow, Finset.filter_eq_empty_iff]
          intro i hi
          simp [hlow i (Finset.mem_range.1 hi)]
        simp [hfree, hnone]
      · have hbelow : f ∈ m.freeBelow x := by simp [freeBelow, hxf, hfree]
        have hpos := Finset.card_pos.2 ⟨f, hbelow⟩
        rw [Finset.card_erase_of_mem hbelow, Bool.or_eq_false_iff, decide_eq_false_iff_not]
        constructor
        · rintro (he | ⟨⟨hx', -⟩, hlt⟩)
          · omega
          · exact ⟨hx', by omega⟩
        · rintro ⟨hx', hlt⟩
          exact Or.inr ⟨⟨hx', hxf.ne'⟩, by omega⟩

theorem mem_nextFrames_iff {p : ℕ} :
    p ∈ m.nextFrames N ↔ ∃ i < N, (m.afterFrames i).pmmAllocPage.2 = p := by
  induction N generalizing m with
  | zero => simp [nextFrames]
  | succ N ih =>
    rw [nextFrames, List.mem_cons, ih]
    constructor
    · rintro (rfl | ⟨i, hi, rfl⟩)
      · exact ⟨0, Nat.succ_pos N, rfl⟩
      · exact ⟨i + 1, Nat.succ_lt_succ hi, rfl⟩
    · rintro ⟨i, hi, rfl⟩
      cases i with
      | zero => exact Or.inl rfl
      | succ i => exact Or.inr ⟨i, Nat.lt_of_succ_lt_succ hi, rfl⟩

end Pmm

namespace Kernel

variable {k : Kernel} {R : ℕ → Prop} {C : List (Fin 512) → Prop} {c t v : ℕ}

/-- The loop of `vmm_lengthen` over pages whose table is there maps them to the frames it takes, in
order. -/
theorem lengthenPages_frames (fuel n loop : ℕ) (hT : k.Tables R C)
    (ht : follow (entry k.mem) k.cr3 [511, 0, 0] = some t)
    (hunused : ∀ v, 0xffffff80000e9000 ≤ v → v < 0xffffff8000200000 → ¬ k.TableAt v)
    (hend : k.regions.base c + k.regions.length c = 0xffffff8000200000)
    (hflags : isMmio (k.regions.flags c) = false) (hlt : k.regions.flags c < 0x1000)
    (hv : 0xffffff80000e9000 ≤ v) (hn : v + 0x1000 * n = 0xffffff8000200000) (hloop : n < loop) :
    ∃ k', lengthenPages (fuel + 1) loop k c v = some (k', true) ∧
      (∀ i < n, translate k'.mem k'.cr3 (v + 0x1000 * i) =
        some (k.pmm.afterFrames i).pmmAllocPage.2) ∧
      ∀ u, (∀ i < n, page u ≠ page (v + 0x1000 * i)) →
        translate k'.mem k'.cr3 u = translate k.mem k.cr3 u := by
  induction n generalizing k v loop with
  | zero =>
    obtain ⟨loop, rfl⟩ : ∃ i, loop = i + 1 := ⟨loop - 1, by omega⟩
    refine ⟨k, ?_, nofun, fun _ _ => rfl⟩
    rw [lengthenPages, if_neg (by omega)]
  | succ n ih =>
    obtain ⟨loop, rfl⟩ : ∃ i, loop = i + 1 := ⟨loop - 1, by omega⟩
    have hind := tableIndices_bitmap (show 0xffffff8000000000 ≤ v by omega) (by omega)
    have ht' : follow (entry k.mem) k.cr3 (tableIndices v) = some t := by rw [hind]; exact ht
    have hT₁ := hT.with_pmm k.pmm.pmmAllocPage.1
    have hmmap := @mmap_present { k with pmm := k.pmm.pmmAllocPage.1 } R k.cr3 t v
      k.currentPml4tPtr fuel k.pmm.pmmAllocPage.2 (k.regions.flags c) hT₁.accessible.registered
      hT.root hT.accesses_current ht'
    have hred : Redirect (entry k.mem) (entry (writeEntry k.mem t (getIndex v 0)
        (k.pmm.pmmAllocPage.2 ||| k.regions.flags c ||| 7))) t (getIndex v 0) :=
      redirect_writeEntry
    have hsame := hred.same hT.forest hT.root rfl ht
    have hT₂ := hT₁.writeEntry hT.root ht'
      (k.pmm.pmmAllocPage.2 ||| k.regions.flags c ||| 7) (v := v) fun a w ha hw he =>
        hT.noTableAt (hunused v hv (by omega)) a w hw
          (by obtain ⟨w', hw', hw0, -⟩ := hT.accessible a ha
              rwa [Option.some.inj (hw.symm.trans hw')]) he
    -- the page of `v` is mapped to the frame
    have hself : translate (writeEntry k.mem t (getIndex v 0)
        (k.pmm.pmmAllocPage.2 ||| k.regions.flags c ||| 7)) k.cr3 v =
        some k.pmm.pmmAllocPage.2 := by
      rw [translate, indices_eq, hred.follow_self hT.forest hT.root rfl ht',
        entry_writeEntry_self, if_pos (lor_seven_mod_two _), Nat.or_assoc,
        pageAlignDown_lor k.pmm.pmmAllocPage_mod (Nat.or_lt_two_pow (n := 12) hlt (by norm_num))]
    have hother : ∀ u, page u ≠ page v → translate (writeEntry k.mem t (getIndex v 0)
        (k.pmm.pmmAllocPage.2 ||| k.regions.flags c ||| 7)) k.cr3 u = translate k.mem k.cr3 u :=
      fun u hu => hred.follow_of_ne hT.forest hT.root rfl ht' hT.root rfl fun he => hu
        (indices_eq_iff.1 (he.trans (indices_eq v).symm))
    obtain ⟨k', hk', hframes, hkept⟩ := @ih { k with
        mem := writeEntry k.mem t (getIndex v 0)
          (k.pmm.pmmAllocPage.2 ||| k.regions.flags c ||| 7)
        pmm := k.pmm.pmmAllocPage.1 } (v + 0x1000) loop hT₂
      ((hsame k.cr3 _ hT.root (by simp)).trans ht) hunused hend hflags hlt (by omega) (by omega)
      (by omega)
    have hshift : ∀ i, v + 0x1000 + 0x1000 * i = v + 0x1000 * (i + 1) := fun i => by ring
    refine ⟨k', ?_, fun i hi => ?_, fun u hu => ?_⟩
    · rw [lengthenPages, if_pos (by omega), if_neg (by simp [hflags])]
      simp only [hmmap, Option.bind_eq_bind, Option.bind_some, if_true]
      rw [Nat.mod_eq_of_lt (by omega)]
      exact hk'
    · cases i with
      | zero =>
        rw [Nat.mul_zero, Nat.add_zero, hkept v fun i hi => ?_]
        · exact hself
        · unfold page
          omega
      | succ i =>
        rw [← hshift, hframes i (by omega)]
        rfl
    · rw [hkept u fun i hi => ?_, hother u (by simpa using hu 0 (Nat.succ_pos n))]
      rw [hshift]
      exact hu (i + 1) (by omega)

/-- `vmm_lengthen` maps the pages behind the first one of the bitmap. -/
theorem BeforePmm.vmmLengthen_eq (h : k.BeforePmm) (fuel : ℕ) (m : Pmm) :
    Kernel.vmmLengthen fuel { k with pmm := m } 0xffffff80000e8000 0x117000 =
      lengthenPages fuel fuel (k.extended m) kernelPmmObj 0xffffff80000e9000 := by
  have hinc : pageAlignInt 0x117000 = 0x117000 := by decide
  rw [Kernel.vmmLengthen, hinc]
  simp only [h.found, Option.bind_eq_bind, Option.bind_some, h.base, h.length]
  rw [if_pos]
  · rfl
  · cases hnext : k.regions.next kernelPmmObj with
    | none => rfl
    | some d =>
      have := h.room d hnext
      simp only [decide_eq_true_eq]
      omega

/-- **The frames that `pmm_init` takes** for the rest of the bitmap: the allocator `m` is the one
after the marking loops. -/
theorem BeforePmm.pmmInit_frames {reserved : MmapRegionList} {kernelByteSize fuel : ℕ}
    (h : k.BeforePmm) (hflags : k.regions.flags kernelPmmObj < 0x1000) (hfuel : 0x10000 ≤ fuel)
    (hscan : Pmm.Scanned reserved) (hstop : kernelEnd kernelByteSize ≤ 0x8000000) :
    ∃ (k' : Kernel) (m : Pmm), pmmInit fuel k reserved kernelByteSize = some k' ∧ m.rows = 0x23000 ∧
      (∀ x, m.slotTaken x = true ↔ k.EarlyTaken kernelByteSize x) ∧
      (∀ i < 279, translate k'.mem k'.cr3 (0xffffff80000e9000 + 0x1000 * i) =
        some (m.afterFrames i).pmmAllocPage.2) ∧
      ∀ u, (∀ i < 279, page u ≠ page (0xffffff80000e9000 + 0x1000 * i)) →
        translate k'.mem k'.cr3 u = translate k.mem k.cr3 u := by
  obtain ⟨fuel, rfl⟩ : ∃ i, fuel = i + 1 := ⟨fuel - 1, by omega⟩
  have hlen := reserved.length_le
  have hres : Pmm.markReserved (fuel + 1) reserved (fuel + 1) (Pmm.cleared k.pmm.bitmap) 0 =
      some (Pmm.cleared k.pmm.bitmap) := by
    rcases @Pmm.markReserved_eq (Pmm.cleared k.pmm.bitmap) reserved (fuel + 1) fuel 0
      (Nat.zero_le _) (fun j hj => absurd hj (Nat.not_lt_zero j)) (by omega) with
      ⟨-, hres⟩ | ⟨hnot, -⟩
    · exact hres
    · exact absurd hscan hnot
  obtain ⟨m, hm, hrows, htaken⟩ := @Pmm.markWhile_pages (Pmm.cleared k.pmm.bitmap) 0x100000
    (kernelEnd kernelByteSize) fuel hstop (by omega)
  obtain ⟨t, ht⟩ := h.table
  have hT := @Tables.with_regions { k with pmm := m } _ _
    { k.regions with length := Function.update k.regions.length kernelPmmObj 0x118000 }
    (h.tables.with_pmm m) (by
      simp [windowTop, Function.update_of_ne (show kernelPageTblsObj ≠ kernelPmmObj by decide)])
  obtain ⟨k', hk', hframes, hkept⟩ := @lengthenPages_frames (k.extended m) _ _ kernelPmmObj t
    0xffffff80000e9000 fuel 279 (fuel + 1) hT ht h.unused (by simp [extended, h.base]) h.flags
    hflags le_rfl (by decide) (by omega)
  rw [← h.vmmLengthen_eq] at hk'
  refine ⟨k', m, pmmInit_eq hres hm hk', ?_, slotTaken_early hstop htaken, hframes, hkept⟩
  rw [hrows]
  show 0x118000 * 8 / 64 = 0x23000
  norm_num

end Kernel

namespace Layout

open Kernel

variable {l : Layout} {x : ℕ}

/-- The slots marked for the kernel are behind the first 128. -/
theorem kernelSlot_iff (hlo : l.kernelPageSize < x) (hhi : x ≤ l.kernelPageSize + 2) :
    Pmm.KernelSlot (kernelEnd l.kernelByteSize) x ↔ 128 ≤ x := by
  have hfew := l.kernelPageSize_lt
  have hstop : kernelEnd l.kernelByteSize = 0x100000 + 0x1000 * (l.kernelPageSize + 2) := by
    unfold kernelEnd kernelByteSize
    omega
  rw [Pmm.KernelSlot, hstop]
  constructor
  · rintro ⟨j, hj, rfl⟩
    rw [Pmm.slotOf_eq]
    omega
  · intro hx
    refine ⟨64 * ((x - 128) / 32) + x % 32, by omega, ?_⟩
    rw [Pmm.slotOf_eq]
    omega

/-- A page of the bitmap is backed by the frame of slot `x` if that slot is not marked. -/
theorem backed_iff {k k' : Kernel} {m : Pmm} (hrows : m.rows = 0x23000)
    (htaken : ∀ x, m.slotTaken x = true ↔ k.EarlyTaken l.kernelByteSize x)
    (hframes : ∀ i < 279, translate k'.mem k'.cr3 (0xffffff80000e9000 + 0x1000 * i) =
      some (m.afterFrames i).pmmAllocPage.2)
    (hlo : l.kernelPageSize < x) (hhi : x ≤ l.kernelPageSize + 2) :
    (∃ u, 0xffffff80000e9000 ≤ u ∧ u < 0xffffff8000200000 ∧
      translate k'.mem k'.cr3 u = some (x * 0x1000)) ↔ x < 128 := by
  have hfew := l.kernelPageSize_lt
  have hearly : ∀ y < 0x4000, m.slotTaken y = true ↔
      Pmm.KernelSlot (kernelEnd l.kernelByteSize) y := by
    intro y hy
    rw [htaken, EarlyTaken, if_pos (by omega)]
  -- there are enough free slots that have not been marked for the kernel
  have hroom : 279 ≤ (m.freeBelow 2000).card := by
    have hsub : Finset.Ico 1000 1279 ⊆ m.freeBelow 2000 := by
      intro y hy
      rw [Finset.mem_Ico] at hy
      rw [Pmm.freeBelow, Finset.mem_filter, Finset.mem_range]
      refine ⟨by omega, ?_⟩
      rw [Bool.eq_false_iff, Ne, hearly y (by omega)]
      rintro ⟨j, hj, rfl⟩
      have hstop : kernelEnd l.kernelByteSize = 0x100000 + 0x1000 * (l.kernelPageSize + 2) := by
        unfold kernelEnd kernelByteSize
        omega
      have hrow : (0x100000 + 0x1000 * j) / 0x40000 % 2 ^ 32 ≤ 7 := by omega
      rw [Pmm.slotOf_eq] at hy
      omega
    exact (Nat.card_Ico 1000 1279).symm.le.trans (Finset.card_le_card hsub)
  have hbelow : (m.freeBelow x).card < 279 := by
    have := Finset.card_filter_le (Finset.range x) fun i => m.slotTaken i = false
    rw [Finset.card_range] at this
    exact this.trans_lt (by omega)
  have hmem := @Pmm.slotAddr_mem_nextFrames m 279 2000 x (by norm_num) (by omega) hroom (by omega)
  rw [Pmm.slotAddr_of_lt (by omega), Pmm.mem_nextFrames_iff, and_iff_left hbelow,
    Bool.eq_false_iff, Ne, hearly x (by omega), kernelSlot_iff hlo hhi, not_le] at hmem
  rw [← hmem]
  constructor
  · rintro ⟨u, hlo', hhi', hu⟩
    have hpage : page u = page (0xffffff80000e9000 + 0x1000 * ((u - 0xffffff80000e9000) / 0x1000)) := by
      unfold page
      omega
    rw [translate_congr hpage, hframes _ (by omega), Option.some.injEq] at hu
    exact ⟨_, by omega, hu⟩
  · rintro ⟨i, hi, hframe⟩
    exact ⟨_, Nat.le_add_right _ _, by omega, (hframes i hi).trans (congrArg some hframe)⟩

/-- **The first frames of the heap and of the bitmap.**  They are not behind the image but at
`kernel_byte_size`, without `KERNEL_PHYS`.  `pmm_init` takes them once more, for pages of the
bitmap behind the first one, if and only if their numbers are below 128. -/
theorem boot_shares_iff (l : Layout) (mem mem' : ℕ → UInt8) (ebx fuel : ℕ) (pmm : Pmm)
    (reserved : MmapRegionList) (h : l.Cleared mem) (hebx : ebx < 2 ^ 32)
    (hinfo : ebx + 4 ≤ l.table 0 ∨ l.table 8 ≤ ebx) (hret : setupPt l mem ebx = some mem')
    (hscan : Pmm.Scanned reserved) (hfuel : 0x10000 ≤ fuel) :
    ∃ k', pmmInit fuel (l.kernel mem' pmm) reserved l.kernelByteSize = some k' ∧
      translate k'.mem k'.cr3 0xffffff8000200000 = some ((l.kernelPageSize + 1) * 0x1000) ∧
      translate k'.mem k'.cr3 0xffffff80000e8000 = some ((l.kernelPageSize + 2) * 0x1000) ∧
      ((∃ u, 0xffffff80000e9000 ≤ u ∧ u < 0xffffff8000200000 ∧
        translate k'.mem k'.cr3 u = translate k'.mem k'.cr3 0xffffff8000200000) ↔
        l.kernelPageSize + 1 < 128) ∧
      ((∃ u, 0xffffff80000e9000 ≤ u ∧ u < 0xffffff8000200000 ∧
        translate k'.mem k'.cr3 u = translate k'.mem k'.cr3 0xffffff80000e8000) ↔
        l.kernelPageSize + 2 < 128) := by
  have hfew := l.kernelPageSize_lt
  have hshows := shows_setupPt h hebx hinfo hret
  have hal : ∀ p ∈ l.infoPage ebx, p % 0x1000 = 0 := fun _ => infoPage_mod
  have hstop : kernelEnd l.kernelByteSize ≤ 0x8000000 := by
    unfold kernelEnd kernelByteSize
    omega
  have hbefore : (l.kernel mem' pmm).BeforePmm := kernel_beforePmm hshows hal
  obtain ⟨k', m, hk', hrows, htaken, hframes, hkept⟩ := hbefore.pmmInit_frames
    (show bootRegions.flags kernelPmmObj < 0x1000 by decide) hfuel hscan hstop
  have hold : ∀ a, (∀ i < 279, page (0xffffff8000000000 + a) ≠
      page (0xffffff80000e9000 + 0x1000 * i)) → a < 2 ^ 39 →
      translate k'.mem k'.cr3 (0xffffff8000000000 + a) =
        l.kernelFrame (l.infoPage ebx) (a / 0x1000) := by
    intro a hout ha
    rw [hkept _ hout, ← l.frame_kernel _ ha]
    exact hshows.translate_eq hal _
  have hheap : translate k'.mem k'.cr3 0xffffff8000200000 =
      some ((l.kernelPageSize + 1) * 0x1000) := by
    rw [show 0xffffff8000200000 = 0xffffff8000000000 + 0x200000 from rfl,
      hold 0x200000 (fun i hi => by unfold page; omega) (by norm_num),
      kernelFrame_of_le _ (by norm_num), if_pos (by norm_num), kernelByteSize,
      Option.some.injEq]
    omega
  have hbitmap : translate k'.mem k'.cr3 0xffffff80000e8000 =
      some ((l.kernelPageSize + 2) * 0x1000) := by
    rw [show 0xffffff80000e8000 = 0xffffff8000000000 + 0xe8000 from rfl,
      hold 0xe8000 (fun i hi => by unfold page; omega) (by norm_num), kernelFrame,
      if_neg (by norm_num), if_pos (by norm_num), kernelByteSize,
      Option.some.injEq]
    omega
  refine ⟨k', hk', hheap, hbitmap, ?_, ?_⟩
  · rw [hheap]
    exact backed_iff hrows htaken hframes (by omega) (by omega)
  · rw [hbitmap]
    exact backed_iff hrows htaken hframes (by omega) (by omega)

/-- An image of 31 pages shares both frames. -/
theorem boot_shares_small : ∃ mem', setupPt small infoBehind 0x120010 = some mem' ∧
    ∃ k', pmmInit 0x10000 (small.kernel mem' bootPmm) reservedPage small.kernelByteSize = some k' ∧
      translate k'.mem k'.cr3 0xffffff8000200000 = some ((small.kernelPageSize + 1) * 0x1000) ∧
      translate k'.mem k'.cr3 0xffffff80000e8000 = some ((small.kernelPageSize + 2) * 0x1000) ∧
      ((∃ u, 0xffffff80000e9000 ≤ u ∧ u < 0xffffff8000200000 ∧
        translate k'.mem k'.cr3 u = translate k'.mem k'.cr3 0xffffff8000200000) ↔
        small.kernelPageSize + 1 < 128) ∧
      ((∃ u, 0xffffff80000e9000 ≤ u ∧ u < 0xffffff8000200000 ∧
        translate k'.mem k'.cr3 u = translate k'.mem k'.cr3 0xffffff80000e8000) ↔
        small.kernelPageSize + 2 < 128) := by
  obtain ⟨-, mem', hret, -⟩ := (small.setupPt_spec cleared_infoBehind
    (show 0x120010 < 2 ^ 32 by norm_num) (Or.inr (by decide))).resolve_right
    fun hnot => hnot.1 onOnePage_infoBehind
  exact ⟨mem', hret, boot_shares_iff small infoBehind mem' 0x120010 0x10000 bootPmm reservedPage
    cleared_infoBehind (by norm_num) (Or.inr (by decide)) hret scanned_reservedPage le_rfl⟩

end Layout

end TitanOS
