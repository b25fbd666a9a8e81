import TitanOS.Proc.Fresh
import TitanOS.Proc.Reap
import TitanOS.Vmm.Recursion

/-!
# What a process leaves behind

A process takes a node for its root and one for each table of its pages.  The pages and the tables
are never given back, because `umap` does nothing, and the root is the only table that
`reap_process` removes.  With two freed tables, the one that would be used again is the new root
itself, so that `exec_elf` faults.  Without them a process makes two nodes at least, of which one
is parked at most (`process_leaks`).
-/

namespace TitanOS

namespace Kernel

variable {k k₁ k₂ k' : Kernel} {L : ℕ → List ℕ} {F : List ℕ} {fuel start length flags p v : ℕ}

theorem count_vmmAlloc {args : ℕ} (h : vmmAlloc fuel k start length flags args = some (k', p)) :
    k.map.count ≤ k'.map.count := by
  rcases vmmAlloc_cases h with ⟨-, he⟩ | ⟨c, found, k₁, ok, -, hmap, he⟩
  · obtain ⟨rfl, -⟩ := Prod.mk.inj he
    exact le_rfl
  · obtain ⟨rfl, -⟩ := Prod.mk.inj he
    exact (steps_mapPages fuel flags _ hmap).count_map

theorem Grew.mono (h : k.Grew k₁) (hle : k₁.map.count ≤ k'.map.count) : k.Grew k' :=
  ⟨h.1, h.2.trans_le hle⟩

theorem Grew.of_map (h : k.Grew k₁) (hmap : k.map = k₂.map) : k₂.Grew k₁ := by
  rw [Grew, ← hmap]
  exact h

/-- Since `k`, a table has been made, or the root is as it was. -/
def Rooted (k k' : Kernel) : Prop := k.Grew k' ∨ k'.Fresh ∧ k'.map = k.map ∧ k'.cr3 = k.cr3

theorem Rooted.with (h : k.Rooted k₁) (regions : Regions) :
    k.Rooted { k₁ with regions := regions } :=
  h.imp id fun ⟨hfresh, hmap, hcr3⟩ => ⟨hfresh.with _ _ _, hmap, hcr3⟩

theorem Rooted.vmmAlloc (h : k.Rooted k₁) (hs : 0x1000 ≤ start) (hv : getIndex start 3 ≠ 511)
    (hk : Kernel.vmmAlloc fuel k₁ start length flags 0 = some (k', p)) : k.Rooted k' := by
  rcases h with hgrew | ⟨hfresh, hmap, hcr3⟩
  · exact Or.inl (hgrew.mono (count_vmmAlloc hk))
  · rcases hfresh.vmmAlloc hs hv hk with hgrew | ⟨hfresh', hmap', hcr3', -⟩
    · exact Or.inl (hgrew.of_map hmap)
    · exact Or.inr ⟨hfresh', hmap'.trans hmap, hcr3'.trans hcr3⟩

/-- While the root is as it was, there is nothing to write to. -/
theorem Rooted.writeWords {es : List ℕ} (h : k.Rooted k₁) (hv : getIndex v 3 ≠ 511)
    (hk : Kernel.writeWords es k₁ v = some k') : k.Rooted k' := by
  rcases h with hgrew | hroot
  · exact Or.inl (hgrew.mono (map_writeWords hk ▸ le_rfl))
  · cases es with
    | nil =>
      obtain rfl := Option.some.inj hk
      exact Or.inr hroot
    | cons e es =>
      rw [Kernel.writeWords, hroot.1.store hv] at hk
      cases hk

theorem Lost.of_map (h : k.Lost k₁) (hmap : k₂.map = k₁.map) : k.Lost k₂ := by
  rw [Lost, hmap]
  exact h

/-- A lost node stays so. -/
theorem Lost.makes (h : k.Lost k₁) (hL : k₁.map.Lists L F) (hm : Makes F k₁ k') : k.Lost k' := by
  obtain ⟨L₁, F₁, hL₁, hlt, hout⟩ := h
  obtain rfl : F₁ = F := hL₁.freed_eq.symm.trans hL.freed_eq
  obtain ⟨L', m⟩ := hm L₁ hL₁
  refine ⟨L', F₁, m.lists, hlt.trans_le m.count, fun b hb => ?_⟩
  rcases m.mem b _ hb with ⟨c, hc⟩ | hle
  · exact hout c hc
  · omega

end Kernel

namespace Processes

variable {s s₁ s₂ s' : Processes} {k : Kernel} {v v' : Vmm} {F : List ℕ} {f : ElfFile}
  {fuel start wrapper filename p t : ℕ} {copyFirst : Bool}

/-- The segment starts below `KERNEL_TEXT_START`, at an address that the processor accepts and that
is not in the page at null, with which `vmm_alloc` is asked for any place. -/
def InUserSpace (g : Segment) : Prop :=
  0x1000 ≤ g.vaddr ∧ g.vaddr < kernelTextStart ∧
    (g.vaddr < 0x800000000000 ∨ 0xffff800000000000 ≤ g.vaddr)

theorem InUserSpace.getIndex_ne {g : Segment} (h : InUserSpace g) : getIndex g.vaddr 3 ≠ 511 := by
  obtain ⟨-, hlt, hhalf⟩ := h
  rw [kernelTextStart] at hlt
  rw [Ne, Fin.ext_iff, getIndex_val]
  show ¬ _ = 511
  omega

theorem rooted_loadSegment {g : Segment} (h : k.Rooted s.kernel) (hg : InUserSpace g)
    (hs : s.loadSegment fuel g = some s') : k.Rooted s'.kernel := by
  unfold loadSegment vmmAlloc at hs
  obtain ⟨⟨s₁, p⟩, hs₁, hs⟩ := Option.bind_eq_some_iff.1 hs
  obtain ⟨⟨k₁, q⟩, hk₁, hs₁⟩ := Option.bind_eq_some_iff.1 hs₁
  obtain ⟨rfl, rfl⟩ := Prod.mk.inj (Option.some.inj hs₁)
  simp only at hs
  split at hs
  · cases hs
  · obtain ⟨k₂, hk₂, hs⟩ := Option.bind_eq_some_iff.1 hs
    obtain rfl := Option.some.inj hs
    exact (h.vmmAlloc hg.1 hg.getIndex_ne hk₁).writeWords hg.getIndex_ne hk₂

theorem rooted_loadElf (h : k.Rooted s.kernel) (hf : ∀ g ∈ f.segments, InUserSpace g)
    (hs : s.loadElf fuel f = some s') : k.Rooted s'.kernel := by
  unfold loadElf at hs
  generalize f.segments = gs at hf hs
  induction gs generalizing s with
  | nil =>
    obtain rfl := Option.some.inj hs
    exact h
  | cons g gs ih =>
    obtain ⟨s₁, hs₁, hs⟩ := Option.bind_eq_some_iff.1 hs
    exact ih (rooted_loadSegment h (hf g List.mem_cons_self) hs₁)
      (fun g' hg => hf g' (List.mem_cons_of_mem g hg)) hs

theorem rooted_loadAndCopy (h : k.Rooted s.kernel) (hf : ∀ g ∈ f.segments, InUserSpace g)
    (hs : s.loadAndCopy fuel f v copyFirst = some (s', v')) :
    k.Rooted s'.kernel ∧ v'.pml4t = v.pml4t := by
  unfold loadAndCopy at hs
  split at hs
  · obtain ⟨s₁, hs₁, hs⟩ := Option.map_eq_some_iff.1 hs
    obtain ⟨rfl, rfl⟩ := Prod.mk.inj hs
    have hcopy : k.Rooted (s.kernel.copyVmm v).1 := h.with _
    exact ⟨rooted_loadElf hcopy hf hs₁, rfl⟩
  · obtain ⟨s₁, hs₁, hs⟩ := Option.map_eq_some_iff.1 hs
    obtain ⟨rfl, rfl⟩ := Prod.mk.inj hs
    exact ⟨(rooted_loadElf h hf hs₁).with _, rfl⟩

/-- The stack needs a table, if the segments did not. -/
theorem grew_createSections (h : k.Rooted s.kernel) (hstart : 0x1000 ≤ start)
    (hv : getIndex start 3 ≠ 511) (hs : s.createSections fuel start = some s') :
    k.Grew s'.kernel := by
  unfold createSections vmmAlloc at hs
  obtain ⟨⟨s₁, p⟩, hs₁, hs⟩ := Option.bind_eq_some_iff.1 hs
  obtain ⟨⟨k₁, q⟩, hk₁, hs₁⟩ := Option.bind_eq_some_iff.1 hs₁
  obtain ⟨rfl, rfl⟩ := Prod.mk.inj (Option.some.inj hs₁)
  simp only at hs
  split at hs
  · cases hs
  · rename_i hp
    obtain ⟨k₂, hk₂, hs⟩ := Option.bind_eq_some_iff.1 hs
    obtain ⟨k₃, hk₃, hs⟩ := Option.bind_eq_some_iff.1 hs
    obtain rfl := Option.some.inj hs
    have hmap : k₃.map = k₁.map := (Kernel.map_clearPage hk₃).trans (Kernel.map_clearPage hk₂)
    have hgrew : k.Grew k₁ := by
      rcases h with hgrew | ⟨hfresh, hmap, -⟩
      · exact hgrew.mono (Kernel.count_vmmAlloc hk₁)
      · rcases hfresh.vmmAlloc hstart hv hk₁ with hgrew | ⟨-, -, -, hpages⟩
        · exact hgrew.of_map hmap
        · exact absurd (hpages hp) (by decide)
    exact hgrew.mono (hmap ▸ le_rfl)

/-- **`create_proc`** in a new space makes a table. -/
theorem grew_createProc {e : Sched.Entry} (h : k.Rooted s.kernel) (hv : v.pml4t = k.cr3)
    (he : e.isUser = true) (hs : s.createProc fuel wrapper p t v e true = some s') :
    k.Grew s'.kernel := by
  unfold createProc at hs
  obtain ⟨sched, hsched, hs⟩ := Option.bind_eq_some_iff.1 hs
  have hcalls := (Sched.created_createProc hsched).calls
  simp only [follow, hcalls, List.drop_left, he, if_true, List.foldlM_cons, List.foldlM_nil] at hs
  obtain ⟨s₁, hcall, hs⟩ := Option.bind_eq_some_iff.1 hs
  obtain rfl := Option.some.inj hs
  obtain ⟨s₂, hs₂, hcall⟩ := Option.bind_eq_some_iff.1 hcall
  obtain ⟨k₂, hk₂, rfl⟩ := Option.map_eq_some_iff.1 hs₂
  obtain ⟨s₃, hstack, hback⟩ := Option.bind_eq_some_iff.1 hcall
  simp only [Function.update_self] at hk₂
  have hroot : k.Rooted k₂ := by
    rcases h with hgrew | ⟨hfresh, hmap, hcr3⟩
    · exact Or.inl (hgrew.mono (Kernel.map_switchVmSpace hk₂ ▸ le_rfl))
    · obtain rfl := hfresh.switchVmSpace (hv.trans hcr3.symm) hk₂
      exact Or.inr ⟨hfresh.with _ _ _, hmap, hcr3⟩
  have hgrew := grew_createSections hroot (by decide) (by decide) hstack
  exact hgrew.mono ((keeps_switchVmSpace hback).map ▸ le_rfl)

/-- What `exec_elf` does in the new space. -/
theorem grew_loaded (h : s.kernel.Fresh) (hv : v.pml4t = s.kernel.cr3)
    (hf : ∀ g ∈ f.segments, InUserSpace g)
    (hload : s.loadAndCopy fuel f v copyFirst = some (s₁, v'))
    (hproc : s₁.createProc fuel wrapper p t v' ⟨f.entry, filename, true⟩ true = some s') :
    s.kernel.Grew s'.kernel := by
  obtain ⟨hroot, hv'⟩ := rooted_loadAndCopy (Or.inr ⟨h, rfl, rfl⟩) hf hload
  exact grew_createProc hroot (hv'.trans hv) rfl hproc

/-- **`exec_elf`** uses no freed table again.  It makes two nodes at least, or one that is lost. -/
theorem made_execElf (h : s.kernel.Orderly) (hf : ∀ g ∈ f.segments, InUserSpace g)
    (hs : s.execElf fuel wrapper f filename copyFirst p t = some s') :
    s.kernel.map.getFreedPgTbl = none ∧
      (s.kernel.Lost s'.kernel ∨ s.kernel.map.count + 2 ≤ s'.kernel.map.count) := by
  unfold execElf at hs
  obtain ⟨⟨k, v⟩, hk, hs⟩ := Option.bind_eq_some_iff.1 hs
  obtain ⟨s₁, hs₁, hs⟩ := Option.bind_eq_some_iff.1 hs
  obtain ⟨⟨s₂, v'⟩, hs₂, hs⟩ := Option.bind_eq_some_iff.1 hs
  obtain ⟨s₃, hs₃, hs⟩ := Option.bind_eq_some_iff.1 hs
  obtain ⟨k₁, r, hal, hmap⟩ := Kernel.map_createVmm hk
  have hlast : s'.kernel.map = s₃.kernel.map := (keeps_switchVmSpace hs).map
  have hmap₁ : s₁.kernel.map = k₁.map := (keeps_switchVmSpace hs₁).map.trans hmap
  -- where the root is blank, the rest of `exec_elf` makes a table
  have hblank : ∀ w, k₁.Blank r w → k₁.Grew s'.kernel := by
    intro w hw
    obtain ⟨rfl, rfl⟩ := Prod.mk.inj (Option.some.inj (hk.symm.trans (hw.createVmm hal)))
    obtain ⟨k₂, hk₂, rfl⟩ := Option.map_eq_some_iff.1 hs₁
    have hcr3 : k₂.cr3 = r := by
      obtain ⟨w', -, rfl⟩ := Option.map_eq_some_iff.1 hk₂
      rfl
    obtain ⟨hfresh, -⟩ := hw.fresh rfl hk₂
    exact ((grew_loaded hfresh hcr3.symm hf hs₂ hs₃).of_map hmap₁).mono (hlast ▸ le_rfl)
  obtain ⟨L, F, hL⟩ := h.walkable.lists
  cases hfree : s.kernel.map.getFreedPgTbl with
  | some i =>
    obtain ⟨hagain, w, hw⟩ := h.allocPgTable_reused hfree hal
    rw [(hblank w hw).1] at hagain
    cases hagain
  | none =>
    refine ⟨rfl, ?_⟩
    have hF := hL.length_le_one hfree
    obtain ⟨L₁, m₁⟩ := Kernel.made_allocPgTable (Kernel.made_mmap fuel hF) hF hL hal
    have hrest : Kernel.Makes F s₁.kernel s'.kernel := (grows_loadAndCopy hF hs₂).makes.trans
      ((grows_createProc hF hs₃).makes.trans (Kernel.makes_of_map hlast))
    have hL₁ : s₁.kernel.map.Lists L₁ F := hmap₁ ▸ m₁.lists
    obtain ⟨L', m'⟩ := hrest L₁ hL₁
    have hle := m'.count
    rw [hmap₁] at hle
    rcases h.allocPgTable hfree hal with hlost | htwo | ⟨w, hw⟩
    · exact Or.inl ((hlost.of_map hmap₁).makes hL₁ hrest)
    · exact Or.inr (htwo.trans hle)
    · have hlt := Kernel.count_lt_allocPgTable fuel hfree hal
      have hlt' := (hblank w hw).2
      exact Or.inr (by omega)

/-- **A process leaks.**  Whatever happens to its memory and however often `schedule` is called
before a thread ends, the node of one of its tables is in use and not parked. -/
theorem process_leaks {ops : List Op} {context : CpuContext} (h : s.kernel.Orderly)
    (hobj : ∀ i, .table i ∈ s.objects → i < s.kernel.map.count)
    (hf : ∀ g ∈ f.segments, InUserSpace g)
    (hexec : s.execElf fuel wrapper f filename copyFirst p t = some s₁)
    (hrun : ops.foldlM (step fuel) s₁ = some s₂)
    (hreap : s₂.exitAndReap fuel context = some s') : ¬ s.LeakFree s' := by
  intro hleak
  obtain ⟨hfree, hmade⟩ := made_execElf h hf hexec
  obtain ⟨L, F, hL⟩ := h.walkable.lists
  have hgrows := grows_execElf (hL.length_le_one hfree) hexec
  obtain ⟨L₁, m⟩ := hgrows.makes L hL
  have hkeeps := keeps_run hrun
  have hexit : s₂.Keeps { s₂ with sched := s₂.sched.exit } := ⟨rfl, fun _ hi => hi⟩
  have hparks := (parks_schedule hreap).1.of_keeps (hkeeps.trans hexit) (.refl s')
  obtain ⟨o, hfreed, hchain⟩ := hparks.freed L₁ F m.lists
  -- a new node is parked, or else it leaks
  have hnew : ∀ i, s.kernel.map.count ≤ i → i < s₁.kernel.map.count → o = some i := by
    intro i hle hlt
    by_contra hout
    have hkept : .table i ∈ s'.objects := hparks.kept i (hgrows.new i hle hlt)
    have hparked : ∀ j, s'.Parked j → HeapObject.table i ≠ .table j := by
      rintro j hj he
      obtain rfl := HeapObject.table.inj he
      rw [Parked, hfreed] at hj
      rcases List.mem_append.1 hj with hj | hj
      · exact hout (Option.mem_toList.1 hj)
      · exact absurd (hL.free_lt i hj) (by omega)
    exact absurd (hobj i ((hleak.objects _ hparked).1 hkept)) (by omega)
  rcases hmade with ⟨L', F', hL', hlt, hout⟩ | htwo
  · obtain ⟨b, hb⟩ := hchain _ (hnew _ le_rfl hlt)
    rw [(m.lists.chain b).unique (hL'.chain b)] at hb
    exact hout b hb
  · have h₀ := hnew s.kernel.map.count le_rfl (by omega)
    have h₁ := hnew (s.kernel.map.count + 1) (by omega) (by omega)
    rw [h₀, Option.some.injEq] at h₁
    omega

/-! ### A run -/

set_option maxRecDepth 10000

theorem eq_some_getD {α : Type} {o : Option α} (h : o.isSome = true) (a : α) :
    o = some (o.getD a) := by
  obtain ⟨x, rfl⟩ := Option.isSome_iff_exists.1 h
  rfl

/-- Before `sched_init`. -/
def booted : Processes where
  kernel := Kernel.bootReserved
  sched := ⟨fun _ => none, fun _ => 0, fun _ => none, fun _ => 0, fun _ => {}, fun _ => 0,
    fun _ => .ready, fun _ => none, none, 0, 0, 0, 0, []⟩
  vmm _ := ⟨4, 0x111000⟩
  kernelStackPtr := 0xffffff80002fe000
  objects := (List.range 8).map .table

/-- After `sched_init`. -/
def idling : Processes :=
  (booted.schedInit 2 0x101500 0xffffff8000200400 0xffffff8000200800 0x101600).getD booted

theorem schedInit_booted :
    booted.schedInit 2 0x101500 0xffffff8000200400 0xffffff8000200800 0x101600 = some idling :=
  eq_some_getD (by decide_cbv) booted

/-- The tables are those of `vmm_init`.  Each is registered where it can be accessed, the frames of
all nodes are taken, and none is mapped at the next page of the window. -/
theorem tables_idling : idling.kernel.cr3 = 0x111000 ∧
    explore idling.kernel.mem 3 0x111000 = explore bootMem 3 0x111000 ∧
    (∀ x ∈ explore bootMem 3 0x111000, ∃ w ∈ idling.kernel.map.getPtblVaddr x.2,
      w ≠ 0 ∧ idling.kernel.Accesses w x.2) ∧
    ∀ i < idling.kernel.map.count,
      idling.kernel.pmm.slotTaken (idling.kernel.map.ptPaddr i / 0x1000) = true ∧
        page (idling.kernel.map.ptVaddr i) ≠ page (idling.kernel.windowTop + 0x1000) := by
  rw [explore_boot]
  decide +kernel

theorem lists_idling : ∃ L, idling.kernel.map.Lists L [] := by
  obtain ⟨L, hL⟩ := (Kernel.boot_tables (fun _ => Iff.rfl) fun _ => True).lists
  have hgrows := @grows_schedInit _ _ [] _ _ _ _ _ (Nat.zero_le 1) schedInit_booted
  obtain ⟨L', m⟩ := hgrows.makes L hL
  exact ⟨L', m.lists⟩

theorem walkable_idling : idling.kernel.Walkable (fun r => r = idling.kernel.cr3) fun _ => False := by
  obtain ⟨L, hL⟩ := lists_idling
  obtain ⟨hcr3, hexplore, hregistered, -⟩ := tables_idling
  have hroot : ∀ r, r = idling.kernel.cr3 → r = 0x111000 := fun r hr => hr.trans hcr3
  refine ⟨rfl, forest_of_explore hroot ?_, fun t ht => ?_, by decide_cbv, L, [], hL⟩
  · rw [hexplore]
    exact explore_boot_once
  · obtain ⟨x, hx, rfl⟩ := exists_mem_explore hroot ht
    rw [hexplore] at hx
    exact hregistered x hx

theorem orderly_idling : idling.kernel.Orderly := by
  obtain ⟨L, hL⟩ := lists_idling
  obtain ⟨-, -, -, hnodes⟩ := tables_idling
  refine ⟨walkable_idling, by decide_cbv, by decide_cbv, by decide_cbv, ?_, ?_, ?_⟩
  · intro a w hw hw0
    rw [hL.getPtblVaddr, Option.some.injEq] at hw
    cases hfind : (L (Hashmap.hashFunction a)).find? fun i => idling.kernel.map.ptPaddr i == a with
    | none =>
      rw [hfind] at hw
      exact absurd hw.symm hw0
    | some i =>
      rw [hfind] at hw
      rw [← hw]
      exact (hnodes i (hL.home _ i (List.mem_of_find?_eq_some hfind)).1).2
  · intro n hn hreg
    obtain ⟨i, hi, hp⟩ := hL.registered_iff.1 hreg
    have hrows : 32 * idling.kernel.pmm.rows = 0x4000 := by decide_cbv
    have htaken := (hnodes i (hL.home _ i hi).1).1
    rw [hp, Pmm.slotAddr_of_lt (by omega), Nat.mul_div_cancel _ (by decide)] at htaken
    exact htaken
  · intro i hi
    rw [hL.freed_eq] at hi
    cases hi

theorem count_idling : idling.kernel.map.count = 9 := by decide_cbv

theorem table_lt_idling (i : ℕ) (h : .table i ∈ idling.objects) : i < idling.kernel.map.count := by
  have hobjects : idling.objects = (List.range 9).map .table ++
      [.process 0xffffff8000200400, .thread 0xffffff8000200800, .region 6] := by decide_cbv
  rw [hobjects] at h
  rw [count_idling]
  simpa using h

/-- A program with two segments. -/
def program : ElfFile := ⟨0x400000, [⟨0x400000, 0x1800, [0x9090]⟩, ⟨0x402000, 0x1000, []⟩]⟩

theorem inUserSpace_program : ∀ g ∈ program.segments, InUserSpace g := by
  simp [program, InUserSpace, kernelTextStart]

/-- The program has been loaded. -/
def started : Processes := (idling.execElf 2 0x101500 program 0x101700 false
  0xffffff8000200c00 0xffffff8000200e00).getD idling

/-- Its thread runs, and writes to its memory. -/
def running : Processes :=
  ([.schedule {}, .store 0x400008 7].foldlM (step 2) started).getD started

/-- It has been reaped. -/
def reaped : Processes := (running.exitAndReap 2 {}).getD running

theorem execElf_idling : idling.execElf 2 0x101500 program 0x101700 false
    0xffffff8000200c00 0xffffff8000200e00 = some started :=
  eq_some_getD (by decide_cbv) idling

theorem run_started : [.schedule {}, .store 0x400008 7].foldlM (step 2) started = some running :=
  eq_some_getD (by decide_cbv) started

theorem exitAndReap_running : running.exitAndReap 2 {} = some reaped :=
  eq_some_getD (by decide_cbv) running

/-- The program leaks. -/
theorem process_leaks_program : ∃ s₁ s₂ s', idling.execElf 2 0x101500 program 0x101700 false
      0xffffff8000200c00 0xffffff8000200e00 = some s₁ ∧
    [.schedule {}, .store 0x400008 7].foldlM (step 2) s₁ = some s₂ ∧
    s₂.exitAndReap 2 {} = some s' ∧ ¬ idling.LeakFree s' :=
  ⟨started, running, reaped, execElf_idling, run_started, exitAndReap_running,
    process_leaks orderly_idling table_lt_idling inUserSpace_program execElf_idling run_started
      exitAndReap_running⟩

/-- A table of the program is in use after it has been reaped. -/
theorem program_leaves_table : idling.execElf 2 0x101500 program 0x101700 false
      0xffffff8000200c00 0xffffff8000200e00 = some started ∧
    [.schedule {}, .store 0x400008 7].foldlM (step 2) started = some running ∧
    running.exitAndReap 2 {} = some reaped ∧ ¬ idling.LeakFree reaped := by
  refine ⟨execElf_idling, run_started, exitAndReap_running, fun h => ?_⟩
  have hparked : ∀ i, reaped.Parked i → HeapObject.table 10 ≠ .table i := by
    have hfreed : reaped.kernel.map.freed = [9] := by decide_cbv
    intro i hi
    rw [Parked, hfreed, List.mem_singleton] at hi
    rw [hi]
    decide
  have hleft : .table 10 ∈ reaped.objects := by
    have hobjects : reaped.objects = (List.range 9).map .table ++
        [.process 0xffffff8000200400, .thread 0xffffff8000200800, .region 6] ++
        (List.range' 9 6).map .table := by decide_cbv
    rw [hobjects]
    decide
  have hlt := table_lt_idling 10 ((h.objects _ hparked).1 hleft)
  rw [count_idling] at hlt
  omega

end Processes

end TitanOS
