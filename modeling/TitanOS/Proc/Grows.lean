import TitanOS.Proc.Model
import TitanOS.Proc.Nodes
import TitanOS.Sched.Dispatch
import TitanOS.Vmm.Regions

/-!
# What is not given back

No call but `vmm_hashmap_remove` takes a node off a chain, and none gives the node of a table to
`kfree`.  So while there is at most one freed table, the nodes that are made stay in use and, as
long as no process is reaped, on no list but the chains (`Grows`).  A call of `schedule` reaps at
most one process, and so moves at most one node to the freed ones (`Parks`).
-/

namespace TitanOS

namespace Kernel

variable {k k₁ k₂ k' : Kernel} {F : List ℕ} {fuel : ℕ}

/-- From `k` to `k'` nodes are made, however they are chained. -/
def Makes (F : List ℕ) (k k' : Kernel) : Prop :=
  ∀ L, k.map.Lists L F → ∃ L', k.map.Made k'.map L L' F

theorem makes_of_map (h : k'.map = k.map) : Makes F k k' := by
  intro L hL
  rw [h]
  exact ⟨L, .refl hL⟩

theorem Makes.trans (h₁ : Makes F k k₁) (h₂ : Makes F k₁ k₂) : Makes F k k₂ := by
  intro L hL
  obtain ⟨L₁, m₁⟩ := h₁ L hL
  obtain ⟨L₂, m₂⟩ := h₂ L₁ m₁.lists
  exact ⟨L₂, m₁.trans m₂⟩

theorem makes_mmap {root paddr v flags : ℕ} {b : Bool} (hF : F.length ≤ 1)
    (h : mmap fuel k root paddr v flags = some (k', b)) : Makes F k k' :=
  fun L hL => made_mmap fuel hF k L root paddr v flags k' b hL h

theorem makes_mapPages {flags n v args : ℕ} {b : Bool} (hF : F.length ≤ 1)
    (h : mapPages fuel flags n k v args = some (k', b)) : Makes F k k' := by
  induction n generalizing k v args with
  | zero =>
    obtain ⟨rfl, -⟩ := Prod.mk.inj (Option.some.inj h)
    exact makes_of_map rfl
  | succ n ih =>
    obtain ⟨pmm, hpmm, -⟩ := k.takeFrame_eq args
    rw [mapPages_succ, hpmm] at h
    obtain ⟨⟨k₁, ok⟩, hcall, h⟩ := Option.bind_eq_some_iff.1 h
    have hone : Makes F { k with pmm := pmm } k₁ := makes_mmap hF hcall
    split at h
    · exact hone.trans (ih h)
    · obtain ⟨rfl, -⟩ := Prod.mk.inj (Option.some.inj h)
      exact hone

theorem makes_vmmAlloc {start length flags args p : ℕ} (hF : F.length ≤ 1)
    (h : vmmAlloc fuel k start length flags args = some (k', p)) : Makes F k k' := by
  rcases vmmAlloc_cases h with ⟨-, he⟩ | ⟨c, found, k₁, ok, -, hmap, he⟩
  · obtain ⟨rfl, -⟩ := Prod.mk.inj he
    exact makes_of_map rfl
  · obtain ⟨rfl, -⟩ := Prod.mk.inj he
    have hplaced : Makes F k
      { k with regions := insertRegion k.regions c found (pageAlign length) flags } :=
      makes_of_map rfl
    exact hplaced.trans (makes_mapPages hF hmap)

/-- `create_vmm` is `alloc_pg_table` as far as the nodes are concerned. -/
theorem map_createVmm {v : Vmm} (h : k.createVmm fuel = some (k', v)) :
    ∃ k₁ t, k.allocPgTable (mmap fuel) = some (k₁, t) ∧ k'.map = k₁.map := by
  unfold createVmm createNewPml4t at h
  obtain ⟨⟨k₃, t⟩, hroot, h⟩ := Option.bind_eq_some_iff.1 h
  obtain ⟨⟨k₁, t'⟩, hal, hroot⟩ := Option.bind_eq_some_iff.1 hroot
  obtain ⟨w, -, hroot⟩ := Option.bind_eq_some_iff.1 hroot
  obtain ⟨e, -, hroot⟩ := Option.bind_eq_some_iff.1 hroot
  obtain ⟨k₂, hst, hroot⟩ := Option.bind_eq_some_iff.1 hroot
  obtain ⟨rfl, -⟩ := Prod.mk.inj (Option.some.inj hroot)
  obtain ⟨rfl, -⟩ := Prod.mk.inj (Option.some.inj h)
  have hmap : k₂.map = k₁.map := map_of_store hst
  exact ⟨k₁, t', hal, hmap⟩

theorem makes_createVmm {v : Vmm} (hF : F.length ≤ 1) (h : k.createVmm fuel = some (k', v)) :
    Makes F k k' := by
  obtain ⟨k₁, t, hal, hmap⟩ := map_createVmm h
  have hone : Makes F k k₁ := fun L hL => made_allocPgTable (made_mmap fuel hF) hF hL hal
  exact hone.trans (makes_of_map hmap)

/-- `umap` does nothing, so that `vmm_free` keeps all tables. -/
theorem map_vmmFree {start : ℕ} (h : k.vmmFree start = some k') : k'.map = k.map := by
  unfold vmmFree at h
  simp only at h
  split at h
  · rw [Option.some.inj h]
  · obtain ⟨⟨c, d⟩, -, h⟩ := Option.bind_eq_some_iff.1 h
    simp only [umap_eq, Option.bind_eq_bind, Option.bind_some, Option.some.injEq] at h
    rw [← h]

theorem map_switchVmSpace {v : Vmm} (h : k.switchVmSpace v = some k') : k'.map = k.map := by
  obtain ⟨w, -, rfl⟩ := Option.map_eq_some_iff.1 h
  rfl

theorem map_clearPage {v : ℕ} (h : k.clearPage v = some k') : k'.map = k.map := by
  obtain ⟨f, -, rfl⟩ := Option.map_eq_some_iff.1 h
  rfl

theorem map_writeWords {es : List ℕ} {v : ℕ} (h : writeWords es k v = some k') :
    k'.map = k.map := by
  induction es generalizing k v with
  | nil => rw [Option.some.inj h]
  | cons e es ih =>
    obtain ⟨k₁, hst, h⟩ := Option.bind_eq_some_iff.1 h
    rw [ih h, map_of_store hst]

end Kernel

namespace Processes

variable {s s₁ s₂ s' : Processes} {F : List ℕ} {fuel : ℕ}

/-! ### Tables are made, and stay -/

/-- The tables are left alone. -/
structure Keeps (s s' : Processes) : Prop where
  map : s'.kernel.map = s.kernel.map
  kept : ∀ i, .table i ∈ s.objects → .table i ∈ s'.objects

theorem Keeps.refl (s : Processes) : s.Keeps s := ⟨rfl, fun _ hi => hi⟩

theorem Keeps.trans (h₁ : s.Keeps s₁) (h₂ : s₁.Keeps s₂) : s.Keeps s₂ :=
  ⟨h₂.map.trans h₁.map, fun i hi => h₂.kept i (h₁.kept i hi)⟩

/-- `vmm_free` gives a region object back. -/
theorem keeps_vmmFree {base : ℕ} (h : s.vmmFree base = some s') : s.Keeps s' := by
  unfold vmmFree at h
  obtain ⟨k, hk, h⟩ := Option.bind_eq_some_iff.1 h
  obtain rfl := Option.some.inj h
  refine ⟨Kernel.map_vmmFree hk, fun i hi => List.mem_filter.2 ⟨hi, ?_⟩⟩
  simp

theorem keeps_switchVmSpace {v : Vmm} (h : s.switchVmSpace v = some s') : s.Keeps s' := by
  obtain ⟨k, hk, rfl⟩ := Option.map_eq_some_iff.1 h
  exact ⟨Kernel.map_switchVmSpace hk, fun _ hi => hi⟩

/-- From `s` to `s'` nodes are made, and their objects stay in use. -/
structure Grows (F : List ℕ) (s s' : Processes) : Prop where
  makes : Kernel.Makes F s.kernel s'.kernel
  kept : ∀ i, .table i ∈ s.objects → .table i ∈ s'.objects
  new : ∀ i, s.kernel.map.count ≤ i → i < s'.kernel.map.count → .table i ∈ s'.objects

theorem Grows.trans (h₁ : Grows F s s₁) (h₂ : Grows F s₁ s₂) : Grows F s s₂ where
  makes := h₁.makes.trans h₂.makes
  kept i hi := h₂.kept i (h₁.kept i hi)
  new i hle hlt := by
    by_cases hi : i < s₁.kernel.map.count
    · exact h₂.kept i (h₁.new i hle hi)
    · exact h₂.new i (Nat.le_of_not_lt hi) hlt

theorem Keeps.grows (h : s.Keeps s') : Grows F s s' where
  makes := Kernel.makes_of_map h.map
  kept := h.kept
  new i hle hlt := by
    rw [h.map] at hlt
    omega

theorem grows_leave {k : Kernel} (h : Kernel.Makes F s.kernel k) : Grows F s (s.leave k) where
  makes := h
  kept i hi := List.mem_append_left _ hi
  new i hle hlt := by
    refine List.mem_append_right _ (List.mem_map_of_mem (List.mem_range'_1.2 ⟨hle, ?_⟩))
    change i < k.map.count at hlt
    omega

/-- A loop grows what its body grows. -/
theorem grows_foldlM {α : Type} {f : Processes → α → Option Processes} {as : List α}
    (hf : ∀ s a s', a ∈ as → f s a = some s' → Grows F s s') (h : as.foldlM f s = some s') :
    Grows F s s' := by
  induction as generalizing s with
  | nil =>
    obtain rfl := Option.some.inj h
    exact (Keeps.refl s).grows
  | cons a as ih =>
    obtain ⟨s₁, hs₁, h⟩ := Option.bind_eq_some_iff.1 h
    exact (hf s a s₁ List.mem_cons_self hs₁).trans
      (ih (fun s a s' ha => hf s a s' (List.mem_cons_of_mem _ ha)) h)

theorem grows_vmmAlloc {start length flags p : ℕ} (hF : F.length ≤ 1)
    (h : s.vmmAlloc fuel start length flags = some (s', p)) : Grows F s s' := by
  unfold vmmAlloc at h
  obtain ⟨⟨k, q⟩, hk, h⟩ := Option.bind_eq_some_iff.1 h
  obtain ⟨rfl, -⟩ := Prod.mk.inj (Option.some.inj h)
  have hkept : (s.leave k).Keeps { s.leave k with
      objects := (s.leave k).objects ++ (List.range' s.kernel.regions.count
        (k.regions.count - s.kernel.regions.count)).map .region } :=
    ⟨rfl, fun i hi => List.mem_append_left _ hi⟩
  exact (grows_leave (Kernel.makes_vmmAlloc hF hk)).trans hkept.grows

theorem grows_createSections {start : ℕ} (hF : F.length ≤ 1)
    (h : s.createSections fuel start = some s') : Grows F s s' := by
  unfold createSections at h
  obtain ⟨⟨s₁, p⟩, hs₁, h⟩ := Option.bind_eq_some_iff.1 h
  simp only at h
  split at h
  · cases h
  · obtain ⟨k₁, hk₁, h⟩ := Option.bind_eq_some_iff.1 h
    obtain ⟨k₂, hk₂, h⟩ := Option.bind_eq_some_iff.1 h
    obtain rfl := Option.some.inj h
    have hkept : s₁.Keeps { s₁ with kernel := k₂ } :=
      ⟨(Kernel.map_clearPage hk₂).trans (Kernel.map_clearPage hk₁), fun _ hi => hi⟩
    exact (grows_vmmAlloc hF hs₁).trans hkept.grows

/-- The calls of the scheduler, but for `vmm_hashmap_remove`. -/
theorem grows_call {c : VmCall} (hF : F.length ≤ 1) (hc : ∀ q, c ≠ .vmmHashmapRemove q)
    (h : s.call fuel c = some s') : Grows F s s' := by
  cases c with
  | allocKernelStack =>
    have hptr : s.Keeps { s with kernelStackPtr := s.kernelStackPtr - 0x3000 } :=
      ⟨rfl, fun _ hi => hi⟩
    exact hptr.grows.trans (grows_createSections hF h)
  | allocUserStack p =>
    obtain ⟨s₁, hs₁, h⟩ := Option.bind_eq_some_iff.1 h
    obtain ⟨s₂, hs₂, h⟩ := Option.bind_eq_some_iff.1 h
    exact (keeps_switchVmSpace hs₁).grows.trans
      ((grows_createSections hF hs₂).trans (keeps_switchVmSpace h).grows)
  | vmmFree base => exact (keeps_vmmFree h).grows
  | switchVmSpace p => exact (keeps_switchVmSpace h).grows
  | vmmHashmapRemove q => exact absurd rfl (hc q)

/-- **Creating a process** makes its tables. -/
theorem grows_createProc {wrapper p t : ℕ} {v : Vmm} {e : Sched.Entry} {addToQueue : Bool}
    (hF : F.length ≤ 1) (h : s.createProc fuel wrapper p t v e addToQueue = some s') :
    Grows F s s' := by
  unfold createProc at h
  obtain ⟨sched, hsched, h⟩ := Option.bind_eq_some_iff.1 h
  have hcalls := (Sched.created_createProc hsched).calls
  have hkept : s.Keeps { s with
      sched := sched
      vmm := Function.update s.vmm p v
      objects := s.objects ++ [.process p, .thread t] } :=
    ⟨rfl, fun i hi => List.mem_append_left _ hi⟩
  refine hkept.grows.trans (grows_foldlM (fun s c s' hc => grows_call hF fun q => ?_) h)
  simp only [hcalls, List.drop_left, List.mem_singleton] at hc
  rw [hc]
  split <;> simp

theorem grows_schedInit {wrapper p t idleMain : ℕ} (hF : F.length ≤ 1)
    (h : s.schedInit fuel wrapper p t idleMain = some s') : Grows F s s' := by
  unfold schedInit at h
  obtain ⟨⟨k, v⟩, hk, h⟩ := Option.bind_eq_some_iff.1 h
  obtain ⟨s₁, hs₁, h⟩ := Option.bind_eq_some_iff.1 h
  obtain rfl := Option.some.inj h
  have hkept : s₁.Keeps { s₁ with
      sched := { s₁.sched with idleProc := p, currentProcess := p, currentThread := t } } :=
    ⟨rfl, fun _ hi => hi⟩
  exact (grows_leave (Kernel.makes_createVmm hF hk)).trans
    ((grows_createProc hF hs₁).trans hkept.grows)

/-- **`load_elf`** makes the tables of the segments. -/
theorem grows_loadElf {f : ElfFile} (hF : F.length ≤ 1) (h : s.loadElf fuel f = some s') :
    Grows F s s' := by
  refine grows_foldlM (fun s g s' _ h => ?_) h
  unfold loadSegment at h
  obtain ⟨⟨s₁, p⟩, hs₁, h⟩ := Option.bind_eq_some_iff.1 h
  simp only at h
  split at h
  · cases h
  · obtain ⟨k, hk, h⟩ := Option.bind_eq_some_iff.1 h
    obtain rfl := Option.some.inj h
    have hkept : s₁.Keeps { s₁ with kernel := k } := ⟨Kernel.map_writeWords hk, fun _ hi => hi⟩
    exact (grows_vmmAlloc hF hs₁).trans hkept.grows

theorem grows_loadAndCopy {f : ElfFile} {v v' : Vmm} {copyFirst : Bool} (hF : F.length ≤ 1)
    (h : s.loadAndCopy fuel f v copyFirst = some (s', v')) : Grows F s s' := by
  have hcopy : ∀ s : Processes, s.Keeps { s with kernel := (s.kernel.copyVmm v).1 } :=
    fun s => ⟨rfl, fun _ hi => hi⟩
  unfold loadAndCopy at h
  split at h
  · obtain ⟨s₁, hs₁, h⟩ := Option.map_eq_some_iff.1 h
    obtain ⟨rfl, -⟩ := Prod.mk.inj h
    exact (hcopy s).grows.trans (grows_loadElf hF hs₁)
  · obtain ⟨s₁, hs₁, h⟩ := Option.map_eq_some_iff.1 h
    obtain ⟨rfl, -⟩ := Prod.mk.inj h
    exact (grows_loadElf hF hs₁).trans (hcopy s₁).grows

/-- **`exec_elf`** makes the tables of the process. -/
theorem grows_execElf {wrapper filename p t : ℕ} {f : ElfFile} {copyFirst : Bool}
    (hF : F.length ≤ 1) (h : s.execElf fuel wrapper f filename copyFirst p t = some s') :
    Grows F s s' := by
  unfold execElf at h
  obtain ⟨⟨k, v⟩, hk, h⟩ := Option.bind_eq_some_iff.1 h
  obtain ⟨s₁, hs₁, h⟩ := Option.bind_eq_some_iff.1 h
  obtain ⟨⟨s₂, v'⟩, hs₂, h⟩ := Option.bind_eq_some_iff.1 h
  obtain ⟨s₃, hs₃, h⟩ := Option.bind_eq_some_iff.1 h
  exact (grows_leave (Kernel.makes_createVmm hF hk)).trans ((keeps_switchVmSpace hs₁).grows.trans
    ((grows_loadAndCopy hF hs₂).trans ((grows_createProc hF hs₃).trans
      (keeps_switchVmSpace h).grows)))

end Processes

end TitanOS
