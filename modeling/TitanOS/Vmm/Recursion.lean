import TitanOS.Lib.Run
import TitanOS.Vmm.Boot
import TitanOS.Vmm.Events

/-!
# How deep creating a table recurses

Creating a page table takes one frame and maps it at the next page of the window, which may need
another table.  If the tables that map the next pages of the window are there (`WindowMapped`),
a call takes one frame for each table that it creates, of which there are at most three, and they
are all mapped and registered when it returns (`Bounded`).  The state is looked at before every
call of `mmap` or `alloc_pg_table`, so `vmm_alloc` is taken apart into the part before its loop and
the rounds of the loop (`steps_vmmAlloc`).

When the window gets to a block that has no table, the call for the table of this block asks for
the table of the same block again, one page further on, and so forth (`Stuck`).  Each of these
calls takes another frame.
-/

namespace TitanOS

open Walk

/-- A call of `mmap` on the current space or of `alloc_pg_table`, the part of `vmm_alloc` before
its loop, or a round of its loop. -/
inductive CreateOp
  | mmap (paddr v flags : ℕ)
  | place (start length flags : ℕ)
  | page (v flags args : ℕ)
  | allocPgTable
  deriving DecidableEq, Repr

namespace Pmm

theorem le_afterFrames (n : ℕ) (m : Pmm) : m.Le (m.afterFrames n) := by
  induction n generalizing m with
  | zero => exact fun _ hs => hs
  | succ n ih => exact fun s hs => ih m.pmmAllocPage.1 s (m.le_pmmAllocPage s hs)

/-- Taking more frames marks more slots. -/
theorem not_le_afterFrames {m : Pmm} {a b : ℕ} (hab : a < b) (h : ∀ f ∈ m.nextFrames b, f ≠ 0) :
    ¬ (m.afterFrames b).Le (m.afterFrames a) := by
  obtain ⟨d, rfl⟩ : ∃ d, b = a + (d + 1) := ⟨b - a - 1, by omega⟩
  intro hle
  have hf : (m.afterFrames a).pmmAllocPage.2 ≠ 0 :=
    h _ (by rw [nextFrames_add]; exact List.mem_append_right _ List.mem_cons_self)
  rw [afterFrames_add, afterFrames] at hle
  rw [pmmAllocPage_eq] at hf
  cases hfirst : (m.afterFrames a).firstFree with
  | none => exact hf (by rw [hfirst])
  | some s =>
    have htaken : (m.afterFrames a).pmmAllocPage.1.slotTaken s = true := by
      rw [pmmAllocPage_eq, hfirst]
      simp
    have hfree := hle s (le_afterFrames d _ s htaken)
    rw [(firstFree_eq_some.1 hfirst).1] at hfree
    cases hfree

end Pmm

namespace Kernel

/-- `vmm_alloc` up to its loop. -/
def placeRegion (k : Kernel) (start length flags : ℕ) : Option Kernel :=
  (findPlace k.regions k.currentVmm (pageAlignDown start) (pageAlign length)).map fun
    | none => k
    | some (c, found) =>
      { k with regions := insertRegion k.regions c found (pageAlign length) flags }

end Kernel

/-- The state after a call. -/
def CreateOp.step (fuel : ℕ) (k : Kernel) : CreateOp → Option Kernel
  | .mmap paddr v flags => (Kernel.mmap fuel k k.currentPml4tPtr paddr v flags).map Prod.fst
  | .place start length flags => k.placeRegion start length flags
  | .page v flags args => (Kernel.mmap fuel (k.takeFrame args).1 k.currentPml4tPtr
      (k.takeFrame args).2 v flags).map Prod.fst
  | .allocPgTable => (k.allocPgTable (Kernel.mmap fuel)).map Prod.fst

namespace Kernel

/-- The call that leads from `k` to the answer `x` returns, has taken at most eight frames, and
each of these is a table that is mapped and registered. -/
def BoundedTo (k : Kernel) (x : Option Kernel) : Prop :=
  ∃ k', x = some k' ∧ ∃ m ≤ 8, k'.pmm = k.pmm.afterFrames m ∧
    ∀ f ∈ k.pmm.nextFrames m, ∃ w, k'.map.getPtblVaddr f = some w ∧ w ≠ 0 ∧ k'.Accesses w f

/-- The tables that map the next `n` pages of the window are there. -/
def WindowMapped (k : Kernel) (n : ℕ) : Prop :=
  k.windowTop + 0x1000 * n < 2 ^ 64 ∧ ∀ j < n, ∃ t,
    follow (entry k.mem) k.cr3 (tableIndices (k.windowTop + 0x1000 * (j + 1))) = some t

/-- The page of `v` can be mapped: there are frames for the tables that are missing, the next pages
of the window can be mapped without another table, and no table is registered at the page. -/
def Mappable (k : Kernel) (v : ℕ) : Prop :=
  k.WindowMapped (missing k.mem k.cr3 (tableIndices v)) ∧
    k.Supplied (missing k.mem k.cr3 (tableIndices v)) ∧ k.NoTableAt v

/-- The page tables are in order, and the window is where the source puts it or further on. -/
structure Windowed (k : Kernel) (R : ℕ → Prop) (C : List (Fin 512) → Prop) : Prop where
  inOrder : k.InOrder R C (2 ^ 36)
  aligned : k.windowTop % 0x1000 = 0
  low : 0xffffff8000300000 ≤ k.windowTop
  count : 0 < k.regions.count

end Kernel

/-- A call of `mmap` or `alloc_pg_table` is bounded. -/
def CreateOp.Bounded (fuel : ℕ) (k : Kernel) : CreateOp → Prop
  | .mmap paddr v flags => k.BoundedTo (CreateOp.step fuel k (.mmap paddr v flags))
  | .place _ _ _ => True
  | .page v flags args =>
    (k.takeFrame args).1.BoundedTo (CreateOp.step fuel k (.page v flags args))
  | .allocPgTable => k.BoundedTo (CreateOp.step fuel k .allocPgTable)

/-- The call finds the tables that map the next pages of the window, as far as it gets to them. -/
def CreateOp.Ready (k : Kernel) : CreateOp → Prop
  | .mmap _ v _ => k.Mappable v
  | .place _ _ _ => True
  | .page v _ args => (k.takeFrame args).1.Mappable v
  | .allocPgTable => k.pmm.firstFree = none ∨ k.WindowMapped 1 ∧ k.Supplied 1

namespace Kernel

variable {k k' : Kernel} {R : ℕ → Prop} {C : List (Fin 512) → Prop} {r t t' pt v : ℕ}
  {q : List (Fin 512)} {ls : List ℕ}

/-! ### Calls that find the tables of the window -/

theorem Windowed.extends {n : ℕ} (h : k.Windowed R C) (hw : k.WindowMapped n) :
    k.Extends (2 ^ 36) n := by
  refine ⟨h.aligned, hw.1, ?_, le_rfl, hw.2⟩
  have hlow := h.low
  have htop := hw.1
  simp only [page]
  omega

theorem Windowed.with_pmm (h : k.Windowed R C) (pmm : Pmm) :
    ({ k with pmm := pmm } : Kernel).Windowed R C :=
  ⟨⟨h.inOrder.root, h.inOrder.forest, h.inOrder.accessible, h.inOrder.current, h.inOrder.lists⟩,
    h.aligned, h.low, h.count⟩

/-- A table in use is mapped and registered. -/
theorem InOrder.boundedTo {m stop : ℕ} (h : k'.InOrder R C stop) (hm : m ≤ 8)
    (hpmm : k'.pmm = k.pmm.afterFrames m)
    (hnew : ∀ f ∈ k.pmm.nextFrames m, Reach (entry k'.mem) R 3 f) : k.BoundedTo (some k') := by
  refine ⟨k', rfl, m, hm, hpmm, fun f hf => ?_⟩
  obtain ⟨w, hw, hw0, hacc, -⟩ := h.accessible f (hnew f hf)
  exact ⟨w, hw, hw0, hacc⟩

/-- **`mmap`** takes a frame for each table that is missing. -/
theorem Windowed.mmap (n paddr flags : ℕ) (hC : ∀ p j, C p → C (p ++ [j])) (h : k.Windowed R C)
    (hv : k.Mappable v) :
    ∃ k', Kernel.mmap (n + 2) k k.currentPml4tPtr paddr v flags = some (k', true) ∧
      k'.Windowed R C ∧ k.BoundedTo (some k') := by
  obtain ⟨hwin, hs, hclear⟩ := hv
  have he := h.extends hwin
  obtain ⟨k', t, hO, hcr, hnew, ht, hmmap⟩ := mmapCreated_spec n paddr flags hC h.inOrder
    h.inOrder.root h.inOrder.current he hs
  obtain ⟨hsame, hO'⟩ := hO.writeEntry h.inOrder.root ht (paddr ||| flags ||| 7)
    fun a w ha hw => InOrder.page_ne hclear he hO hcr ha hw
  have htop := hcr.windowTop
  have hal := h.aligned
  have hlow := h.low
  refine ⟨_, hmmap, ⟨hO', ?_, ?_, ?_⟩, hO'.boundedTo (m := missing k.mem k.cr3 (tableIndices v))
    ?_ hcr.pmm fun f hf => hsame.reach_iff.2 (hnew f hf)⟩
  · show k'.windowTop % 0x1000 = 0
    omega
  · show 0xffffff8000300000 ≤ k'.windowTop
    omega
  · rw [(keeps_mmap (n + 2) hmmap).count]
    exact h.count
  · exact (missing_le k.mem k.cr3 (tableIndices v)).trans (show 3 ≤ 8 by decide)

/-- **`alloc_pg_table`** takes one frame, or none if there is none. -/
theorem Windowed.allocPgTable (n : ℕ) (h : k.Windowed R C)
    (hr : k.pmm.firstFree = none ∨ k.WindowMapped 1 ∧ k.Supplied 1) :
    ∃ x, k.allocPgTable (Kernel.mmap (n + 1)) = some x ∧ x.1.Windowed R C ∧
      k.BoundedTo (some x.1) := by
  rcases hr with hnone | ⟨hwin, hs⟩
  · obtain ⟨L, hL⟩ := h.inOrder.lists
    have hfree : k.map.getFreedPgTbl = none := by
      rw [Hashmap.getFreedPgTbl, Linked.path_nil.1 hL.free]
    have hpage : k.pmm.pmmAllocPage = (k.pmm, 0) := by rw [Pmm.pmmAllocPage_eq, hnone]
    have hO : ({ k with map := k.map.newNode 0 0 } : Kernel).InOrder R C (2 ^ 36) := by
      refine ⟨h.inOrder.root, h.inOrder.forest, fun t ht => ?_, ?_, L, hL.newNode 0 0⟩
      · obtain ⟨w, hw, hrest⟩ := h.inOrder.accessible t ht
        exact ⟨w, (hL.getPtblVaddr_newNode 0 0 t).trans hw, hrest⟩
      · exact (hL.getPtblVaddr_newNode 0 0 k.cr3).trans h.inOrder.current
    refine ⟨({ k with map := k.map.newNode 0 0 }, 0), ?_, ⟨hO, h.aligned, h.low, h.count⟩,
      hO.boundedTo (Nat.zero_le 8) rfl fun f hf => absurd hf List.not_mem_nil⟩
    simp only [Kernel.allocPgTable, hfree, hpage, if_true]
  · have he := h.extends hwin
    obtain ⟨k', hcall, hA⟩ := createTable_spec n h.inOrder he hs
    have htop := hA.windowTop
    have hal := h.aligned
    have hlow := h.low
    refine ⟨(k', k.pmm.pmmAllocPage.2), hcall, ⟨hA.inOrder, ?_, ?_, ?_⟩, k', rfl, 1, by decide,
      hA.pmm, fun f hf => ?_⟩
    · show k'.windowTop % 0x1000 = 0
      omega
    · show 0xffffff8000300000 ≤ k'.windowTop
      omega
    · rw [(keeps_allocPgTable (n + 1) hcall).count]
      exact h.count
    · obtain rfl : f = k.pmm.pmmAllocPage.2 := List.mem_singleton.1 hf
      exact ⟨k'.windowTop, hA.getPtblVaddr, by omega, hA.accesses⟩

theorem Windowed.placeRegion {start length flags : ℕ} (h : k.Windowed R C)
    (hx : k.placeRegion start length flags = some k') : k'.Windowed R C := by
  obtain ⟨x, -, rfl⟩ := Option.map_eq_some_iff.1 hx
  rcases x with - | ⟨c, found⟩
  · exact h
  -- the object of the window is not the one that is inserted
  · have htop : ({ k with regions := insertRegion k.regions c found (pageAlign length) flags } :
        Kernel).windowTop = k.windowTop := by
      have hne : kernelPageTblsObj ≠ k.regions.count := h.count.ne
      simp only [windowTop, insertRegion, newRegion, Function.update_of_ne hne]
    refine ⟨⟨h.inOrder.root, h.inOrder.forest, fun t ht => ?_, h.inOrder.current,
      h.inOrder.lists⟩, ?_, ?_, Nat.succ_pos _⟩
    · obtain ⟨w, hw, hw0, hacc, hun⟩ := h.inOrder.accessible t ht
      refine ⟨w, hw, hw0, hacc, ?_⟩
      rw [Ahead, htop]
      exact hun
    · rw [htop]
      exact h.aligned
    · rw [htop]
      exact h.low

/-- One call. -/
theorem Windowed.step (n : ℕ) (hC : ∀ p j, C p → C (p ++ [j])) (h : k.Windowed R C) {o : CreateOp}
    (ho : o.Ready k) : o.Bounded (n + 2) k ∧ ∀ k', o.step (n + 2) k = some k' →
      k'.Windowed R C := by
  cases o with
  | mmap paddr v flags =>
    obtain ⟨k₁, hmmap, hW, hb⟩ := h.mmap n paddr flags hC ho
    have hstep : CreateOp.step (n + 2) k (.mmap paddr v flags) = some k₁ := by
      rw [CreateOp.step, hmmap, Option.map_some]
    rw [CreateOp.Bounded, hstep]
    exact ⟨hb, fun k' hk' => Option.some.inj hk' ▸ hW⟩
  | place start length flags => exact ⟨trivial, fun k' hk' => h.placeRegion hk'⟩
  | page v flags args =>
    obtain ⟨pmm, hpmm, -⟩ := k.takeFrame_eq args
    have hW := h.with_pmm pmm
    rw [← hpmm] at hW
    obtain ⟨k₁, hmmap, hW₁, hb⟩ := hW.mmap n (k.takeFrame args).2 flags hC ho
    have hroot : (k.takeFrame args).1.currentPml4tPtr = k.currentPml4tPtr := by rw [hpmm]
    rw [hroot] at hmmap
    have hstep : CreateOp.step (n + 2) k (.page v flags args) = some k₁ := by
      rw [CreateOp.step, hmmap, Option.map_some]
    rw [CreateOp.Bounded, hstep]
    exact ⟨hb, fun k' hk' => Option.some.inj hk' ▸ hW₁⟩
  | allocPgTable =>
    obtain ⟨x, hcall, hW, hb⟩ := h.allocPgTable (n + 1) ho
    have hstep : CreateOp.step (n + 2) k .allocPgTable = some x.1 := by
      rw [CreateOp.step, hcall, Option.map_some]
    rw [CreateOp.Bounded, hstep]
    exact ⟨hb, fun k' hk' => Option.some.inj hk' ▸ hW⟩

/-! ### The loop of `vmm_alloc` -/

theorem run_mapPages {fuel flags m args : ℕ} {x : Kernel × Bool}
    (h : mapPages fuel flags m k v args = some x) :
    ∃ os : List CreateOp, os.foldlM (CreateOp.step fuel) k = some x.1 := by
  induction m generalizing k v args with
  | zero => exact ⟨[], congrArg (Option.map Prod.fst) h⟩
  | succ m ih =>
    rw [mapPages_succ] at h
    obtain ⟨y, hmmap, h⟩ := Option.bind_eq_some_iff.1 h
    have hstep : CreateOp.step fuel k (.page v flags args) = some y.1 := by
      rw [CreateOp.step, hmmap, Option.map_some]
    split at h
    · obtain ⟨os, hos⟩ := ih h
      refine ⟨.page v flags args :: os, ?_⟩
      rw [List.foldlM_cons, hstep]
      exact hos
    · obtain rfl := Option.some.inj h
      exact ⟨[.page v flags args], by rw [List.foldlM_cons, hstep]; rfl⟩

/-- **A call of `vmm_alloc`** is a run of its parts. -/
theorem run_vmmAlloc {fuel start length flags args : ℕ} {x : Kernel × ℕ}
    (h : vmmAlloc fuel k start length flags args = some x) :
    ∃ os : List CreateOp, os.foldlM (CreateOp.step fuel) k = some x.1 := by
  rcases vmmAlloc_cases h with ⟨hfind, rfl⟩ | ⟨c, found, k', ok, hfind, hmap, rfl⟩
  · refine ⟨[.place start length flags], ?_⟩
    rw [List.foldlM_cons, CreateOp.step, placeRegion, hfind]
    rfl
  · obtain ⟨os, hos⟩ := run_mapPages hmap
    refine ⟨.place start length flags :: os, ?_⟩
    rw [List.foldlM_cons, CreateOp.step, placeRegion, hfind]
    exact hos

/-! ### A block of the window that has no table -/

/-- The window has got to `n` pages that cannot be mapped without another table, and there are
frames for as many tables. -/
structure Stuck (k : Kernel) (R : ℕ → Prop) (n : ℕ) : Prop where
  root : R k.cr3
  registered : k.Registered R
  current : k.Accesses k.currentPml4tPtr k.cr3
  lists : ∃ L, k.map.Lists L []
  unmapped : ∀ j < n,
    follow (entry k.mem) k.cr3 (tableIndices ((k.windowTop + 0x1000 * (j + 1)) % 2 ^ 64)) = none
  frames : ∀ f ∈ k.pmm.nextFrames n, f ≠ 0

/-- The loop of `mmap` creates a table if one is missing. -/
theorem descend_missing {fuel : ℕ} {res : Option ℕ} (ha : k.Registered R) (hr : R r)
    (hq : follow (entry k.mem) r q = some t) (hlen : q.length + ls.length ≤ 3)
    (hpt : k.Accesses pt t) (hnone : follow (entry k.mem) t (ls.map (getIndex v)) = none)
    (h : descend (Kernel.allocPgTable (Kernel.mmap fuel)) v ls k pt = some (k', res)) :
    ∃ k₁ f, k.allocPgTable (Kernel.mmap fuel) = some (k₁, f) ∧ k₁.Steps k' := by
  induction ls generalizing q t pt with
  | nil => cases hnone
  | cons l ls ih =>
    rw [descend, hpt.load, Option.bind_eq_bind, Option.bind_some] at h
    simp only [List.length_cons] at hlen
    rw [List.map_cons, follow_cons] at hnone
    cases hi : entry k.mem t (getIndex v l) with
    | some t₁ =>
      obtain ⟨hodd, hdown⟩ := entry_eq_some.1 hi
      have hq₁ : follow (entry k.mem) r (q ++ [getIndex v l]) = some t₁ := by
        rw [follow_snoc_of_eq hq, hi]
      obtain ⟨w, hw, hw0, hacc⟩ := ha t₁ ⟨r, _, hr, by simp; omega, hq₁⟩
      rw [if_pos hodd, hdown, hw, Option.bind_some, if_neg hw0] at h
      rw [hi, Option.bind_some] at hnone
      exact ih hq₁ (by simp; omega) hacc hnone h
    | none =>
      have heven : ¬ k.mem t (getIndex v l) % 2 = 1 := by
        intro hodd
        simp [entry, hodd] at hi
      rw [if_neg heven] at h
      obtain ⟨⟨k₁, f⟩, halloc, h⟩ := Option.bind_eq_some_iff.1 h
      obtain ⟨k₂, hstore, h⟩ := Option.bind_eq_some_iff.1 h
      obtain ⟨w, -, h⟩ := Option.bind_eq_some_iff.1 h
      have hrest : k₁.Steps k' := (steps_store hstore).trans (steps_descend (fun _ _ _ hal =>
        steps_allocPgTable (fun _ _ _ _ _ _ _ => steps_mmap fuel) hal) ls h)
      exact ⟨k₁, f, halloc, hrest⟩

/-- So does `mmap`. -/
theorem mmap_missing {fuel paddr flags : ℕ} {b : Bool} (hroot : R k.cr3) (ha : k.Registered R)
    (hpt : k.Accesses pt k.cr3) (hnone : follow (entry k.mem) k.cr3 (tableIndices v) = none)
    (h : Kernel.mmap fuel k pt paddr v flags = some (k', b)) :
    ∃ n k₁ f, k.allocPgTable (Kernel.mmap n) = some (k₁, f) ∧ k₁.Steps k' := by
  cases fuel with
  | zero => cases h
  | succ n =>
    rw [Kernel.mmap] at h
    obtain ⟨⟨k₁, res⟩, hdesc, h⟩ := Option.bind_eq_some_iff.1 h
    obtain ⟨k₂, f, halloc, hrest⟩ := @descend_missing k k₁ R k.cr3 k.cr3 pt v [] [3, 2, 1] n res ha
      hroot rfl (by simp) hpt hnone hdesc
    refine ⟨n, k₂, f, halloc, ?_⟩
    cases res with
    | none =>
      obtain ⟨rfl, -⟩ := Prod.mk.inj (Option.some.inj h)
      exact hrest
    | some pt' =>
      obtain ⟨k₃, hstore, h⟩ := Option.bind_eq_some_iff.1 h
      obtain ⟨rfl, -⟩ := Prod.mk.inj (Option.some.inj h)
      exact hrest.trans (steps_store hstore)

/-- `alloc_pg_table` maps the new table. -/
theorem mmap_of_allocPgTable {fuel f : ℕ} (hfree : k.map.getFreedPgTbl = none)
    (hf : k.pmm.pmmAllocPage.2 ≠ 0) (h : k.allocPgTable (Kernel.mmap fuel) = some (k', f)) :
    ∃ k₁ b, Kernel.mmap fuel (k.newTable k.pmm.pmmAllocPage.1 k.pmm.pmmAllocPage.2)
        k.currentPml4tPtr k.pmm.pmmAllocPage.2
        (k.newTable k.pmm.pmmAllocPage.1 k.pmm.pmmAllocPage.2).windowTop 0 = some (k₁, b) ∧
      k₁.Steps k' := by
  unfold Kernel.allocPgTable at h
  rw [hfree] at h
  simp only [hf, if_false] at h
  split at h
  · cases h
  · rename_i k₁ hcall
    obtain ⟨rfl, -⟩ := Prod.mk.inj (Option.some.inj h)
    exact ⟨k₁, false, hcall, .refl k₁⟩
  · rename_i k₁ hcall
    exact ⟨k₁, true, hcall, steps_registerTable h⟩

theorem windowTop_newTable_eq (pmm : Pmm) (f : ℕ) :
    (k.newTable pmm f).windowTop = (k.windowTop + 0x1000) % 2 ^ 64 := by
  simp only [newTable, windowTop, growWindow, Function.update_self]
  omega

/-- The nested call is stuck on the pages behind the first one. -/
theorem Stuck.newTable {n : ℕ} (h : k.Stuck R (n + 1)) :
    (k.newTable k.pmm.pmmAllocPage.1 k.pmm.pmmAllocPage.2).Stuck R n := by
  obtain ⟨L, hL⟩ := h.lists
  refine ⟨h.root, registered_newTable h.registered ⟨L, [], hL⟩, h.current,
    ⟨L, hL.newNode _ _⟩, fun j hj => ?_, fun f hf => h.frames f (List.mem_cons_of_mem _ hf)⟩
  have hnext : (((k.windowTop + 0x1000) % 2 ^ 64) + 0x1000 * (j + 1)) % 2 ^ 64 =
      (k.windowTop + 0x1000 * (j + 1 + 1)) % 2 ^ 64 := by
    omega
  rw [windowTop_newTable_eq, hnext]
  exact h.unmapped (j + 1) (by omega)

/-- **Each of the pages takes a frame.** -/
theorem Stuck.taken {n fuel f : ℕ} (h : k.Stuck R n)
    (hcall : k.allocPgTable (Kernel.mmap fuel) = some (k', f)) :
    (k.pmm.afterFrames n).Le k'.pmm := by
  induction n generalizing k k' fuel f with
  | zero => exact (keeps_allocPgTable fuel hcall).taken
  | succ n ih =>
    obtain ⟨L, hL⟩ := h.lists
    have hfree : k.map.getFreedPgTbl = none := by
      rw [Hashmap.getFreedPgTbl, Linked.path_nil.1 hL.free]
    obtain ⟨k₁, b, hmmap, hlast⟩ := mmap_of_allocPgTable hfree (h.frames _ List.mem_cons_self) hcall
    have hnone := h.unmapped 0 (Nat.succ_pos n)
    rw [Nat.zero_add, Nat.mul_one, ← windowTop_newTable_eq k.pmm.pmmAllocPage.1
      k.pmm.pmmAllocPage.2] at hnone
    -- whatever the rest of the calls does, it gives no frame back
    obtain ⟨fuel', k₂, f', hcall', hrest⟩ := mmap_missing h.newTable.root h.newTable.registered
      h.newTable.current hnone hmmap
    exact fun s hs => (hrest.trans hlast).keeps.taken s (ih h.newTable hcall' s hs)

/-- Nine frames are too many. -/
theorem Stuck.not_boundedTo {x : Option Kernel} (h : k.Stuck R 9)
    (hx : ∀ k', x = some k' → (k.pmm.afterFrames 9).Le k'.pmm) : ¬ k.BoundedTo x := by
  rintro ⟨k', hk', m, hm, hpmm, -⟩
  have hle := hx k' hk'
  rw [hpmm] at hle
  exact Pmm.not_le_afterFrames (by omega) h.frames hle

theorem Stuck.not_bounded (h : k.Stuck R 9) (fuel : ℕ) :
    ¬ CreateOp.Bounded fuel k .allocPgTable ∧ ∀ paddr v flags,
      follow (entry k.mem) k.cr3 (tableIndices v) = none →
      ¬ CreateOp.Bounded fuel k (.mmap paddr v flags) := by
  refine ⟨h.not_boundedTo fun k' hk' => ?_,
    fun paddr v flags hv => h.not_boundedTo fun k' hk' => ?_⟩
  · obtain ⟨x, hcall, rfl⟩ := Option.map_eq_some_iff.1 hk'
    exact h.taken hcall
  · obtain ⟨x, hcall, rfl⟩ := Option.map_eq_some_iff.1 hk'
    obtain ⟨n, k₁, f, halloc, hrest⟩ := mmap_missing h.root h.registered h.current hv hcall
    exact fun s hs => hrest.keeps.taken s (h.taken halloc s hs)

theorem Windowed.stuck {n : ℕ} (h : k.Windowed R C)
    (hun : ∀ j < n, follow (entry k.mem) k.cr3
      (tableIndices ((k.windowTop + 0x1000 * (j + 1)) % 2 ^ 64)) = none)
    (hf : ∀ f ∈ k.pmm.nextFrames n, f ≠ 0) : k.Stuck R n :=
  ⟨h.inOrder.root, h.inOrder.registered, h.inOrder.accesses_current, h.inOrder.lists, hun, hf⟩

/-- **Creating a table is bounded while the window finds its tables.**  In a run of calls of `mmap`
and `alloc_pg_table` and of the parts of `vmm_alloc` in which the tables that map the next pages of
the window are there, every call is bounded; and every call of `vmm_alloc` is such a run.  When the
next nine pages have no table, a call that has to create one is not bounded, however deep it may
recurse. -/
theorem creation_bounded_while_mapped (n : ℕ) (k : Kernel) (R : ℕ → Prop)
    (C : List (Fin 512) → Prop) (hC : ∀ p j, C p → C (p ++ [j])) (h : k.Windowed R C) :
    (∀ os, Run.Along (CreateOp.step (n + 2)) CreateOp.Ready k os →
      Run.Along (CreateOp.step (n + 2)) (CreateOp.Bounded (n + 2)) k os) ∧
    (∀ k₀ start length flags args x, vmmAlloc (n + 2) k₀ start length flags args = some x →
      ∃ os : List CreateOp, os.foldlM (CreateOp.step (n + 2)) k₀ = some x.1) ∧
    ((∀ j < 9, follow (entry k.mem) k.cr3
        (tableIndices ((k.windowTop + 0x1000 * (j + 1)) % 2 ^ 64)) = none) →
      (∀ f ∈ k.pmm.nextFrames 9, f ≠ 0) → ∀ fuel, ¬ CreateOp.Bounded fuel k .allocPgTable ∧
        ∀ paddr v flags, follow (entry k.mem) k.cr3 (tableIndices v) = none →
          ¬ CreateOp.Bounded fuel k (.mmap paddr v flags)) := by
  refine ⟨fun os hos => ?_, fun k₀ start length flags args x hx => run_vmmAlloc hx,
    fun hun hf fuel => (h.stuck hun hf).not_bounded fuel⟩
  exact Run.Along.of_inv (I := fun k => k.Windowed R C) (fun k o hk ho => hk.step n hC ho) h hos

/-! ### From boot to the end of the block -/

/-- A window that has room for more in the block mapped at boot, with all tables registered below
its top. -/
theorem Tables.windowed (h : k.Tables R C) (hroom : k.Room 0) (hcount : 0 < k.regions.count)
    (hpages : ∀ i < k.map.count, page (k.map.ptVaddr i) ≤ page k.windowTop) : k.Windowed R C := by
  refine ⟨⟨h.root, h.forest, fun t ht => ?_, h.current, h.lists⟩, hroom.2.1, hroom.1, hcount⟩
  obtain ⟨w, hw, hw0, hacc, -⟩ := h.accessible t ht
  refine ⟨w, hw, hw0, hacc, fun hahead => ?_⟩
  obtain ⟨L, hL⟩ := h.lists
  obtain ⟨i, hi, rfl⟩ := hL.exists_node hw hw0
  exact absurd hahead.1 (Nat.not_lt.2 (hpages i hi))

theorem boot_windowed : boot.Windowed (fun r => r = 0x111000) fun _ => True :=
  (boot_tables (fun _ => Iff.rfl) _).windowed (by decide +kernel) (by decide) (by decide +kernel)

/-- Mapping the first page behind the identity mapping creates two tables. -/
theorem creation_bounded_while_mapped_boot :
    Run.Along (CreateOp.step 2) (CreateOp.Bounded 2) boot [.mmap 0x200000 0x40000000 3] := by
  have hmiss : missing boot.mem boot.cr3 (tableIndices 0x40000000) = 2 := by decide +kernel
  refine (creation_bounded_while_mapped 0 boot (fun r => r = 0x111000) (fun _ => True)
    (fun _ _ _ => trivial) boot_windowed).1 _ ⟨⟨?_, ?_, ?_⟩, fun _ _ => trivial⟩
  · rw [hmiss]
    refine ⟨by decide +kernel, fun j hj => ⟨0x118000, ?_⟩⟩
    interval_cases j <;> decide +kernel
  · rw [hmiss]
    decide +kernel
  · exact (boot_tables (fun _ => Iff.rfl) fun _ => True).noTableAt (by decide +kernel)

/-- Calls of `alloc_pg_table` while the window has room. -/
theorem Tables.run_allocPgTable (n m : ℕ) (h : k.Tables R C) (hroom : k.Room m)
    (hs : k.Supplied m) :
    ∃ k', (List.replicate m CreateOp.allocPgTable).foldlM (CreateOp.step (n + 1)) k = some k' ∧
      k'.Tables R C ∧ k'.cr3 = k.cr3 ∧ k'.windowTop = k.windowTop + 0x1000 * m ∧
      k'.pmm = k.pmm.afterFrames m ∧ Same (entry k.mem) (entry k'.mem) R 3 := by
  induction m generalizing k with
  | zero => exact ⟨k, rfl, h, rfl, rfl, rfl, fun _ _ _ _ => rfl⟩
  | succ m ih =>
    obtain ⟨k₁, hcall, hA⟩ := allocPgTable_spec n h (hroom.mono (by omega)) hs.head
    have htop := hA.windowTop
    have hs₁ : k₁.Supplied m := by
      rw [Nat.add_comm] at hs
      exact hs.after hA.pmm fun q => by rw [hA.registered, Pmm.nextFrames]; simp [Pmm.nextFrames]
    have hroom₁ : k₁.Room m := by
      obtain ⟨hlo, hal, hhi⟩ := hroom
      exact ⟨by omega, by omega, by omega⟩
    obtain ⟨k', hrun, hT, hcr3, htop', hpmm, hsame⟩ := ih hA.tables hroom₁ hs₁
    refine ⟨k', ?_, hT, hcr3.trans hA.cr3, by omega, ?_, hA.same.trans hsame⟩
    · rw [List.replicate_succ, List.foldlM_cons, CreateOp.step, hcall]
      exact hrun
    · rw [hpmm, hA.pmm]
      rfl

/-- The state after `vmm_init`, with the pages below `0x140000` taken. -/
def bootReserved : Kernel :=
  { boot with
    pmm := { bootPmm with bitmap := fun i => if i < 10 then 0xffffffffffffffff#64 else 0#64 } }

theorem slotTaken_bootReserved (i : ℕ) : bootReserved.pmm.slotTaken i = decide (i < 320) := by
  have hones : ∀ j < 32, Pmm.taken 0xffffffffffffffff#64 j = true := by decide
  show Pmm.taken (if i / 32 < 10 then 0xffffffffffffffff#64 else 0#64) (i % 32) = _
  by_cases hi : i < 320
  · rw [if_pos (by omega), hones _ (Nat.mod_lt _ (by decide)), decide_eq_true hi]
  · rw [if_neg (by omega), decide_eq_false hi]
    simp [Pmm.taken]

theorem nextFrames_bootReserved :
    bootReserved.pmm.nextFrames 258 = (List.range' 320 258).map Pmm.slotAddr :=
  Pmm.nextFrames_eq (by decide) (fun i hi => by simp [slotTaken_bootReserved, hi])
    fun i hi => by simp [slotTaken_bootReserved, hi]

theorem bootReserved_supplied : bootReserved.Supplied 258 := by
  obtain ⟨L, hL⟩ := (boot_tables (fun _ => Iff.rfl) fun _ => True).lists
  have hlow : ∀ i < boot.map.count, boot.map.ptPaddr i < 0x140000 := by decide +kernel
  have haddr : ∀ i ∈ List.range' 320 258, Pmm.slotAddr i = i * 0x1000 ∧ 320 ≤ i := fun i hi => by
    obtain ⟨hlo, hhi⟩ := List.mem_range'_1.1 hi
    exact ⟨Pmm.slotAddr_of_lt (by omega), hlo⟩
  rw [Supplied, nextFrames_bootReserved]
  refine ⟨List.Nodup.map_on (fun i hi j hj hij => ?_) (List.nodup_range' 1), fun f hf => ?_⟩
  · rw [(haddr i hi).1, (haddr j hj).1] at hij
    omega
  · obtain ⟨i, hi, rfl⟩ := List.mem_map.1 hf
    obtain ⟨he, hlo⟩ := haddr i hi
    refine ⟨by omega, ?_⟩
    rw [Bool.eq_false_iff]
    intro hreg
    obtain ⟨c, hc, hp⟩ := hL.registered_iff.1 hreg
    have := hlow c (hL.home _ c hc).1
    rw [hp] at this
    omega

/-- **The window runs into a block without a table.**  After 249 calls of `alloc_pg_table`, the
next one takes at least nine frames, if it returns at all. -/
theorem window_block_without_table :
    ∃ k, (List.replicate 249 CreateOp.allocPgTable).foldlM (CreateOp.step 2) bootReserved =
        some k ∧ k.windowTop = 0xffffff80003ff000 ∧
      ∀ fuel, ¬ CreateOp.Bounded fuel k .allocPgTable := by
  have hT : bootReserved.Tables (fun r => r = 0x111000) fun _ => True :=
    (boot_tables (fun _ => Iff.rfl) _).with_pmm _
  have hs := bootReserved_supplied
  have hs₁ : bootReserved.Supplied 249 := Supplied.mono (n := 9) hs
  have htop₀ : bootReserved.windowTop = 0xffffff8000306000 := by decide
  obtain ⟨k, hrun, hTk, hcr3, htop, hpmm, hsame⟩ := hT.run_allocPgTable 1 249
    ⟨by rw [htop₀]; decide, by rw [htop₀], by rw [htop₀]; decide⟩ hs₁
  rw [htop₀] at htop
  have hstuck : k.Stuck (fun r => r = 0x111000) 9 := by
    refine ⟨hTk.root, hTk.accessible.registered, hTk.accesses_current, hTk.lists,
      fun j hj => ?_, fun f hf => ?_⟩
    · have hind : tableIndices ((k.windowTop + 0x1000 * (j + 1)) % 2 ^ 64) = [511, 0, 2] := by
        rw [htop]
        interval_cases j <;> decide
      rw [hind, hsame k.cr3 _ hTk.root (by simp), hcr3]
      decide +kernel
    · refine (hs.2 f ?_).1
      rw [show 258 = 249 + 9 from rfl, Pmm.nextFrames_add, ← hpmm]
      exact List.mem_append_right _ hf
  exact ⟨k, hrun, htop, fun fuel => (hstuck.not_bounded fuel).1⟩

end Kernel

end TitanOS
