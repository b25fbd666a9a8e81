import TitanOS.Vmm.Model

/-!
# What `mmap` leaves alone

From any state, in order or not, a call of `mmap` or `alloc_pg_table` is a sequence of a few kinds
of assignments (`Step`).  Whatever these keep is kept by the calls.

They do not switch the address space, and they leave the region lists as they are: of the regions
they change only the length of `kernel_page_tbls_obj`.  They also never give a page back to the
physical allocator (`Keeps`).
-/

namespace TitanOS

namespace Pmm

/-- Every slot that is marked in `m` is marked in `m'`. -/
def Le (m m' : Pmm) : Prop := ∀ n, m.slotTaken n = true → m'.slotTaken n = true

theorem le_pmmAllocPage (m : Pmm) : m.Le m.pmmAllocPage.1 := by
  intro n hn
  rw [pmmAllocPage_eq]
  cases m.firstFree with
  | none => exact hn
  | some k => simp [hn]

theorem le_pmmAllocSpecificPage (m : Pmm) (p : ℕ) : m.Le (m.pmmAllocSpecificPage p).1 := by
  intro n hn
  rw [slotTaken_pmmAllocSpecificPage, hn, Bool.true_or]

end Pmm

namespace Kernel

/-- The assignments of `mmap`, `alloc_pg_table` and the loops that call them. -/
inductive Step : Kernel → Kernel → Prop
  | mem (k : Kernel) (mem : ℕ → Fin 512 → ℕ) : Step k { k with mem := mem }
  | insert (k : Kernel) {node : ℕ} {r : Hashmap × Bool} (h : k.map.pgTblInsert node = some r) :
    Step k { k with map := r.1 }
  | table (k : Kernel) (hfree : k.map.getFreedPgTbl = none) (hpage : k.pmm.pmmAllocPage.2 ≠ 0) :
    Step k (k.newTable k.pmm.pmmAllocPage.1 k.pmm.pmmAllocPage.2)
  | noTable (k : Kernel) :
    Step k { k with pmm := k.pmm.pmmAllocPage.1, map := k.map.newNode 0 0 }
  | frame (k : Kernel) : Step k { k with pmm := k.pmm.pmmAllocPage.1 }
  | specificFrame (k : Kernel) (p : ℕ) :
    Step k { k with pmm := (k.pmm.pmmAllocSpecificPage p).1 }

/-- Any number of assignments. -/
def Steps : Kernel → Kernel → Prop := Relation.ReflTransGen Step

variable {k k' : Kernel}

theorem Steps.refl (k : Kernel) : k.Steps k := Relation.ReflTransGen.refl

theorem Steps.trans {k₁ k₂ : Kernel} (h : k.Steps k₁) (h' : k₁.Steps k₂) : k.Steps k₂ :=
  Relation.ReflTransGen.trans h h'

theorem Step.steps (h : k.Step k') : k.Steps k' := Relation.ReflTransGen.single h

theorem steps_store {v e : ℕ} (h : k.store v e = some k') : k.Steps k' := by
  obtain ⟨f, -, rfl⟩ := Option.map_eq_some_iff.1 h
  exact (Step.mem k _).steps

theorem steps_registerTable {node t : ℕ} (h : k.registerTable node = some (k', t)) :
    k.Steps k' := by
  unfold registerTable clearPage at h
  simp only [Option.bind_eq_bind, Option.bind_eq_some_iff, Option.map_eq_some_iff,
    Option.some.injEq, Prod.mk.injEq] at h
  obtain ⟨_, ⟨f, -, rfl⟩, r, hr, rfl, -⟩ := h
  exact (Step.mem k (Function.update k.mem f fun _ => 0)).steps.trans (Step.insert _ hr).steps

/-- `alloc_pg_table` takes steps if the function it calls back does. -/
theorem steps_allocPgTable {mmap : Kernel → ℕ → ℕ → ℕ → ℕ → Option (Kernel × Bool)} {t : ℕ}
    (hmmap : ∀ k root paddr v flags k' b, mmap k root paddr v flags = some (k', b) → k.Steps k')
    (h : k.allocPgTable mmap = some (k', t)) : k.Steps k' := by
  unfold allocPgTable at h
  split at h
  · exact steps_registerTable h
  · rename_i hfree
    simp only at h
    split at h
    · simp only [Option.some.injEq, Prod.mk.injEq] at h
      rw [← h.1]
      exact (Step.noTable k).steps
    · rename_i hpage
      have hnew := (Step.table k hfree hpage).steps
      split at h
      · cases h
      · rename_i k₁ hcall
        simp only [Option.some.injEq, Prod.mk.injEq] at h
        rw [← h.1]
        exact hnew.trans (hmmap _ _ _ _ _ _ _ hcall)
      · rename_i k₁ hcall
        exact (hnew.trans (hmmap _ _ _ _ _ _ _ hcall)).trans (steps_registerTable h)

theorem steps_descend {alloc : Kernel → Option (Kernel × ℕ)} {v : ℕ}
    (halloc : ∀ k k' t, alloc k = some (k', t) → k.Steps k') (ls : List ℕ) {pt : ℕ}
    {r : Option ℕ} (h : descend alloc v ls k pt = some (k', r)) : k.Steps k' := by
  induction ls generalizing k pt with
  | nil =>
    simp only [descend, Option.some.injEq, Prod.mk.injEq] at h
    rw [← h.1]
    exact .refl k
  | cons l ls ih =>
    simp only [descend, Option.bind_eq_bind, Option.bind_eq_some_iff] at h
    obtain ⟨e, -, h⟩ := h
    split at h
    · obtain ⟨w, -, h⟩ := Option.bind_eq_some_iff.1 h
      split at h
      · simp only [Option.some.injEq, Prod.mk.injEq] at h
        rw [← h.1]
        exact .refl k
      · exact ih h
    · obtain ⟨⟨k₁, t⟩, hal, h⟩ := Option.bind_eq_some_iff.1 h
      obtain ⟨k₂, hst, h⟩ := Option.bind_eq_some_iff.1 h
      obtain ⟨w, -, h⟩ := Option.bind_eq_some_iff.1 h
      exact ((halloc k k₁ t hal).trans (steps_store hst)).trans (ih h)

/-- **The steps of `mmap`.** -/
theorem steps_mmap (n : ℕ) {root paddr v flags : ℕ} {b : Bool}
    (h : mmap n k root paddr v flags = some (k', b)) : k.Steps k' := by
  induction n generalizing k k' root paddr v flags b with
  | zero => cases h
  | succ n ih =>
    have halloc : ∀ k k' t, allocPgTable (mmap n) k = some (k', t) → k.Steps k' :=
      fun k k' t hal => steps_allocPgTable (fun _ _ _ _ _ _ _ hcall => ih hcall) hal
    rw [mmap] at h
    obtain ⟨⟨k₁, r⟩, hdesc, h⟩ := Option.bind_eq_some_iff.1 h
    have hk₁ := steps_descend halloc _ hdesc
    cases r with
    | none =>
      simp only [Option.some.injEq, Prod.mk.injEq] at h
      rw [← h.1]
      exact hk₁
    | some pt =>
      obtain ⟨k₂, hst, h⟩ := Option.bind_eq_some_iff.1 h
      simp only [Option.some.injEq, Prod.mk.injEq] at h
      rw [← h.1]
      exact hk₁.trans (steps_store hst)

/-! ### What the steps keep -/

/-- The address space is the same, the regions are the same up to the length of
`kernel_page_tbls_obj`, and no page has been released. -/
structure Keeps (k k' : Kernel) : Prop where
  cr3 : k'.cr3 = k.cr3
  currentPml4tPtr : k'.currentPml4tPtr = k.currentPml4tPtr
  currentVmm : k'.currentVmm = k.currentVmm
  base : k'.regions.base = k.regions.base
  length : ∀ c, c ≠ kernelPageTblsObj → k'.regions.length c = k.regions.length c
  flags : k'.regions.flags = k.regions.flags
  next : k'.regions.next = k.regions.next
  count : k'.regions.count = k.regions.count
  taken : k.pmm.Le k'.pmm

theorem Keeps.refl (k : Kernel) : k.Keeps k :=
  ⟨rfl, rfl, rfl, rfl, fun _ _ => rfl, rfl, rfl, rfl, fun _ h => h⟩

theorem Keeps.trans {k₁ k₂ : Kernel} (h : k.Keeps k₁) (h' : k₁.Keeps k₂) : k.Keeps k₂ where
  cr3 := h'.cr3.trans h.cr3
  currentPml4tPtr := h'.currentPml4tPtr.trans h.currentPml4tPtr
  currentVmm := h'.currentVmm.trans h.currentVmm
  base := h'.base.trans h.base
  length c hc := (h'.length c hc).trans (h.length c hc)
  flags := h'.flags.trans h.flags
  next := h'.next.trans h.next
  count := h'.count.trans h.count
  taken n hn := h'.taken n (h.taken n hn)

/-- Memory, the map of the tables and the marks of the allocator are not kept. -/
theorem keeps_with (k : Kernel) (mem : ℕ → Fin 512 → ℕ) (map : Hashmap) {pmm : Pmm}
    (h : k.pmm.Le pmm) : k.Keeps { k with mem := mem, map := map, pmm := pmm } :=
  ⟨rfl, rfl, rfl, rfl, fun _ _ => rfl, rfl, rfl, rfl, h⟩

theorem Step.keeps (h : k.Step k') : k.Keeps k' := by
  cases h with
  | mem mem => exact keeps_with k mem k.map fun _ hn => hn
  | insert h => exact keeps_with k k.mem _ fun _ hn => hn
  | table hfree hpage =>
    exact ⟨rfl, rfl, rfl, rfl, fun _ hc => Function.update_of_ne hc _ _, rfl, rfl, rfl,
      k.pmm.le_pmmAllocPage⟩
  | noTable => exact keeps_with k k.mem _ k.pmm.le_pmmAllocPage
  | frame => exact keeps_with k k.mem k.map k.pmm.le_pmmAllocPage
  | specificFrame p => exact keeps_with k k.mem k.map (k.pmm.le_pmmAllocSpecificPage p)

theorem Steps.keeps (h : k.Steps k') : k.Keeps k' := by
  induction h with
  | refl => exact .refl k
  | tail _ hstep ih => exact ih.trans hstep.keeps

/-- **The frame of `mmap`.** -/
theorem keeps_mmap (n : ℕ) {root paddr v flags : ℕ} {b : Bool}
    (h : mmap n k root paddr v flags = some (k', b)) : k.Keeps k' := (steps_mmap n h).keeps

theorem keeps_allocPgTable (n : ℕ) {t : ℕ} (h : k.allocPgTable (mmap n) = some (k', t)) :
    k.Keeps k' := (steps_allocPgTable (fun _ _ _ _ _ _ _ => steps_mmap n) h).keeps

end Kernel

end TitanOS
