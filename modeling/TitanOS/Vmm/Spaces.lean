import TitanOS.Lib.Run
import TitanOS.Vmm.Mapping
import TitanOS.Vmm.PointUpdate

/-!
# Address spaces

`create_new_pml4t` copies slot 511 of the current root into a new one and leaves the rest empty.
So all spaces see the same kernel half, through the same tables, and share nothing else.  This
module proves it for every run of `create_vmm`, `switch_vm_space` and `mmap` on the current root.

`Ordered` is the invariant.  The roots are the `pml4t`s of all spaces created so far, and their
tables form a forest in which only walks through slot 511 meet.  All tables are registered at
addresses of the kernel half; that is what keeps them accessible when the space is switched.

Two things are outside of what the code promises.  The tables that a mapping creates appear in the
window of page tables, which all spaces see.  And a mapping over a page at which a table is
accessed (`TableAt`) takes the table out of the kernel's hands.
-/

namespace TitanOS

open Walk Run

/-- The walks through slot 511. -/
def KernelHalf (p : List (Fin 512)) : Prop := p.head? = some 511

theorem KernelHalf.snoc {p : List (Fin 512)} (h : KernelHalf p) (j : Fin 512) :
    KernelHalf (p ++ [j]) := by
  unfold KernelHalf at h ⊢
  rw [List.head?_append, h]
  rfl

theorem kernelHalf_of_getIndex {v : ℕ} (h : getIndex v 3 = 511) :
    indices v = 511 :: [getIndex v 2, getIndex v 1, getIndex v 0] := by
  rw [indices, h]

theorem getIndex_window {w : ℕ} (h : 0xffffff8000300000 ≤ w) (h' : w < 0xffffff8000400000) :
    getIndex w 3 = 511 := by
  have := Kernel.tableIndices_window h h'
  simp only [tableIndices, List.cons.injEq] at this
  exact this.1

/-- All address spaces that have been created, and the kernel they live in. -/
structure Spaces where
  kernel : Kernel
  spaces : List Vmm

/-- The calls of a run. -/
inductive SpaceOp
  | createVmm
  | switchVmSpace (vmm : Vmm)
  | mmap (paddr v flags : ℕ)
  deriving Repr

namespace Spaces

/-- One call.  `mmap` is called on the root of the current space. -/
def step (fuel : ℕ) (s : Spaces) : SpaceOp → Option Spaces
  | .createVmm => (s.kernel.createVmm fuel).map fun x => ⟨x.1, s.spaces ++ [x.2]⟩
  | .switchVmSpace vmm => (s.kernel.switchVmSpace vmm).map fun k => ⟨k, s.spaces⟩
  | .mmap paddr v flags =>
    (Kernel.mmap fuel s.kernel s.kernel.currentPml4tPtr paddr v flags).map fun x => ⟨x.1, s.spaces⟩

/-- The number of tables that mapping the page of `v` in the current space creates. -/
def creates (s : Spaces) (v : ℕ) : ℕ := missing s.kernel.mem s.kernel.cr3 (tableIndices v)

/-- The allocator supplies fresh frames and the window has room in the block mapped at boot, a
space that is switched to has been created, and no table is accessed at a page that is mapped. -/
def Valid (s : Spaces) : SpaceOp → Prop
  | .createVmm => s.kernel.Room 1 ∧ s.kernel.Supplied 1
  | .switchVmSpace vmm => vmm ∈ s.spaces
  | .mmap _ v _ => s.kernel.Room (s.creates v) ∧ s.kernel.Supplied (s.creates v) ∧
      ¬ s.kernel.TableAt v

instance (s : Spaces) : ∀ o, Decidable (s.Valid o)
  | .createVmm => inferInstanceAs (Decidable (_ ∧ _))
  | .switchVmSpace _ => inferInstanceAs (Decidable (_ ∈ _))
  | .mmap _ _ _ => inferInstanceAs (Decidable (_ ∧ _ ∧ _))

/-- `r` is the root of a space. -/
def Root (s : Spaces) (r : ℕ) : Prop := ∃ vmm ∈ s.spaces, vmm.pml4t = r

/-- The invariant. -/
structure Ordered (s : Spaces) : Prop where
  tables : s.kernel.Tables s.Root KernelHalf
  objects : 0 < s.kernel.regions.count
  slot : ∀ r, s.Root r → s.kernel.mem r 511 = s.kernel.mem s.kernel.cr3 511
  high : ∀ t w, Reach (entry s.kernel.mem) s.Root 3 t → s.kernel.map.getPtblVaddr t = some w →
    getIndex w 3 = 511

variable {s : Spaces} {r v : ℕ}

theorem Ordered.present (h : s.Ordered) : s.kernel.mem s.kernel.cr3 511 % 2 = 1 := by
  obtain ⟨tw, htw⟩ := h.tables.window
  rw [follow_cons] at htw
  obtain ⟨t, ht, -⟩ := Option.bind_eq_some_iff.1 htw
  unfold entry at ht
  split at ht
  · assumption
  · cases ht

/-- Walks through slot 511 are the same from all roots. -/
theorem Ordered.follow_kernelHalf (h : s.Ordered) (hr : s.Root r) (p : List (Fin 512)) :
    follow (entry s.kernel.mem) r (511 :: p) =
      follow (entry s.kernel.mem) s.kernel.cr3 (511 :: p) := by
  rw [follow_cons, follow_cons, entry, entry, h.slot r hr]

theorem Ordered.translate_kernelHalf (h : s.Ordered) (hr : s.Root r) (hv : getIndex v 3 = 511) :
    translate s.kernel.mem r v = translate s.kernel.mem s.kernel.cr3 v := by
  rw [translate, translate, kernelHalf_of_getIndex hv]
  exact h.follow_kernelHalf hr _

/-! ### Switching -/

/-- The invariant does not depend on which space is the current one. -/
theorem Ordered.switchVmSpace {vmm : Vmm} (h : s.Ordered) (hvmm : vmm ∈ s.spaces) :
    ∃ k, s.kernel.switchVmSpace vmm = some k ∧ Ordered ⟨k, s.spaces⟩ := by
  have hroot : s.Root vmm.pml4t := ⟨vmm, hvmm, rfl⟩
  obtain ⟨w, hw, -⟩ := h.tables.accessible.of_root hroot
  refine ⟨{ s.kernel with cr3 := vmm.pml4t, currentPml4tPtr := w, currentVmm := vmm.head }, ?_, ?_⟩
  · rw [Kernel.switchVmSpace, hw, Option.map_some]
  · refine ⟨⟨hroot, h.tables.forest, fun t ht => ?_, hw, ?_, h.tables.lists⟩, h.objects,
      fun r hr => ?_, h.high⟩
    · obtain ⟨w, hw, hw0, ⟨hwal, hwt⟩, hwun⟩ := h.tables.accessible t ht
      refine ⟨w, hw, hw0, ⟨hwal, ?_⟩, hwun⟩
      exact (h.translate_kernelHalf hroot (h.high t w ht hw)).trans hwt
    · obtain ⟨tw, htw⟩ := h.tables.window
      exact ⟨tw, (h.follow_kernelHalf hroot _).trans htw⟩
    · exact (h.slot r hr).trans (h.slot _ hroot).symm

/-! ### Mapping -/

/-- **`mmap`** on the current root keeps the invariant.  A mapping in the kernel half is seen in
all spaces, any other only in the current one; other spaces see the new tables in the window. -/
theorem Ordered.mmap {paddr flags : ℕ} (n : ℕ) (h : s.Ordered)
    (hroom : s.kernel.Room (s.creates v)) (hs : s.kernel.Supplied (s.creates v))
    (hv : ¬ s.kernel.TableAt v) :
    ∃ k, Kernel.mmap (n + 2) s.kernel s.kernel.currentPml4tPtr paddr v flags = some (k, true) ∧
      Ordered ⟨k, s.spaces⟩ ∧
      (getIndex v 3 = 511 → ∀ r, s.Root r →
        translate k.mem r v = some (pageAlignDown (paddr ||| flags ||| 7))) ∧
      (getIndex v 3 ≠ 511 → ∀ r v', s.Root r → r ≠ s.kernel.cr3 →
        page v' ≤ page s.kernel.windowTop ∨ page s.kernel.windowTop + s.creates v < page v' →
        translate k.mem r v' = translate s.kernel.mem r v') := by
  obtain ⟨k', t, hT, hcr, ht, hmmap⟩ := @Kernel.mmap_spec s.kernel s.Root KernelHalf s.kernel.cr3 v
    s.kernel.currentPml4tPtr n paddr flags (fun p j hp => hp.snoc j) h.tables h.tables.root
    h.tables.current hroom hs
  change s.kernel.Created k' s.Root (s.creates v) at hcr
  have hred : Redirect (entry k'.mem) (entry (writeEntry k'.mem t (getIndex v 0)
      (paddr ||| flags ||| 7))) t (getIndex v 0) := redirect_writeEntry
  have hsame := hred.same hT.forest h.tables.root rfl ht
  have hT' := hT.writeEntry h.tables.root ht (paddr ||| flags ||| 7)
    fun a w ha hw => Kernel.InOrder.page_ne (h.tables.noTableAt hv) (h.tables.extends hroom)
      hT.inOrder hcr ha hw
  -- slot 511 of a root is present, so it is not written
  have hslot : ∀ r, s.Root r → writeEntry k'.mem t (getIndex v 0) (paddr ||| flags ||| 7) r 511 =
      s.kernel.mem r 511 := by
    intro r hr
    have hrt : r ≠ t := by
      rintro rfl
      obtain ⟨hp, -⟩ := hT.forest r s.kernel.cr3 [] _ r hr h.tables.root (by simp)
        (by simp [tableIndices]) rfl ht
      cases hp
    rw [← hcr.upper r 511 (reach_root hr) (by simp [entry, h.slot r hr, h.present])]
    simp [writeEntry, Function.update_of_ne hrt]
  have hord : Ordered ⟨{ k' with
      mem := writeEntry k'.mem t (getIndex v 0) (paddr ||| flags ||| 7) }, s.spaces⟩ := by
    refine ⟨hT', ?_, fun r hr => ?_, fun a w ha hw => ?_⟩
    · have := (Kernel.keeps_mmap _ hmmap).count
      exact this ▸ h.objects
    · show writeEntry _ _ _ _ r 511 = writeEntry _ _ _ _ k'.cr3 511
      rw [hslot r hr, hcr.cr3, hslot _ h.tables.root, h.slot r hr]
    · have ha' := hsame.reach_iff.1 ha
      obtain ⟨w', hw', hw0, -⟩ := hT.accessible a ha'
      obtain rfl : w = w' := Option.some.inj (hw.symm.trans hw')
      rcases hcr.getPtblVaddr a with hold | ⟨w', hwin, hlo, hhi⟩
      · rcases hcr.reach a ha' with hre | hnew
        · exact h.high a w hre (hold.symm.trans hw')
        · obtain ⟨L, hL⟩ := h.tables.lists
          rw [hold, hL.getPtblVaddr_of_not (hs.2 a hnew).2, Option.some.injEq] at hw'
          exact absurd hw'.symm hw0
      · obtain rfl : w = w' := Option.some.inj (hw'.symm.trans hwin)
        obtain ⟨hlow, -, hhigh⟩ := hroom
        exact getIndex_window (by omega) (by omega)
  refine ⟨_, hmmap, hord, fun hv3 r hr => ?_, fun hv3 r v' hr hne hpage => ?_⟩
  · have hself := hred.follow_self hT.forest h.tables.root rfl ht
    rw [hord.translate_kernelHalf hr hv3]
    show translate _ k'.cr3 v = _
    rw [hcr.cr3, translate, indices_eq, hself, entry_writeEntry_self,
      if_pos (lor_seven_mod_two _)]
  · rw [← hcr.translate r v' hr hpage]
    -- the last table is reached from the current root only
    refine follow_congr fun p₁ j p₂ hsplit a ha => entry_writeEntry_of_ne ?_
    rintro rfl -
    have hlen : p₁.length ≤ 3 := by
      have := congrArg List.length hsplit
      simp [indices] at this
      omega
    obtain ⟨hp, hor⟩ := hT.forest r s.kernel.cr3 p₁ _ a hr h.tables.root hlen
      (by simp [tableIndices]) ha ht
    rcases hor with hor | hor
    · exact hne hor
    · rw [hp] at hor
      exact hv3 (by simpa [KernelHalf, tableIndices] using hor)

/-! ### Creating a space -/

theorem root_append (k : Kernel) (l : List Vmm) (vmm : Vmm) :
    Root ⟨k, l ++ [vmm]⟩ = fun r => Root ⟨k, l⟩ r ∨ r = vmm.pml4t := by
  funext r
  simp only [Root, List.mem_append, List.mem_singleton, or_and_right, exists_or, exists_eq_left]
  rw [@eq_comm _ r]

end Spaces

namespace Kernel

section Create

variable {k k₁ : Kernel} {R : ℕ → Prop} {C : List (Fin 512) → Prop} {f : ℕ}

/-- The state after `create_vmm` has filled the new root `f`. -/
def withRoot (k : Kernel) (f : ℕ) : Kernel :=
  { k with
    mem := writeEntry k.mem f 511 (k.mem k.cr3 511)
    regions := newRegion k.regions 0 0 1 (some kernelTextObj) }

theorem createVmm_eq {w : ℕ} (n : ℕ) (halloc : k.allocPgTable (mmap n) = some (k₁, f))
    (hroot : k₁.Accesses k₁.currentPml4tPtr k₁.cr3) (hget : k₁.map.getPtblVaddr f = some w)
    (hw : k₁.Accesses w f) :
    k.createVmm n = some (k₁.withRoot f, ⟨k₁.regions.count, f⟩) := by
  have hload := hroot.load 511
  have hstore := hw.store 511 (k₁.mem k₁.cr3 511)
  simp only [createVmm, createNewPml4t, halloc, Option.bind_eq_bind, Option.bind_some, hget]
  rw [show k₁.currentPml4tPtr + 8 * 511 = k₁.currentPml4tPtr + 8 * (511 : Fin 512).val from rfl,
    hload, Option.bind_some,
    show w + 8 * 511 = w + 8 * (511 : Fin 512).val from rfl, hstore]
  rfl

theorem windowTop_withRoot (hcount : 0 < k.regions.count) :
    (k.withRoot f).windowTop = k.windowTop := by
  have h0 : kernelPageTblsObj ≠ k.regions.count := hcount.ne
  simp [withRoot, windowTop, newRegion, Function.update_of_ne h0]

theorem share_withRoot (hempty : ∀ j, k.mem f j = 0) :
    Share (entry k.mem) (entry (k.withRoot f).mem) k.cr3 511 f := by
  refine ⟨?_, fun j hj => ?_, fun b j hb => ?_⟩
  · rw [withRoot, entry_writeEntry_self]
    rfl
  · rw [withRoot, entry_writeEntry_of_ne fun _ => hj]
    simp [entry, hempty]
  · exact entry_writeEntry_of_ne fun he => absurd he hb

/-- The new root joins the forest. -/
theorem withRoot_tables (hA : k.Allocated k₁ R KernelHalf f) (hcount : 0 < k₁.regions.count) :
    (k₁.withRoot f).Tables (fun r => R r ∨ r = f) KernelHalf := by
  have hT := hA.tables
  have hshare := share_withRoot hA.empty
  have hsame := hshare.same hA.unreached
  have hacc : ∀ {w t}, k₁.Accesses w t → (k₁.withRoot f).Accesses w t := by
    rintro w t ⟨hwal, hwt⟩
    exact ⟨hwal, (hsame k₁.cr3 _ hT.root (by simp [indices])).trans hwt⟩
  refine ⟨Or.inl hT.root, hshare.forest hA.unreached hT.root (fun _ hp => hp) hT.forest,
    fun t ht => ?_, hT.current, ?_, hT.lists⟩
  · rcases hshare.reach_cases hA.unreached hT.root ht with ht | rfl
    · obtain ⟨w, hw, hw0, hwt, hwun⟩ := hT.accessible t ht
      refine ⟨w, hw, hw0, hacc hwt, ?_⟩
      rw [Unused, windowTop_withRoot hcount]
      exact hwun
    · refine ⟨k₁.windowTop, hA.getPtblVaddr, ?_, hacc hA.accesses, ?_⟩
      · have := hA.windowTop
        omega
      · rw [Unused, windowTop_withRoot hcount]
        exact fun hun => hun.1.false
  · obtain ⟨tw, htw⟩ := hT.window
    exact ⟨tw, (hsame k₁.cr3 _ hT.root (by simp)).trans htw⟩

/-- Slot 511 of the old roots is kept, and the new one has the same. -/
theorem withRoot_slot (hA : k.Allocated k₁ R C f) {r : ℕ} (hr : R r ∨ r = f) :
    (k₁.withRoot f).mem r 511 = if r = f then k.mem k.cr3 511 else k.mem r 511 := by
  split_ifs with hrf
  · subst hrf
    rw [← hA.upper _ 511 (hA.cr3 ▸ reach_root hA.tables.root), ← hA.cr3]
    simp [withRoot, writeEntry]
  · rw [← hA.upper r 511 (reach_root (hr.resolve_right hrf))]
    simp [withRoot, writeEntry, Function.update_of_ne hrf]

end Create

end Kernel

namespace Spaces

variable {s : Spaces} {v : ℕ}

/-- **`create_vmm`** adds a root that shares slot 511. -/
theorem Ordered.createVmm (n : ℕ) (h : s.Ordered) (hroom : s.kernel.Room 1)
    (hs : s.kernel.Supplied 1) :
    ∃ k vmm, s.kernel.createVmm (n + 1) = some (k, vmm) ∧ Ordered ⟨k, s.spaces ++ [vmm]⟩ := by
  obtain ⟨k₁, halloc, hA⟩ := Kernel.allocPgTable_spec n h.tables hroom hs
  generalize s.kernel.pmm.pmmAllocPage.2 = f at halloc hA
  have hcount : 0 < k₁.regions.count := by
    have hkeep := Kernel.keeps_allocPgTable (n + 1) halloc
    rw [hkeep.count]
    exact h.objects
  have hroot := root_append (k₁.withRoot f) s.spaces ⟨k₁.regions.count, f⟩
  change _ = fun r => s.Root r ∨ r = f at hroot
  have hcr3 : s.Root k₁.cr3 ∧ k₁.cr3 ≠ f :=
    ⟨hA.tables.root, fun he => hA.unreached (he ▸ reach_root hA.tables.root)⟩
  refine ⟨_, _, Kernel.createVmm_eq _ halloc hA.tables.accesses_current hA.getPtblVaddr hA.accesses,
    ?_, Nat.succ_pos _, fun r hr => ?_, fun t w ht hw => ?_⟩
  · rw [hroot]
    exact Kernel.withRoot_tables hA hcount
  · rw [hroot] at hr
    have hcur := Kernel.withRoot_slot hA (Or.inl hcr3.1)
    rw [if_neg hcr3.2, hA.cr3] at hcur
    show (k₁.withRoot f).mem r 511 = (k₁.withRoot f).mem k₁.cr3 511
    rw [Kernel.withRoot_slot hA hr, hA.cr3, hcur]
    split_ifs with hrf
    · rfl
    · exact h.slot r (hr.resolve_right hrf)
  · change k₁.map.getPtblVaddr t = some w at hw
    rw [hroot] at ht
    rcases (Kernel.share_withRoot hA.empty).reach_cases hA.unreached hA.tables.root ht
      with hre | hnew
    · have hne : t ≠ f := fun he => hA.unreached (he ▸ hre)
      rw [hA.getPtblVaddr_of_ne t hne] at hw
      exact h.high t w (hA.same.reach_iff.1 hre) hw
    · subst hnew
      obtain rfl : k₁.windowTop = w := Option.some.inj (hA.getPtblVaddr.symm.trans hw)
      rw [hA.windowTop]
      exact getIndex_window (by have := hroom.1; omega) (by have := hroom.2.2; omega)

/-! ### Runs -/

/-- All spaces have the same present entry in slot 511 and translate the kernel half alike, and
two roots have only tables below slot 511 in common. -/
def Agree (s : Spaces) : Prop :=
  ∀ a ∈ s.spaces, ∀ b ∈ s.spaces,
    s.kernel.mem a.pml4t 511 % 2 = 1 ∧ s.kernel.mem b.pml4t 511 = s.kernel.mem a.pml4t 511 ∧
    (∀ v, getIndex v 3 = 511 →
      translate s.kernel.mem b.pml4t v = translate s.kernel.mem a.pml4t v) ∧
    (a.pml4t ≠ b.pml4t → ∀ p q t, p.length ≤ 3 → q.length ≤ 3 →
      follow (entry s.kernel.mem) a.pml4t p = some t →
      follow (entry s.kernel.mem) b.pml4t q = some t → KernelHalf p ∧ KernelHalf q)

/-- The call returns.  A mapping in the kernel half is seen in all spaces; any other leaves the
translations of the other spaces as they are, apart from the pages of the window at which the
created tables are mapped. -/
def Isolated (fuel : ℕ) (s : Spaces) (o : SpaceOp) : Prop :=
  ∃ s', s.step fuel o = some s' ∧
    match o with
    | .mmap paddr v flags =>
      (getIndex v 3 = 511 → ∀ a ∈ s.spaces,
        translate s'.kernel.mem a.pml4t v = some (pageAlignDown (paddr ||| flags ||| 7))) ∧
      (getIndex v 3 ≠ 511 → ∀ a ∈ s.spaces, a.pml4t ≠ s.kernel.cr3 → ∀ v', Canonical v' →
        (∀ j < s.creates v, v' / 0x1000 ≠ s.kernel.windowTop / 0x1000 + (j + 1)) →
        translate s'.kernel.mem a.pml4t v' = translate s.kernel.mem a.pml4t v')
    | _ => True

theorem Ordered.agree (h : s.Ordered) : s.Agree := by
  intro a ha b hb
  have hra : s.Root a.pml4t := ⟨a, ha, rfl⟩
  have hrb : s.Root b.pml4t := ⟨b, hb, rfl⟩
  refine ⟨?_, ?_, fun v hv => ?_, fun hne p q t hp hq hpt hqt => ?_⟩
  · rw [h.slot _ hra]
    exact h.present
  · rw [h.slot _ hra, h.slot _ hrb]
  · rw [h.translate_kernelHalf hra hv, h.translate_kernelHalf hrb hv]
  · obtain ⟨rfl, hor⟩ := h.tables.forest a.pml4t b.pml4t p q t hra hrb hp hq hpt hqt
    have hp := hor.resolve_left hne
    exact ⟨hp, hp⟩

/-- One call keeps the invariant. -/
theorem Ordered.step (n : ℕ) (h : s.Ordered) {o : SpaceOp} (hv : s.Valid o) :
    s.Isolated (n + 2) o ∧ ∀ s', s.step (n + 2) o = some s' → s'.Ordered := by
  cases o with
  | createVmm =>
    obtain ⟨k, vmm, hcall, hord⟩ := h.createVmm (n + 1) hv.1 hv.2
    have hstep : s.step (n + 2) .createVmm = some ⟨k, s.spaces ++ [vmm]⟩ := by
      rw [Spaces.step, hcall, Option.map_some]
    exact ⟨⟨_, hstep, trivial⟩, fun s' hs' => Option.some.inj (hstep.symm.trans hs') ▸ hord⟩
  | switchVmSpace vmm =>
    obtain ⟨k, hcall, hord⟩ := h.switchVmSpace hv
    have hstep : s.step (n + 2) (.switchVmSpace vmm) = some ⟨k, s.spaces⟩ := by
      rw [Spaces.step, hcall, Option.map_some]
    exact ⟨⟨_, hstep, trivial⟩, fun s' hs' => Option.some.inj (hstep.symm.trans hs') ▸ hord⟩
  | mmap paddr v flags =>
    obtain ⟨hroom, hs, hat⟩ := hv
    obtain ⟨k, hcall, hord, hkernel, hother⟩ := @Ordered.mmap s v paddr flags n h hroom hs hat
    have hstep : s.step (n + 2) (.mmap paddr v flags) = some ⟨k, s.spaces⟩ := by
      rw [Spaces.step, hcall, Option.map_some]
    refine ⟨⟨_, hstep, fun hv3 a ha => hkernel hv3 _ ⟨a, ha, rfl⟩,
      fun hv3 a ha hne v' hv' hout => ?_⟩,
      fun s' hs' => Option.some.inj (hstep.symm.trans hs') ▸ hord⟩
    exact hother hv3 _ v' ⟨a, ha, rfl⟩ hne (Kernel.page_outside_window hroom hv' hout)

/-- **Address spaces agree on the kernel half and are isolated elsewhere.**  The start is a state
with one space, whose tables are in order and registered in the kernel half. -/
theorem spaces_isolated (k : Kernel) (vmm : Vmm) (n : ℕ) (ops : List SpaceOp)
    (h : k.Tables (fun r => r = k.cr3) KernelHalf) (hvmm : vmm.pml4t = k.cr3)
    (hcount : 0 < k.regions.count)
    (hhigh : ∀ t w, Reach (entry k.mem) (fun r => r = k.cr3) 3 t →
      k.map.getPtblVaddr t = some w → getIndex w 3 = 511)
    (hops : Along (step (n + 2)) Valid ⟨k, [vmm]⟩ ops) :
    Always (step (n + 2)) Agree ⟨k, [vmm]⟩ ops ∧
      Along (step (n + 2)) (Isolated (n + 2)) ⟨k, [vmm]⟩ ops := by
  have hroot : Root ⟨k, [vmm]⟩ = fun r => r = k.cr3 := by
    funext r
    simp [Root, hvmm, eq_comm]
  have hord : Ordered ⟨k, [vmm]⟩ := by
    refine ⟨hroot ▸ h, hcount, fun r hr => ?_, hroot ▸ hhigh⟩
    rw [hroot] at hr
    rw [hr]
  constructor
  · exact Always.of_inv (fun s => Ordered.agree) (fun s o s' hs hv => (hs.step n hv).2 s') hord hops
  · exact Along.of_inv (fun s o hs hv => hs.step n hv) hord hops

/-- The boot space, a second one, a mapping in the first and one of the kernel half made in the
second. -/
theorem spaces_isolated_boot :
    Along (step 2) Valid ⟨boot, [⟨4, 0x111000⟩]⟩ [.createVmm, .mmap 0x500000 0x8000000000 0,
      .switchVmSpace ⟨5, 0x40000⟩, .mmap 0x700000 0xffffff8000100000 0] ∧
    Always (step 2) Agree ⟨boot, [⟨4, 0x111000⟩]⟩ [.createVmm, .mmap 0x500000 0x8000000000 0,
      .switchVmSpace ⟨5, 0x40000⟩, .mmap 0x700000 0xffffff8000100000 0] ∧
    Along (step 2) (Isolated 2) ⟨boot, [⟨4, 0x111000⟩]⟩ [.createVmm,
      .mmap 0x500000 0x8000000000 0, .switchVmSpace ⟨5, 0x40000⟩,
      .mmap 0x700000 0xffffff8000100000 0] := by
  have hvalid : Along (step 2) Valid ⟨boot, [⟨4, 0x111000⟩]⟩ [.createVmm,
      .mmap 0x500000 0x8000000000 0, .switchVmSpace ⟨5, 0x40000⟩,
      .mmap 0x700000 0xffffff8000100000 0] := by
    decide +kernel
  refine ⟨hvalid, spaces_isolated boot ⟨4, 0x111000⟩ 0 _ (Kernel.boot_tables (fun r => Iff.rfl) _)
    rfl (by decide) ?_ hvalid⟩
  rintro t w ⟨r, p, rfl, hp, ht⟩ hw
  have hall : ∀ x ∈ explore bootMem 3 0x111000, ∀ w ∈ boot.map.getPtblVaddr x.2,
      getIndex w 3 = 511 := by
    rw [explore_boot]
    decide +kernel
  exact hall _ (mem_explore ht hp) w hw

/-- Mapping `0x8000000000` in the boot space changes a translation in the other space, that of the
page of the window at which a new table is mapped.  And when tables are mapped over, a new space
gets another kernel half. -/
theorem window_page_changes :
    (∃ s ∈ step 2 ⟨boot, [⟨4, 0x111000⟩]⟩ .createVmm,
      (⟨5, 0x40000⟩ : Vmm) ∈ s.spaces ∧ s.kernel.cr3 = 0x111000 ∧
      s.kernel.Room (s.creates 0x8000000000) ∧ s.kernel.Supplied (s.creates 0x8000000000) ∧
      getIndex 0x8000000000 3 ≠ 511 ∧
      translate s.kernel.mem 0x40000 0xffffff8000308000 = none ∧
      ∃ s' ∈ s.step 2 (.mmap 0x500000 0x8000000000 0),
        translate s'.kernel.mem 0x40000 0xffffff8000308000 = some 0x41000) ∧
    ∃ s ∈ step 2 ⟨boot, [⟨4, 0x111000⟩]⟩ (.mmap 0x112000 0xffffff80003ff000 16),
      ∃ s' ∈ s.step 2 (.mmap 0x118000 0xffffff8000010000 0), s'.kernel.Room 1 ∧
        s'.kernel.Supplied 1 ∧ ∃ s'' ∈ s'.step 2 .createVmm,
          s''.spaces = [⟨4, 0x111000⟩, ⟨5, 0x40000⟩] ∧ s''.kernel.mem 0x111000 511 = 0x112007 ∧
          s''.kernel.mem 0x40000 511 = 0x112017 := by
  decide +kernel

end Spaces

end TitanOS
