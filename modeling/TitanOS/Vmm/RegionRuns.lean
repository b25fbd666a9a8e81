import TitanOS.Vmm.Regions

/-!
# Runs of `vmm_alloc`, `vmm_lengthen` and `vmm_free`

When the answer of `vmm_alloc` is right, and which runs keep the regions disjoint.
-/

namespace TitanOS

open Walk Linked Run

namespace Kernel

/-- The calls of a run. -/
inductive RegionOp
  | alloc (start length flags args : ℕ)
  | lengthen (start : ℕ) (inc : ℤ)
  | free (start : ℕ)
  deriving Repr

/-- One call. -/
def regionStep (fuel : ℕ) (k : Kernel) : RegionOp → Option Kernel
  | .alloc start length flags args => (vmmAlloc fuel k start length flags args).map Prod.fst
  | .lengthen start inc => (vmmLengthen fuel k start inc).map Prod.fst
  | .free start => k.vmmFree start

/-- A request that is granted meets no region and ends below the window of page tables; an
increment does not overflow an `int`, and the region it is for can grow; a region that is freed
exists. -/
def Harmless (k : Kernel) : RegionOp → Prop
  | .alloc start length _ _ => 0x1000 ≤ start ∧ start + length < 2 ^ 64 ∧
      (k.Caught (pageAlignDown start) (pageAlign length) ∨
        ∀ c ∈ k.vmObjects, ¬ k.Meets (pageAlignDown start) (pageAlign length) c) ∧
      (kernelPageTblsObj ∈ k.vmObjects →
        pageAlignDown start + pageAlign length ≤ k.regions.base kernelPageTblsObj)
  | .lengthen start inc => 0 < inc ∧ inc ≤ 0x7ffff000 ∧ k.Growable start (pageAlign inc.toNat)
  | .free start => ∃ c ∈ k.vmObjects, k.regions.base c = start

instance (k : Kernel) (start m : ℕ) : Decidable (k.Growable start m) :=
  inferInstanceAs (Decidable (∀ c ∈ _, _))

instance (k : Kernel) : ∀ o, Decidable (k.Harmless o)
  | .alloc _ _ _ _ => inferInstanceAs (Decidable (_ ∧ _))
  | .lengthen _ _ => inferInstanceAs (Decidable (_ ∧ _))
  | .free _ => inferInstanceAs (Decidable (∃ c ∈ _, _))

instance (k : Kernel) : Decidable k.RegionsDisjoint :=
  inferInstanceAs (Decidable (List.Pairwise _ _))

instance Backable.decidable (fuel flags : ℕ) :
    ∀ n k v args, Decidable (Backable fuel flags n k v args)
  | 0, _, _, _ => .isTrue trivial
  | n + 1, k, v, args =>
    let k₁ := (k.takeFrame args).1
    have : Decidable (∀ k₂, mmap fuel k₁ k₁.currentPml4tPtr (k.takeFrame args).2 v flags =
        some (k₂, true) → Backable fuel flags n k₂ ((v + 0x1000) % 2 ^ 64)
          (if args ≠ 0 then (args + 0x1000) % 2 ^ 64 else 0)) :=
      match h : mmap fuel k₁ k₁.currentPml4tPtr (k.takeFrame args).2 v flags with
      | some (k₂, true) =>
        have := Backable.decidable fuel flags n k₂ ((v + 0x1000) % 2 ^ 64)
          (if args ≠ 0 then (args + 0x1000) % 2 ^ 64 else 0)
        decidable_of_iff (Backable fuel flags n k₂ ((v + 0x1000) % 2 ^ 64)
          (if args ≠ 0 then (args + 0x1000) % 2 ^ 64 else 0)) (by simp)
      | some (_, false) => .isTrue (by simp)
      | none => .isTrue (by simp)
    inferInstanceAs (Decidable (_ ∧ _ ∧ _ ∧ _))

instance (fuel : ℕ) (k : Kernel) (start length flags args : ℕ) :
    Decidable (Backed fuel k start length flags args) := inferInstanceAs (Decidable (∀ c ∈ _, _))

variable {k k' : Kernel}

/-- One call keeps the regions disjoint. -/
theorem Separate.regionStep {fuel : ℕ} {o : RegionOp} (h : k.Separate k.vmObjects)
    (ho : k.Harmless o) (hstep : k.regionStep fuel o = some k') : k'.Separate k'.vmObjects := by
  have hself : ∀ l, k'.Separate l → k'.Separate k'.vmObjects :=
    fun l hl => hl.vmObjects_eq ▸ hl
  cases o with
  | alloc start length flags args =>
    obtain ⟨⟨k₁, p⟩, hcall, rfl⟩ := Option.map_eq_some_iff.1 hstep
    obtain ⟨hstart, -, hreq, hwin⟩ := ho
    obtain ⟨l, hl⟩ := h.vmmAlloc hstart hreq hwin hcall
    exact hself l hl
  | lengthen start inc =>
    obtain ⟨⟨k₁, b⟩, hcall, rfl⟩ := Option.map_eq_some_iff.1 hstep
    exact hself _ (h.vmmLengthen ho.1 ho.2.1 ho.2.2 hcall)
  | free start =>
    obtain ⟨l, hl⟩ := h.vmmFree hstep
    exact hself l hl

/-- The page-rounded length of a request. -/
theorem pageAlign_eq_zero_iff {start length : ℕ} (hstart : 0x1000 ≤ start)
    (hwrap : start + length < 2 ^ 64) : pageAlign length = 0 ↔ length = 0 := by
  unfold pageAlign
  omega

/-- **Regions.**  `vmm_alloc` answers null exactly for the requests that meet a region if and only
if a non-empty request is caught, or a request that is not caught meets no region.  And in a run of
harmless calls the regions stay disjoint. -/
theorem vmm_alloc_regions (k : Kernel) (m : ℕ) :
    (∀ start length flags args, k.Listed k.vmObjects →
      k.Tables (fun r => r = k.cr3) (fun _ => False) → 0x1000 ≤ start →
      start + length < 2 ^ 64 → Backed (m + 2) k start length flags args →
      ∃ k' p, vmmAlloc (m + 2) k start length flags args = some (k', p) ∧
        ((p = 0 ↔ ∃ c ∈ k.vmObjects, k.Meets (pageAlignDown start) (pageAlign length) c) ↔
          (length ≠ 0 ∧ k.Caught (pageAlignDown start) (pageAlign length)) ∨
          (¬ k.Caught (pageAlignDown start) (pageAlign length) ∧
            ∀ c ∈ k.vmObjects, ¬ k.Meets (pageAlignDown start) (pageAlign length) c))) ∧
    ∀ ops, k.Separate k.vmObjects → Along (regionStep (m + 2)) Harmless k ops →
      Always (regionStep (m + 2)) RegionsDisjoint k ops := by
  refine ⟨fun start length flags args h hT hstart hwrap hb => ?_, fun ops h hops => ?_⟩
  · have hzero := pageAlign_eq_zero_iff hstart hwrap
    rcases vmmAlloc_eq (fun _ _ hp => hp) h hT hstart hb with ⟨hcaught, hcall⟩ |
      ⟨hnot, k', hcall⟩
    · refine ⟨k, 0, hcall, ?_⟩
      by_cases hn : length = 0
      · -- an empty request meets nothing, and is turned down
        rw [hzero.2 hn] at hcaught ⊢
        simp [hn, hcaught, not_meets_zero]
      · have := hcaught.meets fun h0 => hn (hzero.1 h0)
        simp [hn, hcaught, this]
    · refine ⟨k', pageAlignDown start, hcall, ?_⟩
      simp only [pageAlignDown_ne_zero hstart, hnot, not_false_eq_true, and_false, false_or,
        true_and, false_iff, not_exists, not_and]
  · exact Always.of_inv (I := fun k => k.Separate k.vmObjects) (fun k hk => hk.regionsDisjoint)
      (fun k o k' hk ho hstep => hk.regionStep ho hstep) h hops

theorem boot_separate : boot.Separate boot.vmObjects := by
  have hl : boot.vmObjects = [4, 3, 2, 1, 0] := by decide
  rw [hl]
  refine ⟨⟨⟨⟨rfl, rfl, rfl, rfl, rfl, rfl⟩, ?_⟩, ?_⟩, rfl, ?_, ?_⟩ <;> decide

/-- At boot, two pages of the identity mapped megabytes are requested, lengthened and freed. -/
theorem vmm_alloc_regions_boot :
    (∃ k' p, vmmAlloc 2 boot 0x180000 0x2000 3 0 = some (k', p) ∧
      ((p = 0 ↔ ∃ c ∈ boot.vmObjects, boot.Meets (pageAlignDown 0x180000) (pageAlign 0x2000) c) ↔
        (0x2000 ≠ 0 ∧ boot.Caught (pageAlignDown 0x180000) (pageAlign 0x2000)) ∨
        (¬ boot.Caught (pageAlignDown 0x180000) (pageAlign 0x2000) ∧
          ∀ c ∈ boot.vmObjects, ¬ boot.Meets (pageAlignDown 0x180000) (pageAlign 0x2000) c))) ∧
    Along (regionStep 2) Harmless boot
      [.alloc 0x180000 0x2000 3 0, .lengthen 0x180000 0x1000, .free 0x180000] ∧
    Always (regionStep 2) RegionsDisjoint boot
      [.alloc 0x180000 0x2000 3 0, .lengthen 0x180000 0x1000, .free 0x180000] := by
  have hops : Along (regionStep 2) Harmless boot
      [.alloc 0x180000 0x2000 3 0, .lengthen 0x180000 0x1000, .free 0x180000] := by
    decide +kernel
  refine ⟨(vmm_alloc_regions boot 0).1 0x180000 0x2000 3 0 boot_separate.toListed
    (boot_tables (fun r => Iff.rfl) _) (by decide) (by decide) (by decide +kernel), hops,
    (vmm_alloc_regions boot 0).2 _ boot_separate hops⟩

/-- A request that runs into the next region is granted. -/
theorem overlap_granted :
    ∃ x ∈ vmmAlloc 2 boot 0x180000 0x2000 3 0,
      (x.1.vmObjects.Pairwise fun c d => x.1.regions.base c ≤ x.1.regions.base d) ∧
      x.1.RegionsDisjoint ∧ (∃ c ∈ x.1.vmObjects, x.1.Meets 0x17f000 0x2000 c) ∧
      ∃ y ∈ vmmAlloc 2 x.1 0x17f000 0x2000 3 0, y.2 = 0x17f000 ∧ ¬ y.1.RegionsDisjoint := by
  decide +kernel

end Kernel

end TitanOS
