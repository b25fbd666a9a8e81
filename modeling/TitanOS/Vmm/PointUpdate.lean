import TitanOS.Vmm.Boot

/-!
# `mmap` is a point update of address translation

Seen through `translate`, a call of `mmap` changes one page, apart from the pages of the window
at which it maps the tables it has to create on the way.
-/

namespace TitanOS

open Walk

/-- The upper bits of a canonical address repeat bit 47. -/
def Canonical (v : ℕ) : Prop := v < 2 ^ 47 ∨ 2 ^ 64 - 2 ^ 47 ≤ v ∧ v < 2 ^ 64

/-- Canonical addresses on different pages have different page numbers. -/
theorem page_injective {v v' : ℕ} (hv : Canonical v) (hv' : Canonical v')
    (h : page v = page v') : v / 0x1000 = v' / 0x1000 := by
  simp only [Canonical, page] at hv hv' h
  omega

namespace Kernel

variable {k : Kernel} {R : ℕ → Prop} {C : List (Fin 512) → Prop} {r t v : ℕ}

/-- Writing the entry of `v` in the last table of its walk from `r`. -/
theorem translate_writeEntry {paddr flags : ℕ} (hF : Forest (entry k.mem) R 3 C) (hr : R r)
    (ht : follow (entry k.mem) r (tableIndices v) = some t) (hp : paddr % 0x1000 = 0)
    (hf : flags < 2 ^ 12) :
    translate (writeEntry k.mem t (getIndex v 0) (paddr ||| flags ||| 7)) r v = some paddr ∧
      ∀ s v', R s → page v' ≠ page v →
        translate (writeEntry k.mem t (getIndex v 0) (paddr ||| flags ||| 7)) s v' =
          translate k.mem s v' := by
  have hred : Redirect (entry k.mem)
      (entry (writeEntry k.mem t (getIndex v 0) (paddr ||| flags ||| 7))) t (getIndex v 0) :=
    redirect_writeEntry
  constructor
  · have hlow : flags ||| 7 < 0x1000 := Nat.or_lt_two_pow (n := 12) hf (by norm_num)
    rw [translate, indices_eq, hred.follow_self hF hr rfl ht, entry_writeEntry_self,
      if_pos (lor_seven_mod_two _), Nat.or_assoc, pageAlignDown_lor hp hlow]
  · intro s v' hs hv'
    refine hred.follow_of_ne hF hr rfl ht hs rfl fun he => hv' ?_
    rw [← indices_eq] at he
    exact indices_eq_iff.1 he

/-- The pages of the window at which the next `m` tables are mapped. -/
theorem page_outside_window {m v' : ℕ} (hroom : k.Room m) (hv' : Canonical v')
    (hout : ∀ j < m, v' / 0x1000 ≠ k.windowTop / 0x1000 + (j + 1)) :
    page v' ≤ page k.windowTop ∨ page k.windowTop + m < page v' := by
  obtain ⟨hlo, hal, hhi⟩ := hroom
  have hp := page_window hlo (by omega)
  by_contra hcon
  refine hout (page v' - page k.windowTop - 1) (by omega) ?_
  have hw := @page_window (k.windowTop + 0x1000 * (page v' - page k.windowTop)) (by omega)
    (by omega)
  have hsame := @page_injective v' (k.windowTop + 0x1000 * (page v' - page k.windowTop)) hv'
    (by simp only [Canonical]; omega) (by omega)
  omega

/-- **`mmap` is a point update.**  `rootPtr` is the registered address of the root; the tables of
the root and of the current space are trees of registered tables, and the allocator and the window
supply what the missing tables need.  Then the call succeeds, maps the page of `v`, and keeps the
translation of every other page but those of the window that the new tables are mapped at. -/
theorem mmap_point_update (k : Kernel) (root rootPtr paddr v flags n : ℕ)
    (h : k.Tables (fun r => r = root ∨ r = k.cr3) (· ≠ []))
    (hroot : k.map.getPtblVaddr root = some rootPtr)
    (hpaddr : paddr % 0x1000 = 0 ∧ paddr < 2 ^ 52) (hflags : flags < 2 ^ 12) (hv : Canonical v)
    (hroom : k.Room (missing k.mem root (tableIndices v)))
    (hs : k.Supplied (missing k.mem root (tableIndices v))) :
    ∃ k', mmap (n + 2) k rootPtr paddr v flags = some (k', true) ∧
      translate k'.mem root v = some paddr ∧
      ∀ v', Canonical v' → v' / 0x1000 ≠ v / 0x1000 →
        (∀ j < missing k.mem root (tableIndices v),
          v' / 0x1000 ≠ k.windowTop / 0x1000 + (j + 1)) →
        translate k'.mem root v' = translate k.mem root v' := by
  obtain ⟨k', t, hT, hcr, ht, hmmap⟩ := @mmap_spec k _ _ root v rootPtr n paddr flags
    (fun p j _ => by simp) h (Or.inl rfl) hroot hroom hs
  obtain ⟨hself, hother⟩ := translate_writeEntry hT.forest (Or.inl rfl) ht hpaddr.1 hflags
  refine ⟨_, hmmap, hself, fun v' hv' hne hout => ?_⟩
  rw [hother root v' (Or.inl rfl) fun he => hne (page_injective hv' hv he),
    hcr.translate root v' (Or.inl rfl) (page_outside_window hroom hv' hout)]

/-- At boot, mapping a page of an empty slot of the root creates three tables. -/
theorem mmap_point_update_boot :
    missing boot.mem 0x111000 (tableIndices 0x8000000000) = 3 ∧
    ∃ k', mmap 2 boot 0xffffff8000010000 0x500000 0x8000000000 3 = some (k', true) ∧
      translate k'.mem 0x111000 0x8000000000 = some 0x500000 ∧
      ∀ v', Canonical v' → v' / 0x1000 ≠ 0x8000000000 / 0x1000 →
        (∀ j < missing boot.mem 0x111000 (tableIndices 0x8000000000),
          v' / 0x1000 ≠ boot.windowTop / 0x1000 + (j + 1)) →
        translate k'.mem 0x111000 v' = translate boot.mem 0x111000 v' := by
  have hR : ∀ r, r = 0x111000 ∨ r = boot.cr3 ↔ r = 0x111000 := fun r => or_self_iff
  have hmiss : missing boot.mem 0x111000 (tableIndices 0x8000000000) = 3 := by decide +kernel
  refine ⟨hmiss, mmap_point_update boot 0x111000 0xffffff8000010000 0x500000 0x8000000000 3 0
    (boot_tables hR _) (by decide +kernel) (by decide) (by decide) (Or.inl (by decide)) ?_ ?_⟩
  · rw [hmiss]
    exact ⟨by decide +kernel, by decide +kernel, by decide +kernel⟩
  · rw [hmiss]
    exact ⟨by decide +kernel, by decide +kernel⟩

end Kernel

end TitanOS
