import TitanOS.Vmm.Frame
import TitanOS.Vmm.Mmap

/-!
# Mapping pages in tables that are in order

`mmap` keeps the invariant of the page tables unless it maps over a page at which one of them is
accessed (`TableAt`).  So a whole range can be mapped page by page: `Backable` says what the
loop of `vmm_alloc` needs at each page, and `mapPages_spec` that it then succeeds.
-/

namespace TitanOS

open Walk

theorem Hashmap.Lists.exists_node {h : Hashmap} {L : ℕ → List ℕ} {F : List ℕ} {p w : ℕ}
    (hL : Lists h L F) (hw : h.getPtblVaddr p = some w) (hw0 : w ≠ 0) :
    ∃ i < h.count, h.ptVaddr i = w := by
  rw [hL.getPtblVaddr, Option.some.injEq] at hw
  cases hfind : (L (Hashmap.hashFunction p)).find? fun i => h.ptPaddr i == p with
  | none =>
    rw [hfind] at hw
    exact absurd hw.symm hw0
  | some i =>
    rw [hfind] at hw
    exact ⟨i, (hL.home _ i (List.mem_of_find?_eq_some hfind)).1, hw⟩

namespace Kernel

variable {k : Kernel} {R : ℕ → Prop} {C : List (Fin 512) → Prop} {r t v : ℕ}

/-- A table is registered at the page of `v`. -/
def TableAt (k : Kernel) (v : ℕ) : Prop := ∃ i < k.map.count, page (k.map.ptVaddr i) = page v

instance (k : Kernel) (v : ℕ) : Decidable (k.TableAt v) :=
  inferInstanceAs (Decidable (∃ i < k.map.count, _))

theorem Tables.noTableAt (h : k.Tables R C) (hv : ¬ k.TableAt v) : k.NoTableAt v := by
  intro a w hw hw0 he
  obtain ⟨L, hL⟩ := h.lists
  obtain ⟨i, hi, rfl⟩ := hL.exists_node hw hw0
  exact hv ⟨i, hi, he⟩

/-- Writing the entry of a page keeps the invariant if no table is accessed at the page. -/
theorem Tables.writeEntry (h : k.Tables R C) (hr : R r)
    (ht : follow (entry k.mem) r (tableIndices v) = some t) (e : ℕ)
    (hv : ∀ a w, Reach (entry k.mem) R 3 a → k.map.getPtblVaddr a = some w → page w ≠ page v) :
    ({ k with mem := writeEntry k.mem t (getIndex v 0) e } : Kernel).Tables R C := by
  obtain ⟨hsame, hO⟩ := h.inOrder.writeEntry hr ht e hv
  obtain ⟨tw, htw⟩ := h.window
  exact hO.tables ⟨tw, (hsame k.cr3 _ h.root (by simp)).trans htw⟩

/-- The page of `v` is below the window of page tables. -/
def BelowWindow (v : ℕ) : Prop := page v ≤ page 0xffffff8000300000

theorem BelowWindow.le {n : ℕ} (h : BelowWindow v) (hroom : k.Room n) :
    page v ≤ page k.windowTop := by
  obtain ⟨hlow, -, hhigh⟩ := hroom
  have := page_window hlow (by omega)
  refine h.trans ?_
  rw [this, show page 0xffffff8000300000 = 0xff8000300 by decide]
  omega

/-- The pages of the window up to the top, and those behind the block of the window, are not
touched when tables are created. -/
theorem not_unused_iff : ¬ k.Unused v ↔
    page v ≤ page k.windowTop ∨ page 0xffffff8000400000 ≤ page v := by
  rw [Unused]
  omega

/-- **Mapping a page in the current space** keeps the invariant and the other pages that are not in
the unused part of the window. -/
theorem Tables.mmap_outside {paddr flags : ℕ} (n : ℕ) (hC : ∀ p j, C p → C (p ++ [j]))
    (h : k.Tables R C) (hroom : k.Room (missing k.mem k.cr3 (tableIndices v)))
    (hs : k.Supplied (missing k.mem k.cr3 (tableIndices v))) (hv : ¬ k.TableAt v) :
    ∃ k', Kernel.mmap (n + 2) k k.currentPml4tPtr paddr v flags = some (k', true) ∧
      k'.Tables R C ∧ translate k'.mem k'.cr3 v = some (pageAlignDown (paddr ||| flags ||| 7)) ∧
      ∀ u, ¬ k.Unused u → ¬ k'.Unused u ∧ (page u ≠ page v →
        translate k'.mem k'.cr3 u = translate k.mem k.cr3 u) := by
  obtain ⟨k', t, hT, hcr, ht, hmmap⟩ := @mmap_spec k R C k.cr3 v k.currentPml4tPtr n paddr flags hC
    h h.root h.current hroom hs
  have hred : Redirect (entry k'.mem) (entry (TitanOS.writeEntry k'.mem t (getIndex v 0)
      (paddr ||| flags ||| 7))) t (getIndex v 0) := redirect_writeEntry
  have hext := h.extends hroom
  refine ⟨_, hmmap, ?_, ?_, fun u hu => ⟨?_, fun hne => ?_⟩⟩
  · exact hT.writeEntry h.root ht _ fun a w ha hw =>
      InOrder.page_ne (h.noTableAt hv) hext hT.inOrder hcr ha hw
  · show TitanOS.translate _ k'.cr3 v = _
    rw [hcr.cr3, TitanOS.translate, indices_eq, hred.follow_self hT.forest h.root rfl ht,
      entry_writeEntry_self, if_pos (lor_seven_mod_two _)]
  · rw [not_unused_iff] at hu ⊢
    show page u ≤ page k'.windowTop ∨ _
    rw [hcr.page_windowTop]
    omega
  · have hkept : TitanOS.translate (TitanOS.writeEntry k'.mem t (getIndex v 0)
        (paddr ||| flags ||| 7)) k.cr3 u = TitanOS.translate k'.mem k.cr3 u :=
      hred.follow_of_ne hT.forest h.root rfl ht h.root rfl fun he => hne
        (indices_eq_iff.1 (he.trans (indices_eq v).symm))
    have hlt := hext.page_lt
    rw [not_unused_iff] at hu
    show TitanOS.translate _ k'.cr3 u = _
    rw [hcr.cr3, hkept, hcr.translate k.cr3 u h.root (by omega)]

/-- Below the window, every other page is kept. -/
theorem Tables.mmap {paddr flags : ℕ} (n : ℕ) (hC : ∀ p j, C p → C (p ++ [j])) (h : k.Tables R C)
    (hroom : k.Room (missing k.mem k.cr3 (tableIndices v)))
    (hs : k.Supplied (missing k.mem k.cr3 (tableIndices v))) (hv : ¬ k.TableAt v) :
    ∃ k', Kernel.mmap (n + 2) k k.currentPml4tPtr paddr v flags = some (k', true) ∧
      k'.Tables R C ∧ translate k'.mem k'.cr3 v = some (pageAlignDown (paddr ||| flags ||| 7)) ∧
      ∀ u, BelowWindow u → page u ≠ page v →
        translate k'.mem k'.cr3 u = translate k.mem k.cr3 u := by
  obtain ⟨k', hmmap, hT, htr, hkept⟩ := @Tables.mmap_outside k R C v paddr flags n hC h hroom hs hv
  refine ⟨k', hmmap, hT, htr, fun u hu hne => ?_⟩
  exact (hkept u (not_unused_iff.2 (Or.inl (hu.le hroom)))).2 hne

/-! ### The loop of `vmm_alloc` -/

/-- The state after the frame for a page has been taken, and the frame. -/
def takeFrame (k : Kernel) (args : ℕ) : Kernel × ℕ :=
  if args ≠ 0 then ({ k with pmm := (k.pmm.pmmAllocSpecificPage args).1 }, args)
  else ({ k with pmm := k.pmm.pmmAllocPage.1 }, k.pmm.pmmAllocPage.2)

theorem takeFrame_eq (k : Kernel) (args : ℕ) :
    ∃ pmm, (k.takeFrame args).1 = { k with pmm := pmm } ∧ k.pmm.Le pmm := by
  unfold takeFrame
  split_ifs
  · exact ⟨_, rfl, k.pmm.le_pmmAllocSpecificPage args⟩
  · exact ⟨_, rfl, k.pmm.le_pmmAllocPage⟩

theorem mapPages_succ (fuel flags n : ℕ) (k : Kernel) (v args : ℕ) :
    mapPages fuel flags (n + 1) k v args =
      (Kernel.mmap fuel (k.takeFrame args).1 k.currentPml4tPtr (k.takeFrame args).2 v flags).bind
        fun x => if x.2 then mapPages fuel flags n x.1 ((v + 0x1000) % 2 ^ 64)
          (if args ≠ 0 then (args + 0x1000) % 2 ^ 64 else 0) else some (x.1, false) := by
  rw [mapPages, takeFrame]
  split_ifs <;> rfl

/-- At each page the allocator and the window supply the missing tables, and no table is accessed
at the page. -/
def Backable (fuel flags : ℕ) : ℕ → Kernel → ℕ → ℕ → Prop
  | 0, _, _, _ => True
  | n + 1, k, v, args =>
    let k₁ := (k.takeFrame args).1
    k₁.Room (missing k₁.mem k₁.cr3 (tableIndices v)) ∧
      k₁.Supplied (missing k₁.mem k₁.cr3 (tableIndices v)) ∧ ¬ k₁.TableAt v ∧
      ∀ k₂, Kernel.mmap fuel k₁ k₁.currentPml4tPtr (k.takeFrame args).2 v flags = some (k₂, true) →
        Backable fuel flags n k₂ ((v + 0x1000) % 2 ^ 64)
          (if args ≠ 0 then (args + 0x1000) % 2 ^ 64 else 0)

/-- The invariant does not speak about the physical allocator. -/
theorem Tables.with_pmm (h : k.Tables R C) (pmm : Pmm) :
    ({ k with pmm := pmm } : Kernel).Tables R C :=
  ⟨h.root, h.forest, h.accessible, h.current, h.window, h.lists⟩

/-- Of the regions, the page tables depend only on the top of the window. -/
theorem Tables.with_regions {R : ℕ → Prop} {C : List (Fin 512) → Prop} {r : Regions}
    (h : k.Tables R C) (htop : ({ k with regions := r } : Kernel).windowTop = k.windowTop) :
    ({ k with regions := r } : Kernel).Tables R C := by
  refine ⟨h.root, h.forest, fun t ht => ?_, h.current, h.window, h.lists⟩
  obtain ⟨w, hw, hw0, hacc, hun⟩ := h.accessible t ht
  refine ⟨w, hw, hw0, hacc, ?_⟩
  rw [Unused, htop]
  exact hun

/-- The pages that the loop of `vmm_alloc` gets to. -/
def pagesFrom : ℕ → ℕ → List ℕ
  | 0, _ => []
  | n + 1, v => v :: pagesFrom n ((v + 0x1000) % 2 ^ 64)

/-- **The loop of `vmm_alloc`** maps all pages of the range; the last one stays mapped, and so do
those below the window. -/
theorem mapPages_spec (m flags : ℕ) (hC : ∀ p j, C p → C (p ++ [j])) (n : ℕ) {args : ℕ}
    (h : k.Tables R C) (hb : Backable (m + 2) flags n k v args) :
    ∃ k', mapPages (m + 2) flags n k v args = some (k', true) ∧ k'.Tables R C ∧
      (n ≠ 0 → ∃ f, translate k'.mem k'.cr3 ((v + 0x1000 * (n - 1)) % 2 ^ 64) = some f) ∧
      ∀ u, BelowWindow u → translate k.mem k.cr3 u ≠ none → translate k'.mem k'.cr3 u ≠ none := by
  induction n generalizing k v args with
  | zero => exact ⟨k, rfl, h, fun hn => absurd rfl hn, fun _ _ hu => hu⟩
  | succ n ih =>
    obtain ⟨hroom, hs, hat, hrest⟩ := hb
    obtain ⟨pmm, hpmm, -⟩ := k.takeFrame_eq args
    rw [hpmm] at hroom hs hat hrest
    obtain ⟨k₂, hmmap, hT, htr, hkept⟩ := @Tables.mmap _ R C v (k.takeFrame args).2 flags m hC
      (h.with_pmm pmm) hroom hs hat
    obtain ⟨k', hmap, hT', hlast, hkept'⟩ := ih hT (hrest k₂ hmmap)
    refine ⟨k', ?_, hT', fun _ => ?_, fun u hu htu => hkept' u hu ?_⟩
    · rw [mapPages_succ, hpmm]
      rw [show Kernel.mmap (m + 2) { k with pmm := pmm } k.currentPml4tPtr (k.takeFrame args).2 v
        flags = some (k₂, true) from hmmap, Option.bind_some, if_pos rfl, hmap]
    · rw [Nat.add_sub_cancel]
      cases n with
      | zero =>
        simp only [mapPages, Option.some.injEq, Prod.mk.injEq, and_true] at hmap
        subst hmap
        have hpage : page ((v + 0x1000 * 0) % 2 ^ 64) = page v := by
          simp only [page]
          omega
        exact ⟨_, (translate_congr hpage).trans htr⟩
      | succ n =>
        obtain ⟨f, hf⟩ := hlast (Nat.succ_ne_zero n)
        have harg : (v + 0x1000 * (n + 1)) % 2 ^ 64 =
            ((v + 0x1000) % 2 ^ 64 + 0x1000 * (n + 1 - 1)) % 2 ^ 64 := by
          omega
        exact ⟨f, by rw [harg]; exact hf⟩
    · by_cases hpage : page u = page v
      · rw [translate_congr hpage, htr]
        exact Option.some_ne_none _
      · rwa [hkept u hu hpage]

/-! ### What the loops leave alone -/

theorem steps_takeFrame (k : Kernel) (args : ℕ) : k.Steps (k.takeFrame args).1 := by
  unfold takeFrame
  split_ifs
  · exact (Step.specificFrame k args).steps
  · exact (Step.frame k).steps

theorem steps_mapPages (fuel flags n : ℕ) {args : ℕ} {k' : Kernel} {b : Bool}
    (h : mapPages fuel flags n k v args = some (k', b)) : k.Steps k' := by
  induction n generalizing k v args with
  | zero =>
    simp only [mapPages, Option.some.injEq, Prod.mk.injEq] at h
    rw [← h.1]
    exact .refl k
  | succ n ih =>
    rw [mapPages_succ] at h
    obtain ⟨⟨k₁, ok⟩, hmmap, h⟩ := Option.bind_eq_some_iff.1 h
    have hk₁ : k.Steps k₁ := (steps_takeFrame k args).trans (steps_mmap fuel hmmap)
    split at h
    · exact hk₁.trans (ih h)
    · simp only [Option.some.injEq, Prod.mk.injEq] at h
      rw [← h.1]
      exact hk₁

theorem steps_lengthenPages (fuel n : ℕ) {c : ℕ} {k' : Kernel} {b : Bool}
    (h : lengthenPages fuel n k c v = some (k', b)) : k.Steps k' := by
  induction n generalizing k v with
  | zero => cases h
  | succ n ih =>
    rw [lengthenPages] at h
    split at h
    · split at h
      · simp only [Option.some.injEq, Prod.mk.injEq] at h
        rw [← h.1]
        exact .refl k
      · obtain ⟨⟨k₁, ok⟩, hmmap, h⟩ := Option.bind_eq_some_iff.1 h
        have hk₁ : k.Steps k₁ := (Step.frame k).steps.trans (steps_mmap fuel hmmap)
        simp only at h
        split at h
        · exact hk₁.trans (ih h)
        · simp only [Option.some.injEq, Prod.mk.injEq] at h
          rw [← h.1]
          exact hk₁
    · simp only [Option.some.injEq, Prod.mk.injEq] at h
      rw [← h.1]
      exact .refl k

theorem keeps_mapPages (fuel flags n : ℕ) {args : ℕ} {k' : Kernel} {b : Bool}
    (h : mapPages fuel flags n k v args = some (k', b)) : k.Keeps k' :=
  (steps_mapPages fuel flags n h).keeps

theorem keeps_lengthenPages (fuel n : ℕ) {c : ℕ} {k' : Kernel} {b : Bool}
    (h : lengthenPages fuel n k c v = some (k', b)) : k.Keeps k' :=
  (steps_lengthenPages fuel n h).keeps

end Kernel

end TitanOS
