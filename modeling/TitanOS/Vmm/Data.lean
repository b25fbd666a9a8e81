import TitanOS.Vmm.PointUpdate
import TitanOS.Vmm.Ram

/-!
# Pages of data

That a write to memory does not run into a page table, and that a frame for a new page or table is
not in use, is not checked anywhere.  `DataPages k R C D P` is what it rests on: the addresses in
`D` are mapped, page by page to different frames, none of which is a table or will be handed out for
the pages in `P`, which are still to be mapped.

`DataPages.vmmAlloc` maps the pages of a request, `DataPages.memcpy` writes to pages that are mapped.
Neither changes a byte of another page.
-/

namespace TitanOS

open Walk

/-- The addresses on the pages in `P`. -/
def onPages (P : List ℕ) : Set ℕ := {u | ∃ v ∈ P, u / 0x1000 = v / 0x1000}

theorem onPages_append (P Q : List ℕ) : onPages (P ++ Q) = onPages P ∪ onPages Q := by
  ext u
  simp only [onPages, Set.mem_ofPred_eq, List.mem_append, Set.mem_union]
  constructor
  · rintro ⟨v, hv | hv, hu⟩
    · exact Or.inl ⟨v, hv, hu⟩
    · exact Or.inr ⟨v, hv, hu⟩
  · rintro (⟨v, hv, hu⟩ | ⟨v, hv, hu⟩)
    · exact ⟨v, Or.inl hv, hu⟩
    · exact ⟨v, Or.inr hv, hu⟩

theorem onPages_nil : onPages [] = ∅ := by
  simp [onPages]

theorem page_congr {u v : ℕ} (h : u / 0x1000 = v / 0x1000) : page u = page v := by
  rw [page, page, h]

namespace Kernel

/-- The frames that are taken for the pages in `P` and the tables that are missing for them. -/
def reserve (k : Kernel) (P : List ℕ) : List ℕ := k.pmm.nextFrames ((k.lacking P).card + P.length)

/-- The pages of the addresses in `D` hold data, and those in `P` can be mapped. -/
structure DataPages (k : Kernel) (R : ℕ → Prop) (C : List (Fin 512) → Prop) (D : Set ℕ)
    (P : List ℕ) : Prop where
  tables : k.Tables R C
  room : k.Room (k.lacking P).card
  supplied : k.Supplied ((k.lacking P).card + P.length)
  upper : ∀ a w, k.map.getPtblVaddr a = some w → w ≠ 0 → 2 ^ 35 ≤ page w
  canonical : ∀ u ∈ D, Canonical u
  used : ∀ u ∈ D, ¬ k.Unused u
  backed : ∀ u ∈ D, ∃ f, translate k.mem k.cr3 u = some f ∧ ¬ Reach (entry k.mem) R 3 f ∧
    f ∉ k.reserve P
  apart : ∀ u ∈ D, ∀ v ∈ D, translate k.mem k.cr3 u = translate k.mem k.cr3 v → page u = page v
  todo : ∀ v ∈ P, v % 0x1000 = 0 ∧ v < 2 ^ 47 ∧ ∀ u ∈ D, u / 0x1000 ≠ v / 0x1000
  nodup : P.Nodup

/-- The pages in `Q` are mapped, with those in `P` still to be mapped: the pages of `D` keep their
frames and these their contents, and the new pages get frames of the reserve with the contents that
they had. -/
structure Brings (k k' : Kernel) (D : Set ℕ) (Q P : List ℕ) : Prop where
  kept : ∀ u ∈ D, ∀ f, translate k.mem k.cr3 u = some f →
    translate k'.mem k'.cr3 u = some f ∧ k'.mem f = k.mem f
  fresh : ∀ u ∈ onPages Q, ∃ f ∈ k.reserve (Q ++ P),
    translate k'.mem k'.cr3 u = some f ∧ k'.mem f = k.mem f
  reserve : ∀ f ∈ k'.reserve P, f ∈ k.reserve (Q ++ P) ∧ k'.mem f = k.mem f

variable {k k₁ k' : Kernel} {R : ℕ → Prop} {C : List (Fin 512) → Prop} {D : Set ℕ} {P Q Q' : List ℕ}
  {u v f flags m n start length : ℕ} {b : UInt8} {bs : List UInt8}

theorem Brings.refl (k : Kernel) (D : Set ℕ) (P : List ℕ) : k.Brings k D [] P :=
  ⟨fun _ _ _ hf => ⟨hf, rfl⟩, fun u hu => by simp [onPages_nil] at hu, fun _ hf => ⟨hf, rfl⟩⟩

theorem Brings.trans (h : k.Brings k₁ D Q (Q' ++ P)) (h' : k₁.Brings k' (D ∪ onPages Q) Q' P) :
    k.Brings k' D (Q ++ Q') P := by
  refine ⟨fun u hu f hf => ?_, fun u hu => ?_, fun f hf => ?_⟩
  · obtain ⟨hf₁, hmem₁⟩ := h.kept u hu f hf
    obtain ⟨hf', hmem'⟩ := h'.kept u (Or.inl hu) f hf₁
    exact ⟨hf', hmem'.trans hmem₁⟩
  · rw [onPages_append] at hu
    rw [List.append_assoc]
    rcases hu with hu | hu
    · obtain ⟨f, hres, hf₁, hmem₁⟩ := h.fresh u hu
      obtain ⟨hf', hmem'⟩ := h'.kept u (Or.inr hu) f hf₁
      exact ⟨f, hres, hf', hmem'.trans hmem₁⟩
    · obtain ⟨f, hres, hf', hmem'⟩ := h'.fresh u hu
      obtain ⟨hres₁, hmem₁⟩ := h.reserve f hres
      exact ⟨f, hres₁, hf', hmem'.trans hmem₁⟩
  · obtain ⟨hres', hmem'⟩ := h'.reserve f hf
    obtain ⟨hres₁, hmem₁⟩ := h.reserve f hres'
    rw [List.append_assoc]
    exact ⟨hres₁, hmem'.trans hmem₁⟩

/-! ### One page -/

theorem card_lacking_le : (k.lacking [v]).card ≤ (k.lacking (v :: P)).card := by
  refine Finset.card_le_card fun p hp => ?_
  obtain ⟨⟨u, hu, hpu⟩, hnone⟩ := mem_lacking.1 hp
  exact mem_lacking.2 ⟨⟨u, by simpa using Or.inl (List.mem_singleton.1 hu), hpu⟩, hnone⟩

/-- The reserve for a page more: the frame for the page, those for its tables, and what is left. -/
theorem PageMapped.reserve (hM : ({ k with pmm := k.pmm.pmmAllocPage.1 } : Kernel).PageMapped k' R v f
      (k.lacking [v]).card) :
    ∃ rest, k.reserve (v :: P) = k.pmm.pmmAllocPage.2 ::
      (k.pmm.pmmAllocPage.1.nextFrames (k.lacking [v]).card ++ k'.reserve P ++ rest) := by
  have hcount := hM.lacking_card (P := P)
  change (k'.lacking P).card + (k.lacking [v]).card ≤ (k.lacking (v :: P)).card at hcount
  obtain ⟨r, hr⟩ := Nat.exists_eq_add_of_le hcount
  refine ⟨(k.pmm.pmmAllocPage.1.afterFrames ((k.lacking [v]).card +
    ((k'.lacking P).card + P.length))).nextFrames r, ?_⟩
  have hlen : (k.lacking (v :: P)).card + (v :: P).length =
      ((k.lacking [v]).card + ((k'.lacking P).card + P.length) + r) + 1 := by
    rw [List.length_cons]
    omega
  rw [Kernel.reserve, hlen, Pmm.nextFrames, Pmm.nextFrames_add, Pmm.nextFrames_add, Kernel.reserve,
    hM.pmm]

/-- The frame for a page is taken. -/
theorem Supplied.taken (h : k.Supplied (n + 1)) :
    Supplied { k with pmm := k.pmm.pmmAllocPage.1 } n := by
  obtain ⟨hnd, hfresh⟩ := h
  rw [Pmm.nextFrames, List.nodup_cons] at hnd
  exact ⟨hnd.2, fun g hg => hfresh g (List.mem_cons_of_mem _ hg)⟩

/-- A frame of the reserve is no table. -/
theorem DataPages.not_reach (h : k.DataPages R C D P) (hf : f ∈ k.reserve P) :
    ¬ Reach (entry k.mem) R 3 f := h.tables.inOrder.not_reach (h.supplied.2 f hf).2

theorem DataPages.noTableAt (h : k.DataPages R C D P) (hv : v < 2 ^ 47) : k.NoTableAt v := by
  intro a w hw hw0 heq
  have hup := h.upper a w hw hw0
  rw [heq, page] at hup
  omega

/-- A page in the lower half is not one of the window. -/
theorem not_unused_of_lt (hroom : k.Room n) (hv : v < 2 ^ 47) : ¬ k.Unused v := by
  obtain ⟨hlo, -, hhi⟩ := hroom
  rw [not_unused_iff]
  left
  simp only [page]
  omega

/-- The frame for the page, those for its tables and those that are left are different. -/
theorem DataPages.reserve_apart (h : k.DataPages R C D (v :: P))
    (hM : ({ k with pmm := k.pmm.pmmAllocPage.1 } : Kernel).PageMapped k' R v f
      (k.lacking [v]).card) :
    k.pmm.pmmAllocPage.2 ∈ k.reserve (v :: P) ∧
      k.pmm.pmmAllocPage.2 ∉ k.pmm.pmmAllocPage.1.nextFrames (k.lacking [v]).card ∧
      k.pmm.pmmAllocPage.2 ∉ k'.reserve P ∧
      ∀ g, (g ∈ k.pmm.pmmAllocPage.1.nextFrames (k.lacking [v]).card → g ∈ k.reserve (v :: P)) ∧
        (g ∈ k'.reserve P → g ∈ k.reserve (v :: P) ∧
          g ∉ k.pmm.pmmAllocPage.1.nextFrames (k.lacking [v]).card) := by
  obtain ⟨rest, hrest⟩ := hM.reserve (P := P)
  have hnd : (k.reserve (v :: P)).Nodup := h.supplied.1
  rw [hrest, List.nodup_cons, List.nodup_append, List.nodup_append] at hnd
  obtain ⟨hout, ⟨-, -, hdisj⟩, -⟩ := hnd
  rw [hrest]
  simp only [List.mem_append, List.mem_cons, not_or] at hout ⊢
  exact ⟨Or.inl trivial, hout.1.1, hout.1.2, fun g => ⟨fun hg => Or.inr (Or.inl (Or.inl hg)),
    fun hg => ⟨Or.inr (Or.inl (Or.inr hg)), fun hg' => hdisj g hg' g hg rfl⟩⟩⟩

/-- The frames of the pages that are mapped are left alone. -/
theorem DataPages.brings (h : k.DataPages R C D (v :: P)) (hv : v < 2 ^ 47)
    (hM : ({ k with pmm := k.pmm.pmmAllocPage.1 } : Kernel).PageMapped k' R v
      k.pmm.pmmAllocPage.2 (k.lacking [v]).card) : k.Brings k' D [v] P := by
  obtain ⟨hf, hftables, -, hres⟩ := h.reserve_apart hM
  refine ⟨fun u hu g hg => ?_, fun u hu => ?_, fun g hg => ?_⟩
  · obtain ⟨g', hg', hreach, hout⟩ := h.backed u hu
    obtain rfl : g = g' := Option.some.inj (hg.symm.trans hg')
    refine ⟨((hM.other u (h.used u hu)).2 fun heq => ?_).trans hg,
      hM.mem g hreach fun hmem => hout ((hres g).1 hmem)⟩
    exact (h.todo v List.mem_cons_self).2.2 u hu
      (page_injective (h.canonical u hu) (Or.inl hv) heq)
  · obtain ⟨w, hw, huv⟩ := hu
    rw [List.mem_singleton.1 hw] at huv
    exact ⟨_, hf, (translate_congr (page_congr huv)).trans hM.self,
      hM.mem _ (h.not_reach hf) hftables⟩
  · obtain ⟨hin, hnot⟩ := (hres g).2 hg
    exact ⟨hin, hM.mem g (h.not_reach hin) hnot⟩

/-- The invariant once the page is mapped. -/
theorem DataPages.mapped (h : k.DataPages R C D (v :: P)) (hT : k'.Tables R C)
    (hM : ({ k with pmm := k.pmm.pmmAllocPage.1 } : Kernel).PageMapped k' R v
      k.pmm.pmmAllocPage.2 (k.lacking [v]).card) : k'.DataPages R C (D ∪ onPages [v]) P := by
  obtain ⟨hal, hv, hnew⟩ := h.todo v List.mem_cons_self
  obtain ⟨hf, hftables, hfleft, hres⟩ := h.reserve_apart hM
  have hB := h.brings hv hM
  have hcount := hM.lacking_card (P := P)
  change (k'.lacking P).card + (k.lacking [v]).card ≤ (k.lacking (v :: P)).card at hcount
  have htop : k'.windowTop = k.windowTop + 0x1000 * (k.lacking [v]).card := hM.windowTop
  obtain ⟨hlo, hwal, hhi⟩ := h.room
  have hroom : k'.Room (k'.lacking P).card := ⟨by omega, by omega, by omega⟩
  have hsup : Supplied { k with pmm := k.pmm.pmmAllocPage.1 }
      ((k.lacking [v]).card + ((k'.lacking P).card + P.length)) := by
    obtain ⟨r, hr⟩ := Nat.exists_eq_add_of_le hcount
    have hs := h.supplied
    rw [hr, List.length_cons, show (k'.lacking P).card + (k.lacking [v]).card + r + (P.length + 1) =
      (k.lacking [v]).card + ((k'.lacking P).card + P.length) + r + 1 by omega] at hs
    exact hs.taken.mono
  -- the new page lies in the lower half
  have hpage : ∀ u ∈ onPages [v], u / 0x1000 = v / 0x1000 := by
    rintro u ⟨w, hw, huv⟩
    rwa [List.mem_singleton.1 hw] at huv
  have hself : ∀ u ∈ onPages [v], translate k'.mem k'.cr3 u = some k.pmm.pmmAllocPage.2 :=
    fun u hu => (translate_congr (page_congr (hpage u hu))).trans hM.self
  have hreach : ∀ g, ¬ Reach (entry k.mem) R 3 g →
      g ∉ k.pmm.pmmAllocPage.1.nextFrames (k.lacking [v]).card → ¬ Reach (entry k'.mem) R 3 g :=
    fun g hg hout hg' => (hM.reach g hg').elim hg hout
  have hold : ∀ u ∈ D, ∃ g, translate k'.mem k'.cr3 u = some g ∧ translate k.mem k.cr3 u = some g ∧
      ¬ Reach (entry k.mem) R 3 g ∧ g ∉ k.reserve (v :: P) := by
    intro u hu
    obtain ⟨g, hg, hgr, hout⟩ := h.backed u hu
    exact ⟨g, (hB.kept u hu g hg).1, hg, hgr, hout⟩
  have hne : ∀ u ∈ D, translate k'.mem k'.cr3 u ≠ some k.pmm.pmmAllocPage.2 := by
    intro u hu heq
    obtain ⟨g, hg, -, -, hout⟩ := hold u hu
    rw [hg] at heq
    exact hout (Option.some.inj heq ▸ hf)
  refine ⟨hT, hroom, hsup.after hM.pmm hM.registered, fun a w hw hw0 => ?_, ?_, ?_, ?_, ?_,
    fun w hw => ?_, (List.nodup_cons.1 h.nodup).2⟩
  · rcases hM.getPtblVaddr a with hold | ⟨w', hw', hlow, hhigh⟩
    · exact h.upper a w (hold.symm.trans hw) hw0
    · obtain rfl : w = w' := Option.some.inj (hw.symm.trans hw')
      change k.windowTop < w at hlow
      change w ≤ k.windowTop + 0x1000 * (k.lacking [v]).card at hhigh
      simp only [page]
      omega
  · rintro u (hu | hu)
    · exact h.canonical u hu
    · have := hpage u hu
      exact Or.inl (by omega)
  · rintro u (hu | hu)
    · exact (hM.other u (h.used u hu)).1
    · have := hpage u hu
      exact not_unused_of_lt hroom (by omega)
  · rintro u (hu | hu)
    · obtain ⟨g, hg, -, hgr, hout⟩ := hold u hu
      exact ⟨g, hg, hreach g hgr fun hg' => hout ((hres g).1 hg'),
        fun hg' => hout ((hres g).2 hg').1⟩
    · exact ⟨_, hself u hu, hreach _ (h.not_reach hf) hftables, hfleft⟩
  · rintro u (hu | hu) w (hw | hw) heq
    · obtain ⟨g, hg, hgu, -⟩ := hold u hu
      obtain ⟨g', hg', hgw, -⟩ := hold w hw
      exact h.apart u hu w hw (by rw [hgu, hgw, ← hg, ← hg', heq])
    · exact absurd (heq.trans (hself w hw)) (hne u hu)
    · exact absurd (heq.symm.trans (hself u hu)) (hne w hw)
    · exact page_congr ((hpage u hu).trans (hpage w hw).symm)
  · obtain ⟨hwal', hwlow, hwD⟩ := h.todo w (List.mem_cons_of_mem v hw)
    refine ⟨hwal', hwlow, ?_⟩
    rintro u (hu | hu)
    · exact hwD u hu
    · rw [hpage u hu]
      have hvw : v ≠ w := fun heq => (List.nodup_cons.1 h.nodup).1 (heq ▸ hw)
      omega

/-- **The step of `vmm_alloc`**: a frame is taken, and mapped at the next page. -/
theorem DataPages.mmap (n : ℕ) (hC : ∀ p j, C p → C (p ++ [j])) (hflags : flags < 0x1000)
    (h : k.DataPages R C D (v :: P)) :
    ∃ k', Kernel.mmap (n + 2) { k with pmm := k.pmm.pmmAllocPage.1 } k.currentPml4tPtr
        k.pmm.pmmAllocPage.2 v flags = some (k', true) ∧
      k'.DataPages R C (D ∪ onPages [v]) P ∧ k.Brings k' D [v] P := by
  have hv := (h.todo v List.mem_cons_self).2.1
  have hs : Supplied { k with pmm := k.pmm.pmmAllocPage.1 } (k.lacking [v]).card := by
    obtain ⟨r, hr⟩ := Nat.exists_eq_add_of_le (card_lacking_le (k := k) (v := v) (P := P))
    have hsup := h.supplied
    rw [hr, List.length_cons, show (k.lacking [v]).card + r + (P.length + 1) =
      (k.lacking [v]).card + (r + P.length) + 1 by omega] at hsup
    exact hsup.taken.mono
  obtain ⟨k', hcall, hT, hM⟩ := @Tables.mmap_page { k with pmm := k.pmm.pmmAllocPage.1 } R C v
    k.pmm.pmmAllocPage.2 flags n hC (h.tables.with_pmm _)
    (by rw [missing_eq_card]; exact h.room.mono (card_lacking_le (P := P)))
    (by rw [missing_eq_card]; exact hs) (h.noTableAt hv)
  have hframe : pageAlignDown (k.pmm.pmmAllocPage.2 ||| flags ||| 7) = k.pmm.pmmAllocPage.2 := by
    rw [Nat.or_assoc]
    exact pageAlignDown_lor k.pmm.pmmAllocPage_mod (Nat.or_lt_two_pow (n := 12) hflags (by norm_num))
  rw [missing_eq_card, hframe] at hM
  exact ⟨k', hcall, h.mapped hT hM, h.brings hv hM⟩

/-! ### A request -/

/-- **The loop of `vmm_alloc`** maps all its pages. -/
theorem DataPages.mapPages (n : ℕ) (hC : ∀ p j, C p → C (p ++ [j])) (hflags : flags < 0x1000)
    (h : k.DataPages R C D (pagesFrom m v ++ P)) :
    ∃ k', Kernel.mapPages (n + 2) flags m k v 0 = some (k', true) ∧
      k'.DataPages R C (D ∪ onPages (pagesFrom m v)) P ∧ k.Brings k' D (pagesFrom m v) P := by
  induction m generalizing k v D with
  | zero => exact ⟨k, rfl, by simpa [pagesFrom, onPages_nil] using h, .refl k D P⟩
  | succ m ih =>
    obtain ⟨k₁, hmmap, h₁, hB₁⟩ := DataPages.mmap n hC hflags h
    obtain ⟨k', hmap, h', hB'⟩ := ih h₁
    refine ⟨k', ?_, ?_, hB₁.trans hB'⟩
    · rw [Kernel.mapPages]
      simp only [ne_eq, not_true_eq_false, if_false, hmmap, Option.bind_eq_bind, Option.bind_some,
        if_true, hmap]
    · rwa [Set.union_assoc, ← onPages_append] at h'

/-- Of the regions, pages of data depend only on the top of the window. -/
theorem DataPages.with_regions {r : Regions} (h : k.DataPages R C D P)
    (htop : ({ k with regions := r } : Kernel).windowTop = k.windowTop) :
    ({ k with regions := r } : Kernel).DataPages R C D P := by
  refine ⟨h.tables.with_regions htop, ?_, h.supplied, h.upper, h.canonical, fun u hu => ?_, h.backed,
    h.apart, h.todo, h.nodup⟩
  · have hroom := h.room
    rwa [Room, ← htop] at hroom
  · rw [Unused, htop]
    exact h.used u hu

/-- No region lies on a page of `P`. -/
structure Vacant (k : Kernel) (P : List ℕ) : Prop where
  listed : k.Listed k.vmObjects
  head : k.regions.base k.currentVmm = 0
  window : 2 ^ 47 ≤ k.regions.base kernelPageTblsObj
  free : ∀ v ∈ P, ∀ c ∈ k.vmObjects, ¬ k.Meets v 0x1000 c

/-- `mmap` moves no region but the window, which is far away. -/
theorem Vacant.keeps (h : k.Vacant P) (hP : ∀ v ∈ P, v % 0x1000 = 0 ∧ v < 2 ^ 47)
    (hk : k.Keeps k') : k'.Vacant P := by
  have hch := h.listed.toChained.keeps hk
  have hobj := hch.vmObjects_eq
  refine ⟨?_, ?_, ?_, fun v hv c hc => ?_⟩
  · rw [hobj]
    refine ⟨hch, ?_⟩
    rw [hk.base]
    exact h.listed.sorted
  · rw [hk.base, hk.currentVmm]
    exact h.head
  · rw [hk.base]
    exact h.window
  · rw [hobj] at hc
    have hfree := h.free v hv c hc
    have hwin := h.window
    obtain ⟨hal, hlow⟩ := hP v hv
    simp only [Meets, Overlap, hk.base] at hfree ⊢
    by_cases hc0 : c = kernelPageTblsObj
    · rw [hc0]
      omega
    · rwa [hk.length c hc0]

/-- A region is inserted for pages on which there is none. -/
theorem Vacant.insertRegion {l₁ l₂ : List ℕ} {c s : ℕ} (h : k.Vacant P)
    (hl : k.vmObjects = l₁ ++ c :: l₂) (hle : ∀ d ∈ l₁ ++ [c], k.regions.base d ≤ s)
    (hlt : ∀ d ∈ l₂, s < k.regions.base d)
    (hP : ∀ v ∈ P, v + 0x1000 ≤ s ∨ s + length ≤ v) :
    ({ k with regions := Kernel.insertRegion k.regions c s length flags } : Kernel).Vacant P := by
  have hch := h.listed.toChained
  have hsorted := h.listed.sorted
  have hcur : k.currentVmm ∈ k.vmObjects := by
    obtain ⟨r, hr, -⟩ := hch.exists_cons
    rw [hr]
    exact List.mem_cons_self
  have hmem : ∀ d, d ∈ k.vmObjects ↔ d ∈ l₁ ++ c :: l₂ := fun d => by rw [hl]
  have hold := fun d hd => @Chained.insertRegion_of_mem k _ s length c d flags hch hd
  have hnew := @insertRegion_self s length c k.regions flags
  have hzero := @insertRegion_of_lt s length c k.regions kernelPageTblsObj flags hch.count_pos
  rw [hl] at hch hsorted
  have hins := @Chained.insertRegion k s length c l₁ l₂ flags hch
  have hobj := hins.vmObjects_eq
  refine ⟨?_, (hold _ hcur).1.trans h.head, hzero.1.symm ▸ h.window, fun v hv d hd => ?_⟩
  · rw [hobj]
    refine ⟨hins, pairwise_insert ?_ (fun d hd => ?_) fun d hd => ?_⟩
    · refine hsorted.imp_of_mem fun {a b} ha hb hab => ?_
      rwa [(hold a ((hmem a).2 ha)).1, (hold b ((hmem b).2 hb)).1]
    · have hd' : d ∈ l₁ ++ c :: l₂ := by
        rw [List.append_cons]
        exact List.mem_append_left l₂ hd
      rw [(hold d ((hmem d).2 hd')).1, hnew.1]
      exact hle d hd
    · rw [(hold d ((hmem d).2 (by simp [hd]))).1, hnew.1]
      exact (hlt d hd).le
  · rw [hobj] at hd
    by_cases hdn : d = k.regions.count
    · simp only [hdn, Meets, Overlap, hnew]
      have := hP v hv
      omega
    · have hd' : d ∈ k.vmObjects := by
        rw [hmem]
        simp only [List.mem_append, List.mem_cons, hdn, false_or] at hd ⊢
        exact hd
      simp only [Meets, hold d hd']
      exact h.free v hv d hd'

/-- **`vmm_alloc`** grants a request for pages on which there is no region, and maps them. -/
theorem DataPages.vmmAlloc (n : ℕ) (hC : ∀ p j, C p → C (p ++ [j])) (hflags : flags < 0x1000)
    (hstart : 0x1000 ≤ start) (hlen : 0 < length) (hend : length ≤ 2 ^ 47)
    (h : k.DataPages R C D (pagesOf (pageAlignDown start) (pageAlign length) ++ P))
    (hv : k.Vacant (pagesOf (pageAlignDown start) (pageAlign length) ++ P)) :
    ∃ k', Kernel.vmmAlloc (n + 2) k start length flags 0 = some (k', pageAlignDown start) ∧
      k'.DataPages R C (D ∪ onPages (pagesOf (pageAlignDown start) (pageAlign length))) P ∧
      k.Brings k' D (pagesOf (pageAlignDown start) (pageAlign length)) P ∧ k'.Vacant P := by
  have hs := pageAlignDown_mod start
  have hs0 := pageAlignDown_ne_zero hstart
  generalize hst : pageAlignDown start = s at hs hs0 h hv ⊢
  obtain ⟨m, hm, hm0, hmle⟩ : ∃ m, pageAlign length = 0x1000 * m ∧ 0 < m ∧ 0x1000 * m ≤ 2 ^ 48 := by
    refine ⟨pageAlign length / 0x1000, ?_, ?_, ?_⟩ <;> unfold pageAlign <;> omega
  have hpage : ∀ j < m, s + 0x1000 * j ∈ pagesOf s (pageAlign length) := by
    intro j hj
    exact mem_pagesOf.2 ⟨j, by omega, rfl⟩
  have hfirst : s ∈ pagesOf s (pageAlign length) := hpage 0 hm0
  have hlow := (h.todo s (List.mem_append_left P hfirst)).2.1
  -- the request is not turned down
  have hcaught : ¬ k.Caught s (pageAlign length) := by
    rintro ⟨⟨c, d⟩, hx, hle, -, hin, -⟩
    have hfree := hv.free s (List.mem_append_left P hfirst) c (List.of_mem_zip hx).1
    have := Nat.mod_le (k.regions.base c + k.regions.length c) (2 ^ 64)
    simp only [Meets, Overlap] at hfree hle hin
    omega
  rcases @findPlace_spec k k.vmObjects s (pageAlign length) hv.listed hs0 with ⟨hyes, -⟩ |
    ⟨-, l₁, c, l₂, hl, hfind, hplace⟩
  · exact absurd hyes hcaught
  obtain ⟨hle, hlt⟩ := hplace (by rw [hv.head]; exact Nat.zero_le s)
  -- the other pages lie in front of the region or behind it
  have hapart : ∀ v ∈ P, v + 0x1000 ≤ s ∨ s + pageAlign length ≤ v := by
    intro v hvP
    by_contra hin
    have hal := (h.todo v (List.mem_append_right _ hvP)).1
    have hvin := hpage ((v - s) / 0x1000) (by omega)
    rw [show s + 0x1000 * ((v - s) / 0x1000) = v by omega] at hvin
    exact (List.nodup_append.1 h.nodup).2.2 v hvin v hvP rfl
  have hpages : pagesFrom m s = pagesOf s (pageAlign length) := by
    rw [hm]
    exact pagesFrom_eq (by omega)
  have hvP : k.Vacant P := ⟨hv.listed, hv.head, hv.window, fun v hvP =>
    hv.free v (List.mem_append_right _ hvP)⟩
  rw [← hpages] at h ⊢
  obtain ⟨k', hmap, h', hB⟩ := (h.with_regions (@windowTop_insertRegion k s (pageAlign length) c flags
    hv.listed.toChained.count_pos)).mapPages n hC hflags
  refine ⟨k', ?_, h', ⟨hB.kept, hB.fresh, hB.reserve⟩, ?_⟩
  · have hcount : (pageAlign length + 0xfff) % 2 ^ 64 / 0x1000 = m := by omega
    have hargs : pageAlignDown 0 = 0 := rfl
    simp only [Kernel.vmmAlloc, hst, hargs, hfind, hcount, hmap, Option.bind_eq_bind,
      Option.bind_some, if_true]
  · exact (hvP.insertRegion hl hle hlt hapart).keeps (fun v hv => ⟨(h'.todo v hv).1, (h'.todo v hv).2.1⟩)
      (keeps_mapPages _ _ _ hmap)

/-! ### Bytes -/

theorem translate_mod {mem : ℕ → Fin 512 → ℕ} {r : ℕ} (h : TitanOS.translate mem r v = some f) :
    f % 0x1000 = 0 := by
  rw [TitanOS.translate, indices_eq, follow_append] at h
  obtain ⟨t, -, ht⟩ := Option.bind_eq_some_iff.1 h
  rw [follow_cons] at ht
  obtain ⟨g, hg, hf⟩ := Option.bind_eq_some_iff.1 ht
  obtain rfl : g = f := by simpa using hf
  rw [← (entry_eq_some.1 hg).2]
  exact Nat.mul_mod_left _ _

theorem place_eq (hf : TitanOS.translate k.mem k.cr3 v = some f) :
    k.place v = some (f + v % 0x1000) := by
  rw [place, hf, Option.map_some]

theorem byte_eq (hf : TitanOS.translate k.mem k.cr3 v = some f) :
    k.byte v = ram k.mem (f + v % 0x1000) := by
  rw [byte, place_eq hf, Option.map_some, Option.getD_some]

/-- Where a byte of a frame lies. -/
theorem pageAlignDown_add (hf : f % 0x1000 = 0) : pageAlignDown (f + v % 0x1000) = f := by
  unfold pageAlignDown
  omega

/-- A byte depends on its frame. -/
theorem ram_congr {mem mem' : ℕ → Fin 512 → ℕ} (hf : f % 0x1000 = 0) (h : mem' f = mem f) :
    ram mem' (f + v % 0x1000) = ram mem (f + v % 0x1000) := by
  rw [ram, ram, pageAlignDown_add hf, h]

theorem poke_of_ne {mem : ℕ → Fin 512 → ℕ} {g : ℕ} (hf : f % 0x1000 = 0) (hg : g ≠ f) :
    poke mem (f + v % 0x1000) b g = mem g := by
  rw [poke, TitanOS.writeEntry, pageAlignDown_add hf, Function.update_of_ne hg]

/-- What is written to a frame that is no table does not change the walks. -/
theorem DataPages.with_mem {mem : ℕ → Fin 512 → ℕ} (h : k.DataPages R C D P)
    (hf : ¬ Reach (entry k.mem) R 3 f) (hmem : ∀ a, a ≠ f → mem a = k.mem a) :
    ({ k with mem := mem } : Kernel).DataPages R C D P ∧
      ({ k with mem := mem } : Kernel).reserve P = k.reserve P ∧
      ∀ u, TitanOS.translate mem k.cr3 u = TitanOS.translate k.mem k.cr3 u := by
  have hroot := h.tables.root
  have hsame : Same (entry k.mem) (entry mem) R (3 + 1) :=
    same_of_unreached hf fun a j ha => by simp [entry, hmem a ha]
  have htr : ∀ u, TitanOS.translate mem k.cr3 u = TitanOS.translate k.mem k.cr3 u :=
    fun u => hsame k.cr3 _ hroot (by simp [indices])
  have hlack : ({ k with mem := mem } : Kernel).lacking P = k.lacking P := by
    ext p
    rw [mem_lacking, mem_lacking]
    refine and_congr_right fun hp => ?_
    obtain ⟨u, -, hpu⟩ := hp
    rw [hsame k.cr3 p hroot (Nat.le_succ_of_le (length_le_of_mem_tablePaths hpu))]
  have hreach : ∀ t, Reach (entry mem) R 3 t ↔ Reach (entry k.mem) R 3 t :=
    fun t => (hsame.mono (Nat.le_succ 3)).reach_iff
  have hres : ({ k with mem := mem } : Kernel).reserve P = k.reserve P := by
    rw [Kernel.reserve, hlack, Kernel.reserve]
  refine ⟨⟨⟨hroot, (hsame.mono (Nat.le_succ 3)).forest h.tables.forest, fun t ht => ?_,
    h.tables.current, ?_, h.tables.lists⟩, ?_, ?_, h.upper, h.canonical, h.used, fun u hu => ?_,
    fun u hu v hv heq => h.apart u hu v hv (by rwa [htr, htr] at heq), h.todo, h.nodup⟩, hres, htr⟩
  · obtain ⟨w, hw, hw0, ⟨hwal, hwt⟩, hwun⟩ := h.tables.accessible t ((hreach t).1 ht)
    exact ⟨w, hw, hw0, ⟨hwal, (htr w).trans hwt⟩, hwun⟩
  · obtain ⟨tw, htw⟩ := h.tables.window
    exact ⟨tw, (hsame k.cr3 _ hroot (by simp)).trans htw⟩
  · rw [hlack]
    exact h.room
  · rw [hlack]
    exact h.supplied
  · obtain ⟨g, hg, hgr, hout⟩ := h.backed u hu
    exact ⟨g, (htr u).trans hg, fun hr => hgr ((hreach g).1 hr), hres ▸ hout⟩

/-- The bytes `bs` are written from `v` on, and nothing else changes. -/
structure Writes (k k' : Kernel) (D : Set ℕ) (P : List ℕ) (v : ℕ) (bs : List UInt8) : Prop where
  translate : ∀ u, translate k'.mem k'.cr3 u = translate k.mem k.cr3 u
  byte : ∀ u ∈ D, k'.byte u = if v ≤ u ∧ u < v + bs.length then bs.getD (u - v) 0 else k.byte u
  reserve : k'.reserve P = k.reserve P ∧ ∀ f ∈ k.reserve P, k'.mem f = k.mem f

/-- **A write to a page of data** changes one byte. -/
theorem DataPages.storeByte (h : k.DataPages R C D P) (hv : v ∈ D) (b : UInt8) :
    (k.storeByte v b).DataPages R C D P ∧ k.Writes (k.storeByte v b) D P v [b] := by
  obtain ⟨f, hf, hreach, hout⟩ := h.backed v hv
  have hal := translate_mod hf
  have hmem : ∀ a, a ≠ f → poke k.mem (f + v % 0x1000) b a = k.mem a := fun a ha => poke_of_ne hal ha
  obtain ⟨h', hres, htr⟩ := h.with_mem hreach hmem
  have heq : k.storeByte v b = { k with mem := poke k.mem (f + v % 0x1000) b } := by
    rw [Kernel.storeByte, place_eq hf]
  rw [heq]
  refine ⟨h', htr, fun u hu => ?_, hres, fun g hg => hmem g fun hgf => hout (hgf ▸ hg)⟩
  obtain ⟨g, hg, -, -⟩ := h.backed u hu
  have hgal := translate_mod hg
  rw [byte_eq ((htr u).trans hg), byte_eq hg, ram_poke]
  by_cases huv : u = v
  · subst huv
    obtain rfl : f = g := Option.some.inj (hf.symm.trans hg)
    simp
  · -- another address lies at another place
    have hplace : g + u % 0x1000 ≠ f + v % 0x1000 := by
      intro hsum
      have hgf : g = f := by omega
      have hpage := page_injective (h.canonical u hu) (h.canonical v hv)
        (h.apart u hu v hv (by rw [hf, hg, hgf]))
      omega
    rw [if_neg hplace, if_neg (by simp only [List.length_cons, List.length_nil]; omega)]

/-- **A copy to pages of data** changes the bytes that are copied to. -/
theorem DataPages.memcpy (h : k.DataPages R C D P) (hD : ∀ j < bs.length, v + j ∈ D)
    (hend : v + bs.length < 2 ^ 64) :
    (k.memcpy v bs).DataPages R C D P ∧ k.Writes (k.memcpy v bs) D P v bs := by
  induction bs generalizing k v with
  | nil =>
    refine ⟨h, fun _ => rfl, fun u _ => ?_, rfl, fun _ _ => rfl⟩
    rw [if_neg (by simp only [List.length_nil]; omega)]
    rfl
  | cons b bs ih =>
    simp only [List.length_cons] at hD hend
    obtain ⟨h₁, hW₁⟩ := h.storeByte (by simpa using hD 0 (Nat.succ_pos _)) b
    have hnext : (v + 1) % 2 ^ 64 = v + 1 := Nat.mod_eq_of_lt (by omega)
    obtain ⟨h', hW'⟩ := @ih (k.storeByte v b) (v + 1) h₁ (fun j hj => by
      have := hD (j + 1) (Nat.succ_lt_succ hj)
      rwa [show v + 1 + j = v + (j + 1) by omega]) (by omega)
    rw [Kernel.memcpy, hnext]
    refine ⟨h', fun u => (hW'.translate u).trans (hW₁.translate u), fun u hu => ?_,
      hW'.reserve.1.trans hW₁.reserve.1, fun f hf => ?_⟩
    · rw [hW'.byte u hu, hW₁.byte u hu]
      simp only [List.length_cons, List.length_nil]
      by_cases hu0 : u = v
      · subst hu0
        simp
      · by_cases hin : v + 1 ≤ u ∧ u < v + 1 + bs.length
        · obtain ⟨j, rfl⟩ : ∃ j, u = v + 1 + j := ⟨u - (v + 1), by omega⟩
          rw [if_pos hin, if_pos (by omega), show v + 1 + j - v = j + 1 by omega,
            Nat.add_sub_cancel_left, List.getD_cons_succ]
        · rw [if_neg hin, if_neg (by omega), if_neg (by omega)]
    · rw [hW'.reserve.2 f (hW₁.reserve.1 ▸ hf), hW₁.reserve.2 f hf]

/-- A copy changes no region. -/
theorem Vacant.memcpy (h : k.Vacant P) : (k.memcpy v bs).Vacant P := by
  induction bs generalizing k v with
  | nil => exact h
  | cons b bs ih =>
    refine ih ?_
    unfold storeByte
    split
    · exact ⟨⟨⟨h.listed.path, h.listed.lt⟩, h.listed.sorted⟩, h.head, h.window, h.free⟩
    · exact h

end Kernel

end TitanOS
