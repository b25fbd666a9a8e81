import TitanOS.Vmm.Shared

/-!
# Requests at null

`vmm_alloc(NULL, length, …)` looks for the first region with a gap behind it that is larger than
the rounded length, and places the new region where that region ends.  The head of the list ends at
0, which is also the answer for failure; and if there is no gap, the loop runs to the end of the
list, `found` stays uninitialised, and the call has no answer in the model.

`null_placement_sound` says for which lists the answer can be told from failure all the same.
-/

namespace TitanOS

open Walk Linked

/-- A `scan` stops at the first pair of neighbours that satisfies the test. -/
theorem scanList_eq_find (stop : ℕ → ℕ → Bool) (c : ℕ) (l : List ℕ) :
    ((scanList stop c l).2.map fun d => ((scanList stop c l).1, d)) =
      ((c :: l).zip l).find? fun x => stop x.1 x.2 := by
  induction l generalizing c with
  | nil => rfl
  | cons d l ih =>
    rw [List.zip_cons_cons, List.find?_cons, scanList]
    cases stop c d with
    | true => rfl
    | false => exact ih d

/-- A length in whole pages. -/
def wholePages (n : ℕ) : ℕ := (n + 0xfff) / 0x1000 * 0x1000

namespace Kernel

variable {k k' : Kernel} {l : List ℕ} {c d n fuel length flags args : ℕ}

/-- There is room for `n` bytes between the end of region `c` and the base of region `d`, as the
code computes it. -/
def RoomBehind (k : Kernel) (n c d : ℕ) : Prop :=
  (k.regions.base c + k.regions.length c + n) % 2 ^ 64 < k.regions.base d

instance (k : Kernel) (n c d : ℕ) : Decidable (k.RoomBehind n c d) :=
  inferInstanceAs (Decidable (_ < _))

/-- The end of a region, as the code computes it. -/
def regionEnd (k : Kernel) (c : ℕ) : ℕ := (k.regions.base c + k.regions.length c) % 2 ^ 64

/-- The first region on the list that has room for `n` bytes behind it, with its successor. -/
def firstRoom (k : Kernel) (n : ℕ) : Option (ℕ × ℕ) :=
  (k.vmObjects.zip k.vmObjects.tail).find? fun x => k.RoomBehind n x.1 x.2

/-- The search at null ends at the first region that has room behind it. -/
theorem Chained.firstFit (h : k.Chained l) (n : ℕ) :
    Kernel.findPlace k.regions k.currentVmm 0 n =
      (k.firstRoom n).map fun x => some (x.1, k.regionEnd x.1) := by
  have hobjs := h.vmObjects_eq
  obtain ⟨r, rfl, hr⟩ := h.exists_cons
  have hlen : r.length < k.regions.count + 1 := by
    have := h.length_le
    simp at this
    omega
  have hfind := scanList_eq_find (fun c d => decide (k.RoomBehind n c d)) k.currentVmm r
  have hscan : scan k.regions.next (fun c d => decide ((k.regions.base c + k.regions.length c + n) %
      2 ^ 64 < k.regions.base d)) (k.regions.count + 1) k.currentVmm =
        some (scanList (fun c d => decide (k.RoomBehind n c d)) k.currentVmm r) := scan_eq hr hlen
  rw [Kernel.findPlace, if_pos rfl, hscan, firstRoom, hobjs, List.tail_cons, ← hfind]
  generalize scanList _ k.currentVmm r = x
  obtain ⟨c, _ | d⟩ := x <;> rfl

theorem firstRoom_mem (hf : k.firstRoom n = some (c, d)) :
    (∃ l₁ l₂, k.vmObjects = l₁ ++ c :: d :: l₂) ∧ k.RoomBehind n c d := by
  have hroom := List.find?_some hf
  exact ⟨mem_zip_tail_iff.1 (List.mem_of_find?_eq_some hf), of_decide_eq_true hroom⟩

/-- The search ends at a region on the list. -/
theorem Chained.findPlace_mem {start found : ℕ} (h : k.Chained l)
    (hf : Kernel.findPlace k.regions k.currentVmm start n = some (some (c, found))) : c ∈ l := by
  by_cases hs : start = 0
  · rw [hs, h.firstFit, Option.map_eq_some_iff] at hf
    obtain ⟨⟨e, d⟩, hroom, he⟩ := hf
    obtain ⟨rfl, -⟩ := Prod.mk.inj (Option.some.inj he)
    obtain ⟨⟨l₁, l₂, hl⟩, -⟩ := firstRoom_mem hroom
    rw [← h.vmObjects_eq, hl]
    simp
  · exact (h.findPlace hs hf).2

/-! ### The placement -/

/-- The gap between regions `c` and `d` is larger than `n` bytes. -/
def Gap (k : Kernel) (n c d : ℕ) : Prop :=
  k.regions.base c + k.regions.length c + n < k.regions.base d

instance (k : Kernel) (n c d : ℕ) : Decidable (k.Gap n c d) := inferInstanceAs (Decidable (_ < _))

theorem pageAlign_eq_wholePages (h : wholePages length < 2 ^ 64) :
    pageAlign length = wholePages length := by
  rw [wholePages] at h ⊢
  rw [pageAlign, Nat.mod_eq_of_lt (by omega)]

/-- Some gap between neighbours on the list is larger than `n` bytes. -/
def HasGap (k : Kernel) (n : ℕ) : Prop :=
  ∃ x ∈ k.vmObjects.zip k.vmObjects.tail, k.Gap n x.1 x.2

instance (k : Kernel) (n : ℕ) : Decidable (k.HasGap n) := inferInstanceAs (Decidable (∃ x ∈ _, _))

theorem HasGap.lt (h : k.HasGap n)
    (hend : ∀ c ∈ k.vmObjects, k.regions.base c + k.regions.length c ≤ 2 ^ 64) : n < 2 ^ 64 := by
  obtain ⟨⟨c, d⟩, hx, hgap⟩ := h
  have := hend d (List.mem_of_mem_tail (List.of_mem_zip hx).2)
  simp only [Gap] at hgap
  omega

/-- A request at null is placed soundly: if there is a gap for it, the answer is not null and its
range meets no region; and if there is none, the answer is null and the list is what it was. -/
structure PlacedSoundly (fuel : ℕ) (k : Kernel) (length flags args : ℕ) : Prop where
  fits : k.HasGap (wholePages length) →
    ∃ k' p, k.vmmAlloc fuel 0 length flags args = some (k', p) ∧ p ≠ 0 ∧
      p + wholePages length < 2 ^ 64 ∧ ∀ c ∈ k.vmObjects, ¬ k.Meets p (wholePages length) c
  full : ¬ k.HasGap (wholePages length) →
    ∃ k', k.vmmAlloc fuel 0 length flags args = some (k', 0) ∧ k'.vmObjects = k.vmObjects ∧
      k.SameRegions k' k.vmObjects

/-- The first region that the search finds room behind has a gap behind it, does not end at 0 and,
if it is empty, does not lie inside of another region. -/
def WellPlaced (k : Kernel) (length : ℕ) : Prop :=
  ∃ x ∈ k.firstRoom (pageAlign length), k.Gap (wholePages length) x.1 x.2 ∧
    k.regions.base x.1 + k.regions.length x.1 ≠ 0 ∧ (k.regions.length x.1 ≠ 0 ∨
      ∀ e ∈ k.vmObjects, ¬ (k.regions.base e ≤ k.regions.base x.1 ∧
        k.regions.base x.1 < k.regions.base e + k.regions.length e))

/-- The range that the search finds can be backed. -/
def BackedAtNull (fuel : ℕ) (k : Kernel) (length flags args : ℕ) : Prop :=
  ∀ x ∈ k.firstRoom (pageAlign length),
    Backable fuel flags ((pageAlign length + 0xfff) % 2 ^ 64 / 0x1000)
      { k with regions := insertRegion k.regions x.1 (k.regionEnd x.1) (pageAlign length) flags }
      (k.regionEnd x.1) (pageAlignDown args)

instance (fuel : ℕ) (k : Kernel) (length flags args : ℕ) :
    Decidable (BackedAtNull fuel k length flags args) := inferInstanceAs (Decidable (∀ x ∈ _, _))

/-- Whatever is mapped after an insertion, the list has one region more. -/
theorem Chained.length_vmObjects {s : ℕ} (h : k.Chained l) (hc : c ∈ l)
    (hk : ({ k with regions := Kernel.insertRegion k.regions c s n flags } : Kernel).Keeps k') :
    k'.vmObjects.length = k.vmObjects.length + 1 := by
  obtain ⟨l₁, l₂, rfl⟩ := List.append_of_mem hc
  have hlist := (@Chained.insertRegion k s n c l₁ l₂ flags h).keeps hk
  rw [hlist.vmObjects_eq, h.vmObjects_eq]
  simp only [List.length_append, List.length_cons]
  omega

/-- Without room, the base of the new region is uninitialised. -/
theorem vmmAlloc_null_none (h : k.Chained l) (hroom : k.firstRoom (pageAlign length) = none) :
    k.vmmAlloc fuel 0 length flags args = none := by
  have hfind := h.firstFit (pageAlign length)
  rw [hroom, Option.map_none] at hfind
  rw [Kernel.vmmAlloc]
  simp only [show pageAlignDown 0 = 0 from rfl, hfind, Option.bind_eq_bind, Option.bind_none]

/-- With room, a region is inserted, and its base is the answer. -/
theorem vmmAlloc_null_some {m : ℕ} (h : k.Chained l)
    (hT : k.Tables (fun r => r = k.cr3) (fun _ => False))
    (hb : BackedAtNull (m + 2) k length flags args)
    (hroom : k.firstRoom (pageAlign length) = some (c, d)) :
    ∃ k', k.vmmAlloc (m + 2) 0 length flags args = some (k', k.regionEnd c) ∧
      k'.vmObjects.length = k.vmObjects.length + 1 := by
  have hfind := h.firstFit (pageAlign length)
  rw [hroom, Option.map_some] at hfind
  have hcl := h.findPlace_mem hfind
  obtain ⟨k', hmap, -⟩ := mapPages_spec m flags (fun _ _ hp => hp) _
    (hT.with_regions (windowTop_insertRegion h.count_pos)) (hb (c, d) hroom)
  refine ⟨k', ?_, ?_⟩
  · rw [Kernel.vmmAlloc]
    simp only [show pageAlignDown 0 = 0 from rfl, hfind, Option.bind_eq_bind, Option.bind_some,
      hmap, if_true]
  · exact h.length_vmObjects hcl (keeps_mapPages _ _ _ hmap)

/-- Behind a region that is not empty or lies in no other one, a range that fits the gap is free. -/
theorem Listed.free_behind {l₁ l₂ : List ℕ} (h : k.Listed (l₁ ++ c :: d :: l₂))
    (hdisj : (l₁ ++ c :: d :: l₂).Pairwise fun a b => ¬ k.Meets (k.regions.base a)
      (k.regions.length a) b) (hgap : k.Gap n c d)
    (hempty : k.regions.length c ≠ 0 ∨ ∀ e ∈ l₁ ++ c :: d :: l₂,
      ¬ (k.regions.base e ≤ k.regions.base c ∧
        k.regions.base c < k.regions.base e + k.regions.length e)) :
    ∀ e ∈ l₁ ++ c :: d :: l₂, ¬ k.Meets (k.regions.base c + k.regions.length c) n e := by
  intro e he
  simp only [Gap] at hgap
  simp only [Meets, Overlap]
  rcases List.mem_append.1 he with he' | he'
  · -- a region in front ends before `c` starts, or is empty, or `c` is
    have hle := h.split.1 (List.mem_append_left [c] he')
    have hmeets := (List.pairwise_append.1 hdisj).2.2 e he' c List.mem_cons_self
    simp only [Meets, Overlap] at hmeets
    rcases hempty with hc | hc
    · omega
    · have := hc e he
      omega
  · rcases List.mem_cons.1 he' with rfl | he'
    · omega
    · have hge : k.regions.base d ≤ k.regions.base e := by
        rw [List.append_cons] at h
        rcases List.mem_cons.1 he' with rfl | he'
        · exact le_rfl
        · exact h.split.2 he'
      omega

theorem wholePages_pos (h : 0 < length) : 0 < wholePages length := by
  unfold wholePages
  omega

/-- A request that is placed soundly is well placed: the answer is there, is not null and is free. -/
theorem PlacedSoundly.wellPlaced {m : ℕ} (hsound : PlacedSoundly (m + 2) k length flags args)
    (h : k.Chained k.vmObjects)
    (hend : ∀ c ∈ k.vmObjects, k.regions.base c + k.regions.length c ≤ 2 ^ 64)
    (hT : k.Tables (fun r => r = k.cr3) (fun _ => False)) (hlen : 0 < length)
    (hb : BackedAtNull (m + 2) k length flags args) : k.WellPlaced length := by
  have hpos := wholePages_pos hlen
  cases hroom : k.firstRoom (pageAlign length) with
  | none =>
    -- there is no answer at all
    have hnone := @vmmAlloc_null_none k _ (m + 2) length flags args h hroom
    by_cases hgap : k.HasGap (wholePages length)
    · obtain ⟨k', p, hcall, -⟩ := hsound.fits hgap
      rw [hnone] at hcall
      cases hcall
    · obtain ⟨k', hcall, -⟩ := hsound.full hgap
      rw [hnone] at hcall
      cases hcall
  | some x =>
    obtain ⟨c, d⟩ := x
    obtain ⟨k', hcall, hlong⟩ := vmmAlloc_null_some h hT hb hroom
    obtain ⟨⟨l₁, l₂, hl⟩, hfit⟩ := firstRoom_mem hroom
    have hc : c ∈ k.vmObjects := by rw [hl]; simp
    have hgap : k.HasGap (wholePages length) := by
      by_contra hno
      obtain ⟨k'', hcall', hsame, -⟩ := hsound.full hno
      rw [hcall, Option.some.injEq, Prod.mk.injEq] at hcall'
      rw [hcall'.1, hsame] at hlong
      omega
    obtain ⟨k'', p, hcall', hp, hwrap, hfree⟩ := hsound.fits hgap
    rw [hcall, Option.some.injEq, Prod.mk.injEq] at hcall'
    obtain ⟨-, rfl⟩ := hcall'
    have hround := pageAlign_eq_wholePages (hgap.lt hend)
    have hlt : k.regions.base c + k.regions.length c < 2 ^ 64 := by
      have := hend c hc
      rw [regionEnd] at hp
      omega
    rw [regionEnd, Nat.mod_eq_of_lt hlt] at hp hwrap hfree
    rw [RoomBehind, hround, Nat.mod_eq_of_lt hwrap] at hfit
    refine ⟨(c, d), hroom, hfit, hp, ?_⟩
    by_cases h0 : k.regions.length c = 0
    · -- the range would start inside of the other region
      refine Or.inr fun e he ⟨hlo, hhi⟩ => hfree e he ?_
      simp only [Meets, Overlap] at hlo hhi ⊢
      omega
    · exact Or.inl h0

/-- A request that is well placed gets the range behind the region that the search finds. -/
theorem WellPlaced.placedSoundly {m : ℕ} (hw : k.WellPlaced length) (h : k.Listed k.vmObjects)
    (hdisj : k.RegionsDisjoint)
    (hend : ∀ c ∈ k.vmObjects, k.regions.base c + k.regions.length c ≤ 2 ^ 64)
    (hT : k.Tables (fun r => r = k.cr3) (fun _ => False)) (hlen : 0 < length)
    (hb : BackedAtNull (m + 2) k length flags args) :
    PlacedSoundly (m + 2) k length flags args := by
  have hpos := wholePages_pos hlen
  obtain ⟨⟨c, d⟩, hroom, hgap, hne, hempty⟩ := hw
  obtain ⟨k', hcall, -⟩ := vmmAlloc_null_some h.toChained hT hb hroom
  obtain ⟨⟨l₁, l₂, hl⟩, -⟩ := firstRoom_mem hroom
  have hhas : k.HasGap (wholePages length) := ⟨(c, d), mem_zip_tail_iff.2 ⟨l₁, l₂, hl⟩, hgap⟩
  have hd := hend d (by rw [hl]; simp)
  have hlt : k.regions.base c + k.regions.length c + wholePages length < k.regions.base d := hgap
  have hp : k.regionEnd c = k.regions.base c + k.regions.length c := by
    rw [regionEnd, Nat.mod_eq_of_lt (by omega)]
  have hfree : ∀ e ∈ k.vmObjects, ¬ k.Meets (k.regionEnd c) (wholePages length) e := by
    rw [RegionsDisjoint, hl] at hdisj
    rw [hl] at h hempty
    rw [hp, hl]
    exact h.free_behind hdisj hgap hempty
  constructor
  · intro _
    refine ⟨k', _, hcall, ?_, ?_, hfree⟩
    · rw [hp]
      exact hne
    · omega
  · intro hno
    exact absurd hhas hno

/-- **When a request at null is placed soundly.**  The regions on the list are sorted, disjoint and
do not wrap around, the page tables are in order and the range that is found can be backed. -/
theorem null_placement_sound (k : Kernel) (m length flags args : ℕ) (h : k.Listed k.vmObjects)
    (hdisj : k.RegionsDisjoint)
    (hend : ∀ c ∈ k.vmObjects, k.regions.base c + k.regions.length c ≤ 2 ^ 64)
    (hT : k.Tables (fun r => r = k.cr3) (fun _ => False)) (hlen : 0 < length)
    (hb : BackedAtNull (m + 2) k length flags args) :
    PlacedSoundly (m + 2) k length flags args ↔ k.WellPlaced length := by
  constructor
  · intro hsound
    exact hsound.wellPlaced h.toChained hend hT hlen hb
  · intro hw
    exact hw.placedSoundly h hdisj hend hT hlen hb

/-- The state at boot with a region at the second page. -/
def bootLow : Kernel := { boot with regions := insertRegion boot.regions 4 0x1000 0x1000 3 }

/-- The head has no room behind it, and the request goes behind the region at the second page. -/
theorem null_placement_sound_low : PlacedSoundly 2 bootLow 0x1000 3 0 := by
  have hl : bootLow.vmObjects = [4, 5, 3, 2, 1, 0] := by decide
  have hlist : bootLow.Listed bootLow.vmObjects := by
    rw [hl]
    exact ⟨⟨⟨rfl, rfl, rfl, rfl, rfl, rfl, rfl⟩, by decide⟩, by decide⟩
  have hT : bootLow.Tables (fun r => r = bootLow.cr3) (fun _ => False) :=
    (boot_tables (fun r => Iff.rfl) _).with_regions (windowTop_insertRegion (by decide))
  have hwell : bootLow.WellPlaced 0x1000 := ⟨(5, 3), by decide, by decide, by decide, by decide⟩
  exact (null_placement_sound bootLow 0 0x1000 3 0 hlist (by decide) (by decide) hT (by decide)
    (by decide +kernel)).2 hwell

/-- At boot, a request that fits is granted, and the answer is null. -/
theorem granted_null :
    boot.RegionsDisjoint ∧ boot.HasGap (wholePages 0x1000) ∧
    (∃ k', vmmAlloc 2 boot 0 0x1000 3 0 = some (k', 0) ∧ k'.vmObjects = [4, 5, 3, 2, 1, 0]) ∧
    ¬ PlacedSoundly 2 boot 0x1000 3 0 := by
  have hcall : (vmmAlloc 2 boot 0 0x1000 3 0).map (fun x => (x.2, x.1.vmObjects)) =
      some (0, [4, 5, 3, 2, 1, 0]) := by
    decide +kernel
  obtain ⟨⟨k', p⟩, hcall, hp⟩ := Option.map_eq_some_iff.1 hcall
  obtain ⟨rfl, hobjs⟩ := Prod.mk.inj hp
  have hgap : boot.HasGap (wholePages 0x1000) := by decide
  refine ⟨by decide, hgap, ⟨k', hcall, hobjs⟩, fun h => ?_⟩
  obtain ⟨k'', p, hcall', hne, -⟩ := h.fits hgap
  rw [hcall, Option.some.injEq, Prod.mk.injEq] at hcall'
  exact hne hcall'.2.symm

end Kernel

end TitanOS
