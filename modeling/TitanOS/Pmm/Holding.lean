import TitanOS.Lib.Run
import TitanOS.Pmm.Slots

/-!
# Which pages are held, and whether one is handed out twice

A run of the allocator is recorded together with the pages that are *held*: those returned by
`pmm_alloc_page` or claimed by `pmm_alloc_specific_page`, and not released by `pmm_free_page`
since.  No page would be handed out twice if every held page kept its own slot marked
(`Holding.Marked`).  Claiming and releasing act on `slotOf p` instead of `ownSlot p`, and an
address from 4 GiB on wraps to a small one; `Harmless` names, in the state before a call, when
neither breaks the marking, and `never_held` is the resulting theorem about whole runs.
-/

namespace TitanOS

namespace Pmm

/-- The calls of a run. -/
inductive Op
  | allocPage
  | allocSpecificPage (p : ℕ)
  | freePage (p : ℕ)
  deriving DecidableEq, Repr

/-- The allocator with the pages that are currently held. -/
structure Holding where
  pmm : Pmm
  held : List ℕ

namespace Holding

/-- One call.  The address `0` is both the first page and the failure value of `pmm_alloc_page`,
so whether a page was handed out is read off the scan and not off the address. -/
def step (h : Holding) : Op → Option Holding
  | .allocPage =>
    some ⟨h.pmm.pmmAllocPage.1,
      if h.pmm.findFree.isSome then h.pmm.pmmAllocPage.2 :: h.held else h.held⟩
  | .allocSpecificPage p => some ⟨(h.pmm.pmmAllocSpecificPage p).1, p :: h.held⟩
  | .freePage p => some ⟨h.pmm.pmmFreePage p, h.held.filter (· ≠ p)⟩

/-- An all-zero bitmap for `numPages` pages, nothing held. -/
def start (numPages : ℕ) (h : numPages / 64 < 2 ^ 32) : Holding := ⟨⟨numPages, fun _ => 0, h⟩, []⟩

/-- Arguments are page aligned, below 4 GiB and inside the bitmap. -/
def Valid (h : Holding) : Op → Prop
  | .allocPage => True
  | .allocSpecificPage p | .freePage p =>
    p % 0x1000 = 0 ∧ p < 2 ^ 32 ∧ p / 0x1000 < h.pmm.numPages

/-- If the call hands out a page, that page is not held. -/
def NotHeld (h : Holding) : Op → Prop
  | .allocPage => h.pmm.findFree.isSome → h.pmm.pmmAllocPage.2 ∉ h.held
  | _ => True

instance (h : Holding) : ∀ o, Decidable (h.Valid o)
  | .allocPage => .isTrue trivial
  | .allocSpecificPage p | .freePage p =>
    inferInstanceAs (Decidable (p % 0x1000 = 0 ∧ p < 2 ^ 32 ∧ p / 0x1000 < h.pmm.numPages))

instance (h : Holding) : ∀ o, Decidable (h.NotHeld o)
  | .allocPage => inferInstanceAs (Decidable (_ → _ ∉ _))
  | .allocSpecificPage _ | .freePage _ => .isTrue trivial

/-- The call does not run into the disagreement of the two translations, nor past 4 GiB:

* `pmm_alloc_page` is called while one of the first `2 ^ 20` slots is free, or when none at all is;
* a claimed page is one of the first 32, or its own slot is marked already, or lies behind the
  rows that `pmm_alloc_page` scans;
* a released page is one of the first 32, or the page whose slot is cleared instead is not held. -/
def Harmless (h : Holding) : Op → Prop
  | .allocPage =>
    (∃ n < 2 ^ 20, n < 32 * h.pmm.rows ∧ h.pmm.slotTaken n = false) ∨
      ∀ n < 32 * h.pmm.rows, h.pmm.slotTaken n = true
  | .allocSpecificPage p =>
    p < 0x20000 ∨ h.pmm.slotTaken (ownSlot p) = true ∨ 32 * h.pmm.rows ≤ ownSlot p
  | .freePage p => p < 0x20000 ∨ slotAddr (slotOf p) ∉ h.held

/-- Every held page is a page below 4 GiB and, where `pmm_alloc_page` looks, its slot is marked. -/
def Marked (h : Holding) : Prop :=
  ∀ q ∈ h.held, q % 0x1000 = 0 ∧ q < 2 ^ 32 ∧
    (ownSlot q < 32 * h.pmm.rows → h.pmm.slotTaken (ownSlot q) = true)

theorem ownSlot_slotAddr {n : ℕ} (h : n < 2 ^ 20) : ownSlot (slotAddr n) = n := by
  rw [slotAddr_of_lt h, ownSlot]
  omega

theorem slotAddr_ownSlot {q : ℕ} (hq : q % 0x1000 = 0) (h : q < 2 ^ 32) :
    slotAddr (ownSlot q) = q := by
  unfold ownSlot
  rw [slotAddr_of_lt (by omega)]
  omega

/-- A harmless `pmm_alloc_page` that hands out a page stops below the `2 ^ 20`th slot. -/
theorem firstFree_lt {h : Holding} {n : ℕ} (hh : h.Harmless .allocPage)
    (hn : h.pmm.firstFree = some n) : n < 2 ^ 20 := by
  obtain ⟨hfree, hrows, hbefore⟩ := firstFree_eq_some.1 hn
  rcases hh with ⟨k, hk, -, hkfree⟩ | hfull
  · by_contra hge
    rw [hbefore k (by omega)] at hkfree
    cases hkfree
  · rw [hfull n hrows] at hfree
    cases hfree

theorem notHeld_allocPage {h : Holding} (hm : h.Marked) (hh : h.Harmless .allocPage) :
    h.NotHeld .allocPage := by
  intro hsome hmem
  rw [findFree_eq, Option.isSome_map] at hsome
  obtain ⟨n, hn⟩ := Option.isSome_iff_exists.1 hsome
  have hlt := firstFree_lt hh hn
  obtain ⟨hfree, hrows, -⟩ := firstFree_eq_some.1 hn
  rw [pmmAllocPage_eq, hn] at hmem
  have htaken := (hm _ hmem).2.2
  rw [ownSlot_slotAddr hlt, hfree] at htaken
  exact absurd (htaken hrows) (by simp)

/-- The marking survives marking a further slot. -/
theorem marked_of_le {h : Holding} (hm : h.Marked) {m : Pmm} (hrows : m.rows = h.pmm.rows)
    (hle : ∀ k, h.pmm.slotTaken k = true → m.slotTaken k = true) : Marked ⟨m, h.held⟩ := by
  intro q hq
  obtain ⟨hal, hlt, htaken⟩ := hm q hq
  exact ⟨hal, hlt, fun hin => hle _ (htaken (by rw [← hrows]; exact hin))⟩

theorem marked_allocPage {h h' : Holding} (hm : h.Marked) (hh : h.Harmless .allocPage)
    (hs : h.step .allocPage = some h') : h'.Marked := by
  simp only [step, Option.some.injEq] at hs
  subst hs
  rw [pmmAllocPage_eq, findFree_eq, Option.isSome_map]
  cases hn : h.pmm.firstFree with
  | none => simpa using hm
  | some n =>
    have hlt := firstFree_lt hh hn
    have hold : Marked ⟨h.pmm.mark n, h.held⟩ := marked_of_le hm rfl fun k hk => by simp [hk]
    intro q hq
    rcases List.mem_cons.1 (by simpa using hq) with rfl | hq'
    · have haddr := slotAddr_of_lt hlt
      refine ⟨by rw [haddr]; omega, by rw [haddr]; omega, fun _ => ?_⟩
      rw [ownSlot_slotAddr hlt]
      simp
    · exact hold q hq'

theorem marked_allocSpecificPage {h h' : Holding} {p : ℕ} (hm : h.Marked)
    (hv : h.Valid (.allocSpecificPage p)) (hh : h.Harmless (.allocSpecificPage p))
    (hs : h.step (.allocSpecificPage p) = some h') : h'.Marked := by
  simp only [step, Option.some.injEq] at hs
  subst hs
  obtain ⟨hal, hlt, -⟩ := hv
  have hold := marked_of_le hm (pmmAllocSpecificPage_rows h.pmm p) fun k hk => by
    rw [slotTaken_pmmAllocSpecificPage, hk, Bool.true_or]
  intro q hq
  rcases List.mem_cons.1 hq with rfl | hq'
  · refine ⟨hal, hlt, fun hin => ?_⟩
    rw [slotTaken_pmmAllocSpecificPage]
    rcases hh with hlow | htaken | hout
    · simp [(slotOf_eq_ownSlot_iff hlt).2 hlow]
    · rw [htaken, Bool.true_or]
    · exact absurd hin (by rw [pmmAllocSpecificPage_rows]; omega)
  · exact hold q hq'

theorem marked_freePage {h h' : Holding} {p : ℕ} (hm : h.Marked)
    (hv : h.Valid (.freePage p)) (hh : h.Harmless (.freePage p))
    (hs : h.step (.freePage p) = some h') : h'.Marked := by
  simp only [step, Option.some.injEq] at hs
  subst hs
  obtain ⟨hal, hlt, -⟩ := hv
  rw [pmmFreePage_eq]
  intro q hq
  obtain ⟨hq, hqp⟩ : q ∈ h.held ∧ q ≠ p := by simpa using hq
  obtain ⟨hqal, hqlt, htaken⟩ := hm q hq
  refine ⟨hqal, hqlt, fun hin => ?_⟩
  -- the slot that is cleared belongs to no page that stays held
  have hne : ownSlot q ≠ slotOf p := by
    intro he
    rcases hh with hlow | hfree
    · rw [(slotOf_eq_ownSlot_iff hlt).2 hlow] at he
      exact hqp (by rw [← slotAddr_ownSlot hqal hqlt, he, slotAddr_ownSlot hal hlt])
    · exact hfree (by rwa [← he, slotAddr_ownSlot hqal hqlt])
  rw [slotTaken_clear, htaken hin]
  simp [hne]

/-- One step of a run: a harmless call hands out no held page and keeps the marking. -/
theorem step_marked (h : Holding) (o : Op) (hm : h.Marked) (hc : h.Valid o ∧ h.Harmless o) :
    h.NotHeld o ∧ ∀ h', h.step o = some h' → h'.Marked := by
  cases o with
  | allocPage => exact ⟨notHeld_allocPage hm hc.2, fun _ => marked_allocPage hm hc.2⟩
  | allocSpecificPage p => exact ⟨trivial, fun _ => marked_allocSpecificPage hm hc.1 hc.2⟩
  | freePage p => exact ⟨trivial, fun _ => marked_freePage hm hc.1 hc.2⟩

/-- **No page is handed out twice** in a run all of whose calls are harmless. -/
theorem never_held (numPages : ℕ) (hn : numPages / 64 < 2 ^ 32) (os : List Op)
    (hc : Run.Along step (fun h o => h.Valid o ∧ h.Harmless o) (start numPages hn) os) :
    Run.Along step NotHeld (start numPages hn) os :=
  Run.Along.of_inv step_marked (fun _ hq => by simp [start] at hq) hc

/-- A page that is released may be handed out again. -/
theorem never_held_reuse : Run.Along step NotHeld (start 0x8000 (by decide))
    [.allocPage, .freePage 0, .allocPage] := by
  apply never_held
  simp only [Run.along_cons, step, Option.some.injEq, forall_eq']
  refine ⟨⟨trivial, Or.inl ⟨0, by decide, by decide, by decide⟩⟩,
    ⟨by decide +kernel, Or.inl (by decide)⟩,
    ⟨trivial, Or.inl ⟨0, by decide, by decide +kernel, by decide +kernel⟩⟩, trivial⟩

/-- Page 0 is allocated, page 32 is claimed and released, and page 0 is handed out again. -/
theorem page_held_twice :
    Run.Along step Valid (start 0x8000 (by decide))
        [.allocPage, .allocSpecificPage 0x20000, .freePage 0x20000, .allocPage] ∧
      ¬ Run.Along step NotHeld (start 0x8000 (by decide))
        [.allocPage, .allocSpecificPage 0x20000, .freePage 0x20000, .allocPage] := by
  decide +kernel

end Holding

end Pmm

end TitanOS
