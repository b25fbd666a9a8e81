import TitanOS.Heap.Blocks
import TitanOS.Lib.Run

/-!
# Live allocations

A run of the heap is recorded together with its *live* allocations: the pointers returned by
`kmalloc` and not yet passed to `kfree`, each with the number of bytes it was asked for.

The payloads of live allocations are disjoint as long as the chain of headers tiles the heap and
each live pointer points behind the header of a used block that is large enough (`Live.Backed`).
Two paths of `kmalloc` break this: a block of fewer than five bytes that fits is always split,
since its size minus five wraps around, and free blocks merged without a split keep the recorded
size of the first of them.  `Placement.Sound` excludes both, and `live_disjoint` is the resulting
theorem about whole runs that do not grow the heap.
-/

namespace TitanOS

open Heap

namespace Block

/-- The block whose header is `offset` bytes behind the first one, if a header is there. -/
def blockAt : List Block → ℕ → Option Block
  | [], _ => none
  | b :: bs, offset =>
    if offset = 0 then some b
    else if offset < b.size + 5 then none
    else blockAt bs (offset - (b.size + 5))

variable {l₁ l₂ m m' bs : List Block} {b c : Block} {i j : ℕ}

theorem blockAt_append_right : blockAt (l₁ ++ l₂) (span l₁ + i) = blockAt l₂ i := by
  induction l₁ with
  | nil => simp
  | cons b l ih =>
    rw [List.cons_append, blockAt, if_neg (by simp), if_neg (by simp; omega), ← ih]
    congr 1
    simp
    omega

theorem blockAt_append_left (hi : i < span l₁) : blockAt (l₁ ++ l₂) i = blockAt l₁ i := by
  induction l₁ generalizing i with
  | nil => simp at hi
  | cons b l ih =>
    simp only [List.cons_append, blockAt]
    split
    · rfl
    · split
      · rfl
      · exact ih (by simp at hi; omega)

/-- A header and its payload lie inside the blocks. -/
theorem add_le_span (hb : blockAt bs i = some b) : i + (b.size + 5) ≤ span bs := by
  induction bs generalizing i with
  | nil => simp [blockAt] at hb
  | cons c bs ih =>
    simp only [blockAt] at hb
    split at hb
    · cases hb
      simp
      omega
    · split at hb
      · cases hb
      · have := ih hb
        simp
        omega

theorem mem_of_blockAt (hb : blockAt bs i = some b) : b ∈ bs := by
  induction bs generalizing i with
  | nil => simp [blockAt] at hb
  | cons c bs ih =>
    simp only [blockAt] at hb
    split at hb
    · cases hb
      simp
    · split at hb
      · cases hb
      · exact List.mem_cons_of_mem _ (ih hb)

/-- Two blocks do not overlap. -/
theorem blockAt_disjoint (hb : blockAt bs i = some b) (hc : blockAt bs j = some c) (hij : i < j) :
    i + (b.size + 5) ≤ j := by
  induction bs generalizing i j with
  | nil => simp [blockAt] at hb
  | cons d bs ih =>
    rw [blockAt, if_neg (by omega)] at hc
    split at hc
    · cases hc
    · simp only [blockAt] at hb
      split at hb
      · cases hb
        omega
      · split at hb
        · cases hb
        · have := ih hb hc (by omega)
          omega

/-- Replacing some blocks by others of the same span keeps the blocks outside of them. -/
theorem blockAt_replace (hspan : span m' = span m) (hi : i < span l₁ ∨ span l₁ + span m ≤ i) :
    blockAt (l₁ ++ (m' ++ l₂)) i = blockAt (l₁ ++ (m ++ l₂)) i := by
  rcases hi with hi | hi
  · rw [blockAt_append_left hi, blockAt_append_left hi]
  · obtain ⟨k, rfl⟩ := Nat.exists_eq_add_of_le hi
    rw [Nat.add_assoc, blockAt_append_right, blockAt_append_right, blockAt_append_right,
      ← hspan, blockAt_append_right]

/-- A used block lies outside of a run of free ones. -/
theorem blockAt_outside (hm : ∀ c ∈ m, c.used = false) (hb : blockAt (l₁ ++ (m ++ l₂)) i = some b)
    (hu : b.used = true) : i < span l₁ ∨ span l₁ + span m ≤ i := by
  by_contra hcon
  obtain ⟨k, rfl⟩ : ∃ k, i = span l₁ + k := ⟨i - span l₁, by omega⟩
  rw [blockAt_append_right, blockAt_append_left (by omega)] at hb
  rw [hm b (mem_of_blockAt hb)] at hu
  cases hu

theorem exists_of_blockAt (hb : blockAt bs i = some b) :
    ∃ l₁ l₂, bs = l₁ ++ b :: l₂ ∧ span l₁ = i := by
  induction bs generalizing i with
  | nil => simp [blockAt] at hb
  | cons c bs ih =>
    simp only [blockAt] at hb
    split at hb
    · cases hb
      exact ⟨[], bs, rfl, by simp; omega⟩
    · split at hb
      · cases hb
      · obtain ⟨l₁, l₂, rfl, hl⟩ := ih hb
        exact ⟨c :: l₁, l₂, rfl, by simp; omega⟩

/-! ### What a placement says about the blocks -/

variable {n offset : ℕ} {p r : Placement}

/-- The run of free blocks `b :: m` that a placement merges, between `l₁` and `l₂`. -/
def FreeRun (n offset : ℕ) (p : Placement) (bs : List Block) : Prop :=
  ∃ l₁ b m l₂, bs = l₁ ++ ((b :: m) ++ l₂) ∧ (∀ c ∈ b :: m, c.used = false) ∧
    p = ⟨offset + span l₁, b.size, b.size + span m⟩ ∧ n ≤ p.total ∧ (n ≤ b.size → m = [])

theorem FreeRun.cons (b : Block) (h : FreeRun n (offset + (b.size + 5)) p bs) :
    FreeRun n offset p (b :: bs) := by
  obtain ⟨l₁, c, m, l₂, rfl, hfree, rfl, hn, hm⟩ := h
  exact ⟨b :: l₁, c, m, l₂, rfl, hfree, by simp [Nat.add_assoc], hn, hm⟩

/-- While merging, `place` ends the run it is in or finds a later one. -/
theorem place_spec (run : Option Placement) (h : place n offset run bs = some p) :
    FreeRun n offset p bs ∨ ∃ r m l₂, run = some r ∧ bs = m ++ l₂ ∧ (∀ c ∈ m, c.used = false) ∧
      p = { r with total := r.total + span m } ∧ n ≤ p.total := by
  induction bs generalizing offset run with
  | nil => simp [place] at h
  | cons b bs ih =>
    cases hb : b.used with
    | true =>
      rw [place_used hb] at h
      rcases ih none h with hrun | ⟨r, -, -, hr, -⟩
      · exact Or.inl (hrun.cons b)
      · cases hr
    | false =>
      cases run with
      | none =>
        rw [place_free_none hb] at h
        split at h
        · cases h
          exact Or.inl ⟨[], b, [], bs, by simp, by simpa using hb, by simp, by simpa, fun _ => rfl⟩
        · rename_i hfit
          rcases ih _ h with hrun | ⟨r, m, l₂, hr, rfl, hfree, rfl, hn⟩
          · exact Or.inl (hrun.cons b)
          · cases hr
            exact Or.inl ⟨[], b, m, l₂, by simp, by simpa [hb] using hfree, by simp, hn,
              fun hle => absurd hle hfit⟩
      | some r =>
        rw [place_free_some hb] at h
        split at h
        · cases h
          refine Or.inr ⟨r, [b], bs, rfl, by simp, by simpa using hb, by simp, by simpa⟩
        · rcases ih _ h with hrun | ⟨r', m, l₂, hr, rfl, hfree, rfl, hn⟩
          · exact Or.inl (hrun.cons b)
          · cases hr
            refine Or.inr ⟨r, b :: m, l₂, rfl, by simp, by simpa [hb] using hfree, ?_, hn⟩
            simp
            omega

theorem placement_spec (h : placement n bs = some p) : FreeRun n 0 p bs := by
  rcases place_spec none h with hrun | ⟨r, -, -, hr, -⟩
  · exact hrun
  · cases hr

end Block

/-! ### What the assignments do to the chain of headers -/

namespace Heap

open Block

variable {h h' : Heap} {a e n total : ℕ} {l₁ l₂ m m' bs : List Block}

/-- Rewriting some blocks in place keeps the chain when the bytes outside of them are kept. -/
theorem Tiles.replace (ht : h.Tiles a (l₁ ++ (m ++ l₂)) e)
    (hm : h'.Tiles (a + span l₁) m' (a + span l₁ + span m))
    (hout : ∀ x, x < a + span l₁ ∨ a + span l₁ + span m ≤ x → h'.mem x = h.mem x) :
    h'.Tiles a (l₁ ++ (m' ++ l₂)) e := by
  rw [tiles_append, tiles_append] at ht
  obtain ⟨ht₁, -, ht₂⟩ := ht
  have hspan : span m' = span m := by
    have := hm.end_eq
    omega
  rw [tiles_append, tiles_append, hspan]
  exact ⟨ht₁.congr fun x _ hx => hout x (Or.inl hx), hm,
    ht₂.congr fun x hx _ => hout x (Or.inr hx)⟩

/-- Splitting writes two headers that tile the block. -/
theorem split_tiles (hn : n + 5 < total) (htot : total < 2 ^ 32) (ha : a + total < 2 ^ 64) :
    (h.split a n total).Tiles a [⟨true, n⟩, ⟨false, total - n - 5⟩] (a + (total + 5)) ∧
      ∀ x, x < a ∨ a + (total + 5) ≤ x → (h.split a n total).mem x = h.mem x := by
  have hnext : ((h.setUsed a true).setSize a n).goToNextMemoryRegion a = a + (n + 5) := by
    rw [goToNextMemoryRegion, size_setSize_self]
    omega
  have hsub : (((total : ℤ) - n - 5) % 2 ^ 32).toNat = total - n - 5 := by omega
  have hmem : ∀ x, x < a + (n + 5) ∨ a + (n + 5) + 5 ≤ x →
      (h.split a n total).mem x = ((h.setUsed a true).setSize a n).mem x := by
    intro x hx
    rw [split, hnext, setSize_mem_of_ne _ _ _ _ (by omega), setUsed_mem_of_ne _ _ _ (by omega)]
  refine ⟨⟨?_, ?_, ?_, ?_, ?_⟩, fun x hx => ?_⟩
  · rw [used, hmem a (by omega), ← used, used_setSize_self, used_setUsed_self]
  · simp only [size, hmem (a + 1) (by omega), hmem (a + 2) (by omega), hmem (a + 3) (by omega),
      hmem (a + 4) (by omega)]
    rw [← size, size_setSize_self, Nat.mod_eq_of_lt (by omega)]
  · rw [split, hnext, used_setSize_self, used_setUsed_self]
  · rw [split, hnext, size_setSize_self, hsub, Nat.mod_eq_of_lt (by omega)]
  · show a + (n + 5) + (total - n - 5 + 5) = a + (total + 5)
    omega
  · rw [hmem x (by omega), setSize_mem_of_ne _ _ _ _ (by omega), setUsed_mem_of_ne _ _ _ (by omega)]

/-- Changing `used` keeps the block. -/
theorem setUsed_tiles (u : Bool) : (h.setUsed a u).Tiles a [⟨u, h.size a⟩] (a + (h.size a + 5)) :=
  ⟨used_setUsed_self h a u, size_setUsed_self h a u, rfl⟩

/-- A block taken whole or split keeps the chain, with a used block of at least `n` bytes first. -/
def HandsOut (h h' : Heap) (a n : ℕ) (m : List Block) : Prop :=
  ∃ b rest, b.used = true ∧ n ≤ b.size ∧ h'.Tiles a (b :: rest) (a + span m) ∧
    ∀ x, x < a ∨ a + span m ≤ x → h'.mem x = h.mem x

theorem split_handsOut (hn : n + 5 < total) (hspan : span m = total + 5) (htot : total < 2 ^ 32)
    (ha : a + total < 2 ^ 64) : h.HandsOut (h.split a n total) a n m := by
  obtain ⟨ht, hout⟩ := split_tiles (h := h) hn htot ha
  exact ⟨_, _, rfl, le_rfl, by rwa [hspan], by rwa [hspan]⟩

theorem takeBlock_handsOut {b : Block} (hs : h.size a = b.size) (hn : n ≤ b.size)
    (hfive : 5 ≤ b.size) (ha : a + b.size < 2 ^ 64) : h.HandsOut (h.takeBlock a n) a n [b] := by
  have hlt := size_lt h a
  unfold takeBlock
  split
  · exact split_handsOut (by omega) (by simp [hs]) hlt (by omega)
  · refine ⟨⟨true, h.size a⟩, [], rfl, ?_, ?_, fun x hx => setUsed_mem_of_ne _ _ _ ?_⟩
    · exact hn.trans_eq hs.symm
    · simpa [hs] using setUsed_tiles (h := h) (a := a) true
    · simp at hx
      omega

end Heap

/-- The placement is on neither of the two broken paths of `kmalloc(n)`: a single block that fits
has room for a header, and merged blocks are split. -/
def Placement.Sound (n : ℕ) (p : Placement) : Prop :=
  if n ≤ p.size then 5 ≤ p.size else n + 5 < p.total

instance (n : ℕ) (p : Placement) : Decidable (p.Sound n) :=
  inferInstanceAs (Decidable (if n ≤ p.size then 5 ≤ p.size else n + 5 < p.total))

namespace Heap

open Block

variable {h : Heap} {a e n : ℕ} {bs : List Block} {p : Placement}

/-- Handing out a sound placement rewrites its run of free blocks in place. -/
theorem handOut_handsOut (ht : h.Tiles a bs e) (hlt : e < 2 ^ 64) (h32 : span bs < 2 ^ 32)
    (hp : placement n bs = some p) (hsound : p.Sound n) :
    ∃ l₁ m l₂, bs = l₁ ++ (m ++ l₂) ∧ (∀ c ∈ m, c.used = false) ∧ p.offset = span l₁ ∧
      h.HandsOut (h.handOut a n p) (a + span l₁) n m := by
  obtain ⟨l₁, b, m, l₂, rfl, hfree, rfl, hn, hm⟩ := placement_spec hp
  refine ⟨l₁, b :: m, l₂, rfl, hfree, by simp, ?_⟩
  have hend := ht.end_eq
  rw [tiles_append] at ht
  obtain ⟨-, -, hs, -⟩ := ht
  simp only [span_append, span_cons] at hend h32
  simp only [Placement.Sound] at hsound
  simp only [handOut, Nat.zero_add]
  split
  · rename_i hfit
    rw [if_pos hfit] at hsound
    rw [hm hfit]
    exact takeBlock_handsOut hs hfit hsound (by omega)
  · rename_i hfit
    rw [if_neg hfit] at hsound
    rw [takeMerged, if_pos (by omega)]
    exact split_handsOut hsound (by simp; omega) (by omega) (by omega)

end Heap

/-! ### Runs -/

/-- The calls of a run. -/
inductive HeapOp
  | kmalloc (n : ℕ)
  | kfree (p : ℕ)
  deriving DecidableEq, Repr

/-- The heap with the live allocations: pointers, and the sizes they were requested with. -/
structure Live where
  heap : Heap
  live : List (ℕ × ℕ)

namespace Live

open Block

/-- One call. -/
def step (lengthens : ℕ → Bool) (fuel : ℕ) (s : Live) : HeapOp → Option Live
  | .kmalloc n => (s.heap.kmalloc lengthens fuel n).map fun r => ⟨r.1, (r.2, n) :: s.live⟩
  | .kfree p => some ⟨s.heap.kfree p, s.live.filter (·.1 ≠ p)⟩

/-- The heap after `kheap_init`, nothing allocated. -/
def start (mem : ℕ → UInt8) : Live := ⟨kheapInit mem, []⟩

/-- At least one byte is requested without growing the heap; only live pointers are freed. -/
def Valid (lengthens : ℕ → Bool) (fuel : ℕ) (s : Live) : HeapOp → Prop
  | .kmalloc n => 1 ≤ n ∧ ∃ r ∈ s.heap.kmalloc lengthens fuel n, r.1.calls = s.heap.calls
  | .kfree p => p ∈ s.live.map Prod.fst

/-- The place that `kmalloc` chooses is sound. -/
def Harmless (s : Live) : HeapOp → Prop
  | .kmalloc n => ∀ p ∈ placement n s.heap.blocks, p.Sound n
  | .kfree _ => True

/-- The payloads of live allocations are pairwise disjoint and lie inside the heap. -/
def Separate (s : Live) : Prop :=
  s.live.Pairwise (fun q r => q.1 + q.2 ≤ r.1 ∨ r.1 + r.2 ≤ q.1) ∧
    ∀ q ∈ s.live, heapStart + 5 ≤ q.1 ∧ q.1 + q.2 ≤ s.heap.heapEnd

/-- The pointer of a live allocation points behind the header of a used block that is at least as
large as the request. -/
def IsBacked (bs : List Block) (q : ℕ × ℕ) : Prop :=
  ∃ i b, q.1 = heapStart + i + 5 ∧ blockAt bs i = some b ∧ b.used = true ∧ q.2 ≤ b.size

/-- The invariant: blocks tile the one page of the heap, and distinct ones back the live
allocations. -/
structure Backed (s : Live) (bs : List Block) : Prop where
  tiles : s.heap.Tiles heapStart bs s.heap.heapEnd
  heapEnd : s.heap.heapEnd = heapStart + 0x1000
  distinct : s.live.Pairwise (fun q r => q.1 ≠ r.1)
  backed : ∀ q ∈ s.live, IsBacked bs q

theorem Backed.separate {s : Live} {bs : List Block} (hs : s.Backed bs) : s.Separate := by
  have hend := hs.tiles.end_eq
  refine ⟨hs.distinct.imp_of_mem fun {q r} hq hr hne => ?_, fun q hq => ?_⟩
  · obtain ⟨i, b, hqi, hb, -, hqb⟩ := hs.backed q hq
    obtain ⟨j, c, hrj, hc, -, hrc⟩ := hs.backed r hr
    rcases Nat.lt_or_gt_of_ne (show i ≠ j by omega) with hij | hij
    · have := blockAt_disjoint hb hc hij
      omega
    · have := blockAt_disjoint hc hb hij
      omega
  · obtain ⟨i, b, hqi, hb, -, hqb⟩ := hs.backed q hq
    have := add_le_span hb
    omega

theorem backed_start (mem : ℕ → UInt8) : (start mem).Backed [⟨false, 0x1000 - 5⟩] where
  tiles := by
    refine ⟨by simp [start, kheapInit], ?_, ?_⟩
    · simp only [start, kheapInit, size_setSize_self]
      generalize heapStart = base
      omega
    · simp [Tiles, start, kheapInit]
  heapEnd := rfl
  distinct := List.Pairwise.nil
  backed := by simp [start]

/-- Handing out a sound placement keeps the live allocations backed, and backs a new one. -/
theorem Backed.handOut {s : Live} {bs : List Block} {n : ℕ} {p : Placement} (hs : s.Backed bs)
    (hp : placement n bs = some p) (hsound : p.Sound n) :
    ∃ bs', Backed ⟨s.heap.handOut heapStart n p, (heapStart + p.offset + 5, n) :: s.live⟩ bs' := by
  obtain ⟨ht, hend, hdist, hback⟩ := hs
  have hspan := ht.end_eq
  have hstart : heapStart + 2 ^ 32 < 2 ^ 64 := by norm_num [heapStart]
  obtain ⟨l₁, m, l₂, rfl, hfree, hoff, b, rest, hu, hn, htm, hmem⟩ :=
    handOut_handsOut ht (by omega) (by omega) hp hsound
  have hsame : span (b :: rest) = span m := by
    have := htm.end_eq
    omega
  have hpos : 0 < span m := by
    rw [← hsame]
    exact span_pos (by simp)
  refine ⟨l₁ ++ ((b :: rest) ++ l₂), ?_, by simpa using hend, ?_, ?_⟩
  · simpa using ht.replace htm hmem
  · refine List.pairwise_cons.2 ⟨fun q hq => ?_, hdist⟩
    -- a live allocation is backed by a used block, outside of the free run
    obtain ⟨i, c, hqi, hc, hcu, -⟩ := hback q hq
    have := blockAt_outside hfree hc hcu
    simp only
    omega
  · intro q hq
    rcases List.mem_cons.1 hq with rfl | hq
    · have hhead := @blockAt_append_right l₁ ((b :: rest) ++ l₂) 0
      exact ⟨span l₁, b, by simp [hoff], by simpa [blockAt] using hhead, hu, hn⟩
    · obtain ⟨i, c, hqi, hc, hcu, hqc⟩ := hback q hq
      refine ⟨i, c, hqi, ?_, hcu, hqc⟩
      rw [blockAt_replace hsame (blockAt_outside hfree hc hcu), hc]

theorem Backed.ne_nil {s : Live} {bs : List Block} (hs : s.Backed bs) : bs ≠ [] := by
  rintro rfl
  have := hs.tiles.end_eq
  rw [hs.heapEnd] at this
  simp at this

theorem backed_kmalloc {lengthens : ℕ → Bool} {fuel : ℕ} {s s' : Live} {bs : List Block} {n : ℕ}
    (hfuel : 0x1000 ≤ fuel) (hs : s.Backed bs) (hv : s.Valid lengthens fuel (.kmalloc n))
    (hh : s.Harmless (.kmalloc n)) (hstep : s.step lengthens fuel (.kmalloc n) = some s') :
    ∃ bs', s'.Backed bs' := by
  have hend := hs.heapEnd
  have hspan := hs.tiles.end_eq
  have hlen := length_le_span bs
  have hout := @kmalloc_eq s.heap bs lengthens n fuel (by omega) hs.tiles (by omega)
  obtain ⟨-, r, hr, hcalls⟩ := hv
  cases hp : placement n bs with
  | none =>
    rw [hp] at hout
    exact absurd (hout r.1 r.2 hr) (by omega)
  | some p =>
    have hsound : p.Sound n := hh p (by rw [hs.tiles.blocks_eq hs.ne_nil]; exact hp)
    rw [hp] at hout
    simp only [Outcome] at hout
    rw [step, hout, Option.map_some, Option.some.injEq] at hstep
    rw [← hstep]
    exact hs.handOut hp hsound

/-- `kfree` changes one flag. -/
theorem kfree_tiles {h : Heap} {e p : ℕ} {l₁ l₂ : List Block} {b : Block}
    (ht : h.Tiles heapStart (l₁ ++ b :: l₂) e) (hp : p = heapStart + span l₁ + 5) :
    (h.kfree p).Tiles heapStart (l₁ ++ ([⟨false, b.size⟩] ++ l₂)) e := by
  have hsize : h.size (heapStart + span l₁) = b.size := by
    rw [tiles_append] at ht
    exact ht.2.2.1
  have haddr : p - 5 = heapStart + span l₁ := by omega
  rw [kfree, haddr]
  refine Tiles.replace (m := [b]) ht ?_ fun x hx => setUsed_mem_of_ne _ _ _ ?_
  · simpa [hsize] using setUsed_tiles (h := h) (a := heapStart + span l₁) false
  · simp at hx
    omega

/-- The blocks other than the freed one are as before. -/
theorem blockAt_freed {l₁ l₂ : List Block} {b c : Block} {j : ℕ}
    (hc : blockAt (l₁ ++ b :: l₂) j = some c) (hne : j ≠ span l₁) :
    blockAt (l₁ ++ ([⟨false, b.size⟩] ++ l₂)) j = some c := by
  rw [← hc]
  refine blockAt_replace (m := [b]) (by simp) ?_
  rcases Nat.lt_or_gt_of_ne hne with hlt | hgt
  · exact Or.inl hlt
  · have hb : blockAt (l₁ ++ b :: l₂) (span l₁) = some b := by
      simpa [blockAt] using @blockAt_append_right l₁ (b :: l₂) 0
    exact Or.inr (by simpa using blockAt_disjoint hb hc hgt)

theorem backed_kfree {lengthens : ℕ → Bool} {fuel : ℕ} {s s' : Live} {bs : List Block} {p : ℕ}
    (hs : s.Backed bs) (hv : s.Valid lengthens fuel (.kfree p))
    (hstep : s.step lengthens fuel (.kfree p) = some s') : ∃ bs', s'.Backed bs' := by
  obtain ⟨ht, hend, hdist, hback⟩ := hs
  simp only [step, Option.some.injEq] at hstep
  subst hstep
  obtain ⟨q, hq, rfl⟩ := List.mem_map.1 hv
  obtain ⟨i, b, hqi, hb, -, -⟩ := hback q hq
  obtain ⟨l₁, l₂, rfl, rfl⟩ := exists_of_blockAt hb
  refine ⟨l₁ ++ ([⟨false, b.size⟩] ++ l₂), kfree_tiles ht hqi, hend, hdist.filter _, ?_⟩
  intro r hr
  obtain ⟨hr, hne⟩ : r ∈ s.live ∧ r.1 ≠ q.1 := by simpa using hr
  obtain ⟨j, c, hrj, hc, hcu, hrc⟩ := hback r hr
  exact ⟨j, c, hrj, blockAt_freed hc (by omega), hcu, hrc⟩

/-- One step of a run keeps the live allocations backed. -/
theorem step_backed {lengthens : ℕ → Bool} {fuel : ℕ} (hfuel : 0x1000 ≤ fuel) (s : Live)
    (o : HeapOp) (s' : Live) (hs : ∃ bs, s.Backed bs)
    (hc : s.Valid lengthens fuel o ∧ s.Harmless o) (hstep : s.step lengthens fuel o = some s') :
    ∃ bs, s'.Backed bs := by
  obtain ⟨bs, hs⟩ := hs
  cases o with
  | kmalloc n => exact backed_kmalloc hfuel hs hc.1 hc.2 hstep
  | kfree p => exact backed_kfree hs hc.1 hstep

/-- **Live allocations are disjoint** in every state of a run that does not grow the heap and whose
calls of `kmalloc` all choose a sound place. -/
theorem live_disjoint (lengthens : ℕ → Bool) (fuel : ℕ) (hfuel : 0x1000 ≤ fuel) (mem : ℕ → UInt8)
    (os : List HeapOp)
    (hc : Run.Along (step lengthens fuel) (fun s o => s.Valid lengthens fuel o ∧ s.Harmless o)
      (start mem) os) :
    Run.Always (step lengthens fuel) Separate (start mem) os :=
  Run.Always.of_inv (fun _ ⟨_, hs⟩ => hs.separate) (step_backed hfuel)
    ⟨_, backed_start mem⟩ hc

instance (lengthens : ℕ → Bool) (fuel : ℕ) (s : Live) :
    ∀ o, Decidable (s.Valid lengthens fuel o)
  | .kmalloc n => inferInstanceAs (Decidable (1 ≤ n ∧ ∃ r ∈ s.heap.kmalloc lengthens fuel n, _))
  | .kfree p => inferInstanceAs (Decidable (p ∈ s.live.map Prod.fst))

instance (s : Live) : ∀ o, Decidable (s.Harmless o)
  | .kmalloc n => inferInstanceAs (Decidable (∀ p ∈ placement n s.heap.blocks, p.Sound n))
  | .kfree _ => .isTrue trivial

/-- Three blocks, two of them freed and merged into one with room for a further header. -/
theorem live_disjoint_merged : Run.Always (step (fun _ => true) 0x1000) Separate
    (start fun _ => 0) [.kmalloc 16, .kmalloc 16, .kmalloc 16, .kfree (heapStart + 5),
      .kfree (heapStart + 26), .kmalloc 20, .kmalloc 8] := by
  apply live_disjoint _ _ le_rfl
  decide +kernel

instance (s : Live) : Decidable s.Separate :=
  inferInstanceAs (Decidable (s.live.Pairwise _ ∧ ∀ q ∈ s.live, _))

/-- Two freed blocks of eight bytes are merged for a request of seventeen; the second of them is
still on the chain, and is handed out again while the merged block is live. -/
theorem merged_block_overlapped :
    Run.Along (step (fun _ => true) 0x1000) (Valid (fun _ => true) 0x1000) (start fun _ => 0)
        [.kmalloc 8, .kmalloc 8, .kmalloc 8, .kfree (heapStart + 5), .kfree (heapStart + 18),
          .kmalloc 17, .kmalloc 8] ∧
      ¬ Run.Always (step (fun _ => true) 0x1000) Separate (start fun _ => 0)
        [.kmalloc 8, .kmalloc 8, .kmalloc 8, .kfree (heapStart + 5), .kfree (heapStart + 18),
          .kmalloc 17, .kmalloc 8] := by
  decide +kernel

end Live

end TitanOS
