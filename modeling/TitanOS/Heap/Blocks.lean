import TitanOS.Heap.Model

/-!
# The heap as a list of blocks

`Tiles h a bs e`: the headers met by adding `size + 5` again and again from `a` are those of the
list `bs` of blocks, and they end exactly at `e`.  While the chain tiles the heap, `kmalloc` is a
function of this list.  `placement n bs` computes, without memory, where the two loops stop: the
offset of the block they hand out, its recorded size and the size of the free blocks merged into
it; `none` means that they run off the end and the heap has to grow.

`kmalloc_eq` says that `kmalloc` does what `placement` says and nothing else.
-/

namespace TitanOS

/-- A block: whether it is used, and its recorded size. -/
structure Block where
  used : Bool
  size : ℕ
  deriving DecidableEq, Repr

/-- Where `kmalloc` finds room: the offset of a free block from the first header, its recorded
size, and the size it has together with the free blocks merged into it. -/
structure Placement where
  offset : ℕ
  size : ℕ
  total : ℕ
  deriving DecidableEq, Repr

namespace Block

/-- The number of bytes that blocks occupy, headers included. -/
def span : List Block → ℕ
  | [] => 0
  | b :: bs => b.size + 5 + span bs

@[simp] theorem span_nil : span [] = 0 := rfl
@[simp] theorem span_cons (b : Block) (bs : List Block) :
    span (b :: bs) = b.size + 5 + span bs := rfl

@[simp] theorem span_append (l₁ l₂ : List Block) : span (l₁ ++ l₂) = span l₁ + span l₂ := by
  induction l₁ with
  | nil => simp
  | cons b l ih => simp [ih]; omega

theorem length_le_span (bs : List Block) : 5 * bs.length ≤ span bs := by
  induction bs with
  | nil => simp
  | cons b bs ih => simp; omega

theorem span_pos {bs : List Block} (hne : bs ≠ []) : 0 < span bs := by
  cases bs with
  | nil => exact absurd rfl hne
  | cons b bs => simp

/-- The loops of `kmalloc(n)` from the block at `offset`; `run` is the run of free blocks being
merged, if there is one.  A used block ends the run. -/
def place (n : ℕ) : ℕ → Option Placement → List Block → Option Placement
  | _, _, [] => none
  | offset, run, b :: bs =>
    if b.used then place n (offset + (b.size + 5)) none bs
    else
      let p : Placement := match run with
        | none => ⟨offset, b.size, b.size⟩
        | some r => { r with total := r.total + (b.size + 5) }
      if n ≤ p.total then some p else place n (offset + (b.size + 5)) (some p) bs

/-- Where `kmalloc(n)` finds room among the blocks of the heap. -/
def placement (n : ℕ) (bs : List Block) : Option Placement := place n 0 none bs

variable {n offset : ℕ} {b : Block} {bs : List Block} {r p : Placement}

theorem place_used (hb : b.used = true) (run : Option Placement) :
    place n offset run (b :: bs) = place n (offset + (b.size + 5)) none bs := by
  simp [place, hb]

theorem place_free_none (hb : b.used = false) : place n offset none (b :: bs) =
    if n ≤ b.size then some ⟨offset, b.size, b.size⟩
    else place n (offset + (b.size + 5)) (some ⟨offset, b.size, b.size⟩) bs := by
  simp [place, hb]

theorem place_free_some (hb : b.used = false) : place n offset (some r) (b :: bs) =
    if n ≤ r.total + (b.size + 5) then some { r with total := r.total + (b.size + 5) }
    else place n (offset + (b.size + 5))
      (some { r with total := r.total + (b.size + 5) }) bs := by
  simp [place, hb]

end Block

namespace Heap

open Block

/-- The headers from `a` on are those of `bs` and end at `e`. -/
def Tiles (h : Heap) : ℕ → List Block → ℕ → Prop
  | a, [], e => a = e
  | a, b :: bs, e => h.used a = b.used ∧ h.size a = b.size ∧ Tiles h (a + (b.size + 5)) bs e

/-- The blocks met by following the headers from `a`, at most `n` of them. -/
def readBlocks (h : Heap) : ℕ → ℕ → List Block
  | 0, _ => []
  | n + 1, a =>
    if h.heapEnd ≤ a then [] else ⟨h.used a, h.size a⟩ :: readBlocks h n (a + (h.size a + 5))

/-- The blocks of the heap. -/
def blocks (h : Heap) : List Block := h.readBlocks (h.heapEnd - heapStart) heapStart

variable {h h' : Heap} {a e : ℕ} {bs l₁ l₂ : List Block} {b : Block}

theorem Tiles.end_eq (ht : h.Tiles a bs e) : e = a + span bs := by
  induction bs generalizing a with
  | nil => exact ht.symm
  | cons b bs ih =>
    have := ih ht.2.2
    simp
    omega

theorem tiles_append : h.Tiles a (l₁ ++ l₂) e ↔
    h.Tiles a l₁ (a + span l₁) ∧ h.Tiles (a + span l₁) l₂ e := by
  induction l₁ generalizing a with
  | nil => simp [Tiles]
  | cons b l ih =>
    simp only [List.cons_append, Tiles, ih, span_cons, Nat.add_assoc]
    tauto

/-- Only the bytes between `a` and `e` matter. -/
theorem Tiles.congr (ht : h.Tiles a bs e) (hm : ∀ x, a ≤ x → x < e → h'.mem x = h.mem x) :
    h'.Tiles a bs e := by
  induction bs generalizing a with
  | nil => exact ht
  | cons b bs ih =>
    have hend := ht.end_eq
    simp only [span_cons] at hend
    obtain ⟨hu, hs, ht⟩ := ht
    refine ⟨?_, ?_, ih ht fun x hx hxe => hm x (by omega) hxe⟩
    · rw [← hu, used, used, hm a (by omega) (by omega)]
    · rw [← hs, size, size, hm (a + 1) (by omega) (by omega), hm (a + 2) (by omega) (by omega),
        hm (a + 3) (by omega) (by omega), hm (a + 4) (by omega) (by omega)]

theorem Tiles.readBlocks_eq {n : ℕ} (ht : h.Tiles a bs h.heapEnd) (hn : bs.length < n) :
    h.readBlocks n a = bs := by
  induction bs generalizing a n with
  | nil =>
    obtain ⟨n, rfl⟩ := Nat.exists_eq_add_of_lt hn
    have : a = h.heapEnd := ht
    simp [readBlocks, this]
  | cons b bs ih =>
    obtain ⟨n, rfl⟩ : ∃ m, n = m + 1 := ⟨n - 1, by omega⟩
    have hend := ht.end_eq
    simp only [span_cons] at hend
    obtain ⟨hu, hs, ht⟩ := ht
    rw [readBlocks, if_neg (by omega), hs, ih ht (by simpa using hn), hu]

theorem Tiles.blocks_eq (ht : h.Tiles heapStart bs h.heapEnd) (hne : bs ≠ []) : h.blocks = bs := by
  refine ht.readBlocks_eq ?_
  have hend := ht.end_eq
  cases bs with
  | nil => exact absurd rfl hne
  | cons b bs =>
    have := length_le_span bs
    simp at hend ⊢
    omega

/-! ### The loops of `kmalloc` on a tiled heap -/

variable {lengthens : ℕ → Bool} {n : ℕ} {p r : Placement}

/-- The assignments made for a placement. -/
def handOut (h : Heap) (base n : ℕ) (p : Placement) : Heap :=
  if n ≤ p.size then h.takeBlock (base + p.offset) n else h.takeMerged (base + p.offset) n p.total

@[simp] theorem handOut_calls (base : ℕ) : (h.handOut base n p).calls = h.calls := by
  unfold handOut
  split <;> simp

@[simp] theorem handOut_heapEnd (base : ℕ) : (h.handOut base n p).heapEnd = h.heapEnd := by
  unfold handOut
  split <;> simp

theorem goToNextMemoryRegion_eq (hs : h.size a = b.size) (hlt : a + (b.size + 5) < 2 ^ 64) :
    h.goToNextMemoryRegion a = a + (b.size + 5) := by
  rw [goToNextMemoryRegion, hs, Nat.add_assoc, Nat.mod_eq_of_lt hlt]

/-- The inner loop never takes back a call of `vmm_lengthen`. -/
theorem calls_le_of_mergeLoop {h h' : Heap} {fuel curr nxt total : ℕ} {x : ℕ ⊕ ℕ}
    (hm : mergeLoop lengthens curr n fuel h nxt total = some (h', x)) : h.calls ≤ h'.calls := by
  induction fuel generalizing h nxt total with
  | zero => simp [mergeLoop] at hm
  | succ fuel ih =>
    simp only [mergeLoop] at hm
    split at hm
    · cases hm
      exact le_rfl
    · split at hm
      · cases hm
        simp
      · have := ih hm
        split at this
        · simp at this
          omega
        · exact this

/-- The end of case 3: the inner loop has returned, and no call is taken back after it. -/
theorem exists_mergeLoop_of_case3 {g h' : Heap} {fuel curr nxt total q : ℕ}
    (hloop : ∀ f c, kmallocLoop lengthens n fuel f c = some (h', q) → f.calls ≤ h'.calls)
    (hm : (match mergeLoop lengthens curr n fuel g nxt total with
      | none => none
      | some (h, .inl p) => some (h, p)
      | some (h, .inr nxt) => kmallocLoop lengthens n fuel h (h.goToNextMemoryRegion nxt)) =
        some (h', q)) :
    ∃ f x, mergeLoop lengthens curr n fuel g nxt total = some (f, x) ∧ f.calls ≤ h'.calls := by
  split at hm
  · cases hm
  · rename_i f p hmerge
    cases hm
    exact ⟨_, _, hmerge, le_rfl⟩
  · rename_i f nxt' hmerge
    exact ⟨_, _, hmerge, hloop _ _ hm⟩

/-- A loop that starts behind the last block calls `vmm_lengthen`. -/
theorem calls_le_of_kmallocLoop {h h' : Heap} {fuel curr q : ℕ}
    (hm : kmallocLoop lengthens n fuel h curr = some (h', q)) :
    (if h.heapEnd ≤ curr then h.calls + 1 else h.calls) ≤ h'.calls := by
  induction fuel generalizing h curr with
  | zero => simp [kmallocLoop] at hm
  | succ fuel ih =>
    have hloop : ∀ f c, kmallocLoop lengthens n fuel f c = some (h', q) → f.calls ≤ h'.calls := by
      intro f c hf
      have := ih hf
      split at this <;> omega
    -- `g` is the heap once it has been lengthened, if it has to be
    obtain ⟨g, hg⟩ : ∃ g, (if h.heapEnd ≤ curr then
        (h.getMorePages lengthens 1).writeNewMemReg curr else h) = g := ⟨_, rfl⟩
    have hcalls : g.calls = if h.heapEnd ≤ curr then h.calls + 1 else h.calls := by
      rw [← hg]
      split <;> simp
    rw [← hcalls]
    simp only [kmallocLoop, hg] at hm
    split at hm
    · exact hloop _ _ hm
    · split at hm
      · cases hm
        simp
      · obtain ⟨f, x, hmerge, hle⟩ := exists_mergeLoop_of_case3 hloop hm
        have := calls_le_of_mergeLoop hmerge
        split at this
        · simp at this
          omega
        · omega

theorem calls_le_of_kmallocLoop' {h' : Heap} {fuel q : ℕ} (f : Heap) (c : ℕ)
    (hm : kmallocLoop lengthens n fuel f c = some (h', q)) : f.calls ≤ h'.calls := by
  have := calls_le_of_kmallocLoop hm
  split at this <;> omega

/-- The call hands out the placement `q`, or lengthens the heap when there is none. -/
def Outcome (h : Heap) (base n : ℕ) (q : Option Placement) (res : Option (Heap × ℕ)) : Prop :=
  match q with
  | some p => res = some (h.handOut base n p, base + p.offset + 5)
  | none => ∀ h' x, res = some (h', x) → h.calls < h'.calls

/-- The inner loop merges the free blocks of `place`, or stops at the used block that ends them,
or lengthens the heap behind the last block. -/
theorem mergeLoop_eq {fuel curr offset base : ℕ} {q : Option Placement} (hlt : h.heapEnd < 2 ^ 64)
    (ht : h.Tiles (base + offset) bs h.heapEnd) (hne : bs ≠ []) (hf : bs.length ≤ fuel)
    (hr : curr = base + r.offset) (hsize : r.size < n) (htot : r.total < n)
    (h32 : r.total + span bs < 2 ^ 32) (hp : place n offset (some r) bs = q) :
    (∃ p, q = some p ∧ mergeLoop lengthens curr n fuel h (base + offset) r.total =
        some (h.handOut base n p, .inl (base + p.offset + 5))) ∨
      (∃ l₁ b l₂, bs = l₁ ++ b :: l₂ ∧ b.used = true ∧
        mergeLoop lengthens curr n fuel h (base + offset) r.total =
          some (h, .inr (base + (offset + span l₁))) ∧
        place n (offset + span l₁ + (b.size + 5)) none l₂ = q) ∨
      (q = none ∧ ∀ h' x, mergeLoop lengthens curr n fuel h (base + offset) r.total =
        some (h', x) → h.calls < h'.calls) := by
  induction bs generalizing offset r fuel with
  | nil => exact absurd rfl hne
  | cons b bs ih =>
    obtain ⟨fuel, rfl⟩ : ∃ m, fuel = m + 1 := ⟨fuel - 1, by simp at hf; omega⟩
    have hend := ht.end_eq
    obtain ⟨hu, hs, ht⟩ := ht
    simp only [span_cons] at hend h32
    cases hb : b.used with
    | true =>
      rw [place_used hb] at hp
      exact Or.inr (Or.inl ⟨[], b, bs, rfl, hb, by simp [mergeLoop, hu, hb], by simpa using hp⟩)
    | false =>
      rw [place_free_some hb] at hp
      have hmod : (r.total + h.size (base + offset) + 5) % 2 ^ 32 = r.total + (b.size + 5) := by
        rw [hs, Nat.add_assoc, Nat.mod_eq_of_lt (by omega)]
      have hnxt : h.goToNextMemoryRegion (base + offset) = base + (offset + (b.size + 5)) := by
        rw [goToNextMemoryRegion_eq (b := b) hs (by omega), Nat.add_assoc]
      by_cases hfit : n ≤ r.total + (b.size + 5)
      · rw [if_pos hfit] at hp
        refine Or.inl ⟨_, hp.symm, ?_⟩
        simp only [mergeLoop, hu, hb, hmod, hfit, if_true, Bool.false_eq_true, if_false, handOut,
          hr]
        rw [if_neg (by omega)]
      · rw [if_neg hfit] at hp
        rw [Nat.add_assoc] at ht
        by_cases hlast : bs = []
        · -- the run ends with the last block of the heap
          subst hlast
          refine Or.inr (Or.inr ⟨by rw [← hp]; rfl, fun h' x hm => ?_⟩)
          have hpast : h.heapEnd ≤ base + (offset + (b.size + 5)) := Nat.le_of_eq ht.symm
          simp only [mergeLoop, hu, hb, hmod, hfit, hnxt, hpast, Bool.false_eq_true, if_false,
            if_true] at hm
          have := calls_le_of_mergeLoop hm
          simp at this
          omega
        · have hin : ¬ h.heapEnd ≤ base + (offset + (b.size + 5)) := by
            have := span_pos hlast
            omega
          have hstep : mergeLoop lengthens curr n (fuel + 1) h (base + offset) r.total =
              mergeLoop lengthens curr n fuel h (base + (offset + (b.size + 5)))
                (r.total + (b.size + 5)) := by
            simp only [mergeLoop, hu, hb, hmod, hfit, hnxt, hin, Bool.false_eq_true, if_false]
          rw [hstep]
          have htail := @ih { r with total := r.total + (b.size + 5) } fuel
            (offset + (b.size + 5)) ht hlast (by simpa using hf) hr hsize (by simpa using hfit)
            (by simp only; omega) hp
          rcases htail with h1 | ⟨l₁, c, l₂, rfl, hc, h1, h2⟩ | h1
          · exact Or.inl h1
          · refine Or.inr (Or.inl ⟨b :: l₁, c, l₂, rfl, hc, ?_, ?_⟩)
            · rw [h1]; simp only [span_cons, Nat.add_assoc]
            · rw [← h2]; simp only [span_cons, Nat.add_assoc]
          · exact Or.inr (Or.inr h1)

/-- The outer loop does what `place` says. -/
theorem kmallocLoop_eq {fuel offset base : ℕ} (hlt : h.heapEnd < 2 ^ 64)
    (ht : h.Tiles (base + offset) bs h.heapEnd) (hf : bs.length < fuel) (h32 : span bs < 2 ^ 32) :
    h.Outcome base n (place n offset none bs)
      (kmallocLoop lengthens n fuel h (base + offset)) := by
  induction fuel generalizing offset bs with
  | zero => omega
  | succ fuel ih =>
    cases bs with
    | nil =>
      intro h' x hm
      have := calls_le_of_kmallocLoop hm
      rw [if_pos (Nat.le_of_eq (Eq.symm ht))] at this
      exact this
    | cons b bs =>
      have hend := ht.end_eq
      obtain ⟨hu, hs, ht⟩ := ht
      simp only [span_cons] at hend h32
      have hin : ¬ h.heapEnd ≤ base + offset := by omega
      have hnxt : h.goToNextMemoryRegion (base + offset) = base + (offset + (b.size + 5)) := by
        rw [goToNextMemoryRegion_eq (b := b) hs (by omega), Nat.add_assoc]
      rw [Nat.add_assoc] at ht
      cases hb : b.used with
      | true =>
        rw [place_used hb]
        simp only [kmallocLoop, hin, if_false, hu, hb, if_true, hnxt]
        exact ih ht (by simpa using hf) (by omega)
      | false =>
        rw [place_free_none hb]
        by_cases hfit : n ≤ b.size
        · rw [if_pos hfit]
          simp [Outcome, kmallocLoop, hin, hu, hb, hs, hfit, handOut]
        · rw [if_neg hfit]
          by_cases hlast : bs = []
          · subst hlast
            intro h' x hm
            have hpast : h.heapEnd ≤ base + (offset + (b.size + 5)) := Nat.le_of_eq ht.symm
            simp only [kmallocLoop, hin, hu, hb, hs, hfit, hnxt, hpast, Bool.false_eq_true,
              if_false, if_true] at hm
            obtain ⟨f, y, hmerge, hle⟩ := exists_mergeLoop_of_case3 calls_le_of_kmallocLoop' hm
            have := calls_le_of_mergeLoop hmerge
            simp at this
            omega
          · have hin' : ¬ h.heapEnd ≤ base + (offset + (b.size + 5)) := by
              have := span_pos hlast
              omega
            have hmerge := @mergeLoop_eq h bs lengthens n ⟨offset, b.size, b.size⟩ fuel
              (base + offset) (offset + (b.size + 5)) base _ hlt ht hlast (by simp at hf; omega)
              rfl (by simp only; omega) (by simp only; omega) (by simp only; omega) rfl
            simp only [kmallocLoop, hin, hin', hu, hb, hs, hfit, hnxt, Bool.false_eq_true,
              if_false]
            rcases hmerge with ⟨p, hp, h1⟩ | ⟨l₁, c, l₂, rfl, hc, h1, h2⟩ | ⟨hp, h1⟩
            · rw [h1, hp]
              rfl
            · rw [h1, ← h2]
              -- behind the used block the outer loop starts afresh
              rw [tiles_append] at ht
              obtain ⟨-, huc, hsc, htc⟩ := ht
              simp only [span_append, span_cons] at hend h32
              have hnxt' := goToNextMemoryRegion_eq (b := c) hsc (by omega)
              simp only [Nat.add_assoc] at hnxt' htc ⊢
              rw [hnxt']
              exact ih htc (by simp at hf; omega) (by omega)
            · rw [hp]
              intro h' x hm
              obtain ⟨f, y, hmerge, hle⟩ := exists_mergeLoop_of_case3 calls_le_of_kmallocLoop' hm
              exact (h1 f y hmerge).trans_le hle

/-- **`kmalloc` on a tiled heap** hands out the placement computed from the blocks, and lengthens
the heap exactly when there is none. -/
theorem kmalloc_eq {fuel : ℕ} (hlt : h.heapEnd < heapStart + 2 ^ 32)
    (ht : h.Tiles heapStart bs h.heapEnd) (hf : bs.length < fuel) :
    h.Outcome heapStart n (placement n bs) (h.kmalloc lengthens fuel n) := by
  have hend := ht.end_eq
  have hstart : heapStart + 2 ^ 32 < 2 ^ 64 := by norm_num [heapStart]
  unfold kmalloc
  generalize heapStart = base at *
  exact @kmallocLoop_eq h bs lengthens n fuel 0 base (by omega) ht hf (by omega)

end Heap

end TitanOS
