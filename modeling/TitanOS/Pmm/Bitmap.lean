import Mathlib.Tactic

/-!
# The physical page bitmap (`pmm.c`)

The allocator keeps one bit per page in 64-bit words ("rows").  Two translations between pages
and bits live side by side in the source: `bitmap_to_paddr` strides 32 pages per row, while
`paddr_to_bitmap` strides 64, and the mask `1 << x` is a signed 32-bit shift that is then widened
to 64 bits.  All three are modelled as the x86 build computes them.

`taken w j` is the test `w & (1 << j)` that every operation makes.  Because shift counts are taken
modulo 32 and `1 << 31` is sign extended, it has only 32 different outcomes per word: bit `j` for
`j < 31`, and "one of the bits 31 to 63" for `j = 31`.  The lemmas below say how setting and
clearing a mask acts on these 32 outcomes; nothing later looks inside a word again.
-/

namespace TitanOS

/-- `map`: the number of pages it addresses and the words of the bitmap.  The row counter of
`pmm_alloc_page` is a `uint32_t`, which the number of rows has to fit. -/
structure Pmm where
  numPages : ℕ
  bitmap : ℕ → BitVec 64
  rows_lt : numPages / 64 < 2 ^ 32

namespace Pmm

/-- The number of rows that `pmm_alloc_page` scans. -/
def rows (m : Pmm) : ℕ := m.numPages / 64

/-- `1 << x`: a 32-bit `int`, the count taken modulo 32, then widened to the type of a row. -/
def bitMask (x : ℕ) : BitVec 64 := ((1#32) <<< (x % 32)).signExtend 64

/-- `w & (1 << j)`. -/
def taken (w : BitVec 64) (j : ℕ) : Bool := w &&& bitMask j != 0#64

/-- `bitmap_to_paddr`, in `uint32_t` arithmetic. -/
def bitmapToPaddr (x y : ℕ) : ℕ := (x * 0x1000 + y * 0x20000) % 2 ^ 32

/-- `bitmap_coords`. -/
structure BitmapCoords where
  y : ℕ
  x : ℕ
  deriving DecidableEq, Repr

/-- `paddr_to_bitmap`; `y` is a `uint32_t`. -/
def paddrToBitmap (paddr : ℕ) : BitmapCoords :=
  let physAddr := paddr / 0x1000
  ⟨physAddr / 64 % 2 ^ 32, physAddr % 64⟩

/-- Replace row `i`. -/
def setRow (m : Pmm) (i : ℕ) (w : BitVec 64) : Pmm :=
  { m with bitmap := Function.update m.bitmap i w }

/-- The inner loop of `pmm_alloc_page`: the first `j` below 64 whose test fails. -/
def findBit (w : BitVec 64) : Option ℕ :=
  if w < 0xffffffffffffffff#64 then (List.range 64).find? fun j => !taken w j else none

/-- The two loops of `pmm_alloc_page`: the bit and the row they stop at. -/
def findFree (m : Pmm) : Option (ℕ × ℕ) :=
  (List.range m.rows).findSome? fun i => (findBit (m.bitmap i)).map fun j => (j, i)

/-- `pmm_alloc_page`; the null pointer is `0`. -/
def pmmAllocPage (m : Pmm) : Pmm × ℕ :=
  match m.findFree with
  | some (j, i) => (m.setRow i (m.bitmap i ||| bitMask j), bitmapToPaddr j i)
  | none => (m, 0)

/-- `pmm_check_page_taken`. -/
def pmmCheckPageTaken (m : Pmm) (paddr : ℕ) : Bool :=
  taken (m.bitmap (paddrToBitmap paddr).y) (paddrToBitmap paddr).x

/-- `pmm_alloc_specific_page`. -/
def pmmAllocSpecificPage (m : Pmm) (paddr : ℕ) : Pmm × Bool :=
  let c := paddrToBitmap paddr
  if taken (m.bitmap c.y) c.x then (m, true)
  else (m.setRow c.y (m.bitmap c.y ||| bitMask c.x), false)

/-- `pmm_free_page`. -/
def pmmFreePage (m : Pmm) (paddr : ℕ) : Pmm :=
  let c := paddrToBitmap paddr
  m.setRow c.y (m.bitmap c.y &&& (0xffffffffffffffff#64 ^^^ bitMask c.x))

/-! ### One word -/

theorem getLsbD_bitMask (x b : ℕ) :
    (bitMask x).getLsbD b = decide (b < 64 ∧ min b 31 = x % 32) := by
  have hx : x % 32 < 32 := Nat.mod_lt _ (by decide)
  have hmsb : ((1#32) <<< (x % 32)).msb = decide (x % 32 = 31) := by
    rw [BitVec.msb_eq_getLsbD_last, BitVec.getLsbD_shiftLeft, BitVec.getLsbD_one,
      Bool.eq_iff_iff]
    simp only [Bool.and_eq_true, decide_eq_true_eq, Bool.not_eq_true', decide_eq_false_iff_not]
    omega
  rw [bitMask, BitVec.getLsbD_signExtend, hmsb, BitVec.getLsbD_shiftLeft, BitVec.getLsbD_one,
    Bool.eq_iff_iff]
  by_cases hb : b < 32
  · rw [if_pos hb]
    simp only [Bool.and_eq_true, decide_eq_true_eq, Bool.not_eq_true', decide_eq_false_iff_not]
    omega
  · rw [if_neg hb]
    simp only [Bool.and_eq_true, decide_eq_true_eq]
    omega

/-- The test of `j` succeeds iff a bit of its class is set. -/
theorem taken_iff {w : BitVec 64} {j : ℕ} :
    taken w j = true ↔ ∃ b, b < 64 ∧ min b 31 = j % 32 ∧ w.getLsbD b = true := by
  have h0 : taken w j = true ↔ ¬ w &&& bitMask j = 0#64 := by simp [taken]
  rw [h0]
  constructor
  · intro h
    by_contra hne
    refine h (BitVec.eq_of_getLsbD_eq fun b hb => ?_)
    rw [BitVec.getLsbD_and, getLsbD_bitMask, BitVec.getLsbD_zero, Bool.and_eq_false_iff]
    by_cases hmin : min b 31 = j % 32
    · exact Or.inl (by simpa using fun hw => hne ⟨b, hb, hmin, hw⟩)
    · exact Or.inr (by simp [hmin])
  · rintro ⟨b, hb, hmin, hw⟩ h
    have hbit : (w &&& bitMask j).getLsbD b = true := by
      rw [BitVec.getLsbD_and, getLsbD_bitMask, hw, decide_eq_true ⟨hb, hmin⟩, Bool.and_true]
    rw [h, BitVec.getLsbD_zero] at hbit
    cases hbit

theorem taken_mod (w : BitVec 64) (j : ℕ) : taken w (j % 32) = taken w j := by
  rw [Bool.eq_iff_iff, taken_iff, taken_iff, Nat.mod_mod]

theorem taken_or (w : BitVec 64) (j k : ℕ) :
    taken (w ||| bitMask k) j = (taken w j || decide (j % 32 = k % 32)) := by
  rw [Bool.eq_iff_iff]
  simp only [Bool.or_eq_true, decide_eq_true_eq, taken_iff, BitVec.getLsbD_or, getLsbD_bitMask]
  constructor
  · rintro ⟨b, hb, hmin, hw | ⟨-, hk⟩⟩
    · exact Or.inl ⟨b, hb, hmin, hw⟩
    · exact Or.inr (hmin.symm.trans hk)
  · rintro (⟨b, hb, hmin, hw⟩ | hjk)
    · exact ⟨b, hb, hmin, Or.inl hw⟩
    · exact ⟨j % 32, by omega, by omega, Or.inr ⟨by omega, by omega⟩⟩

theorem taken_andNot (w : BitVec 64) (j k : ℕ) :
    taken (w &&& (0xffffffffffffffff#64 ^^^ bitMask k)) j =
      (taken w j && decide (j % 32 ≠ k % 32)) := by
  have hones : ∀ b < 64, (0xffffffffffffffff#64).getLsbD b = true := by decide
  rw [Bool.eq_iff_iff]
  simp only [Bool.and_eq_true, decide_eq_true_eq, taken_iff, BitVec.getLsbD_and,
    BitVec.getLsbD_xor, getLsbD_bitMask]
  constructor
  · rintro ⟨b, hb, hmin, hw, hx⟩
    refine ⟨⟨b, hb, hmin, hw⟩, fun hjk => ?_⟩
    rw [hones b hb, decide_eq_true ⟨hb, hmin.trans hjk⟩] at hx
    cases hx
  · rintro ⟨⟨b, hb, hmin, hw⟩, hjk⟩
    refine ⟨b, hb, hmin, hw, ?_⟩
    rw [hones b hb, decide_eq_false (by omega)]
    rfl

/-- A word in which some test fails is below the largest one. -/
theorem lt_ones_of_not_taken {w : BitVec 64} {j : ℕ} (h : taken w j = false) :
    w < 0xffffffffffffffff#64 := by
  have hne : w ≠ 0xffffffffffffffff#64 := by
    rintro rfl
    have : ∀ i < 32, taken 0xffffffffffffffff#64 i = true := by decide
    rw [← taken_mod, this _ (Nat.mod_lt _ (by decide))] at h
    cases h
  have hle : w.toNat ≤ 0xffffffffffffffff := Nat.le_of_lt_succ w.isLt
  have : w.toNat ≠ 0xffffffffffffffff := fun e => hne (BitVec.eq_of_toNat_eq e)
  exact BitVec.lt_def.2 (by simp; omega)

end Pmm

end TitanOS
