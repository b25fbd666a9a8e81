import TitanOS.Libtitan.Mem

/-!
# The text console (`drivers/vga.c`)

The screen has 25 rows of 80 cells of two bytes, low byte first, from `vga_out` on.  `printc` stores a
character at the cursor, or goes to the next row; behind the last row it scrolls.

The reference is a terminal with unboundedly many rows that never scrolls.  `Shows` says that the
screen is its window of 25 rows that ends at row 24 or, if it is further down, at the cursor.
-/

namespace TitanOS

/-- `cursor`, with the memory behind `vga_out`. -/
structure Console where
  store : Store
  vgaOut : ℤ
  x : ℤ
  y : ℤ

namespace Console

/-- The bytes of the screen, `VGA_PHYS_END_ADDR - VGA_PHYS_START_ADDR`. -/
def vgaLength : ℕ := 0xb8fa0 - 0xb8000

/-- `scroll_down`. -/
def scrollDown (k : Console) : Console :=
  let lineLength := 80 * 2
  let store := k.store.memcpy k.vgaOut (k.vgaOut + 80 * 2) (vgaLength - lineLength)
  { k with store := store.memset (k.vgaOut + (vgaLength - lineLength : ℕ)) 0 lineLength }

/-- `0x0f00 + c`, where `c` is a `char`, as an `unsigned short`. -/
def cellValue (c : UInt8) : ℕ := ((0x0f00 + c.toBitVec.toInt) % 2 ^ 16).toNat

/-- A store of an `unsigned short`. -/
def setCell (k : Console) (a : ℤ) (v : ℕ) : Console :=
  { k with store := (k.store.set a (UInt8.ofNat v)).set (a + 1) (UInt8.ofNat (v / 0x100)) }

/-- `printc`.  Division of an `int` rounds towards zero. -/
def printc (k : Console) (c : UInt8) : Console :=
  let k :=
    if c = 10 then { k with x := 0, y := k.y + 1 }
    else
      let k := k.setCell (k.vgaOut + (k.y * 80 + k.x) * 2) (cellValue c)
      let k := { k with x := k.x + 1 }
      { k with y := k.y + k.x.tdiv 80, x := k.x.tmod 80 }
  if 25 ≤ k.y then { k with x := 0, y := 24 }.scrollDown else k

/-- The cell in row `i` and column `j` of the screen. -/
def cell (k : Console) (i j : ℕ) : ℕ :=
  (k.store.byte (k.vgaOut + 2 * (80 * i + j))).toNat +
    0x100 * (k.store.byte (k.vgaOut + 2 * (80 * i + j) + 1)).toNat

/-- The cursor is on the screen. -/
def OnScreen (k : Console) : Prop := 0 ≤ k.x ∧ k.x < 80 ∧ 0 ≤ k.y ∧ k.y < 25

end Console

/-! ### The reference -/

/-- A terminal with unboundedly many rows. -/
structure Terminal where
  cell : ℕ → ℕ → ℕ
  x : ℕ
  y : ℕ

namespace Terminal

/-- A character on the terminal. -/
def put (t : Terminal) (c : UInt8) : Terminal :=
  if c = 10 then { t with x := 0, y := t.y + 1 }
  else
    let cell := Function.update t.cell t.y (Function.update (t.cell t.y) t.x (0x0f00 + c.toNat))
    if t.x = 79 then ⟨cell, 0, t.y + 1⟩ else ⟨cell, t.x + 1, t.y⟩

/-- The terminal whose first 25 rows are the screen, and whose other rows are zero. -/
def ofConsole (k : Console) : Terminal where
  cell i j := if i < 25 then k.cell i j else 0
  x := k.x.toNat
  y := k.y.toNat

/-- The last row of the window. -/
def bottom (t : Terminal) : ℕ := max 24 t.y

end Terminal

/-- The screen is the window of the terminal that ends at `bottom`, and the cursor is where it is in
the window. -/
structure Shows (k : Console) (t : Terminal) : Prop where
  cell : ∀ i < 25, ∀ j < 80, k.cell i j = t.cell (t.bottom - 24 + i) j
  x : k.x = t.x
  y : k.y = t.y - (t.bottom - 24 : ℕ)

/-! ### The parts of `printc` -/

namespace Console

variable {k : Console} {i j : ℕ}

/-- To the start of the next row; behind the last one, the screen scrolls. -/
def nextRow (k : Console) : Console :=
  if k.y = 24 then { k with x := 0 }.scrollDown else { k with x := 0, y := k.y + 1 }

/-- The character `c` in the cell of the cursor. -/
def write (k : Console) (c : UInt8) : Console :=
  k.setCell (k.vgaOut + (k.y * 80 + k.x) * 2) (cellValue c)

theorem printc_eq (h : k.OnScreen) (c : UInt8) : k.printc c =
    if c = 10 then k.nextRow
    else if k.x = 79 then (k.write c).nextRow else { k.write c with x := k.x + 1 } := by
  obtain ⟨hx, hx', hy, hy'⟩ := h
  have hrow : ∀ g : Console, g.y = k.y → (if 25 ≤ g.y + 1 then
      { g with x := 0, y := 24 }.scrollDown else { g with x := 0, y := g.y + 1 }) = g.nextRow := by
    intro g hg
    unfold nextRow
    by_cases hlast : g.y = 24
    · rw [if_pos (by omega), if_pos hlast, ← hlast]
    · rw [if_neg (by omega), if_neg hlast]
  by_cases hc : c = 10
  · simp only [printc, if_pos hc]
    exact hrow k rfl
  · simp only [printc, if_neg hc]
    by_cases hx79 : k.x = 79
    · rw [if_pos hx79, ← hrow (k.write c) rfl]
      simp only [write, setCell, hx79]
      rfl
    · have hdiv : (k.x + 1).tdiv 80 = 0 := Int.tdiv_eq_zero_of_lt (by omega) (by omega)
      have hmod : (k.x + 1).tmod 80 = k.x + 1 := Int.tmod_eq_of_lt (by omega) (by omega)
      simp only [write, setCell, hdiv, hmod, add_zero, if_neg hx79]
      rw [if_neg (by omega)]

@[simp] theorem printc_vgaOut (c : UInt8) : (k.printc c).vgaOut = k.vgaOut := by
  by_cases hc : c = 10
  · simp only [printc, if_pos hc]
    split <;> rfl
  · simp only [printc, if_neg hc]
    split <;> rfl

/-! ### What they do to the cells -/

theorem scrollDown_store : k.scrollDown.store =
    (k.store.memcpy k.vgaOut (k.vgaOut + 160) 3840).memset (k.vgaOut + (3840 : ℕ)) 0 160 := by
  have hlen : vgaLength - 80 * 2 = 3840 := rfl
  simp only [scrollDown, hlen]
  norm_num

/-- Scrolling moves 24 rows up and clears the last one. -/
theorem scrollDown_byte (a : ℤ) : k.scrollDown.store.byte a =
    if k.vgaOut + 3840 ≤ a ∧ a < k.vgaOut + 4000 then 0
    else if k.vgaOut ≤ a ∧ a < k.vgaOut + 3840 then k.store.byte (a + 160) else k.store.byte a := by
  have hset := Store.memset_byte (k.store.memcpy k.vgaOut (k.vgaOut + 160) 3840) a
    (k.vgaOut + (3840 : ℕ)) 0 160
  have hshift : a - k.vgaOut + (k.vgaOut + 160) = a + 160 := by omega
  have hend : k.vgaOut + (3840 : ℕ) + (160 : ℕ) = k.vgaOut + 4000 := by
    push_cast
    omega
  rw [Store.memcpy_byte k.store a k.vgaOut (k.vgaOut + 160) 3840 (by omega), hshift, hend] at hset
  rw [scrollDown_store, hset]
  rfl

theorem cell_scrollDown (hi : i < 25) (hj : j < 80) :
    k.scrollDown.cell i j = if i < 24 then k.cell (i + 1) j else 0 := by
  have hout : k.scrollDown.vgaOut = k.vgaOut := rfl
  simp only [cell, hout, scrollDown_byte]
  by_cases hlast : i < 24
  · have hnext : k.vgaOut + 2 * (80 * (i : ℤ) + j) + 160 =
        k.vgaOut + 2 * (80 * ((i + 1 : ℕ) : ℤ) + j) := by
      push_cast
      omega
    rw [if_neg (by omega), if_pos (by omega), if_neg (by omega), if_pos (by omega), if_pos hlast,
      hnext, add_right_comm, hnext]
  · rw [if_pos (by omega), if_pos (by omega), if_neg hlast]
    rfl

/-- A store to the cell in row `r` and column `q`. -/
theorem cell_setCell {r q v : ℕ} (hq : q < 80) (hj : j < 80) (hv : v < 2 ^ 16) :
    (k.setCell (k.vgaOut + (r * 80 + q) * 2) v).cell i j =
      if i = r ∧ j = q then v else k.cell i j := by
  have hout : (k.setCell (k.vgaOut + (r * 80 + q) * 2) v).vgaOut = k.vgaOut := rfl
  simp only [cell, hout]
  simp only [setCell, Store.set_byte]
  by_cases hij : i = r ∧ j = q
  · obtain ⟨rfl, rfl⟩ := hij
    rw [if_neg (by omega), if_pos (by omega), if_pos (by omega), if_pos ⟨rfl, rfl⟩]
    simp only [UInt8.toNat_ofNat']
    omega
  · rw [if_neg (by omega), if_neg (by omega), if_neg (by omega), if_neg (by omega), if_neg hij]

/-- A 7-bit character is not negative. -/
theorem cellValue_eq {c : UInt8} (hc : c < 128) : cellValue c = 0x0f00 + c.toNat := by
  have hlt : c.toNat < 128 := hc
  have hint : c.toBitVec.toInt = c.toNat := by
    rw [BitVec.toInt_eq_toNat_of_lt]
    · rfl
    · show 2 * c.toNat < 2 ^ 8
      omega
  rw [cellValue, hint]
  omega

theorem mem_stores_scrollDown {a : ℤ} (ha : a ∈ k.scrollDown.store.stores) :
    a ∈ k.store.stores ∨ k.vgaOut ≤ a ∧ a < k.vgaOut + 4000 := by
  rw [scrollDown_store, Store.mem_memset_stores, Store.mem_memcpy_stores] at ha
  rcases ha with (ha | ha) | ha
  · exact Or.inl ha
  · exact Or.inr (by omega)
  · exact Or.inr (by omega)

end Console

namespace Terminal

/-- To the start of the next row. -/
def nextRow (t : Terminal) : Terminal := { t with x := 0, y := t.y + 1 }

/-- The character `c` in the cell of the cursor. -/
def write (t : Terminal) (c : UInt8) : Terminal :=
  { t with cell := Function.update t.cell t.y (Function.update (t.cell t.y) t.x (0x0f00 + c.toNat)) }

theorem put_eq (t : Terminal) (c : UInt8) : t.put c =
    if c = 10 then t.nextRow
    else if t.x = 79 then (t.write c).nextRow else { t.write c with x := t.x + 1 } := rfl

theorem write_cell (t : Terminal) (c : UInt8) (i j : ℕ) : (t.write c).cell i j =
    if i = t.y ∧ j = t.x then 0x0f00 + c.toNat else t.cell i j := by
  simp only [write, Function.update_apply]
  by_cases hi : i = t.y
  · subst hi
    simp [Function.update_apply]
  · simp [hi]

end Terminal

/-! ### The simulation -/

/-- The invariant: besides showing the window, the rows behind it are zero, and the stores since those
in `S` were to cells of the screen. -/
structure Follows (S : List ℤ) (k : Console) (t : Terminal) : Prop extends Shows k t where
  onScreen : k.OnScreen
  column : t.x < 80
  blank : ∀ i, t.bottom < i → ∀ j < 80, t.cell i j = 0
  inside : ∀ a ∈ k.store.stores, a ∈ S ∨ k.vgaOut ≤ a ∧ a < k.vgaOut + 4000

namespace Follows

variable {S : List ℤ} {k : Console} {t : Terminal}

/-- The row of the cursor. -/
theorem row_eq (h : Follows S k t) : (t.y : ℤ) = (t.bottom - 24 : ℕ) + k.y := by
  have := h.y
  omega

theorem nextRow (h : Follows S k t) : Follows S k.nextRow t.nextRow := by
  obtain ⟨hx, hx', hy, hy'⟩ := h.onScreen
  have hrow := h.row_eq
  have hbottom : t.bottom = max 24 t.y := rfl
  have hbottom' : t.nextRow.bottom = max 24 (t.y + 1) := rfl
  unfold Console.nextRow
  split_ifs with hlast
  · -- the cursor is in the last row of the window, which moves down by one row
    have hdown : t.nextRow.bottom = t.bottom + 1 := by omega
    refine ⟨⟨fun i hi j hj => ?_, rfl, ?_⟩, ?_, ?_, fun i hi j hj => ?_, fun a ha => ?_⟩
    · rw [Console.cell_scrollDown hi hj]
      split_ifs with hi24
      · have hcell := h.cell (i + 1) (by omega) j hj
        rw [hdown, show t.bottom + 1 - 24 + i = t.bottom - 24 + (i + 1) by omega]
        exact hcell
      · rw [show t.nextRow.bottom - 24 + i = t.bottom + 1 by omega]
        exact (h.blank (t.bottom + 1) (Nat.lt_succ_self _) j hj).symm
    · show k.y = ((t.y + 1 : ℕ) : ℤ) - (t.nextRow.bottom - 24 : ℕ)
      omega
    · exact ⟨le_rfl, by norm_num [Console.scrollDown], hy, hy'⟩
    · show 0 < 80
      norm_num
    · exact h.blank i (by omega) j hj
    · exact (Console.mem_stores_scrollDown ha).elim (h.inside a) Or.inr
  · have hsame : t.nextRow.bottom = t.bottom := by omega
    refine ⟨⟨fun i hi j hj => ?_, rfl, ?_⟩, ?_, ?_, fun i hi j hj => ?_, h.inside⟩
    · rw [hsame]
      exact h.cell i hi j hj
    · show k.y + 1 = ((t.y + 1 : ℕ) : ℤ) - (t.nextRow.bottom - 24 : ℕ)
      omega
    · exact ⟨le_rfl, by norm_num, by show 0 ≤ k.y + 1; omega, by show k.y + 1 < 25; omega⟩
    · show 0 < 80
      norm_num
    · exact h.blank i (by omega) j hj

theorem write (h : Follows S k t) {c : UInt8} (hc : c < 128) :
    Follows S (k.write c) (t.write c) := by
  obtain ⟨hx, hx', hy, hy'⟩ := h.onScreen
  have hrow := h.row_eq
  have hcol := h.x
  have hlt : c.toNat < 128 := hc
  obtain ⟨r, hr⟩ : ∃ r : ℕ, k.y = r := ⟨k.y.toNat, by omega⟩
  have hbottom : t.bottom = max 24 t.y := rfl
  have haddr : k.write c = k.setCell (k.vgaOut + (r * 80 + t.x) * 2) (0x0f00 + c.toNat) := by
    rw [Console.write, Console.cellValue_eq hc, hr, hcol]
  refine ⟨⟨fun i hi j hj => ?_, h.x, h.y⟩, h.onScreen, h.column, fun i hi j hj => ?_, fun a ha => ?_⟩
  · rw [haddr, Console.cell_setCell h.column hj (by omega), Terminal.write_cell]
    show _ = if t.bottom - 24 + i = t.y ∧ j = t.x then _ else t.cell (t.bottom - 24 + i) j
    by_cases hhere : i = r ∧ j = t.x
    · rw [if_pos hhere, if_pos ⟨by omega, hhere.2⟩]
    · rw [if_neg hhere, if_neg (by omega), h.cell i hi j hj]
  · have hi' : t.bottom < i := hi
    rw [Terminal.write_cell, if_neg (by omega)]
    exact h.blank i hi j hj
  · show a ∈ S ∨ k.vgaOut ≤ a ∧ a < k.vgaOut + 4000
    rcases List.mem_cons.1 ha with rfl | ha
    · exact Or.inr (by omega)
    · rcases List.mem_cons.1 ha with rfl | ha
      · exact Or.inr (by omega)
      · exact h.inside a ha

/-- **The step lemma.** -/
theorem printc (h : Follows S k t) {c : UInt8} (hc : c < 128) :
    Follows S (k.printc c) (t.put c) := by
  have hcol := h.x
  rw [Console.printc_eq h.onScreen, Terminal.put_eq]
  split_ifs with hnl hx hx' hx'
  · exact h.nextRow
  · exact (h.write hc).nextRow
  · omega
  · omega
  · have hw := h.write hc
    obtain ⟨h0, h80, hy, hy'⟩ := h.onScreen
    have hlt := h.column
    refine ⟨⟨hw.cell, ?_, hw.y⟩, ⟨?_, ?_, hy, hy'⟩, ?_, hw.blank, hw.inside⟩
    · show k.x + 1 = ((t.x + 1 : ℕ) : ℤ)
      omega
    · show 0 ≤ k.x + 1
      omega
    · show k.x + 1 < 80
      omega
    · show t.x + 1 < 80
      omega

end Follows

theorem follows_ofConsole {k : Console} (h : k.OnScreen) :
    Follows k.store.stores k (Terminal.ofConsole k) := by
  obtain ⟨hx, hx', hy, hy'⟩ := h
  have hbottom : (Terminal.ofConsole k).bottom = 24 := by
    show max 24 k.y.toNat = 24
    omega
  refine ⟨⟨fun i hi j hj => ?_, ?_, ?_⟩, ⟨hx, hx', hy, hy'⟩, ?_, fun i hi j hj => ?_,
    fun a ha => Or.inl ha⟩
  · rw [hbottom, show 24 - 24 + i = i by omega]
    exact (if_pos hi).symm
  · exact (Int.toNat_of_nonneg hx).symm
  · rw [hbottom]
    show k.y = (k.y.toNat : ℤ) - (24 - 24 : ℕ)
    omega
  · show k.x.toNat < 80
    omega
  · rw [hbottom] at hi
    exact if_neg (by omega)

theorem Follows.foldl {S : List ℤ} {k : Console} {t : Terminal} {cs : List UInt8}
    (h : Follows S k t) (hcs : ∀ c ∈ cs, c < 128) :
    Follows S (cs.foldl Console.printc k) (cs.foldl Terminal.put t) ∧
      (cs.foldl Console.printc k).vgaOut = k.vgaOut := by
  induction cs generalizing k t with
  | nil => exact ⟨h, rfl⟩
  | cons c cs ih =>
    obtain ⟨hc, hcs⟩ := List.forall_mem_cons.1 hcs
    obtain ⟨hrun, hout⟩ := ih (h.printc hc) hcs
    exact ⟨hrun, hout.trans (Console.printc_vgaOut c)⟩

/-- **The text console is a window on an unbounded terminal**: for every string of 7-bit characters,
every store is inside of the screen, the cursor stays on it, and the screen is the window. -/
theorem console_window (k : Console) (cs : List UInt8) (hk : k.OnScreen) (hcs : ∀ c ∈ cs, c < 128) :
    (∀ a ∈ (cs.foldl Console.printc k).store.stores,
      a ∈ k.store.stores ∨ k.vgaOut ≤ a ∧ a < k.vgaOut + 2 * 2000) ∧
    (cs.foldl Console.printc k).OnScreen ∧
    Shows (cs.foldl Console.printc k) (cs.foldl Terminal.put (Terminal.ofConsole k)) := by
  obtain ⟨hrun, hout⟩ := (follows_ofConsole hk).foldl hcs
  refine ⟨fun a ha => ?_, hrun.onScreen, hrun.toShows⟩
  have := hrun.inside a ha
  rw [hout] at this
  exact this

/-- Ninety characters from the middle of the last row. -/
theorem console_window_ninety :
    (∀ a ∈ ((List.replicate 90 97).foldl Console.printc ⟨⟨fun _ => 0, []⟩, 0, 40, 24⟩).store.stores,
      a ∈ [] ∨ 0 ≤ a ∧ a < 0 + 2 * 2000) ∧
    ((List.replicate 90 97).foldl Console.printc ⟨⟨fun _ => 0, []⟩, 0, 40, 24⟩).OnScreen ∧
    Shows ((List.replicate 90 97).foldl Console.printc ⟨⟨fun _ => 0, []⟩, 0, 40, 24⟩)
      ((List.replicate 90 97).foldl Terminal.put
        (Terminal.ofConsole ⟨⟨fun _ => 0, []⟩, 0, 40, 24⟩)) :=
  console_window _ _ ⟨by norm_num, by norm_num, by norm_num, by norm_num⟩ fun c hc => by
    rw [List.eq_of_mem_replicate hc]
    decide

end TitanOS
