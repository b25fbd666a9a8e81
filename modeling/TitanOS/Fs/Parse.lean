import TitanOS.Fs.Tar

/-!
# Parsing an archive that is not known to be one

`parse_tar_file` goes from header to header by a size field that may hold any characters, and a
character below `'0'` counts as a negative digit.  `fieldValue` is the value of a field as a whole
number.  If it is `-512` or less the walk does not get on: it stays at the header or goes back.  And
each turn stores to the next slot of `file_headers`, so a sixth file is stored behind its end.

`Safe` is what the walk should be as long as it is in the module, which ends at `stop`; `AtMost` says
of the bytes of the module that this is so.
-/

namespace TitanOS

namespace Tar

variable {mem : ℕ → UInt8} {inp : ℕ → UInt8} {a j k n fuel stop : ℕ} {p q : Parse}

/-! ### The value of a size field -/

/-- What the characters of the size field at `a` stand for, as octal digits. -/
def fieldValue (mem : ℕ → UInt8) (a : ℕ) : ℤ :=
  ∑ k ∈ Finset.range 11, Str.charDiff (mem (a + 124 + k)) 0x30 * 8 ^ (10 - k)

/-- The loop over the characters below index `j` adds what they stand for. -/
theorem getFileSizeLoop_emod (hj : j ≤ 11) (s : ℤ) :
    getFileSizeLoop inp j (s % 2 ^ 64).toNat (8 ^ (11 - j)) =
      ((s + ∑ k ∈ Finset.range j, Str.charDiff (inp k) 0x30 * 8 ^ (10 - k)) % 2 ^ 64).toNat := by
  induction j generalizing s with
  | zero =>
    rw [getFileSizeLoop, Finset.range_zero, Finset.sum_empty, add_zero]
  | succ j ih =>
    have hcount : 8 ^ (11 - (j + 1)) * 8 % 2 ^ 64 = 8 ^ (11 - j) := by
      have hle : 8 ^ (11 - j) ≤ 8 ^ 11 := Nat.pow_le_pow_right (by norm_num) (by omega)
      rw [← pow_succ, show 11 - (j + 1) + 1 = 11 - j by omega]
      exact Nat.mod_eq_of_lt (hle.trans_lt (by norm_num))
    have hnonneg : 0 ≤ s % 2 ^ 64 := Int.emod_nonneg s (by norm_num)
    rw [getFileSizeLoop, hcount, Int.toNat_of_nonneg hnonneg, Int.emod_add_emod, ih (by omega),
      Finset.sum_range_succ, show 11 - (j + 1) = 10 - j by omega, Nat.cast_pow, Nat.cast_ofNat,
      add_assoc, add_comm (Str.charDiff (inp j) 0x30 * 8 ^ (10 - j))]

/-- `get_file_size` is the value of the field, modulo `2 ^ 64`. -/
theorem getFileSize_eq : (getFileSize (sizeField mem a) : ℤ) = fieldValue mem a % 2 ^ 64 := by
  have hloop := @getFileSizeLoop_emod (sizeField mem a) 11 le_rfl 0
  rw [Int.zero_emod, Int.toNat_zero, Nat.sub_self, pow_zero, zero_add] at hloop
  unfold getFileSize fieldValue sizeField at *
  rw [hloop, Int.toNat_of_nonneg (Int.emod_nonneg _ (by norm_num))]

theorem charDiff_bounds (c : UInt8) : -176 ≤ Str.charDiff c 0x30 ∧ Str.charDiff c 0x30 ≤ 79 := by
  have hle : c.toInt8.toInt ≤ 127 := c.toInt8.toInt_le
  have hge : -128 ≤ c.toInt8.toInt := c.toInt8.le_toInt
  have hzero : (0x30 : UInt8).toInt8.toInt = 48 := by decide
  unfold Str.charDiff
  rw [hzero]
  constructor <;> omega

/-- No field is worth as much as `2 ^ 38`. -/
theorem fieldValue_bounds : -2 ^ 38 < fieldValue mem a ∧ fieldValue mem a < 2 ^ 38 := by
  have hpow : ∀ k, (0 : ℤ) ≤ 8 ^ (10 - k) := fun k => by positivity
  constructor
  · calc (-2 ^ 38 : ℤ) < ∑ k ∈ Finset.range 11, -176 * 8 ^ (10 - k) := by decide
      _ ≤ fieldValue mem a := Finset.sum_le_sum fun k _ =>
        mul_le_mul_of_nonneg_right (charDiff_bounds _).1 (hpow k)
  · calc fieldValue mem a ≤ ∑ k ∈ Finset.range 11, 79 * 8 ^ (10 - k) := Finset.sum_le_sum fun k _ =>
        mul_le_mul_of_nonneg_right (charDiff_bounds _).2 (hpow k)
      _ < 2 ^ 38 := by decide

/-- The next header, in terms of the value of the field. -/
theorem nextHeader_eq : (nextHeader mem a : ℤ) =
    (a + 512 + (fieldValue mem a + 511) / 512 * 512) % 2 ^ 64 := by
  have hsize := @getFileSize_eq mem a
  have hsum : nextHeader mem a =
      (a + 512 + padded (getFileSize (sizeField mem a))) % 2 ^ 64 := by
    unfold nextHeader padded
    simp only
    congr 1
    split <;> omega
  -- the two sizes differ by a multiple of `2 ^ 64`, which is one of 512
  have hround : (fieldValue mem a + 511) / 512 * 512 =
      padded (getFileSize (sizeField mem a)) + 2 ^ 64 * (fieldValue mem a / 2 ^ 64) := by
    unfold padded
    omega
  rw [hsum, hround, ← add_assoc, Int.add_mul_emod_self_left]
  norm_num

theorem nextHeader_of_lt (hvalue : -512 < fieldValue mem a)
    (hfit : a + 512 + padded (fieldValue mem a).toNat < 2 ^ 64) :
    nextHeader mem a = a + 512 + padded (fieldValue mem a).toNat := by
  have hnext := @nextHeader_eq mem a
  unfold padded at hfit ⊢
  omega

/-- When the walk gets on from the header at `a`. -/
theorem forward_iff (hlow : 2 ^ 38 ≤ a) (ha : a < 2 ^ 64) : a + 512 ≤ nextHeader mem a ↔
    -512 < fieldValue mem a ∧ a + 512 + padded (fieldValue mem a).toNat < 2 ^ 64 := by
  have hnext := @nextHeader_eq mem a
  have hbounds := @fieldValue_bounds mem a
  unfold padded
  constructor
  · intro hforward
    omega
  · rintro ⟨hvalue, hfit⟩
    omega

/-! ### The turns of the loop -/

/-- The loop takes another turn, at a header that is in the module. -/
def Parse.Goes (mem : ℕ → UInt8) (stop : ℕ) (p : Parse) : Prop :=
  p.header < stop ∧ mem p.header ≠ 0

/-- What holds of the walk from `p` on as long as it is in the module: each turn moves the header
forward by 512 bytes at least and stores to a slot of the array, and the walk comes to the end of
the module or to an empty name. -/
structure Safe (mem : ℕ → UInt8) (stop : ℕ) (p : Parse) : Prop where
  forward : ∀ k, (∀ j ≤ k, ((Parse.body mem)^[j] p).Goes mem stop) →
    ((Parse.body mem)^[k] p).header + 512 ≤ ((Parse.body mem)^[k + 1] p).header
  index : ∀ k, (∀ j ≤ k, ((Parse.body mem)^[j] p).Goes mem stop) →
    ((Parse.body mem)^[k] p).i < headerListSize
  ends : ∃ k, (∀ j < k, ((Parse.body mem)^[j] p).Goes mem stop) ∧
    ¬ ((Parse.body mem)^[k] p).Goes mem stop

/-- From `a` on the module has at most `n` files, each with a size field of more than `-512`. -/
def AtMost (mem : ℕ → UInt8) (stop : ℕ) : ℕ → ℕ → Prop
  | 0, a => stop ≤ a ∨ mem a = 0
  | n + 1, a => stop ≤ a ∨ mem a = 0 ∨ -512 < fieldValue mem a ∧
      a + 512 + padded (fieldValue mem a).toNat < 2 ^ 64 ∧
      AtMost mem stop n (a + 512 + padded (fieldValue mem a).toNat)

/-- The turns are those of `parse_tar_file`. -/
theorem parseTarFile_eq_some_iff : parseTarFile mem fuel p = some q ↔
    ∃ k < fuel, (∀ j < k, mem ((Parse.body mem)^[j] p).header ≠ 0) ∧
      mem ((Parse.body mem)^[k] p).header = 0 ∧ (Parse.body mem)^[k] p = q := by
  induction fuel generalizing p with
  | zero =>
    rw [parseTarFile]
    constructor
    · intro h
      cases h
    · rintro ⟨k, hk, -⟩
      exact absurd hk k.not_lt_zero
  | succ fuel ih =>
    rw [parseTarFile]
    by_cases hzero : mem p.header = 0
    · rw [if_pos hzero, Option.some_inj]
      constructor
      · rintro rfl
        exact ⟨0, fuel.succ_pos, fun j hj => absurd hj j.not_lt_zero, hzero, rfl⟩
      · rintro ⟨k, -, hnames, -, rfl⟩
        rcases Nat.eq_zero_or_pos k with rfl | hpos
        · rfl
        · exact absurd hzero (hnames 0 hpos)
    · rw [if_neg hzero, ih]
      constructor
      · rintro ⟨k, hk, hnames, hlast, rfl⟩
        refine ⟨k + 1, by omega, fun j hj => ?_, hlast, rfl⟩
        cases j with
        | zero => exact hzero
        | succ j => exact hnames j (by omega)
      · rintro ⟨k, hk, hnames, hlast, rfl⟩
        cases k with
        | zero => exact absurd hlast hzero
        | succ k => exact ⟨k, by omega, fun j hj => hnames (j + 1) (by omega), hlast, rfl⟩

theorem not_goes_iff : ¬ p.Goes mem stop ↔ stop ≤ p.header ∨ mem p.header = 0 := by
  unfold Parse.Goes
  rw [not_and_or, not_lt, not_not]

/-- A walk that does not take a turn is safe. -/
theorem safe_of_not_goes (h : ¬ p.Goes mem stop) : Safe mem stop p := by
  constructor
  · exact fun k hk => absurd (hk 0 k.zero_le) h
  · exact fun k hk => absurd (hk 0 k.zero_le) h
  · exact ⟨0, nofun, h⟩

theorem goes_succ (h : p.Goes mem stop)
    (hk : ∀ j ≤ k, ((Parse.body mem)^[j] (p.body mem)).Goes mem stop) :
    ∀ j ≤ k + 1, ((Parse.body mem)^[j] p).Goes mem stop := by
  intro j hj
  cases j with
  | zero => exact h
  | succ j => exact hk j (by omega)

/-- A walk that takes a turn is safe if this turn is, and the rest of the walk. -/
theorem safe_of_goes (h : p.Goes mem stop) : Safe mem stop p ↔
    p.header + 512 ≤ nextHeader mem p.header ∧ p.i < headerListSize ∧
      Safe mem stop (p.body mem) := by
  have hfirst : ∀ j ≤ 0, ((Parse.body mem)^[j] p).Goes mem stop := by
    intro j hj
    obtain rfl := Nat.le_zero.1 hj
    exact h
  constructor
  · intro hsafe
    refine ⟨hsafe.forward 0 hfirst, hsafe.index 0 hfirst, ?_⟩
    constructor
    · exact fun k hk => hsafe.forward (k + 1) (goes_succ h hk)
    · exact fun k hk => hsafe.index (k + 1) (goes_succ h hk)
    · obtain ⟨k, hk, hlast⟩ := hsafe.ends
      cases k with
      | zero => exact absurd h hlast
      | succ k => exact ⟨k, fun j hj => hk (j + 1) (by omega), hlast⟩
  · rintro ⟨hforward, hindex, hsafe⟩
    constructor
    · intro k hk
      cases k with
      | zero => exact hforward
      | succ k => exact hsafe.forward k fun j hj => hk (j + 1) (by omega)
    · intro k hk
      cases k with
      | zero => exact hindex
      | succ k => exact hsafe.index k fun j hj => hk (j + 1) (by omega)
    · obtain ⟨k, hk, hlast⟩ := hsafe.ends
      refine ⟨k + 1, fun j hj => ?_, hlast⟩
      cases j with
      | zero => exact h
      | succ j => exact hk j (by omega)

/-- By induction on the number of slots that are left. -/
theorem safe_iff (hi : p.i + n = headerListSize) (hlow : 2 ^ 38 ≤ p.header)
    (hstop : stop ≤ 2 ^ 64) : Safe mem stop p ↔ AtMost mem stop n p.header := by
  induction n generalizing p with
  | zero =>
    rw [AtMost]
    by_cases hgoes : p.Goes mem stop
    · have hfull : ¬ p.i < headerListSize := by omega
      rw [safe_of_goes hgoes]
      constructor
      · exact fun h => absurd h.2.1 hfull
      · rintro (hend | hname)
        · exact absurd hgoes.1 hend.not_gt
        · exact absurd hname hgoes.2
    · exact ⟨fun _ => not_goes_iff.1 hgoes, fun _ => safe_of_not_goes hgoes⟩
  | succ n ih =>
    rw [AtMost]
    by_cases hgoes : p.Goes mem stop
    · have hnot : ¬ stop ≤ p.header := hgoes.1.not_ge
      have hroom : p.i < headerListSize := by omega
      rw [safe_of_goes hgoes, forward_iff hlow (hgoes.1.trans_le hstop)]
      simp only [hnot, hgoes.2, hroom, false_or, true_and, and_assoc]
      refine and_congr_right fun hvalue => and_congr_right fun hfit => ?_
      have hnext : (p.body mem).header =
          p.header + 512 + padded (fieldValue mem p.header).toNat := nextHeader_of_lt hvalue hfit
      rw [← hnext]
      apply ih
      · show p.i + 1 + n = headerListSize
        omega
      · rw [hnext]
        omega
    · exact ⟨fun _ => (not_goes_iff.1 hgoes).imp_right Or.inl, fun _ => safe_of_not_goes hgoes⟩

/-- The variables of `parse_tar_file` as `tar_init` calls it. -/
def Parse.start (old : ℕ → ℕ) (tarFile : ℕ) : Parse :=
  ⟨tarFile, 0, fun i => if i < headerListSize then 0 else old i, []⟩

/-- **Parsing a module is safe** if and only if it has at most `HEADER_LIST_SIZE` files, each with a
size field that stands for more than `-512`.  The module is in the area of `get_mmio_ptr`. -/
theorem parse_safe_iff (mem : ℕ → UInt8) (old : ℕ → ℕ) (tarFile length : ℕ)
    (hlow : 0xffffff80000c1000 ≤ tarFile) (hfit : tarFile + length ≤ 2 ^ 64) :
    Safe mem (tarFile + length) (Parse.start old tarFile) ↔
      AtMost mem (tarFile + length) headerListSize tarFile :=
  safe_iff (Nat.zero_add _) (le_trans (by norm_num) hlow) hfit

instance decidableAtMost (mem : ℕ → UInt8) (stop : ℕ) : ∀ n a, Decidable (AtMost mem stop n a)
  | 0, a => inferInstanceAs (Decidable (stop ≤ a ∨ mem a = 0))
  | n + 1, a =>
    have := decidableAtMost mem stop n (a + 512 + padded (fieldValue mem a).toNat)
    inferInstanceAs (Decidable (stop ≤ a ∨ mem a = 0 ∨ -512 < fieldValue mem a ∧
      a + 512 + padded (fieldValue mem a).toNat < 2 ^ 64 ∧
      AtMost mem stop n (a + 512 + padded (fieldValue mem a).toNat)))

/-- The module `bytes`, where `get_mmio_ptr` begins. -/
def moduleOf (bytes : ℕ → UInt8) : ℕ → UInt8 := fun a => bytes (a - 0xffffff80000c1000)

/-- An archive of two files. -/
theorem parse_safe_two : Safe (moduleOf (encode twoFiles)) (0xffffff80000c1000 + 0x1000)
    (Parse.start (fun _ => 0) 0xffffff80000c1000) := by
  apply (parse_safe_iff (moduleOf (encode twoFiles)) (fun _ => 0) 0xffffff80000c1000 0x1000 le_rfl
    (by norm_num)).2
  decide +kernel

/-- A header with the size field `0000000/000`, which stands for `-512`. -/
def stuckHeader : ℕ → UInt8 := fun k =>
  if k = 0 then 0x61 else if k = 131 then 0x2f else if 124 ≤ k ∧ k < 135 then 0x30 else 0

/-- Six files. -/
def sixFiles : List Member := twoFiles ++ twoFiles ++ twoFiles

/-- **Two modules that are not parsed safely.**  In the first one the walk stays at its first header
for ever; in the second one it stores the sixth header behind the array. -/
theorem parse_unsafe :
    ¬ Safe (moduleOf stuckHeader) (0xffffff80000c1000 + 0x1000)
      (Parse.start (fun _ => 0) 0xffffff80000c1000) ∧
    ¬ Safe (moduleOf (encode sixFiles)) (0xffffff80000c1000 + 0x2000)
      (Parse.start (fun _ => 0) 0xffffff80000c1000) := by
  constructor
  · intro hsafe
    have hstuck := (safe_of_goes (by unfold Parse.Goes; decide +kernel)).1 hsafe
    exact absurd hstuck.1 (by decide +kernel)
  · intro hsafe
    have hsix := hsafe.index 5 (by unfold Parse.Goes; decide +kernel)
    exact absurd hsix (by decide +kernel)

end Tar

end TitanOS
