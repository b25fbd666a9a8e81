import TitanOS.Lib.LittleEndian
import TitanOS.Vmm.Tables

/-!
# From the entry point to `kernel_start` (`kernel_init.S`)

`_setup_pt` runs with paging off and writes the first page tables, eight pages of the bss, by
their physical addresses.  A store is one of four bytes, so that the upper halves of the entries
are what the loader has left in the bss; it clears it.

`translate_setupPt` says what every virtual address is mapped to once paging is on, for every
image that the linker may lay out and every place of the multiboot information.  `info_reached_iff`
is about the pointer to that information that `kernel_start` gets.

The registers are arguments, and what `pushal` saves is not kept in memory.
-/

namespace TitanOS

open LittleEndian Walk

/-- Where the linker puts the image (`kernel.ld`): `KERNEL_TEXT`, `initial_pml4t_phys` and
`bss_end`, all physical.  The bss holds eight tables, a stack of four pages and `heap_space`.  The
image ends below the page of the VGA buffer. -/
structure Layout where
  kernelText : ℕ
  initialPml4tPhys : ℕ
  bssEnd : ℕ
  text_aligned : kernelText % 0x1000 = 0
  lt_text : 0x100000 < kernelText
  table_aligned : initialPml4tPhys % 0x1000 = 0
  text_le : kernelText ≤ initialPml4tPhys
  tables_le : initialPml4tPhys + 13 * 0x1000 ≤ bssEnd
  bssEnd_lt : (bssEnd - 0x100000) / 0x1000 + 1 < 0xc0

namespace Layout

/-- `kernel_page_size`. -/
def kernelPageSize (l : Layout) : ℕ := (l.bssEnd - 0x100000) / 0x1000 + 1

/-- `kernel_byte_size`. -/
def kernelByteSize (l : Layout) : ℕ := l.kernelPageSize * 0x1000

/-- The physical address of a table: `initial_pml4t`, `initial_pdpt`, `initial_pd`, `initial_pt`,
`initial_pdpt2`, `initial_pd2`, `initial_pt2` and `initial_pt3` follow each other. -/
def table (l : Layout) (n : ℕ) : ℕ := l.initialPml4tPhys + 0x1000 * n

/-- `initial_pt_phys`. -/
def initialPtPhys (l : Layout) : ℕ := l.table 3

/-- `initial_pt2_phys`. -/
def initialPt2Phys (l : Layout) : ℕ := l.table 6

/-- `initial_pt3_phys`. -/
def initialPt3Phys (l : Layout) : ℕ := l.table 7

end Layout

/-- `_map_page`. -/
def mapPage (mem : ℕ → UInt8) (edi edx eax ebx : ℕ) : ℕ → UInt8 :=
  store mem ((edi + edx * 8) % 2 ^ 32) 4 (ebx ||| eax)

/-- `_add_pe_protected`; `loop` counts down from an `ecx` that is not zero. -/
def addPeProtected (edi : ℕ) : ℕ → (ℕ → UInt8) → ℕ → ℕ → ℕ → UInt8
  | 0, mem, _, _ => mem
  | ecx + 1, mem, edx, ebx =>
    addPeProtected edi ecx (mapPage mem edi edx 7 ebx) (edx + 1) ((ebx + 0x1000) % 2 ^ 32)

/-- The address behind the multiboot information, whose first word is its size. -/
def infoEnd (mem : ℕ → UInt8) (ebx : ℕ) : ℕ := (load mem ebx 4 + ebx) % 2 ^ 32

/-- `_check_mb2_info_mapped`; without an answer it hangs. -/
def checkMb2InfoMapped (l : Layout) (mem : ℕ → UInt8) (ebx : ℕ) : Option (ℕ → UInt8) :=
  if pageAlignDown ebx = pageAlignDown l.bssEnd then some mem
  else
    let ecx := pageAlignDown (infoEnd mem ebx)
    if pageAlignDown ebx = ecx then some (mapPage mem l.initialPtPhys l.kernelPageSize 3 ecx)
    else none

/-- `_setup_pt`, with the address of the multiboot information in `ebx`. -/
def setupPt (l : Layout) (mem : ℕ → UInt8) (ebx : ℕ) : Option (ℕ → UInt8) := do
  let mem := mapPage mem (l.table 0) 511 7 (l.table 1)
  let mem := mapPage mem (l.table 1) 0 7 (l.table 2)
  let mem := mapPage mem (l.table 2) 0 7 l.initialPtPhys
  let mem := mapPage mem (l.table 2) 1 7 l.initialPt3Phys
  -- the image, and the page behind it
  let mem := addPeProtected l.initialPtPhys (l.kernelPageSize + 1) mem 0 l.kernelText
  let mem ← checkMb2InfoMapped l mem ebx
  -- the heap, the bitmap and the VGA buffer
  let mem := mapPage mem l.initialPt3Phys 0 7 (l.kernelByteSize + 0x1000)
  let mem := mapPage mem l.initialPtPhys 0xe8 7 (l.kernelByteSize + 0x1000 + 0x1000)
  let mem := mapPage mem l.initialPtPhys 0xc0 0x1b 0xb8000
  -- the identity mapping
  let mem := mapPage mem (l.table 0) 0 0x1b (l.table 4)
  let mem := mapPage mem (l.table 4) 0 0x1b (l.table 5)
  let mem := mapPage mem (l.table 5) 0 0x1b l.initialPt2Phys
  some (addPeProtected (l.initialPt2Phys + 8) 257 mem 0 0x1000)

/-- The argument of `kernel_start`, as `_setup_64` computes it from `ebx`. -/
def infoPointer (l : Layout) (ebx : ℕ) : ℕ :=
  ((ebx - l.kernelText + 0xffffff8000000000 : ℤ) % 2 ^ 64).toNat

/-- The entries of the tables in memory. -/
def entries (mem : ℕ → UInt8) (t : ℕ) (i : Fin 512) : ℕ := load mem (t + 8 * i.val) 8

/-! ### What is written -/

theorem load_zero (a n : ℕ) : load (fun _ => 0) a n = 0 := by
  induction n generalizing a with
  | zero => rfl
  | succ n ih => rw [load, ih]; rfl

/-- A page and its flags in one entry. -/
theorem lor_lt {p x : ℕ} (hp : p < 2 ^ 32) (hx : x < 2 ^ 32) : p ||| x < 2 ^ 32 :=
  Nat.or_lt_two_pow hp hx

namespace Layout

variable {l : Layout} {mem₀ mem mem' : ℕ → UInt8} {f g : ℕ → Fin 512 → ℕ} {n ebx : ℕ}

theorem table_lt (hn : n < 8) : l.table n + 0x1000 * (13 - n) < 0x1c0000 := by
  have h₁ := l.tables_le
  have h₂ := l.bssEnd_lt
  unfold table
  omega

theorem table_mod (n : ℕ) : l.table n % 0x1000 = 0 := by
  have := l.table_aligned
  unfold table
  omega

/-- The bss is cleared, as far as it holds tables. -/
def Cleared (l : Layout) (mem : ℕ → UInt8) : Prop :=
  ∀ a, l.table 0 ≤ a → a < l.table 8 → mem a = 0

/-- The tables in memory have the entries `f`, whose upper halves are zero, and memory is that of
`mem₀` elsewhere. -/
structure Shows (l : Layout) (mem₀ mem : ℕ → UInt8) (f : ℕ → Fin 512 → ℕ) : Prop where
  eq : ∀ n < 8, ∀ i, entries mem (l.table n) i = f n i
  lt : ∀ n < 8, ∀ i, f n i < 2 ^ 32
  other : ∀ a, a < l.table 0 ∨ l.table 8 ≤ a → mem a = mem₀ a

theorem Cleared.shows (h : l.Cleared mem) : l.Shows mem mem fun _ _ => 0 := by
  refine ⟨fun n hn i => ?_, fun n hn i => Nat.two_pow_pos 32, fun _ _ => rfl⟩
  have hi := i.isLt
  rw [entries, load_congr fun b hb hlt => h b ?_ ?_, load_zero]
  · unfold table at *
    omega
  · unfold table at *
    omega

theorem Shows.congr (h : l.Shows mem₀ mem f) (hfg : ∀ n < 8, ∀ i, g n i = f n i) :
    l.Shows mem₀ mem g := by
  refine ⟨fun n hn i => ?_, fun n hn i => ?_, h.other⟩
  · rw [h.eq n hn, hfg n hn]
  · rw [hfg n hn]
    exact h.lt n hn i

theorem writeEntry_apply {m i : ℕ} {j j' : Fin 512} {e : ℕ} :
    writeEntry f m j e i j' = if i = m ∧ j' = j then e else f i j' := by
  by_cases him : i = m
  · subst him
    simp [writeEntry, Function.update_apply]
  · simp [writeEntry, him]

/-- **`_map_page`** sets one entry. -/
theorem Shows.mapPage {eax : ℕ} (h : l.Shows mem₀ mem f) (hn : n < 8) (i : Fin 512)
    (hlt : ebx ||| eax < 2 ^ 32) :
    l.Shows mem₀ (mapPage mem (l.table n) i.val eax ebx) (writeEntry f n i (ebx ||| eax)) := by
  have hi := i.isLt
  have htable := @table_lt l n hn
  have hwrite : TitanOS.mapPage mem (l.table n) i.val eax ebx =
      store mem (l.table n + 8 * i.val) 4 (ebx ||| eax) := by
    rw [TitanOS.mapPage, show (l.table n + i.val * 8) % 2 ^ 32 = l.table n + 8 * i.val by omega]
  rw [hwrite]
  refine ⟨fun m hm j => ?_, fun m hm j => ?_, fun a ha => ?_⟩
  · have hj := j.isLt
    rw [writeEntry_apply, entries]
    split_ifs with hmn
    · obtain ⟨rfl, rfl⟩ := hmn
      -- the upper half is what it was
      have hold : load mem (l.table m + 8 * j.val) (4 + 4) = f m j := h.eq m hm j
      have hsmall := h.lt m hm j
      rw [load_add] at hold
      have hupper : load mem (l.table m + 8 * j.val + 4) 4 = 0 := by omega
      show load _ _ (4 + 4) = _
      rw [load_add, load_store, load_store_of_disjoint (Or.inl le_rfl), hupper, mul_zero, add_zero]
      exact Nat.mod_eq_of_lt hlt
    · rw [← h.eq m hm j, entries]
      refine load_store_of_disjoint ?_
      by_cases hmn' : m = n
      · subst hmn'
        have : j.val ≠ i.val := fun hji => hmn ⟨rfl, Fin.ext hji⟩
        omega
      · unfold table
        omega
  · rw [writeEntry_apply]
    split_ifs
    · exact hlt
    · exact h.lt m hm j
  · rw [← h.other a ha]
    unfold table at ha ⊢
    rcases ha with ha | ha
    · exact store_of_lt (by omega)
    · exact store_of_le (by omega)

/-- Entries `i` to `i + n` of table `m` lead to the pages from `ebx` on. -/
def withPages (f : ℕ → Fin 512 → ℕ) (m i n ebx : ℕ) (m' : ℕ) (j : Fin 512) : ℕ :=
  if m' = m ∧ i ≤ j.val ∧ j.val < i + n then (ebx + 0x1000 * (j.val - i)) ||| 7 else f m' j

/-- **`_add_pe_protected`** sets consecutive entries. -/
theorem Shows.addPeProtected {ecx edx : ℕ} (h : l.Shows mem₀ mem f) (hn : n < 8) (hi : edx + ecx ≤ 512)
    (hlt : ebx + 0x1000 * ecx < 2 ^ 32) :
    l.Shows mem₀ (addPeProtected (l.table n) ecx mem edx ebx) (withPages f n edx ecx ebx) := by
  induction ecx generalizing mem f edx ebx with
  | zero =>
    refine h.congr fun m _ j => ?_
    rw [withPages, if_neg (by omega)]
  | succ ecx ih =>
    have hpage : l.Shows mem₀ (TitanOS.mapPage mem (l.table n) edx 7 ebx)
        (writeEntry f n ⟨edx, by omega⟩ (ebx ||| 7)) :=
      h.mapPage hn ⟨edx, by omega⟩ (lor_lt (by omega) (by norm_num))
    have hnext : (ebx + 0x1000) % 2 ^ 32 = ebx + 0x1000 := by omega
    rw [TitanOS.addPeProtected, hnext]
    refine (@ih _ _ (ebx + 0x1000) (edx + 1) hpage (by omega) (by omega)).congr fun m _ j => ?_
    simp only [withPages, writeEntry_apply, Fin.ext_iff]
    by_cases hj : m = n ∧ j.val = edx
    · obtain ⟨rfl, hj⟩ := hj
      rw [if_pos (by omega), if_neg (by omega), if_pos ⟨rfl, hj⟩, hj, Nat.sub_self, mul_zero,
        add_zero]
    · rw [if_neg (show ¬ (m = n ∧ j.val = edx) from hj)]
      by_cases hin : m = n ∧ edx + 1 ≤ j.val ∧ j.val < edx + 1 + ecx
      · have hsame : ebx + 0x1000 * (j.val - edx) = ebx + 0x1000 + 0x1000 * (j.val - (edx + 1)) := by
          omega
        rw [if_pos (by omega), if_pos hin, hsame]
      · rw [if_neg (by omega), if_neg hin]

theorem addPeProtected_add_eight (edi ecx edx ebx : ℕ) (mem : ℕ → UInt8) :
    TitanOS.addPeProtected (edi + 8) ecx mem edx ebx =
      TitanOS.addPeProtected edi ecx mem (edx + 1) ebx := by
  induction ecx generalizing mem edx ebx with
  | zero => rfl
  | succ ecx ih =>
    have hpage : TitanOS.mapPage mem (edi + 8) edx 7 ebx = TitanOS.mapPage mem edi (edx + 1) 7 ebx := by
      rw [TitanOS.mapPage, TitanOS.mapPage, show edi + 8 + edx * 8 = edi + (edx + 1) * 8 by ring]
    rw [TitanOS.addPeProtected, TitanOS.addPeProtected, hpage, ih]

/-- The page of the multiboot information, if it is mapped behind the image. -/
def infoPage (l : Layout) (ebx : ℕ) : Option ℕ :=
  if pageAlignDown ebx = pageAlignDown l.bssEnd then none else some (pageAlignDown ebx)

/-- The entries that `_setup_pt` writes. -/
def tables (l : Layout) (info : Option ℕ) (n : ℕ) (i : Fin 512) : ℕ :=
  match n with
  | 0 => if i = 0 then l.table 4 ||| 0x1b else if i = 511 then l.table 1 ||| 7 else 0
  | 1 => if i = 0 then l.table 2 ||| 7 else 0
  | 2 => if i = 1 then l.initialPt3Phys ||| 7 else if i = 0 then l.initialPtPhys ||| 7 else 0
  | 3 =>
    if i = 0xc0 then 0xb8000 ||| 0x1b
    else if i = 0xe8 then (l.kernelByteSize + 0x2000) ||| 7
    else if i.val = l.kernelPageSize ∧ info.isSome then info.getD 0 ||| 3
    else if i.val ≤ l.kernelPageSize then (l.kernelText + 0x1000 * i.val) ||| 7
    else 0
  | 4 => if i = 0 then l.table 5 ||| 0x1b else 0
  | 5 => if i = 0 then l.initialPt2Phys ||| 0x1b else 0
  | 6 => if 1 ≤ i.val ∧ i.val ≤ 257 then (0x1000 * i.val) ||| 7 else 0
  | _ => if i = 0 then (l.kernelByteSize + 0x1000) ||| 7 else 0

/-- The multiboot information starts on the page of `bss_end`, or its end is on the page where it
starts. -/
def OnOnePage (l : Layout) (mem : ℕ → UInt8) (ebx : ℕ) : Prop :=
  pageAlignDown ebx = pageAlignDown l.bssEnd ∨ pageAlignDown ebx = pageAlignDown (infoEnd mem ebx)

/-- **`_check_mb2_info_mapped`** changes one entry at most. -/
theorem Shows.checkMb2InfoMapped (h : l.Shows mem₀ mem f) (hebx : ebx < 2 ^ 32)
    (hinfo : ebx + 4 ≤ l.table 0 ∨ l.table 8 ≤ ebx) :
    (l.OnOnePage mem₀ ebx ∧ ∃ mem', checkMb2InfoMapped l mem ebx = some mem' ∧
      l.Shows mem₀ mem' fun n i => if n = 3 ∧ i.val = l.kernelPageSize ∧ (l.infoPage ebx).isSome
        then (l.infoPage ebx).getD 0 ||| 3 else f n i) ∨
    (¬ l.OnOnePage mem₀ ebx ∧ checkMb2InfoMapped l mem ebx = none) := by
  have hend : infoEnd mem ebx = infoEnd mem₀ ebx := by
    rw [infoEnd, infoEnd, load_congr fun a ha hlt => h.other a (by omega)]
  rw [TitanOS.checkMb2InfoMapped, hend]
  by_cases hbss : pageAlignDown ebx = pageAlignDown l.bssEnd
  · refine Or.inl ⟨Or.inl hbss, mem, if_pos hbss, h.congr fun n _ i => ?_⟩
    rw [infoPage, if_pos hbss]
    simp
  · rw [if_neg hbss]
    by_cases hpage : pageAlignDown ebx = pageAlignDown (infoEnd mem₀ ebx)
    · have hkps := l.bssEnd_lt
      have hlt : pageAlignDown ebx ||| 3 < 2 ^ 32 := by
        refine lor_lt ?_ (by norm_num)
        unfold pageAlignDown
        omega
      refine Or.inl ⟨Or.inr hpage, _, if_pos hpage, ?_⟩
      rw [← hpage]
      refine (h.mapPage (show 3 < 8 by norm_num)
        ⟨l.kernelPageSize, by unfold kernelPageSize; omega⟩ hlt).congr fun n _ i => ?_
      simp only [infoPage, if_neg hbss, writeEntry_apply, Fin.ext_iff, Option.isSome_some,
        and_true, Option.getD_some]
    · refine Or.inr ⟨?_, if_neg hpage⟩
      rintro (h' | h')
      · exact hbss h'
      · exact hpage h'

theorem kernelPageSize_lt (l : Layout) : l.kernelPageSize < 0xc0 := l.bssEnd_lt

theorem bssEnd_le (l : Layout) : l.bssEnd < 0x1c0000 := by
  have := l.bssEnd_lt
  omega

theorem kernelText_lt (l : Layout) : l.kernelText < 0x1c0000 := by
  have h₁ := l.text_le
  have h₂ := l.tables_le
  have h₃ := l.bssEnd_le
  omega

/-- **`_setup_pt`** returns if the multiboot information is where it can be mapped, and then the
tables have these entries. -/
theorem setupPt_spec (h : l.Cleared mem) (hebx : ebx < 2 ^ 32)
    (hinfo : ebx + 4 ≤ l.table 0 ∨ l.table 8 ≤ ebx) :
    (l.OnOnePage mem ebx ∧ ∃ mem', setupPt l mem ebx = some mem' ∧
      l.Shows mem mem' (l.tables (l.infoPage ebx))) ∨
    (¬ l.OnOnePage mem ebx ∧ setupPt l mem ebx = none) := by
  have hkps := l.kernelPageSize_lt
  have htext := l.kernelText_lt
  have hbytes : l.kernelByteSize < 0xc0000 := by
    unfold kernelByteSize
    omega
  have htable : ∀ n < 8, ∀ x < 2 ^ 32, l.table n ||| x < 2 ^ 32 := fun n hn x hx =>
    lor_lt (by have := @table_lt l n hn; omega) hx
  have hsmall : ∀ p < 0x200000, ∀ x < 2 ^ 32, p ||| x < 2 ^ 32 := fun p hp x hx =>
    lor_lt (by omega) hx
  have himage := ((((h.shows.mapPage (show 0 < 8 by norm_num) 511
    (htable 1 (by norm_num) 7 (by norm_num))).mapPage (show 1 < 8 by norm_num) 0
    (htable 2 (by norm_num) 7 (by norm_num))).mapPage (show 2 < 8 by norm_num) 0
    (htable 3 (by norm_num) 7 (by norm_num))).mapPage (show 2 < 8 by norm_num) 1
    (htable 7 (by norm_num) 7 (by norm_num))).addPeProtected (show 3 < 8 by norm_num)
    (show 0 + (l.kernelPageSize + 1) ≤ 512 by omega)
    (show l.kernelText + 0x1000 * (l.kernelPageSize + 1) < 2 ^ 32 by omega)
  rcases himage.checkMb2InfoMapped hebx hinfo with ⟨hone, mem₁, hcheck, h₁⟩ | ⟨hone, hcheck⟩
  · have hrest := (((((h₁.mapPage (show 7 < 8 by norm_num) 0
      (hsmall (l.kernelByteSize + 0x1000) (by omega) 7 (by norm_num))).mapPage
      (show 3 < 8 by norm_num) 0xe8
      (hsmall (l.kernelByteSize + 0x1000 + 0x1000) (by omega) 7 (by norm_num))).mapPage
      (show 3 < 8 by norm_num) 0xc0 (hsmall 0xb8000 (by norm_num) 0x1b (by norm_num))).mapPage
      (show 0 < 8 by norm_num) 0 (htable 4 (by norm_num) 0x1b (by norm_num))).mapPage
      (show 4 < 8 by norm_num) 0 (htable 5 (by norm_num) 0x1b (by norm_num))).mapPage
      (show 5 < 8 by norm_num) 0 (htable 6 (by norm_num) 0x1b (by norm_num))
    have hlast := hrest.addPeProtected (show 6 < 8 by norm_num) (show 1 + 257 ≤ 512 by norm_num)
      (show 0x1000 + 0x1000 * 257 < 2 ^ 32 by norm_num)
    rw [← addPeProtected_add_eight] at hlast
    refine Or.inl ⟨hone, _, ?_, hlast.congr fun n hn i => ?_⟩
    · exact Option.bind_eq_some_iff.2 ⟨mem₁, hcheck, rfl⟩
    · clear hrest hlast hcheck himage h₁
      interval_cases n <;> simp only [tables, withPages, writeEntry_apply, initialPtPhys,
        initialPt2Phys, initialPt3Phys] <;> norm_num
      -- the identity mapping starts at the second entry
      by_cases hi : 1 ≤ i.val ∧ i.val ≤ 257
      · rw [if_pos hi, if_pos (by omega), show 4096 + 4096 * (i.val - 1) = 4096 * i.val by omega]
      · rw [if_neg hi, if_neg (by omega)]
  · refine Or.inr ⟨hone, ?_⟩
    exact Option.bind_eq_none_iff.2 fun m hm => absurd (hcheck.symm.trans hm) nofun

/-! ### What is mapped -/

/-- Where an entry leads, if it is present. -/
def present (e : ℕ) : Option ℕ := if e % 2 = 1 then some (pageAlignDown e) else none

theorem present_zero : present 0 = none := rfl

theorem present_lor {p x : ℕ} (hp : p % 0x1000 = 0) (hx : x < 0x1000) (hodd : x % 2 = 1) :
    present (p ||| x) = some p := by
  have hbit : (p ||| x) % 2 = 1 := by
    rw [Nat.or_mod_two_eq_one]
    exact Or.inr hodd
  rw [present, if_pos hbit, pageAlignDown_lor hp hx]

theorem Shows.entry_eq (h : l.Shows mem₀ mem f) (hn : n < 8) (i : Fin 512) :
    entry (entries mem) (l.table n) i = present (f n i) := by
  rw [entry, h.eq n hn, present]

/-- The page number of `KERNEL_VIRT`. -/
def kernelPage : ℕ := 511 * 2 ^ 27

/-- The frame of the `n`-th page of the kernel half. -/
def kernelFrame (l : Layout) (info : Option ℕ) (n : ℕ) : Option ℕ :=
  if n = 0xc0 then some 0xb8000
  else if n = 0xe8 then some (l.kernelByteSize + 0x2000)
  else if n = 0x200 then some (l.kernelByteSize + 0x1000)
  else if n = l.kernelPageSize then some (info.getD (l.kernelText + 0x1000 * n))
  else if n < l.kernelPageSize then some (l.kernelText + 0x1000 * n)
  else none

/-- The frame that the page of `v` is mapped to. -/
def frame (l : Layout) (info : Option ℕ) (v : ℕ) : Option ℕ :=
  if 1 ≤ page v ∧ page v ≤ 257 then some (0x1000 * page v)
  else if page v < kernelPage then none
  else l.kernelFrame info (page v - kernelPage)

/-- Behind the first block there is one page. -/
theorem kernelFrame_of_le (info : Option ℕ) (h : 0x200 ≤ n) :
    l.kernelFrame info n = if n = 0x200 then some (l.kernelByteSize + 0x1000) else none := by
  have hfew := l.kernelPageSize_lt
  rw [kernelFrame, if_neg (by omega), if_neg (by omega)]
  split_ifs
  · rfl
  · omega
  · omega
  · rfl

theorem kernelByteSize_mod (l : Layout) : l.kernelByteSize % 0x1000 = 0 := by
  unfold kernelByteSize
  omega

/-- The digits of a page number. -/
theorem getIndex_page (v : ℕ) : (getIndex v 3).val = page v / 2 ^ 27 ∧
    (getIndex v 2).val = page v / 2 ^ 18 % 512 ∧ (getIndex v 1).val = page v / 2 ^ 9 % 512 ∧
    (getIndex v 0).val = page v % 512 := by
  simp only [getIndex_val, page]
  norm_num
  omega

theorem page_lt (v : ℕ) : page v < 2 ^ 36 := Nat.mod_lt _ (Nat.two_pow_pos 36)

theorem present_table (l : Layout) (n : ℕ) {x : ℕ} (hx : x < 0x1000) (hodd : x % 2 = 1) :
    present (l.table n ||| x) = some (l.table n) :=
  present_lor (l.table_mod n) hx hodd

section Translate

variable {info : Option ℕ} (h : l.Shows mem₀ mem (l.tables info))

include h

theorem Shows.entry_root (i : Fin 512) : entry (entries mem) (l.table 0) i =
    if i = 0 then some (l.table 4) else if i = 511 then some (l.table 1) else none := by
  rw [h.entry_eq (by norm_num), tables, apply_ite present, apply_ite present,
    l.present_table 4 (by norm_num) rfl, l.present_table 1 (by norm_num) rfl, present_zero]

/-- The tables with one entry. -/
theorem Shows.entry_single {n m x : ℕ} (hn : n < 8) (hx : x < 0x1000) (hodd : x % 2 = 1)
    (htable : ∀ i, l.tables info n i = if i = 0 then l.table m ||| x else 0) (i : Fin 512) :
    entry (entries mem) (l.table n) i = if i = 0 then some (l.table m) else none := by
  rw [h.entry_eq hn, htable, apply_ite present, l.present_table m hx hodd, present_zero]

theorem Shows.entry_pdpt (i : Fin 512) :
    entry (entries mem) (l.table 1) i = if i = 0 then some (l.table 2) else none :=
  h.entry_single (by norm_num) (show 7 < 0x1000 by norm_num) rfl (fun _ => rfl) i

theorem Shows.entry_pdpt2 (i : Fin 512) :
    entry (entries mem) (l.table 4) i = if i = 0 then some (l.table 5) else none :=
  h.entry_single (by norm_num) (show 0x1b < 0x1000 by norm_num) rfl (fun _ => rfl) i

theorem Shows.entry_pd2 (i : Fin 512) :
    entry (entries mem) (l.table 5) i = if i = 0 then some (l.table 6) else none :=
  h.entry_single (by norm_num) (show 0x1b < 0x1000 by norm_num) rfl (fun _ => rfl) i

theorem Shows.entry_pd (i : Fin 512) : entry (entries mem) (l.table 2) i =
    if i = 1 then some (l.table 7) else if i = 0 then some (l.table 3) else none := by
  rw [h.entry_eq (by norm_num), tables, apply_ite present, apply_ite present, initialPt3Phys,
    initialPtPhys, l.present_table 7 (by norm_num) rfl, l.present_table 3 (by norm_num) rfl,
    present_zero]

theorem Shows.entry_identity (i : Fin 512) : entry (entries mem) (l.table 6) i =
    if 1 ≤ i.val ∧ i.val ≤ 257 then some (0x1000 * i.val) else none := by
  rw [h.entry_eq (by norm_num), tables, apply_ite present, present_zero,
    present_lor (Nat.mul_mod_right _ _) (by norm_num) rfl]

theorem Shows.entry_heap (i : Fin 512) : entry (entries mem) (l.table 7) i =
    if i = 0 then some (l.kernelByteSize + 0x1000) else none := by
  have hbytes := l.kernelByteSize_mod
  have htable : l.tables info 7 i = if i = 0 then (l.kernelByteSize + 0x1000) ||| 7 else 0 := rfl
  rw [h.entry_eq (by norm_num), htable, apply_ite present, present_zero,
    present_lor (by omega) (by norm_num) rfl]

theorem Shows.entry_image (hinfo : ∀ p ∈ info, p % 0x1000 = 0) (i : Fin 512) :
    entry (entries mem) (l.table 3) i = l.kernelFrame info i.val := by
  have hbytes := l.kernelByteSize_mod
  have htext := l.text_aligned
  have hi := i.isLt
  rw [h.entry_eq (by norm_num), tables, kernelFrame]
  by_cases hvga : i = 0xc0
  · rw [if_pos hvga, if_pos (show i.val = 0xc0 by rw [hvga]; rfl)]
    rfl
  rw [if_neg hvga, if_neg (show ¬ i.val = 0xc0 from fun he => hvga (Fin.ext he))]
  by_cases hpmm : i = 0xe8
  · rw [if_pos hpmm, if_pos (show i.val = 0xe8 by rw [hpmm]; rfl),
      present_lor (by omega) (by norm_num) rfl]
  rw [if_neg hpmm, if_neg (show ¬ i.val = 0xe8 from fun he => hpmm (Fin.ext he)),
    if_neg (show ¬ i.val = 0x200 by omega)]
  have hpage : present ((l.kernelText + 0x1000 * i.val) ||| 7) =
      some (l.kernelText + 0x1000 * i.val) := present_lor (by omega) (by norm_num) rfl
  by_cases hkps : i.val = l.kernelPageSize
  · rw [if_pos hkps]
    cases info with
    | none => rw [if_neg (by simp), if_pos hkps.le, hpage, Option.getD_none]
    | some p =>
      rw [if_pos ⟨hkps, rfl⟩, Option.getD_some, Option.getD_some,
        present_lor (hinfo p rfl) (by norm_num) rfl]
  · rw [if_neg fun he => hkps he.1, if_neg hkps]
    by_cases hlt : i.val < l.kernelPageSize
    · rw [if_pos hlt.le, if_pos hlt, hpage]
    · rw [if_neg (by omega), if_neg hlt, present_zero]

omit h in
theorem follow_single {n m : ℕ} {i : Fin 512} {p : List (Fin 512)}
    {edge : ℕ → Fin 512 → Option ℕ} (hedge : ∀ i, edge n i = if i = 0 then some m else none) :
    follow edge n (i :: p) = if i.val = 0 then follow edge m p else none := by
  rw [follow_cons, hedge]
  by_cases hi : i = 0
  · rw [if_pos hi, if_pos (show i.val = 0 by rw [hi]; rfl), Option.bind_some]
  · have hval : i.val ≠ 0 := fun he => hi (Fin.ext he)
    rw [if_neg hi, if_neg hval, Option.bind_none]

/-- The lower half: only the identity mapping is there. -/
theorem Shows.follow_identity (i j k : Fin 512) :
    follow (entry (entries mem)) (l.table 4) [i, j, k] =
      if i.val = 0 ∧ j.val = 0 ∧ 1 ≤ k.val ∧ k.val ≤ 257 then some (0x1000 * k.val) else none := by
  rw [follow_single h.entry_pdpt2, follow_single h.entry_pd2, follow_cons, h.entry_identity]
  split_ifs with hi hj hk hall hall <;> first | rfl | omega

/-- The upper half: the first two blocks. -/
theorem Shows.follow_kernel (hinfo : ∀ p ∈ info, p % 0x1000 = 0) (i j k : Fin 512) :
    follow (entry (entries mem)) (l.table 1) [i, j, k] =
      if i.val = 0 ∧ j.val < 2 then l.kernelFrame info (512 * j.val + k.val) else none := by
  have hk := k.isLt
  rw [follow_single h.entry_pdpt, follow_cons, h.entry_pd]
  by_cases hi : i.val = 0
  · rw [if_pos hi]
    by_cases hone : j = 1
    · have hj : j.val = 1 := by rw [hone]; rfl
      rw [if_pos hone, if_pos ⟨hi, by omega⟩, Option.bind_some, follow_cons, h.entry_heap]
      rw [kernelFrame_of_le info (show 0x200 ≤ 512 * j.val + k.val by omega)]
      by_cases hk0 : k = 0
      · have hk0' : k.val = 0 := by rw [hk0]; rfl
        rw [if_pos hk0, if_pos (by omega)]
        rfl
      · have hk0' : k.val ≠ 0 := fun he => hk0 (Fin.ext he)
        rw [if_neg hk0, if_neg (by omega), Option.bind_none]
    · rw [if_neg hone]
      have hone' : j.val ≠ 1 := fun he => hone (Fin.ext he)
      by_cases hzero : j = 0
      · have hj : j.val = 0 := by rw [hzero]; rfl
        rw [if_pos hzero, if_pos ⟨hi, by omega⟩, Option.bind_some, follow_cons,
          h.entry_image hinfo, hj, Nat.mul_zero, Nat.zero_add]
        cases l.kernelFrame info k.val <;> rfl
      · have hzero' : j.val ≠ 0 := fun he => hzero (Fin.ext he)
        rw [if_neg hzero, if_neg (by omega), Option.bind_none]
  · rw [if_neg hi, if_neg fun he => hi he.1]

/-- **What the tables map.** -/
theorem Shows.translate_eq (hinfo : ∀ p ∈ info, p % 0x1000 = 0) (v : ℕ) :
    translate (entries mem) (l.table 0) v = l.frame info v := by
  obtain ⟨h3, h2, h1, h0⟩ := getIndex_page v
  have hlt := page_lt v
  rw [translate, indices, follow_cons, h.entry_root]
  unfold frame kernelPage
  by_cases hlow : getIndex v 3 = 0
  · have h3' : (getIndex v 3).val = 0 := by rw [hlow]; rfl
    rw [if_pos hlow, Option.bind_some, h.follow_identity]
    by_cases hid : 1 ≤ page v ∧ page v ≤ 257
    · rw [if_pos (by omega), if_pos hid, show (getIndex v 0).val = page v by omega]
    · rw [if_neg (by omega), if_neg hid, if_pos (by omega)]
  · have h3' : (getIndex v 3).val ≠ 0 := fun he => hlow (Fin.ext he)
    rw [if_neg hlow, if_neg (show ¬ (1 ≤ page v ∧ page v ≤ 257) by omega)]
    by_cases hhigh : getIndex v 3 = 511
    · have h511 : (getIndex v 3).val = 511 := by rw [hhigh]; rfl
      rw [if_pos hhigh, if_neg (by omega), Option.bind_some, h.follow_kernel hinfo]
      by_cases hblock : (getIndex v 2).val = 0 ∧ (getIndex v 1).val < 2
      · rw [if_pos hblock, show 512 * (getIndex v 1).val + (getIndex v 0).val =
          page v - 511 * 2 ^ 27 by omega]
      · rw [if_neg hblock, kernelFrame_of_le info (by omega), if_neg (by omega)]
    · have h511 : (getIndex v 3).val ≠ 511 := fun he => hhigh (Fin.ext he)
      rw [if_neg hhigh, if_pos (by omega), Option.bind_none]

end Translate

theorem infoPage_mod {p : ℕ} (hp : p ∈ l.infoPage ebx) : p % 0x1000 = 0 := by
  unfold infoPage at hp
  split_ifs at hp with hbss
  · cases hp
  · cases hp
    exact Nat.mul_mod_left _ _

/-- The tables when `_setup_pt` has returned. -/
theorem shows_setupPt (h : l.Cleared mem) (hebx : ebx < 2 ^ 32)
    (hinfo : ebx + 4 ≤ l.table 0 ∨ l.table 8 ≤ ebx) (hret : setupPt l mem ebx = some mem') :
    l.Shows mem mem' (l.tables (l.infoPage ebx)) := by
  rcases l.setupPt_spec h hebx hinfo with ⟨-, mem₁, hret₁, hshows⟩ | ⟨-, hnone⟩
  · obtain rfl : mem₁ = mem' := Option.some.inj (hret₁.symm.trans hret)
    exact hshows
  · rw [hnone] at hret
    cases hret

/-- When `_setup_pt` does not hang. -/
theorem exists_setupPt_iff (h : l.Cleared mem) (hebx : ebx < 2 ^ 32)
    (hinfo : ebx + 4 ≤ l.table 0 ∨ l.table 8 ≤ ebx) :
    (∃ mem', setupPt l mem ebx = some mem') ↔ l.OnOnePage mem ebx := by
  rcases l.setupPt_spec h hebx hinfo with ⟨hone, mem₁, hret, -⟩ | ⟨hone, hnone⟩
  · exact iff_of_true ⟨mem₁, hret⟩ hone
  · rw [hnone]
    exact iff_of_false nofun hone

theorem translate_eq_frame (h : l.Cleared mem) (hebx : ebx < 2 ^ 32)
    (hinfo : ebx + 4 ≤ l.table 0 ∨ l.table 8 ≤ ebx) (hret : setupPt l mem ebx = some mem') (v : ℕ) :
    translate (entries mem') (l.table 0) v = l.frame (l.infoPage ebx) v :=
  (shows_setupPt h hebx hinfo hret).translate_eq (fun _ => infoPage_mod) v

/-- **The address space that the kernel starts in.**  `_setup_pt` returns if and only if the
multiboot information starts on the page of `bss_end` or ends on the page where it starts.  Then
every virtual address is mapped as in `frame`. -/
theorem translate_setupPt (l : Layout) (mem : ℕ → UInt8) (ebx : ℕ) (h : l.Cleared mem)
    (hebx : ebx < 2 ^ 32) (hinfo : ebx + 4 ≤ l.table 0 ∨ l.table 8 ≤ ebx) :
    ((∃ mem', setupPt l mem ebx = some mem') ↔ l.OnOnePage mem ebx) ∧
    ∀ mem', setupPt l mem ebx = some mem' → ∀ v,
      translate (entries mem') (l.table 0) v = l.frame (l.infoPage ebx) v :=
  ⟨exists_setupPt_iff h hebx hinfo, fun _ hret v => translate_eq_frame h hebx hinfo hret v⟩

/-- An image of 31 pages. -/
def small : Layout :=
  ⟨0x101000, 0x111000, 0x11e000, by decide, by decide, by decide, by decide, by decide, by decide⟩

/-- Memory that is cleared but for multiboot information of 24 bytes, behind the page that follows
the image. -/
def infoBehind (a : ℕ) : UInt8 := if a = 0x120010 then 24 else 0

theorem cleared_infoBehind : small.Cleared infoBehind := by
  intro a _ ha
  have hlt : a < 0x119000 := ha
  exact if_neg (by omega)

theorem onOnePage_infoBehind : small.OnOnePage infoBehind 0x120010 := Or.inr (by decide)

/-- The information is mapped at the end of the image. -/
theorem translate_setupPt_small :
    ((∃ mem', setupPt small infoBehind 0x120010 = some mem') ↔
      small.OnOnePage infoBehind 0x120010) ∧
    ∀ mem', setupPt small infoBehind 0x120010 = some mem' → ∀ v,
      translate (entries mem') (small.table 0) v =
        small.frame (small.infoPage 0x120010) v :=
  translate_setupPt small infoBehind 0x120010 cleared_infoBehind (by norm_num) (Or.inr (by decide))

/-- The frames of the kernel half. -/
theorem frame_kernel (l : Layout) (info : Option ℕ) {a : ℕ} (ha : a < 2 ^ 39) :
    l.frame info (0xffffff8000000000 + a) = l.kernelFrame info (a / 0x1000) := by
  have hpage : page (0xffffff8000000000 + a) = kernelPage + a / 0x1000 := by
    unfold page kernelPage
    omega
  have hhigh : 257 < kernelPage := by
    unfold kernelPage
    norm_num
  rw [frame, hpage, if_neg (by omega), if_neg (by omega), Nat.add_sub_cancel_left]

/-! ### The pointer to the multiboot information -/

/-- The physical address that `v` is mapped to. -/
def physical (l : Layout) (mem : ℕ → UInt8) (v : ℕ) : Option ℕ :=
  (translate (entries mem) (l.table 0) v).map (· + v % 0x1000)

/-- The pointer is below the kernel half if the information is below the image. -/
theorem infoPointer_of_lt (h : ebx < l.kernelText) :
    257 < page (infoPointer l ebx) ∧ page (infoPointer l ebx) < kernelPage := by
  have htext := l.kernelText_lt
  unfold infoPointer page kernelPage
  omega

theorem infoPointer_of_le (h : l.kernelText ≤ ebx) (hebx : ebx < 2 ^ 32) :
    infoPointer l ebx = 0xffffff8000000000 + (ebx - l.kernelText) := by
  unfold infoPointer
  omega

/-- A page of the kernel half is mapped to the same place of the image only if it belongs to the
image or is the one behind it. -/
theorem kernelFrame_eq_iff {info : Option ℕ} :
    l.kernelFrame info n = some (l.kernelText + 0x1000 * n) ↔ n < l.kernelPageSize ∨
      n = l.kernelPageSize ∧ info.getD (l.kernelText + 0x1000 * n) = l.kernelText + 0x1000 * n := by
  have hfew := l.kernelPageSize_lt
  have htext := l.lt_text
  have hbytes : l.kernelByteSize < 0xc0000 := by
    unfold kernelByteSize
    omega
  rw [kernelFrame]
  by_cases hkps : n = l.kernelPageSize
  · rw [if_neg (by omega), if_neg (by omega), if_neg (by omega), if_pos hkps, Option.some.injEq]
    exact ⟨fun h => Or.inr ⟨hkps, h⟩, fun h => (h.resolve_left (by omega)).2⟩
  · by_cases hlt : n < l.kernelPageSize
    · rw [if_neg (by omega), if_neg (by omega), if_neg (by omega), if_neg hkps, if_pos hlt]
      exact iff_of_true rfl (Or.inl hlt)
    · refine iff_of_false ?_ (by omega)
      split_ifs <;> simp only [Option.some.injEq, not_false_eq_true] <;> omega

/-- **The pointer that `kernel_start` gets** leads to the multiboot information, byte by byte, if
and only if the information is in the image or on the page behind it.  What
`_check_mb2_info_mapped` maps makes no difference. -/
theorem info_reached_iff (l : Layout) (mem mem' : ℕ → UInt8) (ebx : ℕ) (h : l.Cleared mem)
    (hinfo : ebx + 4 ≤ l.table 0 ∨ l.table 8 ≤ ebx) (hsize : 0 < load mem ebx 4)
    (hend : ebx + load mem ebx 4 < 2 ^ 32) (hret : setupPt l mem ebx = some mem') :
    (∀ a < load mem ebx 4, l.physical mem' (infoPointer l ebx + a) = some (ebx + a)) ↔
      l.kernelText ≤ ebx ∧
        ebx + load mem ebx 4 ≤ l.kernelText + 0x1000 * (l.kernelPageSize + 1) := by
  have hpage := (exists_setupPt_iff h (by omega) hinfo).1 ⟨mem', hret⟩
  have hfew := l.kernelPageSize_lt
  have haligned := l.text_aligned
  have hphys : ∀ v, l.physical mem' v = (l.frame (l.infoPage ebx) v).map (· + v % 0x1000) :=
    fun v => by rw [physical, translate_eq_frame h (by omega) hinfo hret]
  by_cases htext : ebx < l.kernelText
  · refine iff_of_false (fun hall => ?_) (by omega)
    obtain ⟨hlo, hhi⟩ := infoPointer_of_lt htext
    have hfirst := hall 0 hsize
    rw [hphys, Nat.add_zero, frame, if_neg (by omega), if_pos hhi] at hfirst
    cases hfirst
  have hle : l.kernelText ≤ ebx := Nat.le_of_not_lt htext
  -- byte `a` is on page `n`
  have hbyte : ∀ a < load mem ebx 4, (l.physical mem' (infoPointer l ebx + a) = some (ebx + a) ↔
      l.kernelFrame (l.infoPage ebx) ((ebx + a - l.kernelText) / 0x1000) =
        some (l.kernelText + 0x1000 * ((ebx + a - l.kernelText) / 0x1000))) := by
    intro a ha
    have hptr : infoPointer l ebx + a = 0xffffff8000000000 + (ebx + a - l.kernelText) := by
      rw [infoPointer_of_le hle (by omega)]
      omega
    rw [hphys, hptr, l.frame_kernel _ (by omega)]
    generalize hk : l.kernelFrame (l.infoPage ebx) ((ebx + a - l.kernelText) / 0x1000) = f
    cases f with
    | none => exact iff_of_false nofun nofun
    | some f =>
      rw [Option.map_some, Option.some.injEq, Option.some.injEq]
      omega
  have hlast : ebx + load mem ebx 4 - 1 = ebx + (load mem ebx 4 - 1) := by omega
  constructor
  · intro hall
    refine ⟨hle, ?_⟩
    have h' := (hbyte _ (by omega)).1 (hall (load mem ebx 4 - 1) (by omega))
    rw [kernelFrame_eq_iff] at h'
    omega
  · rintro ⟨-, hfits⟩ a ha
    rw [hbyte a ha, kernelFrame_eq_iff]
    by_cases hkps : (ebx + a - l.kernelText) / 0x1000 = l.kernelPageSize
    · refine Or.inr ⟨hkps, ?_⟩
      unfold infoPage
      split_ifs with hbss
      · rfl
      · -- all bytes are on the page that is mapped behind the image
        have hsame := hpage.resolve_left hbss
        rw [infoEnd, Nat.mod_eq_of_lt (by omega)] at hsame
        rw [Option.getD_some]
        unfold pageAlignDown at hsame ⊢
        omega
    · left
      omega

/-- The information behind the image is reached. -/
theorem info_reached_small : ∃ mem', setupPt small infoBehind 0x120010 = some mem' ∧
    ((∀ a < load infoBehind 0x120010 4,
      small.physical mem' (infoPointer small 0x120010 + a) = some (0x120010 + a)) ↔
      small.kernelText ≤ 0x120010 ∧ 0x120010 + load infoBehind 0x120010 4 ≤
        small.kernelText + 0x1000 * (small.kernelPageSize + 1)) := by
  rcases small.setupPt_spec cleared_infoBehind (show 0x120010 < 2 ^ 32 by norm_num)
    (Or.inr (by decide)) with ⟨-, mem', hret, -⟩ | ⟨hnot, -⟩
  · exact ⟨mem', hret, info_reached_iff small infoBehind mem' 0x120010 cleared_infoBehind
      (Or.inr (by decide)) (by decide) (by decide) hret⟩
  · exact absurd onOnePage_infoBehind hnot

end Layout

end TitanOS
