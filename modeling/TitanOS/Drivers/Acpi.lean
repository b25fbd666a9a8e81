import TitanOS.Lib.LittleEndian
import TitanOS.Vmm.Model

/-!
# The ACPI tables (`drivers/acpi.c`)

`map_table` maps two pages, reads the length of the table through the new mapping, and maps the rest
of a table that is longer than two pages.  What it relies on is written down as `MmioAllocator`:
`alloc_mmio` maps the pages of its request, in order, right behind those of the request before.

Two pages hold what lies in them, and this is less than two pages if the table does not begin with a
page.  And the second request starts at `table + PAGE_SIZE * 2`, where `table` points to a header of
36 bytes, so it is 36 times as far away as it should be.
-/

namespace TitanOS

open LittleEndian

namespace Acpi

/-- What `map_table` uses of the memory manager: the address that a virtual address is mapped to,
the variable of `get_mmio_ptr`, and `alloc_mmio`. -/
structure MmioAllocator (σ : Type*) where
  translate : σ → ℕ → Option ℕ
  mmioRegion : σ → ℕ
  allocMmio : σ → ℕ → ℕ → σ × ℕ
  /-- The requests are answered in order. -/
  address : ∀ s p n, (allocMmio s p n).2 = mmioRegion s
  next : ∀ s p n, mmioRegion (allocMmio s p n).1 = mmioRegion s + pageAlign n
  /-- The pages of a request are consecutive. -/
  maps : ∀ s p n, ∀ i < pageAlign n,
    translate (allocMmio s p n).1 (mmioRegion s + i) = some (pageAlignDown p + i)
  /-- The next address to be handed out is not mapped yet. -/
  fresh : ∀ s, translate s (mmioRegion s) = none

/-- `sizeof(acpi_sdt_header_t)`. -/
def headerSize : ℕ := 36

/-- `PAGE_ALIGN`, for a number of 32 bits. -/
def pageAlign32 (n : ℕ) : ℕ := (n + 0xfff) % 2 ^ 32 / 0x1000 * 0x1000

variable {σ : Type*} (M : MmioAllocator σ) (phys : ℕ → UInt8)

/-- The `length` of the header at the virtual address `v`; `none` is a page fault. -/
def loadLength (s : σ) (v : ℕ) : Option ℕ :=
  if ∀ k < 4, (M.translate s (v + 4 + k)).isSome = true then
    some (load (fun a => phys ((M.translate s a).getD 0)) (v + 4) 4)
  else none

/-- `map_table`.  The second length is read through the pointer that was passed in. -/
def mapTable (s : σ) (table : ℕ) : Option (σ × ℕ) :=
  let offset := table - pageAlignDown table
  let (s, newTablePage) := M.allocMmio s table (0x1000 * 2)
  let newTable := newTablePage + offset
  (loadLength M phys s newTable).bind fun length =>
    if length > 0x1000 * 2 then
      (loadLength M phys s table).map fun length =>
        ((M.allocMmio s ((table + headerSize * (0x1000 * 2)) % 2 ^ 64)
          (pageAlign32 ((length + 2 ^ 32 - 0x1000 * 2) % 2 ^ 32))).1, newTable)
    else some (s, newTable)

/-- The table at `table` is mapped completely and in place. -/
def MappedInPlace (s : σ) (table : ℕ) : Prop :=
  ∃ s' newTable, mapTable M phys s table = some (s', newTable) ∧
    ∀ i < load phys (table + 4) 4, M.translate s' (newTable + i) = some (table + i)

variable {M} {phys} {s : σ} {table i n p v : ℕ}

theorem pageAlign_two : pageAlign (0x1000 * 2) = 0x2000 := by
  unfold pageAlign
  norm_num

theorem pageAlignDown_add_offset (table : ℕ) :
    pageAlignDown table + (table - pageAlignDown table) = table ∧
      table - pageAlignDown table = table % 0x1000 := by
  unfold pageAlignDown
  omega

/-- The first request maps the table as far as the two pages go. -/
theorem translate_first (hi : table % 0x1000 + i < 0x2000) :
    M.translate (M.allocMmio s table (0x1000 * 2)).1
      (M.mmioRegion s + (table - pageAlignDown table) + i) = some (table + i) := by
  obtain ⟨hsum, hoffset⟩ := pageAlignDown_add_offset table
  have hmaps := M.maps s table (0x1000 * 2) (table % 0x1000 + i) (by rw [pageAlign_two]; exact hi)
  rw [hoffset] at hsum ⊢
  rw [add_assoc, hmaps, ← add_assoc, hsum]

/-- The length that is read is that of the table. -/
theorem loadLength_first :
    loadLength M phys (M.allocMmio s table (0x1000 * 2)).1
      (M.mmioRegion s + (table - pageAlignDown table)) = some (load phys (table + 4) 4) := by
  have hmapped : ∀ k < 4, M.translate (M.allocMmio s table (0x1000 * 2)).1
      (M.mmioRegion s + (table - pageAlignDown table) + 4 + k) = some (table + 4 + k) := by
    intro k hk
    rw [add_assoc, translate_first (by omega), add_assoc]
  unfold loadLength
  rw [if_pos fun k hk => by rw [hmapped k hk, Option.isSome_some]]
  congr 1
  apply load_shift
  intro k hk
  rw [hmapped k hk, Option.getD_some]

/-- The rest of the table is not where the second request takes it from. -/
theorem translate_second : M.translate (M.allocMmio s ((table + headerSize * (0x1000 * 2)) % 2 ^ 64)
    n).1 (M.mmioRegion s) ≠ some (pageAlignDown table + 0x2000) := by
  intro h
  rcases Nat.eq_zero_or_pos (pageAlign n) with hzero | hpos
  · have hfresh := M.fresh (M.allocMmio s ((table + headerSize * (0x1000 * 2)) % 2 ^ 64) n).1
    rw [M.next, hzero, Nat.add_zero, h] at hfresh
    cases hfresh
  · have hmaps := M.maps s ((table + headerSize * (0x1000 * 2)) % 2 ^ 64) n 0 hpos
    rw [Nat.add_zero, h, Option.some_inj] at hmaps
    unfold pageAlignDown headerSize at hmaps
    omega

/-- What is returned behind the two pages. -/
theorem mapTable_eq : mapTable M phys s table =
    if load phys (table + 4) 4 > 0x1000 * 2 then
      (loadLength M phys (M.allocMmio s table (0x1000 * 2)).1 table).map fun length =>
        ((M.allocMmio (M.allocMmio s table (0x1000 * 2)).1
          ((table + headerSize * (0x1000 * 2)) % 2 ^ 64)
          (pageAlign32 ((length + 2 ^ 32 - 0x1000 * 2) % 2 ^ 32))).1,
          M.mmioRegion s + (table - pageAlignDown table))
    else some ((M.allocMmio s table (0x1000 * 2)).1,
      M.mmioRegion s + (table - pageAlignDown table)) := by
  have haddress := M.address s table (0x1000 * 2)
  unfold mapTable
  simp only [haddress, loadLength_first, Option.bind_some]

/-- The first byte behind the two pages is not that of the table, in no case. -/
theorem translate_behind {s' : σ} {newTable : ℕ} (h : mapTable M phys s table = some (s', newTable)) :
    newTable = M.mmioRegion s + table % 0x1000 ∧
      M.translate s' (M.mmioRegion s + 0x2000) ≠ some (pageAlignDown table + 0x2000) := by
  have hnext := M.next s table (0x1000 * 2)
  rw [pageAlign_two] at hnext
  rw [mapTable_eq, (pageAlignDown_add_offset table).2] at h
  split at h
  · obtain ⟨length, -, hpair⟩ := Option.map_eq_some_iff.1 h
    cases hpair
    rw [← hnext]
    exact ⟨rfl, translate_second⟩
  · cases h
    refine ⟨rfl, ?_⟩
    rw [← hnext, M.fresh]
    nofun

/-- **ACPI tables are mapped completely and in place** if and only if they end within the two pages
of the first request. -/
theorem table_mapped_iff (M : MmioAllocator σ) (phys : ℕ → UInt8) (s : σ) (table : ℕ) :
    MappedInPlace M phys s table ↔ table % 0x1000 + load phys (table + 4) 4 ≤ 0x1000 * 2 := by
  unfold MappedInPlace
  constructor
  · rintro ⟨s', newTable, hmap, htranslate⟩
    obtain ⟨rfl, hbehind⟩ := translate_behind hmap
    by_contra hlong
    have hlast := htranslate (0x2000 - table % 0x1000) (by omega)
    apply hbehind
    rw [show M.mmioRegion s + 0x2000 =
      M.mmioRegion s + table % 0x1000 + (0x2000 - table % 0x1000) by omega, hlast]
    unfold pageAlignDown
    congr 1
    omega
  · intro hshort
    refine ⟨_, _, by rw [mapTable_eq, if_neg (by omega)], fun i hi => translate_first (by omega)⟩

/-! ### The area of device memory -/

/-- The area of device memory: what is mapped in it, and where it ends. -/
structure MmioArea where
  translate : ℕ → Option ℕ
  mmioRegion : ℕ
  fresh : ∀ v, mmioRegion ≤ v → translate v = none

/-- `alloc_mmio`, in an area without an end. -/
def MmioArea.allocMmio (s : MmioArea) (p n : ℕ) : MmioArea × ℕ :=
  (⟨fun v =>
      if v < s.mmioRegion then s.translate v
      else if v < s.mmioRegion + pageAlign n then some (pageAlignDown p + (v - s.mmioRegion))
      else none,
    s.mmioRegion + pageAlign n,
    fun v hv => by rw [if_neg (by omega), if_neg (by omega)]⟩, s.mmioRegion)

/-- The area meets what `map_table` relies on. -/
def mmioArea : MmioAllocator MmioArea where
  translate := MmioArea.translate
  mmioRegion := MmioArea.mmioRegion
  allocMmio := MmioArea.allocMmio
  address _ _ _ := rfl
  next _ _ _ := rfl
  maps s p n i hi := by
    simp only [MmioArea.allocMmio]
    rw [if_neg (by omega), if_pos (by omega), Nat.add_sub_cancel_left]
  fresh s := s.fresh _ le_rfl

/-- The area before the first request. -/
def emptyArea : MmioArea := ⟨fun _ => none, 0xffffff80000c1000, fun _ _ => rfl⟩

/-- A table of `n` bytes at `table`. -/
def tableOf (table n : ℕ) : ℕ → UInt8 := store (fun _ => 0) (table + 4) 4 n

/-- A table of two pages that begins 16 bytes behind the beginning of a page.  Its last 16 bytes are
not mapped. -/
theorem table_not_mapped :
    ¬ MappedInPlace mmioArea (tableOf 0x7fe0010 0x2000) emptyArea 0x7fe0010 := by
  rintro ⟨s', newTable, hmap, htranslate⟩
  have hrun : (mapTable mmioArea (tableOf 0x7fe0010 0x2000) emptyArea 0x7fe0010).map
      (fun r => mmioArea.translate r.1 (r.2 + 0x1ff0)) = some none := by decide +kernel
  have hlen : load (tableOf 0x7fe0010 0x2000) (0x7fe0010 + 4) 4 = 0x2000 := by decide +kernel
  have hbyte := htranslate 0x1ff0 (by rw [hlen]; norm_num)
  rw [hmap, Option.map_some, hbyte] at hrun
  cases hrun

end Acpi

end TitanOS
