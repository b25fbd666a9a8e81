import TitanOS.Boot.E820
import TitanOS.Boot.KernelInit

/-!
# From the disk to the entry point of the kernel (`boot.S`, `stage2.S`, `stage3.S`)

The first sector reads the rest of the loader, and with it the first sector of the kernel, whose
multiboot header says where the image goes.  Stage 2 reads the image into low memory, stage 3 copies
it up, clears the bss behind it and jumps.

`loads_iff` says when all this succeeds and what is in memory then.  `kernel_sees_image` goes on to
the page tables of `kernel_init.S`: what `kernel_start` finds in the kernel half is the image from
the disk, and of the multiboot information it finds nothing.

`mem` does not hold the code and the variables of the loader: the latter are the fields of `Stage`.
-/

namespace TitanOS

open LittleEndian E820

namespace Loader

/-- The address of `_start`. -/
def start : ℕ := 0x7c00

/-- `SECTOR_SIZE`. -/
def sectorSize : ℕ := 512

/-- A disk and the BIOS that reads it: of the `n` sectors from `lba` on, interrupt 0x13 brings
`transferred lba n` into memory, and it leaves that number in the packet. -/
structure Disk where
  bytes : ℕ → UInt8
  lbaPresent : Bool
  transferred : ℕ → ℕ → ℕ

/-- The addresses of `bootloader_end` and `multiboot_info_t` (`boot.ld`). -/
structure Addresses where
  bootloaderEnd : ℕ
  multibootInfo : ℕ
  aligned : bootloaderEnd % sectorSize = 0
  lt_end : start + sectorSize ≤ bootloaderEnd
  end_lt : bootloaderEnd + 0x1000 < 2 ^ 16
  end_le_info : bootloaderEnd ≤ multibootInfo
  info_le : multibootInfo + 24 ≤ bootloaderEnd + 0x1000

/-- Memory, and the variables of `stage2.S`. -/
structure Stage where
  mem : ℕ → UInt8
  kernelStart : ℕ := 0
  kernelEnd : ℕ := 0
  bssEnd : ℕ := 0
  kernelEntry : ℕ := 0
  kernelLoadStart : ℕ := 0
  kernelLoadEnd : ℕ := 0

/-- Memory and registers when the loader jumps to the kernel. -/
structure Entered where
  mem : ℕ → UInt8
  eax : ℕ
  ebx : ℕ
  eip : ℕ

/-- What interrupt 0x13 leaves in memory. -/
def Disk.int13 (d : Disk) (mem : ℕ → UInt8) (addr lba n : ℕ) : ℕ → UInt8 := fun a =>
  if addr ≤ a ∧ a < addr + sectorSize * d.transferred lba n then
    d.bytes (sectorSize * lba + (a - addr))
  else mem a

/-- `_bytes_to_sectors`. -/
def bytesToSectors (di : ℕ) : ℕ :=
  if di % sectorSize = 0 then di / sectorSize else di / sectorSize + 1

/-- `_addr_to_seg_reg_value`. -/
def addrToSegRegValue (di : ℕ) : ℕ := di / 0x10

/-- `_read_bytes`; `none` is `_print_error`, which hangs. -/
def readBytes (d : Disk) (mem : ℕ → UInt8) (ax bx di : ℕ) : Option (ℕ → UInt8) :=
  let di := bytesToSectors di
  if d.transferred ax di = di then some (d.int13 mem (addrToSegRegValue bx * 0x10) ax di) else none

/-- The number of bytes that `_get_bootloader` asks for, in `%di`. -/
def loaderBytes (b : Addresses) : ℕ := b.bootloaderEnd - (start + sectorSize) + sectorSize

/-- `_check_lba` and `_get_bootloader`. -/
def getBootloader (d : Disk) (b : Addresses) (mem : ℕ → UInt8) : Option (ℕ → UInt8) :=
  if d.lbaPresent then
    readBytes d mem 1 (start + sectorSize) (loaderBytes b)
  else none

/-- `_get_bootloader_size`. -/
def getBootloaderSize (b : Addresses) : ℕ := bytesToSectors (b.bootloaderEnd - start)

/-- `_verify_magic_number`. -/
def verifyMagicNumber (b : Addresses) (mem : ℕ → UInt8) : Bool :=
  load mem b.bootloaderEnd 2 = 0x50d6 && load mem (b.bootloaderEnd + 2) 2 = 0xe852

/-- `_get_section_ends`: the address tag and the entry tag of the header. -/
def getSectionEnds (b : Addresses) (s : Stage) : Stage :=
  { s with
    kernelStart := load s.mem (b.bootloaderEnd + 28) 4
    kernelEnd := load s.mem (b.bootloaderEnd + 32) 4
    bssEnd := load s.mem (b.bootloaderEnd + 36) 4
    kernelEntry := load s.mem (b.bootloaderEnd + 48) 4 }

/-- `_fetch_kernel`: the difference has 32 bits, and the upper 16 have to be zero. -/
def fetchKernel (d : Disk) (b : Addresses) (s : Stage) : Option Stage :=
  let size := (s.kernelEnd + 2 ^ 32 - s.kernelStart) % 2 ^ 32
  if size / 2 ^ 16 = 0 then do
    let bx := b.bootloaderEnd + 0x1000
    let mem ← readBytes d s.mem (getBootloaderSize b) bx size
    some { s with mem := mem, kernelLoadStart := bx, kernelLoadEnd := bx + size }
  else none

/-- `_parse_multiboot_header`.  Nothing has changed `%edi` since `_get_bootloader`, and the memory map
goes to that address. -/
def parseMultibootHeader (d : Disk) (int15 : ℕ → Option (Entry × ℕ)) (fuel : ℕ) (b : Addresses)
    (mem : ℕ → UInt8) : Option Stage :=
  if verifyMagicNumber b mem then do
    let s := getSectionEnds b { mem := mem }
    let s := { s with mem := multibootInfoTInit s.mem b.multibootInfo }
    let s ← fetchKernel d b s
    let mem ← readE820 int15 fuel b.multibootInfo s.mem (loaderBytes b)
    some { s with mem := mem }
  else none

/-- `_clear_screen_loop`, with the turns that are left. -/
def clearScreenLoop : ℕ → (ℕ → UInt8) → ℕ → ℕ → UInt8
  | 0, mem, _ => mem
  | n + 1, mem, ebx => clearScreenLoop n (store mem ebx 4 0x20) (ebx + 2)

/-- `_clear_screen`. -/
def clearScreen (mem : ℕ → UInt8) : ℕ → UInt8 := clearScreenLoop (0x7d0 / 2) mem 0xb8000

/-- `_copy_bytes`. -/
def copyBytes : ℕ → (ℕ → UInt8) → ℕ → ℕ → ℕ → UInt8
  | 0, mem, _, _ => mem
  | ecx + 1, mem, esi, edi =>
    copyBytes ecx (store mem edi 1 (load mem esi 1)) ((esi + 1) % 2 ^ 32) ((edi + 1) % 2 ^ 32)

/-- `_fill_buffer`. -/
def fillBuffer (eax : ℕ) : ℕ → (ℕ → UInt8) → ℕ → ℕ → UInt8
  | 0, mem, _ => mem
  | ecx + 1, mem, edi => fillBuffer eax ecx (store mem edi 1 eax) ((edi + 1) % 2 ^ 32)

/-- `_copy_kernel_image`. -/
def copyKernelImage (s : Stage) : Stage :=
  { s with
    mem := copyBytes ((s.kernelLoadEnd + 2 ^ 32 - s.kernelLoadStart) % 2 ^ 32) s.mem
      s.kernelLoadStart s.kernelStart }

/-- `_clear_kernel_bss`. -/
def clearKernelBss (s : Stage) : Stage :=
  { s with mem := fillBuffer 0 ((s.bssEnd + 2 ^ 32 - s.kernelEnd) % 2 ^ 32) s.mem s.kernelEnd }

/-- `_print_string_loop` of `stage3.S`, in white on black. -/
def printStringLoop : ℕ → (ℕ → UInt8) → ℕ → ℕ → Option (ℕ → UInt8)
  | 0, _, _, _ => none
  | fuel + 1, mem, ecx, ebx =>
    if mem ecx = 0 then some mem
    else printStringLoop fuel (store mem ebx 2 (0x0f00 + (mem ecx).toNat)) ((ecx + 1) % 2 ^ 32)
      ((ebx + 2) % 2 ^ 32)

/-- `_start_stage_two`. -/
def startStageTwo (fuel : ℕ) (b : Addresses) (s : Stage) : Option Entered := do
  let s := { s with mem := clearScreen s.mem }
  let s := copyKernelImage s
  let s := clearKernelBss s
  -- the text is the last word of the image
  let mem ← printStringLoop fuel s.mem ((s.kernelEnd + 2 ^ 32 - 4) % 2 ^ 32) 0xb8000
  some ⟨mem, 0x36d76289, b.multibootInfo, s.kernelEntry⟩

/-- The loader, from `_get_bootloader` to the jump to `kernel_entry`. -/
def boot (d : Disk) (int15 : ℕ → Option (Entry × ℕ)) (fuel : ℕ) (b : Addresses) (mem : ℕ → UInt8) :
    Option Entered := do
  let mem ← getBootloader d b mem
  let s ← parseMultibootHeader d int15 fuel b mem
  startStageTwo fuel b s

/-- The kernel on the disk follows the loader. -/
def Disk.kernel (d : Disk) (b : Addresses) (i : ℕ) : UInt8 :=
  d.bytes (sectorSize * getBootloaderSize b + i)

/-- All `n` sectors from `lba` on can be read at once. -/
def Disk.Reads (d : Disk) (lba n : ℕ) : Prop := d.transferred lba n = n

/-- An image with the multiboot header of `kernel_init.S`, linked to `l`. -/
structure Header (l : Layout) (kernelEnd kernelEntry : ℕ) (image : ℕ → UInt8) : Prop where
  magic : load image 0 4 = 0xe85250d6
  loadAddr : load image 28 4 = 0x100000
  loadEndAddr : load image 32 4 = kernelEnd
  bssEndAddr : load image 36 4 = l.bssEnd
  entryAddr : load image 48 4 = kernelEntry
  text_le : l.kernelText ≤ kernelEnd
  end_le : kernelEnd ≤ l.initialPml4tPhys

variable {d : Disk} {b : Addresses} {l : Layout} {mem mem' : ℕ → UInt8} {es : List Entry}
  {a n i fuel esi edi kernelEnd kernelEntry : ℕ}

/-! ### Reading -/

theorem le_bytesToSectors (n : ℕ) : n ≤ sectorSize * bytesToSectors n := by
  unfold bytesToSectors sectorSize
  split_ifs <;> omega

theorem mul_bytesToSectors (h : n % sectorSize = 0) : sectorSize * bytesToSectors n = n := by
  rw [bytesToSectors, if_pos h]
  exact Nat.mul_div_cancel' (Nat.dvd_of_mod_eq_zero h)

theorem mul_getBootloaderSize (b : Addresses) :
    sectorSize * getBootloaderSize b = b.bootloaderEnd - start := by
  have h := b.aligned
  refine mul_bytesToSectors ?_
  unfold sectorSize start at *
  omega

theorem exists_readBytes_iff {ax bx di : ℕ} :
    (∃ mem', readBytes d mem ax bx di = some mem') ↔ d.Reads ax (bytesToSectors di) := by
  unfold readBytes Disk.Reads
  by_cases h : d.transferred ax (bytesToSectors di) = bytesToSectors di
  · exact iff_of_true ⟨_, if_pos h⟩ h
  · refine iff_of_false ?_ h
    rintro ⟨mem', hmem'⟩
    rw [if_neg h] at hmem'
    cases hmem'

/-- **`_read_bytes`** brings what it is asked for, and changes nothing below. -/
theorem readBytes_apply {ax bx di : ℕ} (h : readBytes d mem ax bx di = some mem')
    (hbx : bx % 0x10 = 0) :
    (∀ i < di, mem' (bx + i) = d.bytes (sectorSize * ax + i)) ∧ ∀ a < bx, mem' a = mem a := by
  have hreads : d.Reads ax (bytesToSectors di) := exists_readBytes_iff.1 ⟨mem', h⟩
  have hsize := le_bytesToSectors di
  have haddr : addrToSegRegValue bx * 0x10 = bx := by
    unfold addrToSegRegValue
    omega
  have hmem : d.int13 mem bx ax (bytesToSectors di) = mem' := by
    simp only [readBytes, if_pos (show d.transferred ax _ = _ from hreads), haddr,
      Option.some.injEq] at h
    exact h
  subst hmem
  refine ⟨fun i hi => ?_, fun a ha => if_neg (by omega)⟩
  rw [Disk.int13, show d.transferred ax _ = _ from hreads, if_pos ⟨by omega, by omega⟩,
    Nat.add_sub_cancel_left]

/-- The rest of the loader is there, and the first sector of the kernel behind it. -/
theorem exists_getBootloader_iff : (∃ mem', getBootloader d b mem = some mem') ↔
    d.lbaPresent = true ∧ d.Reads 1 (getBootloaderSize b) := by
  have hlt := b.lt_end
  have hsize : loaderBytes b = b.bootloaderEnd - start := by
    unfold loaderBytes
    omega
  unfold getBootloader
  by_cases h : d.lbaPresent = true
  · rw [if_pos h, exists_readBytes_iff, hsize]
    exact (and_iff_right h).symm
  · rw [if_neg h]
    exact iff_of_false nofun fun hand => h hand.1

theorem getBootloader_apply (h : getBootloader d b mem = some mem') (hi : i < sectorSize) :
    mem' (b.bootloaderEnd + i) = d.kernel b i := by
  have hlt := b.lt_end
  have hmul := mul_getBootloaderSize b
  unfold getBootloader at h
  split_ifs at h
  have hread := (readBytes_apply h (by decide)).1 (b.bootloaderEnd - (start + sectorSize) + i)
    (Nat.add_lt_add_left hi _)
  rw [Disk.kernel, hmul]
  rw [show start + sectorSize + (b.bootloaderEnd - (start + sectorSize) + i) =
    b.bootloaderEnd + i by omega] at hread
  rw [hread, show sectorSize * 1 + (b.bootloaderEnd - (start + sectorSize) + i) =
    b.bootloaderEnd - start + i by omega]

/-! ### The memory map -/

theorem write_of_le {e : Entry} {a' : ℕ} (h : a + 24 ≤ a') : e.write mem a a' = mem a' := by
  unfold Entry.write
  cases e.attributes with
  | none => simp only [store_of_le (show a + 8 ≤ a' by omega),
      store_of_le (show a + 8 + 8 ≤ a' by omega), store_of_le (show a + 16 + 4 ≤ a' by omega)]
  | some x => simp only [store_of_le (show a + 8 ≤ a' by omega),
      store_of_le (show a + 8 + 8 ≤ a' by omega), store_of_le (show a + 16 + 4 ≤ a' by omega),
      store_of_le (show a + 20 + 4 ≤ a' by omega)]

/-- The loop of `_read_e820` writes to the place of the entries that are left, and stops at the last
one. -/
theorem readE820Loop_frame {s : Stage2} (hebx : s.ebx ≤ es.length - 1)
    (hfuel : es.length - s.ebx < fuel) :
    ∃ s', readE820Loop (bios es) fuel s = some s' ∧ s'.entryLength = es.length - 1 ∧
      ∀ a, a < s.edi ∨ s.edi + 24 * (es.length - s.ebx) + 4 ≤ a → s'.mem a = s.mem a := by
  induction fuel generalizing s with
  | zero => omega
  | succ fuel ih =>
    have hstore : ∀ a, a < s.edi ∨ s.edi + 24 * (es.length - s.ebx) + 4 ≤ a →
        store s.mem s.edi 4 24 a = s.mem a := by
      rintro a (ha | ha)
      · exact store_of_lt ha
      · exact store_of_le (by omega)
    rcases Nat.lt_or_ge s.ebx es.length with hlt | hge
    · have hbios : bios es s.ebx = some (es[s.ebx], if s.ebx + 1 < es.length then s.ebx + 1 else 0) := by
        rw [bios, List.getElem?_eq_getElem hlt, Option.map_some]
      have hwrite : ∀ a, a < s.edi ∨ s.edi + 28 ≤ a →
          es[s.ebx].write (store s.mem s.edi 4 24) (s.edi + 4) a = s.mem a := by
        rintro a (ha | ha)
        · rw [write_of_lt (by omega), store_of_lt ha]
        · rw [write_of_le (by omega), store_of_le (by omega)]
      by_cases hmore : s.ebx + 1 < es.length
      · rw [if_pos hmore] at hbios
        obtain ⟨s', hs', hlen, hframe⟩ := @ih ⟨es[s.ebx].write (store s.mem s.edi 4 24) (s.edi + 4),
          s.edi + 4 + 20, s.ebx + 1, s.ebx⟩ (by simp only; omega) (by simp only; omega)
        refine ⟨s', ?_, hlen, fun a ha => ?_⟩
        · simp only [readE820Loop, hbios, Nat.add_eq_zero_iff, one_ne_zero, and_false, if_false]
          exact hs'
        · rw [hframe a (by simp only; omega)]
          exact hwrite a (by omega)
      · rw [if_neg hmore] at hbios
        refine ⟨_, by simp only [readE820Loop, hbios, if_true]; rfl, ?_, fun a ha => hwrite a (by omega)⟩
        simp only
        omega
    · have hbios : bios es s.ebx = none := by
        rw [bios, List.getElem?_eq_none hge, Option.map_none]
      refine ⟨_, by simp only [readE820Loop, hbios]; rfl, ?_, hstore⟩
      simp only
      omega

theorem load_multibootInfoTInit (mem : ℕ → UInt8) (info : ℕ) :
    load (multibootInfoTInit mem info) info 4 = 24 := by
  rw [multibootInfoTInit, load_store_of_disjoint (by omega), load_store]
  norm_num

/-- How many entries `_read_e820` counts: one if the BIOS has none, and in a byte. -/
def counted (es : List Entry) : ℕ := (es.length - 1 + 1) % 2 ^ 8

/-- **`_read_e820`** writes the entries at `%edi`, and adds the size of so many entries to that of
the information. -/
theorem readE820_frame {info edi : ℕ} (hfuel : es.length < fuel)
    (hinfo : edi + 24 * es.length + 4 ≤ info) (hsize : load mem info 4 = 24) :
    ∃ mem', readE820 (bios es) fuel info mem edi = some mem' ∧
      (∃ z < 2 ^ 8, load mem' info 4 = 24 + counted es * z) ∧
      ∀ a, edi + 24 * es.length + 4 ≤ a → a < info ∨ info + 24 ≤ a → mem' a = mem a := by
  obtain ⟨s, hs, hlen, hframe⟩ := @readE820Loop_frame es fuel ⟨mem, edi, 0, 0⟩ (Nat.zero_le _) hfuel
  simp only [Nat.sub_zero] at hframe
  have hz := @load_lt s.mem (info + 16) 1
  have hn : counted es < 2 ^ 8 := Nat.mod_lt _ (by norm_num)
  refine ⟨_, by rw [readE820, hs, Option.map_some], ⟨load s.mem (info + 16) 1, hz, ?_⟩,
    fun a ha h => ?_⟩
  · have hcount : (s.entryLength + 1) % 2 ^ 32 % 2 ^ 8 = counted es := by
      rw [hlen, counted]
      omega
    have hprod : counted es * load s.mem (info + 16) 1 ≤ 255 * 255 :=
      Nat.mul_le_mul (by omega) (by omega)
    have hbefore : load s.mem info 4 = 24 := by
      rw [← hsize]
      exact load_congr fun a ha _ => hframe a (Or.inr (by omega))
    rw [show 4 = 2 + 2 by norm_num, load_add] at hbefore ⊢
    have hlow := @load_lt s.mem info 2
    simp only [hcount]
    rw [load_store, load_store_of_disjoint (show info + 2 ≤ info + 2 ∨ _ from Or.inl le_rfl),
      load_store_of_disjoint (show info + 12 + 2 ≤ info ∨ info + 2 ≤ info + 12 by omega),
      load_store_of_disjoint (show info + 12 + 2 ≤ info + 2 ∨ info + 2 + 2 ≤ info + 12 by omega)]
    omega
  · rcases h with h | h
    · rw [store_of_lt h, store_of_lt (by omega), hframe a (Or.inr (by omega))]
    · rw [store_of_le (by omega), store_of_le (by omega), hframe a (Or.inr (by omega))]

/-! ### Stage 2 -/

/-- The header, where the first read has put it. -/
theorem load_header {off n : ℕ} (h : getBootloader d b mem = some mem') (hn : off + n ≤ sectorSize) :
    load mem' (b.bootloaderEnd + off) n = load (d.kernel b) off n :=
  load_shift fun k hk => by
    rw [add_assoc]
    exact getBootloader_apply h (by omega)

theorem verifyMagicNumber_of_header (himage : Header l kernelEnd kernelEntry (d.kernel b))
    (h : getBootloader d b mem = some mem') : verifyMagicNumber b mem' = true := by
  have hmagic := himage.magic
  have hlow := @load_lt (d.kernel b) 0 2
  have hfirst := @load_header d b mem mem' 0 2 h (by decide)
  rw [Nat.add_zero] at hfirst
  rw [show 4 = 2 + 2 by norm_num, load_add, Nat.zero_add] at hmagic
  rw [verifyMagicNumber, hfirst, load_header h (by decide)]
  simp only [Bool.and_eq_true, decide_eq_true_eq]
  omega

/-- What stage 2 leaves to stage 3. -/
structure Fetched (d : Disk) (b : Addresses) (l : Layout) (es : List Entry)
    (kernelEnd kernelEntry : ℕ) (s : Stage) : Prop where
  start_eq : s.kernelStart = 0x100000
  end_eq : s.kernelEnd = kernelEnd
  bss_eq : s.bssEnd = l.bssEnd
  entry_eq : s.kernelEntry = kernelEntry
  loadStart_eq : s.kernelLoadStart = b.bootloaderEnd + 0x1000
  loadEnd_eq : s.kernelLoadEnd = b.bootloaderEnd + 0x1000 + (kernelEnd - 0x100000)
  image : ∀ i < kernelEnd - 0x100000, s.mem (b.bootloaderEnd + 0x1000 + i) = d.kernel b i
  size : ∃ z < 2 ^ 8, load s.mem b.multibootInfo 4 = 24 + counted es * z

theorem kernelEnd_lt (himage : Header l kernelEnd kernelEntry (d.kernel b)) :
    0x100000 < kernelEnd ∧ kernelEnd + 13 * 0x1000 ≤ l.bssEnd ∧ l.bssEnd < 0x1c0000 := by
  have h₁ := l.lt_text
  have h₂ := himage.text_le
  have h₃ := himage.end_le
  have h₄ := l.tables_le
  exact ⟨by omega, by omega, l.bssEnd_le⟩

/-- **Stage 2** comes to its end if the image has less than 64 KiB and the BIOS reads it at once. -/
theorem parseMultibootHeader_spec (himage : Header l kernelEnd kernelEntry (d.kernel b))
    (hfuel : es.length < fuel) (hmap : loaderBytes b + 24 * es.length + 4 ≤ start)
    (h : getBootloader d b mem = some mem') :
    ((kernelEnd < 0x110000 ∧ d.Reads (getBootloaderSize b) (bytesToSectors (kernelEnd - 0x100000))) ∧
      ∃ s, parseMultibootHeader d (bios es) fuel b mem' = some s ∧
        Fetched d b l es kernelEnd kernelEntry s) ∨
    (¬ (kernelEnd < 0x110000 ∧
        d.Reads (getBootloaderSize b) (bytesToSectors (kernelEnd - 0x100000))) ∧
      parseMultibootHeader d (bios es) fuel b mem' = none) := by
  obtain ⟨hlt, hbss, hhigh⟩ := kernelEnd_lt himage
  have hend := b.aligned
  have hbelow := b.lt_end
  have hinfo := b.end_le_info
  have hbuffer := b.info_le
  have hsize : (kernelEnd + 2 ^ 32 - 0x100000) % 2 ^ 32 = kernelEnd - 0x100000 := by omega
  have hmagic := verifyMagicNumber_of_header himage h
  simp only [parseMultibootHeader, hmagic, if_true, getSectionEnds, load_header h
    (show 28 + 4 ≤ sectorSize by decide), load_header h (show 32 + 4 ≤ sectorSize by decide),
    load_header h (show 36 + 4 ≤ sectorSize by decide),
    load_header h (show 48 + 4 ≤ sectorSize by decide), himage.loadAddr, himage.loadEndAddr,
    himage.bssEndAddr, himage.entryAddr, fetchKernel, hsize]
  by_cases hsmall : kernelEnd < 0x110000
  · rw [if_pos (show (kernelEnd - 0x100000) / 2 ^ 16 = 0 by omega)]
    by_cases hreads : d.Reads (getBootloaderSize b) (bytesToSectors (kernelEnd - 0x100000))
    · left
      obtain ⟨mem₂, hread⟩ := (@exists_readBytes_iff d (multibootInfoTInit mem' b.multibootInfo)
        (getBootloaderSize b) (b.bootloaderEnd + 0x1000) (kernelEnd - 0x100000)).2 hreads
      obtain ⟨himg, hkeep⟩ := readBytes_apply hread (by unfold sectorSize at hend; omega)
      have hinit : load mem₂ b.multibootInfo 4 = 24 := by
        rw [← load_multibootInfoTInit mem' b.multibootInfo]
        exact load_congr fun a _ ha => hkeep a (by omega)
      obtain ⟨mem₃, hmap₃, hz, hframe⟩ := readE820_frame hfuel
        (show loaderBytes b + 24 * es.length + 4 ≤ b.multibootInfo by omega) hinit
      refine ⟨⟨hsmall, hreads⟩, ⟨mem₃, 0x100000, kernelEnd, l.bssEnd, kernelEntry,
        b.bootloaderEnd + 0x1000, b.bootloaderEnd + 0x1000 + (kernelEnd - 0x100000)⟩, ?_,
        ⟨rfl, rfl, rfl, rfl, rfl, rfl, fun i hi => ?_, hz⟩⟩
      · simp only [hread, hmap₃, Option.bind_eq_bind, Option.bind_some]
      · rw [Disk.kernel, ← himg i hi]
        exact hframe _ (by omega) (Or.inr (by omega))
    · right
      refine ⟨fun hand => hreads hand.2, ?_⟩
      have hnone : readBytes d (multibootInfoTInit mem' b.multibootInfo) (getBootloaderSize b)
          (b.bootloaderEnd + 0x1000) (kernelEnd - 0x100000) = none := by
        refine Option.eq_none_iff_forall_ne_some.2 fun m hm => hreads ?_
        exact exists_readBytes_iff.1 ⟨m, hm⟩
      rw [hnone]
      rfl
  · right
    rw [if_neg (show ¬ (kernelEnd - 0x100000) / 2 ^ 16 = 0 by omega)]
    exact ⟨fun hand => hsmall hand.1, rfl⟩

/-! ### Stage 3 -/

theorem clearScreenLoop_frame {ebx : ℕ} (h : a < ebx ∨ ebx + 2 * n + 2 ≤ a) :
    clearScreenLoop n mem ebx a = mem a := by
  induction n generalizing mem ebx with
  | zero => rfl
  | succ n ih =>
    rw [clearScreenLoop, ih (by omega)]
    rcases h with h | h
    · exact store_of_lt h
    · exact store_of_le (by omega)

theorem clearScreen_frame (h : a < 0xb8000 ∨ 0xb9000 ≤ a) : clearScreen mem a = mem a :=
  clearScreenLoop_frame (by omega)

theorem store_one {w : ℕ} : store mem edi 1 w a = if a = edi then UInt8.ofNat w else mem a := by
  unfold store
  by_cases h : a = edi
  · subst h
    simp
  · rw [if_neg (by omega), if_neg h]

/-- `rep movsb` between places that do not overlap. -/
theorem copyBytes_apply (hdisjoint : esi + n ≤ edi) (hfit : edi + n < 2 ^ 32) :
    copyBytes n mem esi edi a =
      if edi ≤ a ∧ a < edi + n then mem (esi + (a - edi)) else mem a := by
  induction n generalizing mem esi edi with
  | zero => rw [copyBytes, if_neg (by omega)]
  | succ n ih =>
    have hbyte : UInt8.ofNat (load mem esi 1) = mem esi := by
      simp [load]
    rw [copyBytes, Nat.mod_eq_of_lt (by omega), Nat.mod_eq_of_lt (by omega),
      ih (by omega) (by omega), store_one, store_one, hbyte]
    by_cases ha : a = edi
    · subst ha
      rw [if_neg (by omega), if_pos rfl, if_pos (by omega), Nat.sub_self, Nat.add_zero]
    · by_cases hin : edi + 1 ≤ a ∧ a < edi + 1 + n
      · rw [if_pos hin, if_neg (by omega), if_pos (by omega)]
        congr 1
        omega
      · rw [if_neg hin, if_neg ha, if_neg (by omega)]

/-- `rep stosb`. -/
theorem fillBuffer_apply {eax : ℕ} (hfit : edi + n < 2 ^ 32) :
    fillBuffer eax n mem edi a =
      if edi ≤ a ∧ a < edi + n then UInt8.ofNat eax else mem a := by
  induction n generalizing mem edi with
  | zero => rw [fillBuffer, if_neg (by omega)]
  | succ n ih =>
    rw [fillBuffer, Nat.mod_eq_of_lt (by omega), ih (by omega), store_one]
    by_cases ha : a = edi
    · rw [if_neg (by omega), if_pos ha, if_pos (by omega)]
    · by_cases hin : edi + 1 ≤ a ∧ a < edi + 1 + n
      · rw [if_pos hin, if_pos (by omega)]
      · rw [if_neg hin, if_neg ha, if_neg (by omega)]

/-- The text ends with the image at the latest, for the bss is cleared. -/
theorem printStringLoop_spec {ecx ebx : ℕ} (hfuel : n < fuel) (hzero : mem (ecx + n) = 0)
    (hscreen : ebx + 2 * n ≤ ecx) (hfit : ecx + n < 2 ^ 32) :
    ∃ mem', printStringLoop fuel mem ecx ebx = some mem' ∧
      ∀ a, a < ebx ∨ ebx + 2 * n ≤ a → mem' a = mem a := by
  induction n generalizing mem ecx ebx fuel with
  | zero =>
    obtain ⟨fuel, rfl⟩ := Nat.exists_eq_succ_of_ne_zero (Nat.ne_of_gt hfuel)
    exact ⟨mem, if_pos hzero, fun _ _ => rfl⟩
  | succ n ih =>
    obtain ⟨fuel, rfl⟩ := Nat.exists_eq_succ_of_ne_zero (show fuel ≠ 0 by omega)
    by_cases hnul : mem ecx = 0
    · exact ⟨mem, if_pos hnul, fun _ _ => rfl⟩
    · have hnext : store mem ebx 2 (0x0f00 + (mem ecx).toNat) (ecx + 1 + n) = 0 := by
        rw [store_of_le (by omega), ← hzero, show ecx + (n + 1) = ecx + 1 + n by omega]
      obtain ⟨mem', hret, hframe⟩ := ih (show n < fuel by omega) hnext
        (show ebx + 2 + 2 * n ≤ ecx + 1 by omega) (by omega)
      refine ⟨mem', ?_, fun a ha => ?_⟩
      · rw [printStringLoop, if_neg hnul, Nat.mod_eq_of_lt (by omega), Nat.mod_eq_of_lt (by omega)]
        exact hret
      rw [hframe a (by omega)]
      rcases ha with ha | ha
      · exact store_of_lt ha
      · exact store_of_le (by omega)

/-- What the loader leaves to the kernel. -/
structure Loaded (d : Disk) (b : Addresses) (l : Layout) (es : List Entry)
    (kernelEnd kernelEntry : ℕ) (e : Entered) : Prop where
  eax_eq : e.eax = 0x36d76289
  ebx_eq : e.ebx = b.multibootInfo
  eip_eq : e.eip = kernelEntry
  image : ∀ i < kernelEnd - 0x100000, e.mem (0x100000 + i) = d.kernel b i
  bss : ∀ a, kernelEnd ≤ a → a < l.bssEnd → e.mem a = 0
  size : ∃ z < 2 ^ 8, load e.mem b.multibootInfo 4 = 24 + counted es * z

/-- **Stage 3** always comes to its end. -/
theorem startStageTwo_spec {s : Stage} (himage : Header l kernelEnd kernelEntry (d.kernel b))
    (hsmall : kernelEnd < 0x110000) (hfuel : 4 < fuel)
    (h : Fetched d b l es kernelEnd kernelEntry s) :
    ∃ e, startStageTwo fuel b s = some e ∧ Loaded d b l es kernelEnd kernelEntry e := by
  obtain ⟨hlt, hbss, hhigh⟩ := kernelEnd_lt himage
  have hbuffer := b.end_lt
  have hinfo := b.info_le
  have hcount : (b.bootloaderEnd + 0x1000 + (kernelEnd - 0x100000) + 2 ^ 32 -
      (b.bootloaderEnd + 0x1000)) % 2 ^ 32 = kernelEnd - 0x100000 := by omega
  have hfill : (l.bssEnd + 2 ^ 32 - kernelEnd) % 2 ^ 32 = l.bssEnd - kernelEnd := by omega
  have htext : (kernelEnd + 2 ^ 32 - 4) % 2 ^ 32 = kernelEnd - 4 := by omega
  simp only [startStageTwo, copyKernelImage, clearKernelBss, h.start_eq, h.end_eq, h.bss_eq,
    h.entry_eq, h.loadStart_eq, h.loadEnd_eq, hcount, hfill, htext]
  -- memory before the text is printed
  have hmem : ∀ a, fillBuffer 0 (l.bssEnd - kernelEnd) (copyBytes (kernelEnd - 0x100000)
      (clearScreen s.mem) (b.bootloaderEnd + 0x1000) 0x100000) kernelEnd a =
      if kernelEnd ≤ a ∧ a < l.bssEnd then 0
      else if 0x100000 ≤ a ∧ a < kernelEnd then
        s.mem (b.bootloaderEnd + 0x1000 + (a - 0x100000))
      else clearScreen s.mem a := by
    intro a
    rw [fillBuffer_apply (by omega), copyBytes_apply (by omega) (by omega),
      Nat.add_sub_cancel' (by omega), Nat.add_sub_cancel' (by omega)]
    split_ifs
    · rfl
    · exact clearScreen_frame (by omega)
    · rfl
  generalize fillBuffer 0 (l.bssEnd - kernelEnd) (copyBytes (kernelEnd - 0x100000)
    (clearScreen s.mem) (b.bootloaderEnd + 0x1000) 0x100000) kernelEnd = before at hmem
  obtain ⟨mem', hprint, hframe⟩ := @printStringLoop_spec before 4 fuel (kernelEnd - 4) 0xb8000 hfuel
    (by rw [hmem, if_pos (by omega)]) (by omega) (by omega)
  refine ⟨⟨mem', 0x36d76289, b.multibootInfo, _⟩, by rw [hprint]; rfl, rfl, rfl, rfl,
    fun i hi => ?_, fun a ha hlt => ?_, ?_⟩
  · simp only
    rw [hframe _ (by omega), hmem, if_neg (by omega), if_pos (by omega), Nat.add_sub_cancel_left,
      h.image i hi]
  · simp only
    rw [hframe a (by omega), hmem, if_pos ⟨ha, hlt⟩]
  · obtain ⟨z, hz, hsize⟩ := h.size
    refine ⟨z, hz, ?_⟩
    rw [← hsize]
    refine load_congr fun a _ ha => ?_
    simp only
    rw [hframe a (by omega), hmem, if_neg (by omega), if_neg (by omega),
      clearScreen_frame (by omega)]

/-- The condition under which the loader gets to the kernel. -/
structure Loads (d : Disk) (b : Addresses) (kernelEnd : ℕ) : Prop where
  lba : d.lbaPresent = true
  loader : d.Reads 1 (getBootloaderSize b)
  small : kernelEnd < 0x110000
  kernel : d.Reads (getBootloaderSize b) (bytesToSectors (kernelEnd - 0x100000))

theorem boot_spec (himage : Header l kernelEnd kernelEntry (d.kernel b))
    (hmap : loaderBytes b + 24 * es.length + 4 ≤ start) (hfuel : es.length < fuel)
    (hfive : 4 < fuel) :
    (Loads d b kernelEnd ∧ ∃ e, boot d (bios es) fuel b mem = some e ∧
      Loaded d b l es kernelEnd kernelEntry e) ∨
    (¬ Loads d b kernelEnd ∧ boot d (bios es) fuel b mem = none) := by
  by_cases hfirst : ∃ mem', getBootloader d b mem = some mem'
  · have hboth := exists_getBootloader_iff.1 hfirst
    obtain ⟨mem', hmem'⟩ := hfirst
    rcases parseMultibootHeader_spec himage hfuel hmap hmem' with
      ⟨⟨hsmall, hreads⟩, s, hs, hfetched⟩ | ⟨hnot, hs⟩
    · obtain ⟨e, he, hloaded⟩ := startStageTwo_spec himage hsmall hfive hfetched
      refine Or.inl ⟨⟨hboth.1, hboth.2, hsmall, hreads⟩, e, ?_, hloaded⟩
      simp only [boot, hmem', hs, Option.bind_eq_bind, Option.bind_some, he]
    · refine Or.inr ⟨fun h => hnot ⟨h.small, h.kernel⟩, ?_⟩
      simp only [boot, hmem', hs, Option.bind_eq_bind, Option.bind_some, Option.bind_none]
  · refine Or.inr ⟨fun h => hfirst (exists_getBootloader_iff.2 ⟨h.lba, h.loader⟩), ?_⟩
    have hnone : getBootloader d b mem = none :=
      Option.eq_none_iff_forall_ne_some.2 fun m hm => hfirst ⟨m, hm⟩
    simp only [boot, hnone, Option.bind_eq_bind, Option.bind_none]

/-- The multiboot header of an image whose bss starts at 0x101010. -/
def headerBytes : List UInt8 :=
  [0xd6, 0x50, 0x52, 0xe8, 0, 0, 0, 0, 0x50, 0, 0, 0, 0xda, 0xae, 0xad, 0x17,
   2, 0, 0, 0, 24, 0, 0, 0, 0, 0, 0x10, 0, 0, 0, 0x10, 0, 0x10, 0x10, 0x10, 0, 0, 0xe0, 0x11, 0,
   3, 0, 0, 0, 12, 0, 0, 0, 0x50, 0, 0x10, 0, 0, 0, 0, 0]

/-- A disk with this image behind a loader of two sectors. -/
def smallDisk : Disk := ⟨fun a => headerBytes.getD (a - 0x400) 0, true, fun _ n => n⟩

/-- A loader of two sectors. -/
def smallAddresses : Addresses :=
  ⟨0x8000, 0x8000, by decide, by decide, by decide, by decide, by decide⟩

theorem header_smallDisk :
    Header Layout.small 0x101010 0x100050 (smallDisk.kernel smallAddresses) :=
  ⟨by decide, by decide, by decide, by decide, by decide, by decide, by decide⟩

theorem reads_smallDisk (lba n : ℕ) : smallDisk.Reads lba n := rfl

theorem loads_small : Loads smallDisk smallAddresses 0x101010 :=
  ⟨rfl, reads_smallDisk _ _, by norm_num, reads_smallDisk _ _⟩

/-- Stage 2 and `_setup_pt` agree on the bss. -/
theorem Loaded.cleared {e : Entered} (h : Loaded d b l es kernelEnd kernelEntry e)
    (himage : Header l kernelEnd kernelEntry (d.kernel b)) : l.Cleared e.mem := by
  intro a ha hlt
  have hend := himage.end_le
  have htables := l.tables_le
  unfold Layout.table at ha hlt
  exact h.bss a (by omega) (by omega)

theorem Loaded.info_lt {e : Entered} (h : Loaded d b l es kernelEnd kernelEntry e) :
    e.ebx < 2 ^ 32 ∧ e.ebx + 4 ≤ l.table 0 ∧ e.ebx < l.kernelText := by
  have hinfo := b.info_le
  have hend := b.end_lt
  have htext := l.lt_text
  have htable := l.text_le
  rw [h.ebx_eq]
  unfold Layout.table
  exact ⟨by omega, by omega, by omega⟩

/-- A byte of the image or of the bss, as the kernel is linked to see it. -/
theorem physical_kernel {ebx : ℕ} (h : l.Cleared mem) (hebx : ebx < 2 ^ 32)
    (hinfo : ebx + 4 ≤ l.table 0 ∨ l.table 8 ≤ ebx) (hret : setupPt l mem ebx = some mem')
    (ha : l.kernelText + a < l.bssEnd) :
    l.physical mem' (0xffffff8000000000 + a) = some (l.kernelText + a) := by
  have hkps := l.kernelPageSize_lt
  have htext := l.lt_text
  have hhigh := l.bssEnd_le
  have hpage : a / 0x1000 < l.kernelPageSize := by
    unfold Layout.kernelPageSize
    omega
  rw [Layout.physical, Layout.translate_eq_frame h hebx hinfo hret, l.frame_kernel _ (by omega),
    Layout.kernelFrame_eq_iff.2 (Or.inl hpage), Option.map_some]
  congr 1
  omega

/-- The pointer that `kernel_start` gets is not mapped if the information is below the image. -/
theorem physical_info {ebx : ℕ} (h : l.Cleared mem) (hebx : ebx < 2 ^ 32)
    (hinfo : ebx + 4 ≤ l.table 0 ∨ l.table 8 ≤ ebx) (hret : setupPt l mem ebx = some mem')
    (ha : ebx + a < l.kernelText) : l.physical mem' (infoPointer l ebx + a) = none := by
  have hptr : infoPointer l ebx + a = infoPointer l (ebx + a) := by
    have htext := l.kernelText_lt
    unfold infoPointer
    omega
  obtain ⟨hlo, hhi⟩ := Layout.infoPointer_of_lt ha
  rw [hptr, Layout.physical, Layout.translate_eq_frame h hebx hinfo hret, Layout.frame,
    if_neg (by omega), if_pos hhi, Option.map_none]

/-- **What `kernel_start` finds.**  When the loader and then `_setup_pt` have done their work, every
byte of the image and of the bss is where the kernel is linked to, as it is on the disk or zero,
but for the tables; and of the multiboot information no byte can be read. -/
theorem kernel_sees_image (d : Disk) (b : Addresses) (l : Layout) (es : List Entry) (fuel : ℕ)
    (mem mem' : ℕ → UInt8) (kernelEnd kernelEntry : ℕ) (e : Entered)
    (himage : Header l kernelEnd kernelEntry (d.kernel b))
    (hmap : loaderBytes b + 24 * es.length + 4 ≤ start) (hfuel : es.length < fuel)
    (hfive : 4 < fuel) (hboot : boot d (bios es) fuel b mem = some e)
    (hret : setupPt l e.mem e.ebx = some mem') :
    (∀ a, l.kernelText + a < l.bssEnd →
      l.kernelText + a < l.table 0 ∨ l.table 8 ≤ l.kernelText + a →
      (l.physical mem' (0xffffff8000000000 + a)).map mem' =
        some (if l.kernelText + a < kernelEnd then d.kernel b (l.kernelText + a - 0x100000) else 0)) ∧
    ∀ a < load e.mem e.ebx 4, l.physical mem' (infoPointer l e.ebx + a) = none := by
  have hloaded : Loaded d b l es kernelEnd kernelEntry e := by
    rcases @boot_spec d b l mem es fuel kernelEnd kernelEntry himage hmap hfuel hfive with
      ⟨-, e', he', hloaded⟩ | ⟨-, hnone⟩
    · obtain rfl : e' = e := Option.some.inj (he'.symm.trans hboot)
      exact hloaded
    · rw [hnone] at hboot
      cases hboot
  have hcleared := hloaded.cleared himage
  obtain ⟨hebx, htable, -⟩ := hloaded.info_lt
  have htext := l.lt_text
  constructor
  · intro a ha hout
    have hother := (Layout.shows_setupPt hcleared hebx (Or.inl htable) hret).other _ hout
    rw [physical_kernel hcleared hebx (Or.inl htable) hret ha, Option.map_some, hother]
    split_ifs with hin
    · rw [← hloaded.image _ (by omega), Nat.add_sub_cancel' (by omega)]
    · rw [hloaded.bss _ (by omega) ha]
  · intro a ha
    obtain ⟨z, hz, hsize⟩ := hloaded.size
    have hcount : counted es * z ≤ 255 * 255 :=
      Nat.mul_le_mul (Nat.le_of_lt_succ (Nat.mod_lt _ (by norm_num))) (by omega)
    have hinfo := b.info_le
    have hend := b.end_lt
    rw [← hloaded.ebx_eq] at hsize hinfo
    exact physical_info hcleared hebx (Or.inl htable) hret (by omega)

/-- The kernel of the small disk is started. -/
theorem kernel_sees_image_small : ∃ e mem',
    boot smallDisk (bios [⟨0, 0x9fc00, 1, none⟩]) 5 smallAddresses (fun _ => 0) = some e ∧
    setupPt Layout.small e.mem e.ebx = some mem' ∧
    (∀ a, Layout.small.kernelText + a < Layout.small.bssEnd →
      Layout.small.kernelText + a < Layout.small.table 0 ∨
        Layout.small.table 8 ≤ Layout.small.kernelText + a →
      (Layout.small.physical mem' (0xffffff8000000000 + a)).map mem' =
        some (if Layout.small.kernelText + a < 0x101010 then
          smallDisk.kernel smallAddresses (Layout.small.kernelText + a - 0x100000) else 0)) ∧
    ∀ a < load e.mem e.ebx 4, Layout.small.physical mem' (infoPointer Layout.small e.ebx + a) =
      none := by
  rcases @boot_spec smallDisk smallAddresses Layout.small (fun _ => 0) [⟨0, 0x9fc00, 1, none⟩] 5
    0x101010 0x100050 header_smallDisk (by decide) (by decide) (by decide) with
    ⟨-, e, he, hloaded⟩ | ⟨hnot, -⟩
  · obtain ⟨hebx, htable, -⟩ := hloaded.info_lt
    obtain ⟨z, hz, hsize⟩ := hloaded.size
    have hone : Layout.small.OnOnePage e.mem e.ebx := by
      right
      rw [hloaded.ebx_eq, infoEnd, hsize]
      simp only [show counted [⟨0, 0x9fc00, 1, none⟩] = 1 by decide, smallAddresses, pageAlignDown]
      omega
    obtain ⟨mem', hret⟩ := (Layout.exists_setupPt_iff (hloaded.cleared header_smallDisk) hebx
      (Or.inl htable)).2 hone
    exact ⟨e, mem', he, hret, kernel_sees_image smallDisk smallAddresses Layout.small
      [⟨0, 0x9fc00, 1, none⟩] 5 (fun _ => 0) mem' 0x101010 0x100050 e header_smallDisk (by decide)
      (by decide) (by decide) he hret⟩
  · exact absurd loads_small hnot

end Loader

end TitanOS
