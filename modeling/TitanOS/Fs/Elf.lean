import TitanOS.Boot.Tags
import TitanOS.Fs.Reads

/-!
# Loading an ELF file (`syscalls/exec_elf.c`)

`load_elf` reads the program headers one after the other, and the segments in between, through one
handle.  Its position is set back after each segment to `file_pos`, which counts the headers.

The memory that the segments go to also holds the archive, so what a later header says may depend on
the segments loaded before.  The descriptors and the local variables of `load_elf` are not in it.
-/

namespace TitanOS

open Tar LittleEndian

namespace Elf

/-- The memory of the process: its bytes, `vmm_alloc`, which may fail, and a copy to it. -/
structure Memory (σ : Type) where
  byte : σ → ℕ → UInt8
  vmmAlloc : σ → ℕ → ℕ → Option σ
  memcpy : σ → ℕ → List UInt8 → σ

/-- `sizeof(elf64_ehdr_t)`. -/
def ehdrSize : ℕ := 64

/-- `sizeof(elf64_phdr_t)`. -/
def phdrSize : ℕ := 56

/-- `PT_LOAD`. -/
def ptLoad : ℕ := 1

/-- The field of `n` bytes at an offset of a structure. -/
def field (bs : List UInt8) (offset n : ℕ) : ℕ := load (fun k => bs.getD k 0) offset n

/-- `e_entry`. -/
def eEntry (ehdr : List UInt8) : ℕ := field ehdr 24 8

/-- `e_phoff`. -/
def ePhoff (ehdr : List UInt8) : ℕ := field ehdr 32 8

/-- `e_phnum`. -/
def ePhnum (ehdr : List UInt8) : ℕ := field ehdr 56 2

/-- `p_type`. -/
def pType (phdr : List UInt8) : ℕ := field phdr 0 4

/-- `p_offset`. -/
def pOffset (phdr : List UInt8) : ℕ := field phdr 8 8

/-- `p_vaddr`. -/
def pVaddr (phdr : List UInt8) : ℕ := field phdr 16 8

/-- `p_filesz`. -/
def pFilesz (phdr : List UInt8) : ℕ := field phdr 32 8

/-- `p_memsz`. -/
def pMemsz (phdr : List UInt8) : ℕ := field phdr 40 8

/-- The variables of `load_elf`, with the memory and the file system. -/
structure Loading (σ : Type) where
  memory : σ
  vfs : Vfs
  handle : ℕ
  ehdr : List UInt8
  filePos : ℕ

variable {σ : Type} (M : Memory σ)

/-- `load_elf` up to its loop.  A handle or a number of bytes of `-1` is not looked at, and ends in
an access that is answered by `none`. -/
def openElf (fileHeaders : ℕ → ℕ) (s : σ) (v : Vfs) (filename : ℕ → UInt8) : Option (Loading σ) := do
  let (v, handle) ← v.vfsOpen (M.byte s) fileHeaders filename
  let handle ← handle
  let (v, ehdr) ← v.vfsRead (M.byte s) handle ehdrSize
  let ehdr ← ehdr
  some ⟨s, v.vfsSeek handle (ePhoff ehdr), handle, ehdr, ePhoff ehdr⟩

/-- The body of the loop of `load_elf`; `none` is the panic. -/
def loadSegment (l : Loading σ) (_i : ℕ) : Option (Loading σ) := do
  let (v, phdr) ← l.vfs.vfsRead (M.byte l.memory) l.handle phdrSize
  let phdr ← phdr
  let filePos := (l.filePos + phdrSize) % 2 ^ 64
  if pType phdr ≠ ptLoad then some { l with vfs := v, filePos := filePos }
  else
    let memory ← M.vmmAlloc l.memory (pVaddr phdr) (pMemsz phdr)
    let v := v.vfsSeek l.handle (pOffset phdr)
    let (v, bytes) ← v.vfsRead (M.byte memory) l.handle (pFilesz phdr)
    let bytes ← bytes
    some { l with
      memory := M.memcpy memory (pVaddr phdr) bytes
      vfs := v.vfsSeek l.handle filePos
      filePos := filePos }

/-- `load_elf`, with the address that it returns. -/
def loadElf (fileHeaders : ℕ → ℕ) (s : σ) (v : Vfs) (filename : ℕ → UInt8) :
    Option (Loading σ × ℕ) := do
  let l ← openElf M fileHeaders s v filename
  let l' ← (List.range (ePhnum l.ehdr)).foldlM (loadSegment M) l
  some (l', eEntry l.ehdr)

/-- The next header is read from an offset of the file whose data is at `fileBuffer`. -/
structure HeaderAt (fileBuffer : ℕ) (l : Loading σ) (offset : ℕ) : Prop where
  position : (l.vfs.openedFiles l.handle).bufReadPos = offset
  bytes : (l.vfs.vfsRead (M.byte l.memory) l.handle phdrSize).map Prod.snd =
    some (some (ustarRead (M.byte l.memory) (fileBuffer + offset) phdrSize))

/-- If the next header is that of a segment, `vmm_alloc` succeeds. -/
def Allocates (l : Loading σ) (_i : ℕ) : Prop :=
  ∀ v phdr, l.vfs.vfsRead (M.byte l.memory) l.handle phdrSize = some (v, some phdr) →
    pType phdr = ptLoad → (M.vmmAlloc l.memory (pVaddr phdr) (pMemsz phdr)).isSome = true

/-! ### The file -/

/-- The handle `h` is open on a file of the initramfs, at the given position. -/
structure OpenAt (v : Vfs) (h fileBuffer : ℕ) (pos : ℤ) : Prop where
  mounted : v.Mounted
  mountpointId : (v.openedFiles h).mountpointId = 0
  fileBuffer : (v.openedFiles h).fileBuffer = fileBuffer
  position : (v.openedFiles h).bufReadPos = pos

variable {M} {mem : ℕ → UInt8} {fileBuffer phoff h i n : ℕ} {pos : ℤ} {l : Loading σ}
  {fileHeaders : ℕ → ℕ} {s : σ} {v : Vfs} {filename : ℕ → UInt8}

/-- A read moves the position. -/
theorem OpenAt.read (hv : OpenAt v h fileBuffer pos) (mem : ℕ → UInt8) (n : ℕ) :
    ∃ v', v.vfsRead mem h n = some (v', some (ustarRead mem (fileBuffer + pos) n)) ∧
      OpenAt v' h fileBuffer (toInt (pos + n)) := by
  have hread := @Vfs.Mounted.vfsRead mem v h n hv.mounted hv.mountpointId
  rw [hv.fileBuffer, hv.position] at hread
  refine ⟨_, hread, hv.mounted, ?_, ?_, ?_⟩
  · simp only [Function.update_self, FileDescriptor.moveTo_mountpointId, hv.mountpointId]
  · simp only [Function.update_self, FileDescriptor.moveTo_fileBuffer, hv.fileBuffer]
  · simp only [Function.update_self, FileDescriptor.moveTo_bufReadPos]

theorem vfsSeek_openedFiles (v : Vfs) (h n : ℕ) :
    (v.vfsSeek h n).openedFiles h = (v.openedFiles h).moveTo (toInt n) := Function.update_self ..

theorem OpenAt.seek (hv : OpenAt v h fileBuffer pos) (n : ℕ) :
    OpenAt (v.vfsSeek h n) h fileBuffer (toInt n) := by
  have hmountpoints : (v.vfsSeek h n).mountpoints = v.mountpoints := rfl
  refine ⟨?_, ?_, ?_, ?_⟩
  · rw [Vfs.Mounted, hmountpoints]
    exact hv.mounted
  · rw [vfsSeek_openedFiles, FileDescriptor.moveTo_mountpointId, hv.mountpointId]
  · rw [vfsSeek_openedFiles, FileDescriptor.moveTo_fileBuffer, hv.fileBuffer]
  · rw [vfsSeek_openedFiles, FileDescriptor.moveTo_bufReadPos]

/-- The invariant: the file is open at the header `i`, and `file_pos` tells so. -/
structure AtHeader (fileBuffer phoff : ℕ) (l : Loading σ) (i : ℕ) : Prop where
  openAt : OpenAt l.vfs l.handle fileBuffer (phoff + phdrSize * i : ℕ)
  filePos : l.filePos = phoff + phdrSize * i

theorem AtHeader.headerAt (h : AtHeader fileBuffer phoff l i) :
    HeaderAt M fileBuffer l (phoff + phdrSize * i) := by
  obtain ⟨v', hread, -⟩ := h.openAt.read (M.byte l.memory) phdrSize
  exact ⟨h.openAt.position, by rw [hread, Option.map_some]⟩

/-- **The step lemma**: whatever the header is, the next one is read behind it. -/
theorem AtHeader.loadSegment (h : AtHeader fileBuffer phoff l i)
    (hlt : phoff + phdrSize * (i + 1) < 2 ^ 31) (halloc : Allocates M l i) :
    ∃ l', loadSegment M l i = some l' ∧ AtHeader fileBuffer phoff l' (i + 1) := by
  have hnext : phoff + phdrSize * i + phdrSize = phoff + phdrSize * (i + 1) := by ring
  have hback : toInt (phoff + phdrSize * (i + 1) : ℕ) = (phoff + phdrSize * (i + 1) : ℕ) :=
    Vfs.toInt_of_lt hlt
  have hfilePos : (l.filePos + phdrSize) % 2 ^ 64 = phoff + phdrSize * (i + 1) := by
    rw [h.filePos, hnext, Nat.mod_eq_of_lt (by omega)]
  obtain ⟨v₁, hread, hv₁⟩ := h.openAt.read (M.byte l.memory) phdrSize
  unfold Elf.loadSegment
  simp only [hread, Option.bind_eq_bind, Option.bind_some, hfilePos]
  split_ifs with htype
  · -- the header is skipped, and the position is that behind it
    rw [← Nat.cast_add, hnext, hback] at hv₁
    exact ⟨_, rfl, hv₁, rfl⟩
  · -- the segment moves the position, which is then set back
    obtain ⟨memory, hmemory⟩ := Option.isSome_iff_exists.1 (halloc _ _ hread (not_not.1 htype))
    obtain ⟨v₂, hsegment, hv₂⟩ := (hv₁.seek _).read (M.byte memory) (pFilesz (ustarRead
      (M.byte l.memory) (fileBuffer + (phoff + phdrSize * i : ℕ)) phdrSize))
    have hv₃ := hv₂.seek (phoff + phdrSize * (i + 1))
    rw [hback] at hv₃
    rw [hmemory, Option.bind_some, hsegment, Option.bind_some, Option.bind_some]
    exact ⟨_, rfl, hv₃, rfl⟩

/-- **The run lemma**, over the headers from `i` on. -/
theorem AtHeader.run (h : AtHeader fileBuffer phoff l i)
    (hlt : phoff + phdrSize * (i + n) < 2 ^ 31)
    (halloc : Run.Along (Elf.loadSegment M) (Allocates M) l (List.range' i n)) :
    Run.Along (Elf.loadSegment M) (fun l i => HeaderAt M fileBuffer l (phoff + phdrSize * i)) l
        (List.range' i n) ∧
      ((List.range' i n).foldlM (Elf.loadSegment M) l).isSome = true := by
  induction n generalizing i l with
  | zero => exact ⟨trivial, rfl⟩
  | succ n ih =>
    rw [List.range'_succ] at halloc ⊢
    obtain ⟨l', hl', hnext⟩ := h.loadSegment
      (lt_of_le_of_lt (by gcongr; omega) hlt) halloc.1
    obtain ⟨halong, hsome⟩ := ih hnext (by rwa [add_assoc, add_comm 1 n]) (halloc.2 l' hl')
    refine ⟨⟨h.headerAt, fun l'' hl'' => ?_⟩, ?_⟩
    · obtain rfl := Option.some.inj (hl'.symm.trans hl'')
      exact halong
    · rw [List.foldlM_cons, hl']
      exact hsome

end Elf

end TitanOS
