import TitanOS.Libtitan.Str

/-!
# The initramfs (`fs/tar.c`)

`mem` gives the bytes of memory.  The archive is mapped somewhere in it; a header is named by its
address, and `0` is the null pointer.  A header has the name at offset 0 and the size, as octal
digits, at offset 124.

`parse_tar_file` stores the headers it finds in `file_headers` without looking at the length of the
array, so the array is a function here, and an index of `HEADER_LIST_SIZE` or more is a store behind
its end.  The loop takes fuel, since nothing bounds it but the archive.
-/

namespace TitanOS

namespace Tar

open Function (update)

/-- `HEADER_LIST_SIZE`. -/
def headerListSize : ℕ := 5

/-- `VFS_PATH_LENGTH`. -/
def vfsPathLength : ℕ := 64

/-- The conversion to `int`. -/
def toInt (x : ℤ) : ℤ := x.bmod (2 ^ 32)

/-- The loop of `get_file_size` over the digits below index `j`. -/
def getFileSizeLoop (inp : ℕ → UInt8) : ℕ → ℕ → ℕ → ℕ
  | 0, size, _ => size
  | j + 1, size, count =>
    -- the difference of two `char`s is an `int`, converted to `size_t` for the product
    getFileSizeLoop inp j ((size + Str.charDiff (inp j) 0x30 * count) % 2 ^ 64).toNat
      (count * 8 % 2 ^ 64)

/-- `get_file_size`. -/
def getFileSize (inp : ℕ → UInt8) : ℕ := getFileSizeLoop inp 11 0 1

/-- The size field of the header at `header`. -/
def sizeField (mem : ℕ → UInt8) (header : ℕ) : ℕ → UInt8 := fun k => mem (header + 124 + k)

/-- Where `parse_tar_file` goes from the header at `header`. -/
def nextHeader (mem : ℕ → UInt8) (header : ℕ) : ℕ :=
  let fileSize := getFileSize (sizeField mem header)
  let headerAddr := header + (fileSize / 512 + 1) * 512
  (if fileSize % 512 ≠ 0 then headerAddr + 512 else headerAddr) % 2 ^ 64

/-- The variables of `parse_tar_file`, with the array it fills and the headers it has printed. -/
structure Parse where
  header : ℕ
  i : ℕ
  fileHeaders : ℕ → ℕ
  found : List ℕ

/-- The body of the loop of `parse_tar_file`. -/
def Parse.body (mem : ℕ → UInt8) (p : Parse) : Parse where
  header := nextHeader mem p.header
  i := p.i + 1
  fileHeaders := update p.fileHeaders p.i p.header
  found := p.found ++ [p.header]

/-- `parse_tar_file`, at most `fuel` turns of its loop. -/
def parseTarFile (mem : ℕ → UInt8) : ℕ → Parse → Option Parse
  | 0, _ => none
  | fuel + 1, p =>
    if mem p.header = 0 then some p else parseTarFile mem fuel (p.body mem)

/-- The end of `tar_init`, once the archive is mapped at `tarFile`; `old` is the array before. -/
def tarInit (mem : ℕ → UInt8) (old : ℕ → ℕ) (fuel tarFile : ℕ) : Option Parse :=
  parseTarFile mem fuel ⟨tarFile, 0, fun i => if i < headerListSize then 0 else old i, []⟩

/-- `file_descriptor_t`. -/
structure FileDescriptor where
  fsFileId : ℕ := 0
  mountpointId : ℕ := 0
  filename : ℕ → UInt8
  bufReadPos : ℤ := 0
  bufWritePos : ℤ := 0
  fileSize : ℤ
  fileBuffer : ℕ

/-- The assignment `buf_read_pos = pos`. -/
def FileDescriptor.moveTo (fd : FileDescriptor) (pos : ℤ) : FileDescriptor :=
  { fd with bufReadPos := pos }

@[simp] theorem FileDescriptor.moveTo_filename (fd : FileDescriptor) (pos : ℤ) :
    (fd.moveTo pos).filename = fd.filename := rfl

@[simp] theorem FileDescriptor.moveTo_mountpointId (fd : FileDescriptor) (pos : ℤ) :
    (fd.moveTo pos).mountpointId = fd.mountpointId := rfl

@[simp] theorem FileDescriptor.moveTo_fileBuffer (fd : FileDescriptor) (pos : ℤ) :
    (fd.moveTo pos).fileBuffer = fd.fileBuffer := rfl

@[simp] theorem FileDescriptor.moveTo_bufReadPos (fd : FileDescriptor) (pos : ℤ) :
    (fd.moveTo pos).bufReadPos = pos := rfl

/-- The loop of `get_file_header` from index `i` on, with `m` headers left.  A null pointer in the
array is dereferenced, which is the outer `none`; the inner one is `-1`. -/
def getFileHeaderLoop (mem : ℕ → UInt8) (fileHeaders : ℕ → ℕ) (fileName : ℕ → UInt8) :
    ℕ → ℕ → Option (Option ℕ)
  | 0, _ => some none
  | m + 1, i =>
    if fileHeaders i = 0 then none
    else if Str.strncmp (fun k => mem (fileHeaders i + k)) fileName 100 = 0 then some (some i)
    else getFileHeaderLoop mem fileHeaders fileName m (i + 1)

/-- `get_file_header`. -/
def getFileHeader (mem : ℕ → UInt8) (fileHeaders : ℕ → ℕ) (fileName : ℕ → UInt8) :
    Option (Option ℕ) :=
  getFileHeaderLoop mem fileHeaders fileName headerListSize 0

/-- The descriptor that `ustar_open` builds from a header. -/
def describe (mem : ℕ → UInt8) (header : ℕ) (fileName : ℕ → UInt8) : FileDescriptor where
  filename := Str.strncpy (fun _ => 0) fileName vfsPathLength
  fileSize := toInt (getFileSize (sizeField mem header))
  fileBuffer := header + 512

/-- `ustar_open`.  Without a match it goes on with `file_headers[-1]`, which is no header. -/
def ustarOpen (mem : ℕ → UInt8) (fileHeaders : ℕ → ℕ) (fileName : ℕ → UInt8) :
    Option FileDescriptor :=
  (getFileHeader mem fileHeaders fileName).bind fun r =>
    r.map fun i => describe mem (fileHeaders i) fileName

/-- What `ustar_open` answers is made of the header that is found. -/
theorem ustarOpen_eq_some_iff {mem : ℕ → UInt8} {fileHeaders : ℕ → ℕ} {fileName : ℕ → UInt8}
    {fd : FileDescriptor} : ustarOpen mem fileHeaders fileName = some fd ↔
      ∃ i, getFileHeader mem fileHeaders fileName = some (some i) ∧
        describe mem (fileHeaders i) fileName = fd := by
  unfold ustarOpen
  rw [Option.bind_eq_some_iff]
  constructor
  · rintro ⟨o, ho, hfd⟩
    obtain ⟨i, rfl, rfl⟩ := Option.map_eq_some_iff.1 hfd
    exact ⟨i, ho, rfl⟩
  · rintro ⟨i, hi, rfl⟩
    exact ⟨some i, hi, rfl⟩

/-- `ustar_read`: the bytes copied to the buffer. -/
def ustarRead (mem : ℕ → UInt8) (fileHandle : ℤ) (nbytes : ℕ) : List UInt8 :=
  (List.range nbytes).map fun k => mem (fileHandle + k).toNat

/-! ### Archives -/

/-- A file of the archive. -/
structure Member where
  name : List UInt8
  content : List UInt8
  name_ne : name ≠ []
  name_le : name.length ≤ 99
  no_nul : 0 ∉ name
  content_lt : content.length < 8 ^ 11

/-- The bytes that the data of a file takes up in the archive. -/
def padded (n : ℕ) : ℕ := (n + 511) / 512 * 512

/-- The digit of `n` at index `k` of a size field. -/
def octalDigit (n k : ℕ) : UInt8 := UInt8.ofNat (0x30 + n / 8 ^ (10 - k) % 8)

/-- The header and the data of a file are at `a`. -/
structure MemberAt (mem : ℕ → UInt8) (a : ℕ) (m : Member) : Prop where
  name : ∀ k < 100, mem (a + k) = m.name.getD k 0
  size : ∀ k < 11, mem (a + 124 + k) = octalDigit m.content.length k
  data : ∀ k < m.content.length, mem (a + 512 + k) = m.content.getD k 0

/-- Where the members of an archive at `a` are. -/
def offsets : ℕ → List Member → List ℕ
  | _, [] => []
  | a, m :: ms => a :: offsets (a + 512 + padded m.content.length) ms

/-- Where the zero block of an archive at `a` is. -/
def zeroBlock : ℕ → List Member → ℕ
  | a, [] => a
  | a, m :: ms => zeroBlock (a + 512 + padded m.content.length) ms

/-- The members are laid out from `a` on, and a zero block follows. -/
def ArchiveAt (mem : ℕ → UInt8) : ℕ → List Member → Prop
  | a, [] => ∀ k < 512, mem (a + k) = 0
  | a, m :: ms => MemberAt mem a m ∧ ArchiveAt mem (a + 512 + padded m.content.length) ms

/-- The bytes of an archive, with zeros in the fields that nothing here reads. -/
def encode : List Member → ℕ → UInt8
  | [], _ => 0
  | m :: ms, k =>
    if k < 100 then m.name.getD k 0
    else if 124 ≤ k ∧ k < 135 then octalDigit m.content.length (k - 124)
    else if k < 512 then 0
    else if k < 512 + padded m.content.length then m.content.getD (k - 512) 0
    else encode ms (k - 512 - padded m.content.length)

theorem le_padded (n : ℕ) : n ≤ padded n := by
  unfold padded
  omega

/-- Every list of files has an archive. -/
theorem archiveAt_encode {mem : ℕ → UInt8} {a : ℕ} {ms : List Member}
    (h : ∀ k, mem (a + k) = encode ms k) : ArchiveAt mem a ms := by
  induction ms generalizing a with
  | nil => exact fun k _ => h k
  | cons m ms ih =>
    refine ⟨⟨fun k hk => ?_, fun k hk => ?_, fun k hk => ?_⟩, ih fun k => ?_⟩
    · rw [h, encode, if_pos hk]
    · rw [add_assoc, h, encode, if_neg (by omega), if_pos (by omega), Nat.add_sub_cancel_left]
    · have := le_padded m.content.length
      rw [add_assoc, h, encode, if_neg (by omega), if_neg (by omega), if_neg (by omega),
        if_pos (by omega), Nat.add_sub_cancel_left]
    · rw [add_assoc, add_assoc, h, encode, if_neg (by omega), if_neg (by omega),
        if_neg (by omega), if_neg (by omega)]
      congr 1
      omega

theorem le_zeroBlock (a : ℕ) (ms : List Member) : a ≤ zeroBlock a ms := by
  induction ms generalizing a with
  | nil => exact le_rfl
  | cons m ms ih => exact le_trans (by omega) (ih _)

/-! ### Decoding the size -/

/-- An octal digit is worth what it stands for. -/
theorem charDiff_octalDigit (n k : ℕ) :
    Str.charDiff (octalDigit n k) 0x30 = (n / 8 ^ (10 - k) % 8 : ℕ) := by
  have hdigit : ∀ d : Fin 8, Str.charDiff (UInt8.ofNat (0x30 + d)) 0x30 = (d : ℕ) := by decide
  exact hdigit ⟨n / 8 ^ (10 - k) % 8, Nat.mod_lt _ (by norm_num)⟩

/-- One turn of the loop adds the next digit from the right. -/
theorem add_digit {n c : ℕ} (h : c < 11) :
    (((n % 8 ^ c : ℕ) + ((n / 8 ^ c % 8 : ℕ) : ℤ) * (8 ^ c : ℕ)) % 2 ^ 64).toNat =
      n % 8 ^ (c + 1) := by
  have hlt : n % 8 ^ (c + 1) < 2 ^ 64 :=
    calc n % 8 ^ (c + 1) < 8 ^ (c + 1) := Nat.mod_lt _ (by positivity)
      _ ≤ 8 ^ 11 := Nat.pow_le_pow_right (by norm_num) (by omega)
      _ < 2 ^ 64 := by norm_num
  have hsum : n % 8 ^ c + n / 8 ^ c % 8 * 8 ^ c = n % 8 ^ (c + 1) := by
    rw [Nat.mod_pow_succ, mul_comm]
  rw [← Nat.cast_mul, ← Nat.cast_add, hsum]
  omega

/-- The loop over the last `c` digits has read the number modulo `8 ^ c`. -/
theorem getFileSizeLoop_eq {inp : ℕ → UInt8} {n : ℕ} (h : ∀ k < 11, inp k = octalDigit n k)
    (j c : ℕ) (hj : j + c = 11) : getFileSizeLoop inp j (n % 8 ^ c) (8 ^ c) = n % 8 ^ 11 := by
  induction j generalizing c with
  | zero => rw [getFileSizeLoop, show c = 11 by omega]
  | succ j ih =>
    have hcount : 8 ^ c * 8 % 2 ^ 64 = 8 ^ (c + 1) := by
      have : 8 ^ (c + 1) ≤ 8 ^ 11 := Nat.pow_le_pow_right (by norm_num) (by omega)
      rw [← pow_succ]
      exact Nat.mod_eq_of_lt (this.trans_lt (by norm_num))
    rw [getFileSizeLoop, h j (by omega), charDiff_octalDigit, show 10 - j = c by omega,
      add_digit (by omega), hcount]
    exact ih (c + 1) (by omega)

/-- **Decoding inverts the octal encoding.** -/
theorem getFileSize_octal {inp : ℕ → UInt8} {n : ℕ} (h : ∀ k < 11, inp k = octalDigit n k)
    (hn : n < 8 ^ 11) : getFileSize inp = n := by
  have hloop := getFileSizeLoop_eq h 11 0 rfl
  rw [pow_zero, Nat.mod_one, Nat.mod_eq_of_lt hn] at hloop
  exact hloop

variable {mem : ℕ → UInt8} {a fuel : ℕ} {m : Member} {ms : List Member} {p : Parse}

theorem MemberAt.fileSize (h : MemberAt mem a m) :
    getFileSize (sizeField mem a) = m.content.length :=
  getFileSize_octal h.size m.content_lt

/-- The padding rule of the walk is that of the archive. -/
theorem MemberAt.nextHeader (h : MemberAt mem a m)
    (hfit : a + 512 + padded m.content.length < 2 ^ 64) :
    Tar.nextHeader mem a = a + 512 + padded m.content.length := by
  unfold padded at hfit ⊢
  simp only [Tar.nextHeader, h.fileSize]
  split <;> omega

/-- A file has a name, so the walk does not stop at it. -/
theorem MemberAt.name_zero (h : MemberAt mem a m) : mem a ≠ 0 := by
  have hname := h.name 0 (by norm_num)
  obtain ⟨c, cs, hc⟩ := List.exists_cons_of_ne_nil m.name_ne
  rw [hc] at hname
  intro hz
  have hmem : c ∈ m.name := by simp [hc]
  rw [Nat.add_zero, hz, List.getD_cons_zero] at hname
  exact m.no_nul (hname ▸ hmem)

/-! ### The walk -/

/-- What the walk over the members `ms` makes of its variables. -/
structure Walked (p q : Parse) (ms : List Member) : Prop where
  header : q.header = zeroBlock p.header ms
  i : q.i = p.i + ms.length
  found : q.found = p.found ++ offsets p.header ms
  kept : ∀ k < p.i, q.fileHeaders k = p.fileHeaders k
  stored : ∀ k < ms.length, q.fileHeaders (p.i + k) = (offsets p.header ms).getD k 0

/-- The walk over an archive, by induction on its members. -/
theorem parseTarFile_eq (h : ArchiveAt mem p.header ms) (hfit : zeroBlock p.header ms < 2 ^ 64)
    (hfuel : ms.length < fuel) : ∃ q, parseTarFile mem fuel p = some q ∧ Walked p q ms := by
  induction ms generalizing p fuel with
  | nil =>
    obtain ⟨n, rfl⟩ := Nat.exists_eq_succ_of_ne_zero hfuel.ne_bot
    have hzero : mem p.header = 0 := h 0 (by norm_num)
    refine ⟨p, by rw [parseTarFile, if_pos hzero], rfl, rfl, ?_, fun _ _ => rfl, nofun⟩
    rw [offsets, List.append_nil]
  | cons m ms ih =>
    obtain ⟨n, rfl⟩ := Nat.exists_eq_succ_of_ne_zero (Nat.ne_zero_of_lt hfuel)
    obtain ⟨hm, hms⟩ := h
    have hnext : (p.body mem).header = p.header + 512 + padded m.content.length :=
      hm.nextHeader (lt_of_le_of_lt (le_zeroBlock _ ms) hfit)
    obtain ⟨q, hq, hw⟩ := @ih n (p.body mem) (by rwa [hnext]) (by rwa [hnext])
      (by simpa using hfuel)
    refine ⟨q, by rw [parseTarFile, if_neg hm.name_zero, hq], ?_⟩
    constructor
    · rw [hw.header, hnext, zeroBlock]
    · rw [hw.i, List.length_cons]
      show p.i + 1 + ms.length = _
      omega
    · rw [hw.found, hnext, offsets]
      simp [Parse.body]
    · intro k hk
      rw [hw.kept k (Nat.lt_succ_of_lt hk)]
      exact Function.update_of_ne hk.ne _ _
    · intro k hk
      cases k with
      | zero =>
        rw [Nat.add_zero, hw.kept _ (Nat.lt_succ_self p.i), offsets, List.getD_cons_zero]
        exact Function.update_self ..
      | succ k =>
        have hk' := hw.stored k (by simpa using hk)
        rw [hnext] at hk'
        rw [offsets, List.getD_cons_succ, ← hk']
        congr 1
        show p.i + (k + 1) = p.i + 1 + k
        omega

/-- The members at their offsets. -/
theorem ArchiveAt.memberAt (h : ArchiveAt mem a ms) {i : ℕ} (hi : i < ms.length) :
    MemberAt mem ((offsets a ms).getD i 0) (ms.get ⟨i, hi⟩) := by
  induction ms generalizing a i with
  | nil => cases hi
  | cons m ms ih =>
    cases i with
    | zero => exact h.1
    | succ i => exact ih h.2 (by simpa using hi)

/-- The descriptor `fd` is that of the file `m`, whose header is at `a`. -/
structure Describes (mem : ℕ → UInt8) (a : ℕ) (m : Member) (fd : FileDescriptor) : Prop where
  buffer : fd.fileBuffer = a + 512
  data : ∀ k < m.content.length, mem (fd.fileBuffer + k) = m.content.getD k 0
  size : m.content.length < 2 ^ 31 → fd.fileSize = m.content.length

theorem MemberAt.describes (h : MemberAt mem a m) (fileName : ℕ → UInt8) :
    Describes mem a m (describe mem a fileName) := by
  refine ⟨rfl, h.data, fun hlt => ?_⟩
  have hmod : toInt m.content.length = m.content.length := Int.bmod_eq_of_le (by omega) (by omega)
  simp only [describe, h.fileSize, hmod]

/-- An empty file and one of 513 bytes, in an archive at `0x1000`. -/
def twoFiles : List Member :=
  [⟨[0x61], [], by decide, by decide, by decide, by decide⟩,
    ⟨[0x62, 0x63], List.replicate 513 0x21, by decide, by decide, by decide, by
      rw [List.length_replicate]; norm_num⟩]

end Tar

end TitanOS
