import Mathlib.Data.List.GetD
import TitanOS.Fs.Vfs

/-!
# Opening a file by its name

`get_file_header` looks for the first header that `strncmp` takes for the name.  `strncmp` leaves
out the first character and stops where one of the names ends, so it takes two names for the same
that differ in the first character only, or of which one is the beginning of the other; a name of
one character is taken for every name.  `open_exact_iff` says that this decides which file is opened.

A name that no header is taken for is not reported as missing: the scan runs into a slot of
`file_headers` that holds no header, or `ustar_open` goes on with the index `-1`.
-/

namespace TitanOS

open Tar

namespace Tar

/-- The file `m` is the first one of `ms` with the property `P`, and `i` is its index. -/
structure First (P : Member → Prop) (ms : List Member) (i : ℕ) (m : Member) : Prop where
  get : ms[i]? = some m
  holds : P m
  before : ∀ j < i, ∀ m' : Member, ms[j]? = some m' → ¬ P m'

/-- The characters of the name of a file, with its terminator. -/
def Member.chars (m : Member) : ℕ → UInt8 := fun k => m.name.getD k 0

/-- The string `s` consists of the characters `name` and a terminator. -/
structure Spells (s : ℕ → UInt8) (name : List UInt8) : Prop where
  no_nul : 0 ∉ name
  chars : ∀ k ≤ name.length, s k = name.getD k 0

/-- `file_headers` as `tar_init` leaves it behind for the archive `ms` at `tarFile`. -/
structure Recorded (mem : ℕ → UInt8) (tarFile : ℕ) (ms : List Member) (fileHeaders : ℕ → ℕ) :
    Prop where
  archive : ArchiveAt mem tarFile ms
  length_le : ms.length ≤ headerListSize
  header : ∀ i < ms.length, fileHeaders i = (offsets tarFile ms).getD i 0
  empty : ∀ i, ms.length ≤ i → i < headerListSize → fileHeaders i = 0

variable {mem : ℕ → UInt8} {fileHeaders : ℕ → ℕ} {tarFile a i j r fuel n : ℕ} {m m' : Member}
  {ms : List Member} {P Q : Member → Prop} {s fileName : ℕ → UInt8} {name : List UInt8}
  {p q : Parse}

/-! ### The first one -/

theorem First.lt (h : First P ms i m) : i < ms.length :=
  (List.getElem?_eq_some_iff.1 h.get).1

theorem exists_first (h : ∃ m ∈ ms, P m) : ∃ i m, First P ms i m := by
  classical
  have hex : ∃ (i : ℕ) (m : Member), ms[i]? = some m ∧ P m := by
    obtain ⟨m, hm, hP⟩ := h
    obtain ⟨i, hi⟩ := List.getElem?_of_mem hm
    exact ⟨i, m, hi, hP⟩
  obtain ⟨m, hget, hP⟩ := Nat.find_spec hex
  exact ⟨Nat.find hex, m, hget, hP, fun j hj m' hm' hP' => Nat.find_min hex hj ⟨m', hm', hP'⟩⟩

theorem First.unique (h : First P ms i m) (h' : First P ms j m') : i = j := by
  rcases lt_trichotomy i j with hlt | heq | hlt
  · exact absurd h.holds (h'.before i hlt m h.get)
  · exact heq
  · exact absurd h'.holds (h.before j hlt m' h'.get)

/-! ### The headers that are recorded -/

theorem le_offset (hi : i < ms.length) : a ≤ (offsets a ms).getD i 0 := by
  induction ms generalizing a i with
  | nil => cases hi
  | cons m ms ih =>
    cases i with
    | zero => exact le_rfl
    | succ i =>
      rw [offsets, List.getD_cons_succ]
      exact le_trans (by omega) (ih (by simpa using hi))

/-- Each header has a place of its own. -/
theorem offset_lt (hij : i < j) (hj : j < ms.length) :
    (offsets a ms).getD i 0 < (offsets a ms).getD j 0 := by
  induction ms generalizing a i j with
  | nil => cases hj
  | cons m ms ih =>
    obtain ⟨j, rfl⟩ := Nat.exists_eq_succ_of_ne_zero (Nat.ne_zero_of_lt hij)
    rw [List.length_cons, Nat.succ_lt_succ_iff] at hj
    rw [offsets, List.getD_cons_succ]
    cases i with
    | zero =>
      rw [List.getD_cons_zero]
      exact lt_of_lt_of_le (by omega) (le_offset hj)
    | succ i =>
      rw [List.getD_cons_succ]
      exact ih (Nat.lt_of_succ_lt_succ hij) hj

/-- The walk stores to the slots from the index it begins with on, and not behind the one it ends
with. -/
theorem parseTarFile_kept (h : parseTarFile mem fuel p = some q) :
    p.i ≤ q.i ∧ ∀ k, q.i ≤ k → q.fileHeaders k = p.fileHeaders k := by
  induction fuel generalizing p with
  | zero => cases h
  | succ fuel ih =>
    rw [parseTarFile] at h
    split at h
    · cases h
      exact ⟨le_rfl, fun _ _ => rfl⟩
    · obtain ⟨hle, hkept⟩ := ih h
      have hlt : p.i < q.i := hle
      refine ⟨hlt.le, fun k hk => ?_⟩
      rw [hkept k hk]
      exact Function.update_of_ne (hlt.trans_le hk).ne' _ _

theorem recorded_of_tarInit {old : ℕ → ℕ} (h : ArchiveAt mem tarFile ms)
    (hfit : zeroBlock tarFile ms + 512 ≤ 2 ^ 64) (hlen : ms.length ≤ headerListSize)
    (hfuel : ms.length < fuel) (hq : tarInit mem old fuel tarFile = some q) :
    Recorded mem tarFile ms q.fileHeaders := by
  obtain ⟨q', hq', hw⟩ := @parseTarFile_eq mem fuel ms ⟨tarFile, 0,
    fun i => if i < headerListSize then 0 else old i, []⟩ h (by simp only; omega) hfuel
  obtain rfl := Option.some.inj (hq'.symm.trans hq)
  have hi : q'.i = ms.length := by simpa using hw.i
  refine ⟨h, hlen, fun i hi => by simpa using hw.stored i hi, fun i hle hlt => ?_⟩
  rw [(parseTarFile_kept hq').2 i (hi ▸ hle)]
  exact if_pos hlt

/-- `strncmp` on a header that is recorded. -/
theorem Recorded.strncmp (h : Recorded mem tarFile ms fileHeaders) (hi : ms[i]? = some m) :
    Str.strncmp (fun k => mem (fileHeaders i + k)) fileName 100 = 0 ↔
      Str.Alike m.chars fileName := by
  obtain ⟨hlt, rfl⟩ := List.getElem?_eq_some_iff.1 hi
  have hm := h.archive.memberAt hlt
  have hpos : 1 ≤ ms[i].name.length := List.length_pos_of_ne_nil ms[i].name_ne
  have hle := ms[i].name_le
  have hname : ∀ k ≤ ms[i].name.length, mem (fileHeaders i + k) = ms[i].chars k := by
    intro k hk
    rw [h.header i hlt]
    exact hm.name k (by omega)
  have hzero : ms[i].chars ms[i].name.length = 0 := List.getD_eq_default _ _ le_rfl
  rw [Str.strncmp_eq_zero_iff hpos (by omega) ((hname _ le_rfl).trans hzero)]
  constructor
  · exact fun hal => hal.congr hpos ((hname _ le_rfl).trans hzero) hname
  · exact fun hal => hal.congr hpos hzero fun k hk => (hname k hk).symm

/-- Two names that are equal are alike. -/
theorem Spells.alike (h : Spells s m.name) : Str.Alike m.chars s := by
  refine ⟨m.name.length, List.length_pos_of_ne_nil m.name_ne, Or.inl ?_, fun k _ hk => ?_⟩
  · exact List.getD_eq_default _ _ le_rfl
  · exact (h.chars k hk.le).symm

/-! ### The scan -/

/-- The scan from index `i` on answers the first header that it takes for the name, if all slots up
to there hold a header. -/
theorem getFileHeaderLoop_iff : getFileHeaderLoop mem fileHeaders fileName n i = some (some r) ↔
    i ≤ r ∧ r < i + n ∧ (∀ j, i ≤ j → j ≤ r → fileHeaders j ≠ 0) ∧
      Str.strncmp (fun k => mem (fileHeaders r + k)) fileName 100 = 0 ∧
      ∀ j, i ≤ j → j < r → Str.strncmp (fun k => mem (fileHeaders j + k)) fileName 100 ≠ 0 := by
  induction n generalizing i with
  | zero =>
    rw [getFileHeaderLoop]
    constructor
    · nofun
    · rintro ⟨hle, hlt, -⟩
      omega
  | succ n ih =>
    rw [getFileHeaderLoop]
    split
    · next hnull =>
      constructor
      · nofun
      · rintro ⟨hle, -, hheader, -⟩
        exact absurd hnull (hheader i le_rfl hle)
    · next hnull =>
      split
      · next hfound =>
        rw [Option.some_inj, Option.some_inj]
        constructor
        · rintro rfl
          refine ⟨le_rfl, by omega, fun j hj hji => ?_, hfound, fun j hj hlt => absurd hlt hj.not_gt⟩
          rwa [Nat.le_antisymm hji hj]
        · rintro ⟨hle, -, -, -, hnot⟩
          by_contra hne
          exact hnot i le_rfl (lt_of_le_of_ne hle hne) hfound
      · next hfound =>
        rw [ih]
        constructor
        · rintro ⟨hle, hlt, hheader, hr, hnot⟩
          refine ⟨by omega, by omega, fun j hj hjr => ?_, hr, fun j hj hjr => ?_⟩
          · rcases Nat.eq_or_lt_of_le hj with rfl | hj
            · exact hnull
            · exact hheader j hj hjr
          · rcases Nat.eq_or_lt_of_le hj with rfl | hj
            · exact hfound
            · exact hnot j hj hjr
        · rintro ⟨hle, hlt, hheader, hr, hnot⟩
          have hne : i ≠ r := by
            rintro rfl
            exact hfound hr
          exact ⟨by omega, by omega, fun j hj => hheader j (by omega), hr,
            fun j hj => hnot j (by omega)⟩

/-- `get_file_header` answers the first file with a name that is taken for the given one. -/
theorem Recorded.getFileHeader_iff (h : Recorded mem tarFile ms fileHeaders) (hne : tarFile ≠ 0) :
    getFileHeader mem fileHeaders fileName = some (some r) ↔
      ∃ m, First (fun m => Str.Alike m.chars fileName) ms r m := by
  have hnull : ∀ j, j < headerListSize → fileHeaders j ≠ 0 → j < ms.length := by
    intro j hj hheader
    by_contra hle
    exact hheader (h.empty j (by omega) hj)
  unfold getFileHeader
  rw [getFileHeaderLoop_iff]
  constructor
  · rintro ⟨-, hlt, hheader, hr, hnot⟩
    have hrlt := hnull r (by omega) (hheader r (by omega) le_rfl)
    have hget : ms[r]? = some ms[r] := List.getElem?_eq_getElem hrlt
    refine ⟨ms[r], hget, (h.strncmp hget).1 hr, fun j hj m' hm' => ?_⟩
    rw [← h.strncmp hm']
    exact hnot j (by omega) hj
  · rintro ⟨m, hfirst⟩
    have hrlt := hfirst.lt
    have hlen := h.length_le
    refine ⟨by omega, by omega, fun j _ hj => ?_, (h.strncmp hfirst.get).2 hfirst.holds,
      fun j _ hj => ?_⟩
    · rw [h.header j (by omega)]
      have hle := @le_offset tarFile j ms (by omega)
      omega
    · have hget : ms[j]? = some (ms.get ⟨j, by omega⟩) := List.getElem?_eq_getElem (by omega)
      rw [ne_eq, h.strncmp hget]
      exact hfirst.before j hj _ hget

/-- A descriptor belongs to one header. -/
theorem Recorded.describes (h : Recorded mem tarFile ms fileHeaders) (hi : ms[i]? = some m) :
    Describes mem ((offsets tarFile ms).getD i 0) m (describe mem (fileHeaders i) fileName) := by
  obtain ⟨hlt, rfl⟩ := List.getElem?_eq_some_iff.1 hi
  rw [h.header i hlt]
  exact (h.archive.memberAt hlt).describes fileName

theorem Recorded.describes_unique (h : Recorded mem tarFile ms fileHeaders) (hi : i < ms.length)
    (hj : j < ms.length) (hd : Describes mem ((offsets tarFile ms).getD i 0) m
      (describe mem (fileHeaders j) fileName)) : i = j := by
  have hbuffer : fileHeaders j + 512 = (offsets tarFile ms).getD i 0 + 512 := hd.buffer
  rw [h.header j hj] at hbuffer
  rcases lt_trichotomy i j with hlt | heq | hlt
  · have := @offset_lt tarFile i j ms hlt hj
    omega
  · exact heq
  · have := @offset_lt tarFile j i ms hlt hi
    omega

end Tar

namespace Vfs

open Function (update)

/-- `vfs_open` opens the first file of the name in a slot that was free; and if there is no such
file it fails, and opens nothing. -/
def OpensExactly (mem : ℕ → UInt8) (fileHeaders : ℕ → ℕ) (v : Vfs) (tarFile : ℕ) (ms : List Member)
    (path : ℕ → UInt8) (name : List UInt8) : Prop :=
  (∀ i m, First (fun m => m.name = name) ms i m → ∃ h fd, h < maxOpenedFiles ∧
    (v.openedFiles h).filename 0 = 0 ∧ Describes mem ((offsets tarFile ms).getD i 0) m fd ∧
    v.vfsOpen mem fileHeaders path =
      some ({ v with openedFiles := update v.openedFiles h fd }, some h)) ∧
  ((∀ m ∈ ms, m.name ≠ name) → v.vfsOpen mem fileHeaders path = some (v, none))

/-- Some slot of the table of open files looks free. -/
def HasFreeSlot (v : Vfs) : Prop := ∃ h < maxOpenedFiles, (v.openedFiles h).filename 0 = 0

variable {mem : ℕ → UInt8} {fileHeaders : ℕ → ℕ} {v : Vfs} {path : ℕ → UInt8} {h i tarFile : ℕ}
  {m : Member} {ms : List Member} {name : List UInt8}

theorem freeSlot_eq_none_iff : v.freeSlot = none ↔ ¬ v.HasFreeSlot := by
  unfold freeSlot HasFreeSlot
  rw [List.find?_eq_none]
  simp

/-- Without a header that is taken for the name, `vfs_open` does not come back. -/
theorem Mounted.vfsOpen_none (hm : v.Mounted) (hrec : Recorded mem tarFile ms fileHeaders)
    (hne : tarFile ≠ 0) (hnone : ∀ m ∈ ms, ¬ Str.Alike m.chars (tailOf path)) :
    v.vfsOpen mem fileHeaders path = none := by
  have hopen : ustarOpen mem fileHeaders (tailOf path) = none := by
    rw [Option.eq_none_iff_forall_ne_some]
    intro fd hfd
    obtain ⟨r, hr, -⟩ := ustarOpen_eq_some_iff.1 hfd
    obtain ⟨m, hfirst⟩ := (hrec.getFileHeader_iff hne).1 hr
    exact hnone m (List.mem_of_getElem? hfirst.get) hfirst.holds
  rw [vfsOpen_tar (hm.getMountpoint path) type_initramfs, hopen, Option.map_none]

/-- Otherwise it opens the first one of them. -/
theorem Mounted.vfsOpen_first (hm : v.Mounted) (hrec : Recorded mem tarFile ms fileHeaders)
    (hne : tarFile ≠ 0) (hfirst : First (fun m => Str.Alike m.chars (tailOf path)) ms i m) :
    v.vfsOpen mem fileHeaders path = some (match v.freeSlot with
      | some h =>
        ({ v with
          openedFiles := update v.openedFiles h (describe mem (fileHeaders i) (tailOf path)) },
          some h)
      | none => (v, none)) :=
  hm.vfsOpen (ustarOpen_eq_some_iff.2 ⟨i, (hrec.getFileHeader_iff hne).2 ⟨m, hfirst⟩, rfl⟩)

/-- Where `vfs_open` does not come back, it opens nothing exactly. -/
theorem not_opensExactly_of_none (hnone : v.vfsOpen mem fileHeaders path = none) :
    ¬ OpensExactly mem fileHeaders v tarFile ms path name := by
  rintro ⟨hopens, hfails⟩
  by_cases hnamed : ∃ m ∈ ms, m.name = name
  · obtain ⟨i, m, hnamed⟩ := exists_first hnamed
    obtain ⟨h, fd, -, -, -, hopen⟩ := hopens i m hnamed
    rw [hnone] at hopen
    cases hopen
  · have hfail := hfails fun m hm hname => hnamed ⟨m, hm, hname⟩
    rw [hnone] at hfail
    cases hfail

/-- Where it fails, it is right if there is no file of the name. -/
theorem opensExactly_of_fail (hfail : v.vfsOpen mem fileHeaders path = some (v, none)) :
    OpensExactly mem fileHeaders v tarFile ms path name ↔ ∀ m ∈ ms, m.name ≠ name := by
  constructor
  · rintro ⟨hopens, -⟩ m hm hname
    obtain ⟨i, m, hnamed⟩ := exists_first (P := fun m => m.name = name) ⟨m, hm, hname⟩
    obtain ⟨h, fd, -, -, -, hopen⟩ := hopens i m hnamed
    rw [hfail] at hopen
    cases congrArg Prod.snd (Option.some.inj hopen)
  · intro hmissing
    constructor
    · exact fun i m hnamed => absurd hnamed.holds (hmissing m (List.mem_of_getElem? hnamed.get))
    · exact fun _ => hfail

/-- Where it opens a file, it is right if this is the first one of the name. -/
theorem opensExactly_of_open (hrec : Recorded mem tarFile ms fileHeaders) (hi : i < ms.length)
    (hfree : v.freeSlot = some h) (hopen : v.vfsOpen mem fileHeaders path =
      some ({ v with
        openedFiles := update v.openedFiles h (describe mem (fileHeaders i) (tailOf path)) },
        some h)) :
    OpensExactly mem fileHeaders v tarFile ms path name ↔
      ∃ m, First (fun m => m.name = name) ms i m := by
  obtain ⟨hlt, hname⟩ := freeSlot_eq_some hfree
  constructor
  · rintro ⟨hopens, hfails⟩
    by_cases hex : ∃ m ∈ ms, m.name = name
    · obtain ⟨j, m, hnamed⟩ := exists_first hex
      obtain ⟨h', fd, -, -, hdescribes, hopen'⟩ := hopens j m hnamed
      rw [hopen] at hopen'
      simp only [Option.some.injEq, Prod.mk.injEq] at hopen'
      obtain ⟨hstate, rfl⟩ := hopen'
      have hfd := congrFun (congrArg Vfs.openedFiles hstate) h
      simp only [Function.update_self] at hfd
      rw [← hfd] at hdescribes
      obtain rfl := hrec.describes_unique hnamed.lt hi hdescribes
      exact ⟨m, hnamed⟩
    · have hfail := hfails fun m hm hname => hex ⟨m, hm, hname⟩
      rw [hopen] at hfail
      cases congrArg Prod.snd (Option.some.inj hfail)
  · rintro ⟨m, hnamed⟩
    constructor
    · intro j m' hnamed'
      obtain rfl := hnamed.unique hnamed'
      exact ⟨h, _, hlt, hname, hrec.describes hnamed'.get, hopen⟩
    · exact fun hmissing => absurd hnamed.holds (hmissing m (List.mem_of_getElem? hnamed.get))

/-- **Opening finds exactly the named file** if and only if one of two things holds: the file is
there, no file before it has a name that is taken for it, and there is a free slot; or there is no
file of the name, but one that is taken for it, and there is no free slot. -/
theorem open_exact_iff (mem : ℕ → UInt8) (old : ℕ → ℕ) (tarFile : ℕ) (ms : List Member) (fuel : ℕ)
    (h : ArchiveAt mem tarFile ms) (hne : tarFile ≠ 0)
    (hfit : zeroBlock tarFile ms + 512 ≤ 2 ^ 64) (hlen : ms.length ≤ headerListSize)
    (hfuel : ms.length < fuel) (q : Parse) (hq : tarInit mem old fuel tarFile = some q) (v : Vfs)
    (hm : v.Mounted) (path : ℕ → UInt8) (name : List UInt8) (hpath : Spells (tailOf path) name) :
    OpensExactly mem q.fileHeaders v tarFile ms path name ↔
      (∃ (i : ℕ) (m : Member), ms[i]? = some m ∧ m.name = name ∧
        (∀ j < i, ∀ m' : Member, ms[j]? = some m' → ¬ Str.Alike m'.chars (tailOf path)) ∧
        v.HasFreeSlot) ∨
      ((∀ m ∈ ms, m.name ≠ name) ∧ (∃ m ∈ ms, Str.Alike m.chars (tailOf path)) ∧
        ¬ v.HasFreeSlot) := by
  have hrec := recorded_of_tarInit h hfit hlen hfuel hq
  -- a file of the name is taken for it
  have halike : ∀ m : Member, m.name = name → Str.Alike m.chars (tailOf path) := by
    rintro m rfl
    exact hpath.alike
  by_cases hex : ∃ m ∈ ms, Str.Alike m.chars (tailOf path)
  · obtain ⟨r, m, hfirst⟩ := exists_first hex
    have hopen := hm.vfsOpen_first hrec hne hfirst
    cases hfree : v.freeSlot with
    | none =>
      have hfull := freeSlot_eq_none_iff.1 hfree
      rw [hfree] at hopen
      rw [opensExactly_of_fail hopen]
      constructor
      · exact fun hmissing => Or.inr ⟨hmissing, hex, hfull⟩
      · rintro (⟨_, _, -, -, -, hslot⟩ | ⟨hmissing, -⟩)
        · exact absurd hslot hfull
        · exact hmissing
    | some s =>
      have hslot : v.HasFreeSlot := ⟨s, freeSlot_eq_some hfree⟩
      rw [hfree] at hopen
      rw [opensExactly_of_open hrec hfirst.lt hfree hopen]
      constructor
      · rintro ⟨m', hnamed⟩
        exact Or.inl ⟨r, m', hnamed.get, hnamed.holds, hfirst.before, hslot⟩
      · rintro (⟨i, m', hget, hname, hbefore, -⟩ | ⟨-, -, hfull⟩)
        · obtain rfl := hfirst.unique ⟨hget, halike m' hname, hbefore⟩
          exact ⟨m', hget, hname, fun j hj m'' hm'' hname' =>
            hbefore j hj m'' hm'' (halike m'' hname')⟩
        · exact absurd hslot hfull
  · have hnone := hm.vfsOpen_none hrec hne fun m hm hal => hex ⟨m, hm, hal⟩
    constructor
    · exact fun hexact => absurd hexact (not_opensExactly_of_none hnone)
    · rintro (⟨i, m, hget, hname, -⟩ | ⟨-, hex', -⟩)
      · exact absurd ⟨m, List.mem_of_getElem? hget, halike m hname⟩ hex
      · exact absurd hex' hex

/-- The archive of `twoFiles` at `0x1000`. -/
def twoArchive : ℕ → UInt8 := fun a => encode twoFiles (a - 0x1000)

theorem archiveAt_twoArchive : ArchiveAt twoArchive 0x1000 twoFiles := by
  apply archiveAt_encode
  intro k
  unfold twoArchive
  rw [Nat.add_sub_cancel_left]

theorem zeroBlock_twoFiles : zeroBlock 0x1000 twoFiles = 0x1800 := by
  simp only [twoFiles, zeroBlock, padded, List.length_nil, List.length_replicate]

/-- The first file is opened by its name. -/
theorem open_exact_first : ∃ q, tarInit twoArchive (fun _ => 0) 3 0x1000 = some q ∧
    OpensExactly twoArchive q.fileHeaders booted 0x1000 twoFiles (Str.literal ['/', 'a']) [0x61] := by
  obtain ⟨q, hq⟩ := Option.isSome_iff_exists.1
    (by decide +kernel : (tarInit twoArchive (fun _ => 0) 3 0x1000).isSome = true)
  have hspells : Spells (tailOf (Str.literal ['/', 'a'])) [0x61] := ⟨by decide, by decide⟩
  have hiff := open_exact_iff twoArchive (fun _ => 0) 0x1000 twoFiles 3 archiveAt_twoArchive
    (by norm_num) (by rw [zeroBlock_twoFiles]; norm_num) (by decide) (by decide) q hq booted
    mounted_booted (Str.literal ['/', 'a']) [0x61] hspells
  exact ⟨q, hq, hiff.2 (Or.inl ⟨0, _, rfl, rfl, nofun, 0, by decide, rfl⟩)⟩

/-- **The wrong file is opened.**  The second file is called `bc`; the name of the first one, `a`, is
taken for it. -/
theorem open_wrong_file : ∃ q, tarInit twoArchive (fun _ => 0) 3 0x1000 = some q ∧
    ¬ OpensExactly twoArchive q.fileHeaders booted 0x1000 twoFiles (Str.literal ['/', 'b', 'c'])
      [0x62, 0x63] := by
  have hrun : ((tarInit twoArchive (fun _ => 0) 3 0x1000).bind fun q =>
      (booted.vfsOpen twoArchive q.fileHeaders (Str.literal ['/', 'b', 'c'])).map fun r =>
        r.2.map fun h => (r.1.openedFiles h).fileBuffer) = some (some 0x1200) := by decide +kernel
  obtain ⟨q, hq, hopen⟩ := Option.bind_eq_some_iff.1 hrun
  refine ⟨q, hq, ?_⟩
  rintro ⟨hopens, -⟩
  have hfirst : First (fun m => m.name = [0x62, 0x63]) twoFiles 1 (twoFiles.get ⟨1, by decide⟩) := by
    refine ⟨rfl, rfl, fun j hj m' hm' => ?_⟩
    obtain rfl : j = 0 := by omega
    cases hm'
    decide
  obtain ⟨h, fd, -, -, hdescribes, heq⟩ := hopens 1 _ hfirst
  rw [heq] at hopen
  simp only [Option.map_some, Function.update_self, hdescribes.buffer] at hopen
  exact absurd hopen (by decide)

end Vfs

end TitanOS
