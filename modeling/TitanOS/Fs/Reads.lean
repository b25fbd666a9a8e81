import Mathlib.Data.List.GetD
import TitanOS.Fs.Handles

/-!
# Reading a file

Neither `vfs_read` nor `ustar_read` looks at the size of the file, so a read delivers as many bytes
as it is asked for, whatever lies behind the file.  And the position is an `int`, so a read that ends
at `2 ^ 31` or behind leaves a negative one.  A run of seeks and reads stays inside the file exactly
as long as each read ends in it.
-/

namespace TitanOS

open Tar

namespace Vfs

open Function (update)

/-- The argument is below `2 ^ 31`. -/
def FileOp.Small : FileOp → Prop
  | .read nbytes => nbytes < 2 ^ 31
  | .seek pos => pos < 2 ^ 31

/-- A read at a position delivers what is left of the file `m` there, as far as it is asked for it,
and advances the position by it; a seek sets the position. -/
def Delivers (mem : ℕ → UInt8) (h : ℕ) (m : Member) (x : Vfs × List (List UInt8)) : FileOp → Prop
  | .read nbytes =>
    let pos := (x.1.openedFiles h).bufReadPos
    ∃ v' bytes, vfsRead mem x.1 h nbytes = some (v', some bytes) ∧
      (bytes.length : ℤ) = min (nbytes : ℤ) (max 0 (m.content.length - pos)) ∧
      bytes = (m.content.drop pos.toNat).take bytes.length ∧
      (v'.openedFiles h).bufReadPos = pos + bytes.length
  | .seek pos => ((x.1.vfsSeek h pos).openedFiles h).bufReadPos = pos

/-- A read is empty, or it ends in the file and below `2 ^ 31`. -/
def Inside (h : ℕ) (m : Member) (x : Vfs × List (List UInt8)) : FileOp → Prop
  | .read nbytes => nbytes = 0 ∨
    (x.1.openedFiles h).bufReadPos + nbytes ≤ m.content.length ∧
      (x.1.openedFiles h).bufReadPos + nbytes < 2 ^ 31
  | .seek _ => True

/-- The handle `h` is open on the file `m`, and its position is one that a seek can set. -/
structure Reading (mem : ℕ → UInt8) (h : ℕ) (m : Member) (x : Vfs × List (List UInt8)) : Prop where
  mounted : x.1.Mounted
  mountpointId : (x.1.openedFiles h).mountpointId = 0
  data : ∀ k < m.content.length, mem ((x.1.openedFiles h).fileBuffer + k) = m.content.getD k 0
  position : ∃ pos : ℕ, (x.1.openedFiles h).bufReadPos = pos ∧ pos < 2 ^ 31

variable {mem : ℕ → UInt8} {fileHeaders : ℕ → ℕ} {v : Vfs} {path : ℕ → UInt8} {h : ℕ} {m : Member}
  {x x' : Vfs × List (List UInt8)} {o : FileOp} {pos nbytes i b : ℕ}

theorem toInt_of_lt (hn : nbytes < 2 ^ 31) : toInt nbytes = nbytes :=
  Int.bmod_eq_of_le (by omega) (by omega)

/-- The position after a read. -/
theorem toInt_add : toInt ((pos : ℤ) + nbytes) = pos + nbytes ↔ pos + nbytes < 2 ^ 31 := by
  constructor
  · intro heq
    have hlt : toInt ((pos : ℤ) + nbytes) < (2 ^ 32 + 1) / 2 := Int.bmod_lt (by norm_num)
    rw [heq] at hlt
    omega
  · intro hlt
    rw [← Nat.cast_add]
    exact toInt_of_lt hlt

theorem ustarRead_eq_map (a : ℤ) :
    ustarRead mem a nbytes = (List.range nbytes).map fun k : ℕ => mem (a + k).toNat := by
  unfold ustarRead
  simp only [List.bind_eq_flatMap, List.pure_def, List.map_flatMap, List.map_cons, List.map_nil]
  exact List.map_eq_flatMap.symm

theorem length_ustarRead (a : ℤ) : (ustarRead mem a nbytes).length = nbytes := by
  rw [ustarRead_eq_map, List.length_map, List.length_range]

/-- A read that ends in the file delivers its bytes. -/
theorem ustarRead_eq (hdata : ∀ k < m.content.length, mem (b + k) = m.content.getD k 0)
    (hend : pos + nbytes ≤ m.content.length) :
    ustarRead mem ((b : ℤ) + pos) nbytes = (m.content.drop pos).take nbytes := by
  apply List.ext_getElem
  · rw [length_ustarRead, List.length_take, List.length_drop]
    omega
  · intro k hk _
    rw [length_ustarRead] at hk
    have haddr : ((b : ℤ) + pos + k).toNat = b + (pos + k) := by omega
    have hlt : pos + k < m.content.length := by omega
    simp only [ustarRead_eq_map, List.getElem_map, List.getElem_range, haddr, hdata _ hlt,
      List.getElem_take, List.getElem_drop]
    exact List.getD_eq_getElem _ _ hlt

/-- The next position is again one that a seek can set. -/
theorem Reading.perform (hr : Reading mem h m x) (hx : Vfs.perform mem h x o = some x')
    (hpos : ∃ pos : ℕ, (fdStep mem (x.1.openedFiles h, x.2) o).1.bufReadPos = pos ∧ pos < 2 ^ 31) :
    Reading mem h m x' := by
  have hbuffer : (fdStep mem (x.1.openedFiles h, x.2) o).1.fileBuffer =
      (x.1.openedFiles h).fileBuffer := by
    cases o <;> exact FileDescriptor.moveTo_fileBuffer ..
  obtain rfl := Option.some.inj
    ((@Mounted.perform mem x.1 h x.2 hr.mounted hr.mountpointId o).symm.trans hx)
  constructor
  · exact hr.mounted
  · simp only [Function.update_self]
    rw [(fdStep_filename _ o).2, hr.mountpointId]
  · simp only [Function.update_self, hbuffer]
    exact hr.data
  · simpa only [Function.update_self] using hpos

/-- One operation. -/
theorem Reading.step (hr : Reading mem h m x) (ho : o.Small) :
    (Delivers mem h m x o ↔ Inside h m x o) ∧
      (Inside h m x o → ∀ x', Vfs.perform mem h x o = some x' → Reading mem h m x') := by
  obtain ⟨pos, hpos, hlt⟩ := hr.position
  cases o with
  | seek new =>
    have hnew : toInt new = new := toInt_of_lt ho
    constructor
    · constructor
      · exact fun _ => trivial
      · intro _
        simp only [Delivers, vfsSeek, Function.update_self, FileDescriptor.moveTo_bufReadPos, hnew]
    · intro _ x' hx'
      refine hr.perform hx' ⟨new, ?_, ho⟩
      rw [fdStep, FileDescriptor.moveTo_bufReadPos, hnew]
  | read nbytes =>
    have hread := @Mounted.vfsRead mem x.1 h nbytes hr.mounted hr.mountpointId
    rw [hpos] at hread
    have hn : nbytes < 2 ^ 31 := ho
    constructor
    · unfold Delivers Inside
      simp only [hpos]
      constructor
      · rintro ⟨v', bytes, hv', hlen, -, hadvance⟩
        rw [hread] at hv'
        cases hv'
        simp only [Function.update_self, FileDescriptor.moveTo_bufReadPos, length_ustarRead] at hlen hadvance
        rw [toInt_add] at hadvance
        omega
      · intro hinside
        have hadvance : toInt ((pos : ℤ) + nbytes) = pos + nbytes :=
          toInt_add.2 (by omega)
        refine ⟨_, _, hread, ?_, ?_, ?_⟩
        · rw [length_ustarRead]
          omega
        · rw [length_ustarRead, Int.toNat_natCast]
          rcases hinside with rfl | ⟨hend, -⟩
          · rfl
          · exact ustarRead_eq hr.data (by omega)
        · simp only [Function.update_self, FileDescriptor.moveTo_bufReadPos, length_ustarRead, hadvance]
    · intro hinside x' hx'
      refine hr.perform hx' ⟨pos + nbytes, ?_, ?_⟩
      · simp only [fdStep, FileDescriptor.moveTo_bufReadPos, hpos]
        rw [Nat.cast_add, toInt_add]
        unfold Inside at hinside
        omega
      · unfold Inside at hinside
        omega

/-- A handle that has just been opened. -/
theorem Mounted.reading {v' : Vfs} (hm : v.Mounted)
    (hfound : getFileHeader mem fileHeaders (tailOf path) = some (some i))
    (hmem : MemberAt mem (fileHeaders i) m)
    (hopen : v.vfsOpen mem fileHeaders path = some (v', some h)) : Reading mem h m (v', []) := by
  rw [hm.vfsOpen (ustarOpen_eq_some_iff.2 ⟨i, hfound, rfl⟩)] at hopen
  cases hslot : v.freeSlot with
  | none =>
    rw [hslot] at hopen
    cases hopen
  | some s =>
    rw [hslot] at hopen
    cases hopen
    refine ⟨hm, ?_, ?_, 0, ?_, by norm_num⟩
    · simp only [Function.update_self]
      rfl
    · simp only [Function.update_self]
      exact (hmem.describes (tailOf path)).data
    · simp only [Function.update_self]
      rfl

/-- **Reads stay inside the file** in a run of seeks and reads if and only if each read is empty or
ends in the file and below `2 ^ 31`. -/
theorem reads_inside_iff (mem : ℕ → UInt8) (fileHeaders : ℕ → ℕ) (v : Vfs) (hm : v.Mounted)
    (path : ℕ → UInt8) (i : ℕ) (m : Member)
    (hfound : getFileHeader mem fileHeaders (tailOf path) = some (some i))
    (hmem : MemberAt mem (fileHeaders i) m) (v' : Vfs) (h : ℕ)
    (hopen : v.vfsOpen mem fileHeaders path = some (v', some h)) (ops : List FileOp)
    (hops : ∀ o ∈ ops, o.Small) :
    Run.Along (perform mem h) (Delivers mem h m) (v', []) ops ↔
      Run.Along (perform mem h) (Inside h m) (v', []) ops :=
  Run.along_iff_of_inv (fun _ _ hr ho => hr.step ho) (hm.reading hfound hmem hopen)
    (Run.along_of_forall hops)

instance decidableInside (x : Vfs × List (List UInt8)) : ∀ o, Decidable (Inside h m x o)
  | .read _ => inferInstanceAs (Decidable (_ ∨ _))
  | .seek _ => inferInstanceAs (Decidable True)

instance decidableSmall : ∀ o : FileOp, Decidable o.Small
  | .read nbytes => inferInstanceAs (Decidable (nbytes < 2 ^ 31))
  | .seek pos => inferInstanceAs (Decidable (pos < 2 ^ 31))

/-- A file of three bytes. -/
def shortFile : Member := ⟨[0x63], [7, 8, 9], by decide, by decide, by decide, by decide⟩

/-- Its archive, at `0x1000`. -/
def shortArchive : ℕ → UInt8 := fun a => encode [shortFile] (a - 0x1000)

theorem memberAt_short : MemberAt shortArchive (oneHeader 0) shortFile := by
  have harchive : ArchiveAt shortArchive 0x1000 [shortFile] := by
    apply archiveAt_encode
    intro k
    unfold shortArchive
    rw [Nat.add_sub_cancel_left]
  exact harchive.1

theorem found_short :
    getFileHeader shortArchive oneHeader (tailOf (Str.literal ['/', 'c'])) = some (some 0) := by
  decide +kernel

/-- The file is read up to its end. -/
theorem reads_inside_short : ∃ v', booted.vfsOpen shortArchive oneHeader (Str.literal ['/', 'c']) =
      some (v', some 0) ∧
    Run.Along (perform shortArchive 0) (Delivers shortArchive 0 shortFile) (v', [])
      [.read 2, .seek 1, .read 2, .read 0] := by
  have hopen := mounted_booted.vfsOpen_slot (ustarOpen_eq_some_iff.2 ⟨0, found_short, rfl⟩)
    (rfl : booted.freeSlot = some 0)
  refine ⟨_, hopen, (reads_inside_iff shortArchive oneHeader booted mounted_booted _ 0 shortFile
    found_short memberAt_short _ 0 hopen [.read 2, .seek 1, .read 2, .read 0] (by decide)).2 ?_⟩
  decide +kernel

/-- **A read past the end** delivers a byte that is not in the file. -/
theorem read_past_end : ∃ v', booted.vfsOpen shortArchive oneHeader (Str.literal ['/', 'c']) =
      some (v', some 0) ∧
    ¬ Run.Along (perform shortArchive 0) (Delivers shortArchive 0 shortFile) (v', [])
      [.seek 1, .read 3] := by
  have hopen := mounted_booted.vfsOpen_slot (ustarOpen_eq_some_iff.2 ⟨0, found_short, rfl⟩)
    (rfl : booted.freeSlot = some 0)
  refine ⟨_, hopen, fun halong => ?_⟩
  have hreading := mounted_booted.reading found_short memberAt_short hopen
  have hseek := (hreading.step (o := .seek 1) (by decide)).2 trivial _ rfl
  have hinside := (hseek.step (o := .read 3) (by decide)).1.1 (halong.2 _ rfl).1
  exact absurd hinside (by decide +kernel)

end Vfs

end TitanOS
