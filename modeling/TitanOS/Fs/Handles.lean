import TitanOS.Fs.Vfs
import TitanOS.Lib.Run

/-!
# File handles are independent, if their names are not empty

A run opens paths and reads and seeks on the handles that it was given.  Beside the state it keeps,
for each handle, the path it was opened with, the operations made on it since, and what its reads
have delivered.  `alone` is the private run of a handle: its path is opened on a table without other
files, and only its own operations are made.

`vfs_open` takes the first slot whose stored name is empty, and the name that it stores is the path
without its first character.  So a path of one character, which the lookup answers with a file
whose name has one character too (or with any file, if a zero follows the terminator), leaves its
slot looking free, and the next open is given the same handle.  `handles_independent_iff` says that
this is the only way in which handles get into each other's way.
-/

namespace TitanOS

open Tar

namespace Vfs

open Function (update)

/-- An operation on an open file. -/
inductive FileOp
  | read (nbytes : ℕ)
  | seek (pos : ℕ)
  deriving DecidableEq, Repr

/-- The operations of a run. -/
inductive Op
  | openPath (path : ℕ → UInt8)
  | on (fileHandle : ℕ) (o : FileOp)

/-- An operation on the open file `h`, with what its reads have delivered. -/
def perform (mem : ℕ → UInt8) (h : ℕ) (x : Vfs × List (List UInt8)) :
    FileOp → Option (Vfs × List (List UInt8))
  | .read nbytes => (vfsRead mem x.1 h nbytes).map fun r => (r.1, x.2 ++ [r.2.getD []])
  | .seek pos => some (x.1.vfsSeek h pos, x.2)

/-- The private run of a handle: what it delivers, and the position that it reaches. -/
def alone (mem : ℕ → UInt8) (fileHeaders : ℕ → ℕ) (path : ℕ → UInt8) (ops : List FileOp) :
    Option (List (List UInt8) × ℤ) :=
  zeroed.vfsInit.bind fun v => (v.vfsOpen mem fileHeaders path).bind fun r => r.2.bind fun h =>
    (ops.foldlM (perform mem h) (r.1, [])).map fun x => (x.2, (x.1.openedFiles h).bufReadPos)

/-- What a run remembers: the handles given out, newest first, and for each of them the path it was
opened with, its own operations, and the bytes that they have delivered. -/
structure Log where
  given : List ℕ
  path : ℕ → ℕ → UInt8
  own : ℕ → List FileOp
  delivered : ℕ → List (List UInt8)

def Log.opened (l : Log) (h : ℕ) (path : ℕ → UInt8) : Log where
  given := h :: l.given
  path := update l.path h path
  own := update l.own h []
  delivered := update l.delivered h []

def Log.did (l : Log) (h : ℕ) (o : FileOp) (out : List (List UInt8)) : Log :=
  { l with own := update l.own h (l.own h ++ [o]), delivered := update l.delivered h out }

/-- One operation of a run. -/
def step (mem : ℕ → UInt8) (fileHeaders : ℕ → ℕ) (x : Vfs × Log) : Op → Option (Vfs × Log)
  | .openPath path => (x.1.vfsOpen mem fileHeaders path).map fun r =>
      (r.1, r.2.elim x.2 fun h => x.2.opened h path)
  | .on h o => (perform mem h (x.1, x.2.delivered h) o).map fun r =>
      (r.1, x.2.did h o r.2)

/-- Paths name files that the lookup finds, and operations are made on handles given out before. -/
def Valid (mem : ℕ → UInt8) (fileHeaders : ℕ → ℕ) (x : Vfs × Log) : Op → Prop
  | .openPath path => (ustarOpen mem fileHeaders (tailOf path)).isSome = true
  | .on h _ => h ∈ x.2.given

/-- No handle has been given out twice, and each one has delivered what it delivers alone and is at
the position that it reaches alone. -/
def Independent (mem : ℕ → UInt8) (fileHeaders : ℕ → ℕ) (x : Vfs × Log) : Prop :=
  x.2.given.Nodup ∧ ∀ h ∈ x.2.given, alone mem fileHeaders (x.2.path h) (x.2.own h) =
    some (x.2.delivered h, (x.1.openedFiles h).bufReadPos)

/-- The paths that a run opens. -/
def opens (os : List Op) : List (ℕ → UInt8) :=
  os.filterMap fun
    | .openPath path => some path
    | .on _ _ => none

/-- The state and the log at the beginning of a run. -/
def start : Vfs × Log := (booted, ⟨[], fun _ _ => 0, fun _ => [], fun _ => []⟩)

/-! ### One descriptor -/

/-- What an operation does to the descriptor it is made on. -/
def fdStep (mem : ℕ → UInt8) (x : FileDescriptor × List (List UInt8)) :
    FileOp → FileDescriptor × List (List UInt8)
  | .read nbytes => (x.1.moveTo (toInt (x.1.bufReadPos + nbytes)), x.2 ++
      [ustarRead mem (x.1.fileBuffer + x.1.bufReadPos) nbytes])
  | .seek pos => (x.1.moveTo (toInt pos), x.2)

variable {mem : ℕ → UInt8} {fileHeaders : ℕ → ℕ} {v : Vfs} {path : ℕ → UInt8} {h : ℕ}
  {fd : FileDescriptor} {out : List (List UInt8)} {ops : List FileOp} {x : Vfs × Log}
  {os : List Op}

/-- The name and the file system of a descriptor stay as they are. -/
theorem fdStep_filename (x : FileDescriptor × List (List UInt8)) (o : FileOp) :
    (fdStep mem x o).1.filename = x.1.filename ∧
      (fdStep mem x o).1.mountpointId = x.1.mountpointId := by
  cases o <;> exact ⟨FileDescriptor.moveTo_filename .., FileDescriptor.moveTo_mountpointId ..⟩

theorem foldl_fdStep_filename (x : FileDescriptor × List (List UInt8)) (ops : List FileOp) :
    (ops.foldl (fdStep mem) x).1.filename = x.1.filename ∧
      (ops.foldl (fdStep mem) x).1.mountpointId = x.1.mountpointId := by
  induction ops generalizing x with
  | nil => exact ⟨rfl, rfl⟩
  | cons o ops ih =>
    rw [List.foldl_cons, (ih _).1, (ih _).2]
    exact fdStep_filename x o

/-- An operation changes the slot of its handle only. -/
theorem Mounted.perform (hm : v.Mounted) (hid : (v.openedFiles h).mountpointId = 0) (o : FileOp) :
    Vfs.perform mem h (v, out) o =
      some ({ v with
        openedFiles := update v.openedFiles h (fdStep mem (v.openedFiles h, out) o).1 },
        (fdStep mem (v.openedFiles h, out) o).2) := by
  cases o with
  | read nbytes => simp only [Vfs.perform, hm.vfsRead hid, Option.map_some, fdStep, Option.getD_some]
  | seek pos => rfl

theorem Mounted.foldlM_perform (hm : v.Mounted) (hid : (v.openedFiles h).mountpointId = 0) :
    ops.foldlM (Vfs.perform mem h) (v, out) =
      some ({ v with
        openedFiles := update v.openedFiles h (ops.foldl (fdStep mem) (v.openedFiles h, out)).1 },
        (ops.foldl (fdStep mem) (v.openedFiles h, out)).2) := by
  induction ops generalizing v out with
  | nil => simp
  | cons o ops ih =>
    rw [List.foldlM_cons, hm.perform hid o]
    simp only [Option.bind_eq_bind, Option.bind_some]
    rw [ih (by exact hm) (by
      simp only [Function.update_self]
      rw [(fdStep_filename _ o).2, hid])]
    simp only [Function.update_self, Function.update_idem, List.foldl_cons]

/-- The private run of a handle, in terms of its descriptor. -/
theorem alone_eq (hfd : ustarOpen mem fileHeaders (tailOf path) = some fd) :
    alone mem fileHeaders path ops = some ((ops.foldl (fdStep mem) (fd, [])).2,
      (ops.foldl (fdStep mem) (fd, [])).1.bufReadPos) := by
  have hopen := mounted_booted.vfsOpen_slot hfd (rfl : booted.freeSlot = some 0)
  obtain ⟨w, hw, hslot, hopen⟩ : ∃ w : Vfs, w.Mounted ∧ w.openedFiles 0 = fd ∧
      booted.vfsOpen mem fileHeaders path = some (w, some 0) :=
    ⟨{ booted with openedFiles := update booted.openedFiles 0 fd }, mounted_booted,
      by simp, hopen⟩
  have hid : (w.openedFiles 0).mountpointId = 0 := by rw [hslot, (ustarOpen_eq hfd).2]
  rw [alone, vfsInit_zeroed, Option.bind_some, hopen, Option.bind_some, Option.bind_some,
    hw.foldlM_perform hid, Option.map_some, hslot]
  simp only [Function.update_self]

/-! ### Slots -/

/-- A slot is handed out, or it looks free; the descriptor in a slot that is handed out is the one
of its handle, after the operations made on it. -/
structure Kept (mem : ℕ → UInt8) (fileHeaders : ℕ → ℕ) (x : Vfs × Log) : Prop where
  mounted : x.1.Mounted
  nodup : x.2.given.Nodup
  lt : ∀ h ∈ x.2.given, h < maxOpenedFiles
  slot : ∀ h ∈ x.2.given, ∃ fd, ustarOpen mem fileHeaders (tailOf (x.2.path h)) = some fd ∧
    (x.1.openedFiles h, x.2.delivered h) = (x.2.own h).foldl (fdStep mem) (fd, [])
  free : ∀ h < maxOpenedFiles, h ∉ x.2.given → (x.1.openedFiles h).filename 0 = 0

/-- The slots that are handed out do not look free. -/
def Named (x : Vfs × Log) : Prop := ∀ h ∈ x.2.given, (x.1.openedFiles h).filename 0 ≠ 0

theorem kept_start : Kept mem fileHeaders start :=
  ⟨mounted_booted, List.nodup_nil, nofun, nofun, fun _ _ _ => rfl⟩

theorem Kept.independent (hk : Kept mem fileHeaders x) : Independent mem fileHeaders x := by
  refine ⟨hk.nodup, fun h hh => ?_⟩
  obtain ⟨fd, hfd, hslot⟩ := hk.slot h hh
  rw [alone_eq hfd, ← hslot]

/-- The name stored in a slot is that of the path it was opened with. -/
theorem Kept.filename (hk : Kept mem fileHeaders x) (hh : h ∈ x.2.given) :
    (x.1.openedFiles h).filename 0 = x.2.path h 1 ∧ (x.1.openedFiles h).mountpointId = 0 := by
  obtain ⟨fd, hfd, hslot⟩ := hk.slot h hh
  have hfst : x.1.openedFiles h = ((x.2.own h).foldl (fdStep mem) (fd, [])).1 :=
    congrArg Prod.fst hslot
  rw [hfst, (foldl_fdStep_filename _ _).1, (foldl_fdStep_filename _ _).2]
  exact ustarOpen_eq hfd

/-- An operation on a handle that has been given out. -/
theorem Kept.on (hk : Kept mem fileHeaders x) (hh : h ∈ x.2.given) (o : FileOp) :
    ∃ x', step mem fileHeaders x (.on h o) = some x' ∧ Kept mem fileHeaders x' ∧
      x'.2.given = x.2.given ∧
      ∀ a, (x'.1.openedFiles a).filename = (x.1.openedFiles a).filename := by
  have hperform := @Mounted.perform mem x.1 h (x.2.delivered h) hk.mounted (hk.filename hh).2 o
  set r := fdStep mem (x.1.openedFiles h, x.2.delivered h) o with hr
  refine ⟨({ x.1 with openedFiles := update x.1.openedFiles h r.1 }, x.2.did h o r.2),
    by rw [step, hperform, Option.map_some], ⟨hk.mounted, hk.nodup, hk.lt, ?_, ?_⟩, rfl, ?_⟩
  · intro a ha
    obtain ⟨fd, hfd, hslot⟩ := hk.slot a ha
    refine ⟨fd, hfd, ?_⟩
    by_cases hah : a = h
    · subst hah
      simp only [Log.did, Function.update_self, List.foldl_append, ← hslot, List.foldl_cons,
        List.foldl_nil, hr]
    · simpa only [Log.did, Function.update_of_ne hah] using hslot
  · intro a ha hnot
    have hah : a ≠ h := fun hah => hnot (hah ▸ hh)
    simp only [Function.update_of_ne hah]
    exact hk.free a ha hnot
  · intro a
    by_cases hah : a = h
    · subst hah
      simp only [Function.update_self]
      exact (fdStep_filename _ o).1
    · simp only [Function.update_of_ne hah]

/-- An open that finds a slot which is not handed out. -/
theorem Kept.opened (hk : Kept mem fileHeaders x)
    (hfd : ustarOpen mem fileHeaders (tailOf path) = some fd) (hfree : x.1.freeSlot = some h)
    (hnew : h ∉ x.2.given) :
    ∃ x', step mem fileHeaders x (.openPath path) = some x' ∧ Kept mem fileHeaders x' ∧
      x'.2.given = h :: x.2.given ∧ (x'.1.openedFiles h).filename 0 = path 1 ∧
      ∀ a ≠ h, x'.1.openedFiles a = x.1.openedFiles a := by
  have hne : ∀ a ∈ x.2.given, a ≠ h := fun a ha hah => hnew (hah ▸ ha)
  refine ⟨({ x.1 with openedFiles := update x.1.openedFiles h fd }, x.2.opened h path),
    by rw [step, hk.mounted.vfsOpen_slot hfd hfree]; rfl, ?_, rfl, ?_, ?_⟩
  · refine ⟨hk.mounted, List.nodup_cons.2 ⟨hnew, hk.nodup⟩, ?_, ?_, ?_⟩
    · intro a ha
      rcases List.mem_cons.1 ha with rfl | ha
      · exact (freeSlot_eq_some hfree).1
      · exact hk.lt a ha
    · intro a ha
      rcases List.mem_cons.1 ha with rfl | ha
      · refine ⟨fd, ?_, ?_⟩
        · simpa only [Log.opened, Function.update_self] using hfd
        · simp only [Log.opened, Function.update_self, List.foldl_nil]
      · simpa only [Log.opened, Function.update_of_ne (hne a ha)] using hk.slot a ha
    · intro a ha hnot
      have hah : a ≠ h := fun hah => hnot (hah ▸ List.mem_cons_self)
      simp only [Function.update_of_ne hah]
      exact hk.free a ha fun hmem => hnot (List.mem_cons_of_mem _ hmem)
  · simp only [Function.update_self]
    exact (ustarOpen_eq hfd).1
  · intro a hah
    simp only [Function.update_of_ne hah]

/-- Only the names matter for the choice of a slot. -/
theorem freeSlot_congr {v w : Vfs}
    (h : ∀ a, (w.openedFiles a).filename 0 = 0 ↔ (v.openedFiles a).filename 0 = 0) :
    w.freeSlot = v.freeSlot := by
  unfold freeSlot
  congr 1
  funext a
  rw [Bool.eq_iff_iff]
  simpa using h a

/-- As long as fewer files have been opened than there are slots, one of them is free. -/
theorem Kept.exists_freeSlot (hk : Kept mem fileHeaders x)
    (hlt : x.2.given.length < maxOpenedFiles) :
    ∃ h, x.1.freeSlot = some h := by
  obtain ⟨h, hh, hnew⟩ : ∃ h < maxOpenedFiles, h ∉ x.2.given := by
    by_contra hall
    push Not at hall
    have hsub : List.range maxOpenedFiles ⊆ x.2.given := fun a ha => hall a (List.mem_range.1 ha)
    have hlen := (List.nodup_range.subperm hsub).length_le
    rw [List.length_range] at hlen
    omega
  refine Option.isSome_iff_exists.1 (List.find?_isSome.2 ⟨h, List.mem_range.2 hh, ?_⟩)
  simpa using hk.free h hh hnew

theorem Named.notMem (hn : Named x) (hfree : x.1.freeSlot = some h) : h ∉ x.2.given :=
  fun hh => hn h hh (freeSlot_eq_some hfree).2

theorem Named.on {x' : Vfs × Log} (hn : Named x) (hgiven : x'.2.given = x.2.given)
    (hname : ∀ a, (x'.1.openedFiles a).filename = (x.1.openedFiles a).filename) : Named x' := by
  intro a ha
  rw [hname]
  exact hn a (hgiven ▸ ha)

/-- After an open the new handle has a name if its path has more than one character. -/
theorem Named.opened {x' : Vfs × Log} (hn : Named x) (hgiven : x'.2.given = h :: x.2.given)
    (hname : (x'.1.openedFiles h).filename 0 = path 1)
    (hother : ∀ a ≠ h, x'.1.openedFiles a = x.1.openedFiles a) (hpath : path 1 ≠ 0) : Named x' := by
  intro a ha
  by_cases hah : a = h
  · rwa [hah, hname]
  · rw [hother a hah]
    rw [hgiven] at ha
    exact hn a ((List.mem_cons.1 ha).resolve_left hah)

/-! ### Runs -/

theorem mem_dropLast_cons {α : Type*} {a b : α} {l : List α} (h : a ∈ l.dropLast) :
    a ∈ (b :: l).dropLast := by
  have hne : l ≠ [] := by
    rintro rfl
    cases h
  rw [List.dropLast_cons_of_ne_nil hne]
  exact List.mem_cons_of_mem _ h

/-- Opens with names keep handles apart; an open without one does no harm as the last one. -/
theorem always_independent (hk : Kept mem fileHeaders x) (hn : Named x ∨ opens os = [])
    (hv : Run.Along (step mem fileHeaders) (Valid mem fileHeaders) x os)
    (hc : ∀ path ∈ (opens os).dropLast, path 1 ≠ 0) :
    Run.Always (step mem fileHeaders) (Independent mem fileHeaders) x os := by
  induction os generalizing x with
  | nil => exact hk.independent
  | cons o os ih =>
    refine ⟨hk.independent, fun x' hx' => ?_⟩
    have hv' := hv.2 x' hx'
    cases o with
    | on h o =>
      obtain ⟨x₁, hx₁, hk₁, hgiven, hname⟩ := hk.on hv.1 o
      obtain rfl := Option.some.inj (hx₁.symm.trans hx')
      exact ih hk₁ (hn.imp_left fun hn => hn.on hgiven hname) hv' hc
    | openPath path =>
      obtain ⟨fd, hfd⟩ := Option.isSome_iff_exists.1 hv.1
      have hn : Named x := hn.resolve_right (List.cons_ne_nil path (opens os))
      cases hfree : x.1.freeSlot with
      | none =>
        have hfull : step mem fileHeaders x (.openPath path) = some x := by
          rw [step, hk.mounted.vfsOpen_full hfd hfree]
          rfl
        obtain rfl := Option.some.inj (hfull.symm.trans hx')
        exact ih hk (Or.inl hn) hv' fun p hp => hc p (mem_dropLast_cons hp)
      | some h =>
        obtain ⟨x₁, hx₁, hk₁, hgiven, hname, hother⟩ := hk.opened hfd hfree (hn.notMem hfree)
        obtain rfl := Option.some.inj (hx₁.symm.trans hx')
        refine ih hk₁ ?_ hv' fun p hp => hc p (mem_dropLast_cons hp)
        by_cases hos : opens os = []
        · exact Or.inr hos
        · have hpath : path ∈ (path :: opens os).dropLast := by
            rw [List.dropLast_cons_of_ne_nil hos]
            exact List.mem_cons_self
          exact Or.inl (hn.opened hgiven hname hother (hc path hpath))

/-- Once a slot that is handed out looks free, the next open hands it out again. -/
theorem not_always_reopened (hk : Kept mem fileHeaders x) (hfree : x.1.freeSlot = some h)
    (hh : h ∈ x.2.given) (hv : Run.Along (step mem fileHeaders) (Valid mem fileHeaders) x os)
    (hos : opens os ≠ []) :
    ¬ Run.Always (step mem fileHeaders) (Independent mem fileHeaders) x os := by
  induction os generalizing x with
  | nil => exact absurd rfl hos
  | cons o os ih =>
    rintro ⟨-, halways⟩
    cases o with
    | on a o =>
      obtain ⟨x₁, hx₁, hk₁, hgiven, hname⟩ := hk.on hv.1 o
      have hfree₁ : x₁.1.freeSlot = some h := by
        rw [← hfree]
        exact freeSlot_congr fun a => by rw [hname]
      exact ih hk₁ hfree₁ (hgiven ▸ hh) (hv.2 x₁ hx₁) hos (halways x₁ hx₁)
    | openPath path =>
      obtain ⟨fd, hfd⟩ := Option.isSome_iff_exists.1 hv.1
      obtain ⟨x₁, hx₁, hgiven⟩ : ∃ x₁, step mem fileHeaders x (.openPath path) = some x₁ ∧
          x₁.2.given = h :: x.2.given := by
        refine ⟨_, by rw [step, hk.mounted.vfsOpen_slot hfd hfree, Option.map_some], rfl⟩
      have hnodup := (halways x₁ hx₁).head.1
      rw [hgiven] at hnodup
      exact (List.nodup_cons.1 hnodup).1 hh

/-- A run in which the handles stay independent opens no path after one without a name. -/
theorem named_of_always (hk : Kept mem fileHeaders x) (hn : Named x)
    (hlen : x.2.given.length + (opens os).length ≤ maxOpenedFiles)
    (hv : Run.Along (step mem fileHeaders) (Valid mem fileHeaders) x os)
    (ha : Run.Always (step mem fileHeaders) (Independent mem fileHeaders) x os) :
    ∀ path ∈ (opens os).dropLast, path 1 ≠ 0 := by
  induction os generalizing x with
  | nil => exact nofun
  | cons o os ih =>
    cases o with
    | on h o =>
      obtain ⟨x₁, hx₁, hk₁, hgiven, hname⟩ := hk.on hv.1 o
      exact ih hk₁ (hn.on hgiven hname) (hgiven ▸ hlen) (hv.2 x₁ hx₁) (ha.2 x₁ hx₁)
    | openPath path =>
      obtain ⟨fd, hfd⟩ := Option.isSome_iff_exists.1 hv.1
      have hlen' : x.2.given.length + ((opens os).length + 1) ≤ maxOpenedFiles := hlen
      obtain ⟨h, hfree⟩ := hk.exists_freeSlot (by omega)
      obtain ⟨x₁, hx₁, hk₁, hgiven, hname, hother⟩ := hk.opened hfd hfree (hn.notMem hfree)
      have hv₁ := hv.2 x₁ hx₁
      have ha₁ := ha.2 x₁ hx₁
      by_cases hos : opens os = []
      · intro p hp
        have : (path :: opens os).dropLast = [] := by rw [hos]; rfl
        exact absurd (this ▸ hp : p ∈ []) List.not_mem_nil
      by_cases hpath : path 1 = 0
      · -- the slot just handed out still looks free
        have hfree₁ : x₁.1.freeSlot = some h := by
          rw [← hfree]
          refine freeSlot_congr fun a => ?_
          by_cases hah : a = h
          · rw [hah, hname, hpath]
            simpa using (freeSlot_eq_some hfree).2
          · rw [hother a hah]
        exact absurd ha₁ (not_always_reopened hk₁ hfree₁ (hgiven ▸ List.mem_cons_self) hv₁ hos)
      · have hrest := ih hk₁ (hn.opened hgiven hname hother hpath)
          (by rw [hgiven, List.length_cons]; omega) hv₁ ha₁
        intro p hp
        have hp' : p ∈ (path :: opens os).dropLast := hp
        rw [List.dropLast_cons_of_ne_nil hos] at hp'
        rcases List.mem_cons.1 hp' with rfl | hp'
        · exact hpath
        · exact hrest p hp'

/-- **File handles are independent** in a run of at most `MAX_OPENED_FILES` opens exactly when every
path that is opened, but the last one, has a character behind its first. -/
theorem handles_independent_iff (mem : ℕ → UInt8) (fileHeaders : ℕ → ℕ) (os : List Op)
    (hlen : (opens os).length ≤ maxOpenedFiles)
    (hv : Run.Along (step mem fileHeaders) (Valid mem fileHeaders) start os) :
    Run.Always (step mem fileHeaders) (Independent mem fileHeaders) start os ↔
      ∀ path ∈ (opens os).dropLast, path 1 ≠ 0 :=
  ⟨named_of_always kept_start nofun (by simpa [start] using hlen) hv,
    always_independent kept_start (Or.inl nofun) hv⟩

instance (x : Vfs × Log) : ∀ o, Decidable (Valid mem fileHeaders x o)
  | .openPath path =>
    inferInstanceAs (Decidable ((ustarOpen mem fileHeaders (tailOf path)).isSome = true))
  | .on h _ => inferInstanceAs (Decidable (h ∈ x.2.given))

/-- An archive at `0x1000` with the file `a` of three bytes. -/
def oneFile : ℕ → UInt8 := fun a =>
  encode ((twoFiles.take 1).map fun m => { m with content := [1, 2, 3], content_lt := by decide })
    (a - 0x1000)

/-- Its only header. -/
def oneHeader : ℕ → ℕ := fun i => if i = 0 then 0x1000 else 0

/-- The file is open twice, and the two handles are used in turns. -/
theorem handles_independent_twice :
    Run.Always (step oneFile oneHeader) (Independent oneFile oneHeader) start
      [.openPath (Str.literal ['/', 'a']), .on 0 (.read 2), .openPath (Str.literal ['/', 'a']),
        .on 1 (.read 1), .on 0 (.seek 1), .on 1 (.read 1), .on 0 (.read 1)] := by
  refine (handles_independent_iff _ _ _ (by decide) ?_).2 ?_
  · decide +kernel
  · decide

/-- The path `/` is found, since the first file has a name of one character, and stored as the empty
name.  Opening it twice gives the handle `0` twice. -/
theorem slash_opened_twice :
    Run.Along (step oneFile oneHeader) (Valid oneFile oneHeader) start
        [.openPath (Str.literal ['/']), .openPath (Str.literal ['/'])] ∧
      ¬ Run.Always (step oneFile oneHeader) (Independent oneFile oneHeader) start
        [.openPath (Str.literal ['/']), .openPath (Str.literal ['/'])] := by
  refine ⟨by decide +kernel, fun halways => ?_⟩
  have hgiven : ([Op.openPath (Str.literal ['/']), .openPath (Str.literal ['/'])].foldlM
      (step oneFile oneHeader) start).map (fun x => x.2.given) = some [0, 0] := by decide +kernel
  obtain ⟨x, hx, hx'⟩ := Option.map_eq_some_iff.1 hgiven
  have hlast : Run.Always (step oneFile oneHeader) (Independent oneFile oneHeader) x [] :=
    Run.Always.append halways hx
  have hnodup := hlast.head.1
  rw [hx'] at hnodup
  exact absurd hnodup (by decide)

end Vfs

end TitanOS
