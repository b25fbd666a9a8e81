import TitanOS.Lib.Run

/-!
# The resources of a process (`fs/resource_handling.c`)

A handle is an index into `resource_table`, which has `MAX_RESOURCES` slots.  `held` is the partial
map that the table should represent: the resource that is registered under a handle and has not been
removed since.  `Tracked` runs the two side by side.

`get_resource` turns handles away that are negative or `MAX_HANDLES` or more, which is another bound,
so between the two bounds it reads behind the table.  `remove_resource` turns resources away that
have no close callback.  Apart from this the table is the partial map.
-/

namespace TitanOS

open Function (update)

/-- `resource_type_t`. -/
inductive ResourceType
  | file
  | messageEndpoint
  | sharedMem
  deriving DecidableEq, Repr

/-- The functions that the pointers of a resource point to.  The kernel has only one of them. -/
inductive Callback
  | readResource
  | other (addr : ℕ)
  deriving DecidableEq, Repr

/-- `resource_t`; `none` is the null pointer. -/
structure Resource where
  type : ResourceType
  internalHandle : ℤ
  read : Option Callback
  write : Option Callback
  open_ : Option Callback
  close : Option Callback
  deriving DecidableEq, Repr

namespace Resource

/-- `MAX_HANDLES`. -/
def maxHandles : ℕ := 100

/-- `MAX_RESOURCES`. -/
def maxResources : ℕ := 5

/-- `resource_table[i]`; `none` is an access outside of the array. -/
def slot (table : ℕ → Option Resource) (i : ℕ) : Option (Option Resource) :=
  if i < maxResources then some (table i) else none

/-- `get_resource`. -/
def getResource (table : ℕ → Option Resource) (handle : ℤ) : Option (Option Resource) :=
  if handle < 0 ∨ handle ≥ maxHandles then some none else slot table handle.toNat

/-- `remove_resource`. -/
def removeResource (table : ℕ → Option Resource) (handle : ℤ) :
    Option ((ℕ → Option Resource) × Bool) :=
  (getResource table handle).map fun
    | none => (table, false)
    | some resource =>
      if resource.close = none then (table, false)
      else (update table handle.toNat none, true)

/-- The first slot that is not in use. -/
def openHandle (table : ℕ → Option Resource) : Option ℕ :=
  (List.range maxResources).find? fun handle => (table handle).isNone

/-- `register_resource`.  The slot gets a copy of the resource. -/
def registerResource (table : ℕ → Option Resource) : Option Resource → (ℕ → Option Resource) × ℤ
  | none => (table, -1)
  | some resource =>
    match openHandle table with
    | some handle => (update table handle (some resource), handle)
    | none => (table, -1)

/-! ### The partial map -/

/-- The calls of a run. -/
inductive Op
  | register (resource : Resource)
  | remove (handle : ℤ)
  | get (handle : ℤ)
  deriving DecidableEq, Repr

/-- The table beside the partial map that it should represent. -/
structure Tracked where
  table : ℕ → Option Resource
  held : ℤ → Option Resource

namespace Tracked

/-- One call. -/
def step (s : Tracked) : Op → Option Tracked
  | .register resource =>
    let r := registerResource s.table (some resource)
    some ⟨r.1, if r.2 = -1 then s.held else update s.held r.2 (some resource)⟩
  | .remove handle => (removeResource s.table handle).map fun r =>
    ⟨r.1, if r.2 then update s.held handle none else s.held⟩
  | .get handle => (getResource s.table handle).map fun _ => s

/-- The table of a new process, which is zeroed. -/
def start : Tracked := ⟨fun _ => none, fun _ => none⟩

/-- All handles are in use. -/
def Full (s : Tracked) : Prop := ∀ h : ℤ, 0 ≤ h → h < maxResources → s.held h ≠ none

/-- The call returns, and answers as the partial map does. -/
def Answers (s : Tracked) : Op → Prop
  | .register resource =>
    let r := registerResource s.table (some resource)
    (r.2 = -1 ↔ s.Full) ∧ (r.2 = -1 → r.1 = s.table) ∧
      (r.2 ≠ -1 → 0 ≤ r.2 ∧ s.held r.2 = none ∧ ∀ h, 0 ≤ h → h < r.2 → s.held h ≠ none)
  | .remove handle => ∃ table ok, removeResource s.table handle = some (table, ok) ∧
    (ok = true ↔ s.held handle ≠ none) ∧ (ok = true → getResource table handle = some none) ∧
    (ok = false → table = s.table)
  | .get handle => getResource s.table handle = some (s.held handle)

/-- The handle is not between the two bounds, and the resource that is to be removed has a close
callback. -/
def Closable (s : Tracked) : Op → Prop
  | .register _ => True
  | .remove handle => (handle < maxResources ∨ maxHandles ≤ handle) ∧
    ∀ resource, s.held handle = some resource → resource.close ≠ none
  | .get handle => handle < maxResources ∨ maxHandles ≤ handle

/-- The table represents the partial map. -/
def Represents (s : Tracked) : Prop :=
  ∀ h : ℤ, s.held h = if 0 ≤ h ∧ h < maxResources then s.table h.toNat else none

end Tracked

variable {table : ℕ → Option Resource} {handle : ℤ} {h i : ℕ} {resource : Resource} {s s' : Tracked}
  {o : Op}

theorem openHandle_eq_some (hh : openHandle table = some h) :
    h < maxResources ∧ table h = none ∧ ∀ i < h, table i ≠ none := by
  unfold openHandle at hh
  rw [List.find?_range_eq_some] at hh
  obtain ⟨hfree, hlt, hbefore⟩ := hh
  refine ⟨List.mem_range.1 hlt, Option.isNone_iff_eq_none.1 hfree, fun i hi hnone => ?_⟩
  have hused := hbefore i hi
  rw [hnone] at hused
  cases hused

theorem openHandle_eq_none (hh : openHandle table = none) : ∀ i < maxResources, table i ≠ none := by
  unfold openHandle at hh
  rw [List.find?_eq_none] at hh
  intro i hi hnone
  exact hh i (List.mem_range.2 hi) (by rw [hnone]; rfl)

/-! ### One call -/

theorem Tracked.Represents.of_lt (hs : s.Represents) (hi : i < maxResources) :
    s.held i = s.table i := by
  rw [hs i, if_pos ⟨by omega, by exact_mod_cast hi⟩, Int.toNat_natCast]

/-- What is held is in the table. -/
theorem Tracked.Represents.lt_of_held (hs : s.Represents) (hheld : s.held handle = some resource) :
    0 ≤ handle ∧ handle < maxResources := by
  by_contra hout
  rw [hs handle, if_neg hout] at hheld
  cases hheld

/-- A handle that is not between the bounds is answered. -/
theorem Tracked.Represents.getResource (hs : s.Represents)
    (hbound : handle < maxResources ∨ maxHandles ≤ handle) :
    Resource.getResource s.table handle = some (s.held handle) := by
  have hle : maxResources ≤ maxHandles := by decide
  unfold Resource.getResource slot
  rw [hs handle]
  by_cases hout : handle < 0 ∨ handle ≥ maxHandles
  · rw [if_pos hout, if_neg (by omega)]
  · rw [if_neg hout, if_pos (by omega), if_pos (by omega)]

/-- A handle between the bounds is an access behind the table. -/
theorem getResource_between (hlow : maxResources ≤ handle) (hhigh : handle < maxHandles) :
    getResource table handle = none := by
  have hpos : (0 : ℤ) < maxResources := by decide
  unfold getResource slot
  rw [if_neg (by omega), if_neg (by omega)]

theorem answers_get (hs : s.Represents) :
    s.Answers (.get handle) ↔ s.Closable (.get handle) := by
  constructor
  · intro h
    have hanswer : getResource s.table handle = some (s.held handle) := h
    by_contra hbetween
    unfold Tracked.Closable at hbetween
    rw [not_or, not_lt, not_le] at hbetween
    rw [getResource_between hbetween.1 hbetween.2] at hanswer
    cases hanswer
  · exact fun h => hs.getResource h

/-- `remove_resource` on a handle that is not between the bounds. -/
theorem removeResource_eq (hs : s.Represents)
    (hbound : handle < maxResources ∨ maxHandles ≤ handle) :
    removeResource s.table handle = some (match s.held handle with
      | none => (s.table, false)
      | some resource =>
        if resource.close = none then (s.table, false)
        else (update s.table handle.toNat none, true)) := by
  unfold removeResource
  rw [hs.getResource hbound, Option.map_some]

theorem answers_remove (hs : s.Represents) :
    s.Answers (.remove handle) ↔ s.Closable (.remove handle) := by
  constructor
  · rintro ⟨t, ok, hremove, hok, -, -⟩
    by_cases hbound : handle < maxResources ∨ maxHandles ≤ handle
    · refine ⟨hbound, fun resource hheld hclose => ?_⟩
      rw [removeResource_eq hs hbound, hheld] at hremove
      simp only [if_pos hclose] at hremove
      cases hremove
      exact Bool.false_ne_true (hok.2 (by rw [hheld]; nofun))
    · rw [not_or, not_lt, not_le] at hbound
      unfold removeResource at hremove
      rw [getResource_between hbound.1 hbound.2] at hremove
      cases hremove
  · rintro ⟨hbound, hclose⟩
    have hremove := removeResource_eq hs hbound
    cases hheld : s.held handle with
    | none =>
      rw [hheld] at hremove
      exact ⟨_, _, hremove, by simp [hheld], nofun, fun _ => rfl⟩
    | some resource =>
      rw [hheld] at hremove
      simp only [if_neg (hclose resource hheld)] at hremove
      refine ⟨_, _, hremove, by simp [hheld], fun _ => ?_, nofun⟩
      have hin := hs.lt_of_held hheld
      have hle : maxResources ≤ maxHandles := by decide
      unfold getResource slot
      rw [if_neg (by omega), if_pos (by omega), Function.update_self]

theorem answers_register (hs : s.Represents) : s.Answers (.register resource) := by
  have hpos : 0 < maxResources := by decide
  unfold Tracked.Answers Tracked.Full registerResource
  cases hopen : openHandle s.table with
  | none =>
    have hused := openHandle_eq_none hopen
    simp only
    refine ⟨⟨fun _ h hlow hhigh => ?_, fun _ => trivial⟩, fun _ => trivial,
      fun hne => absurd rfl hne⟩
    rw [hs h, if_pos ⟨hlow, hhigh⟩]
    exact hused h.toNat (by omega)
  | some handle =>
    obtain ⟨hlt, hfree, hbefore⟩ := openHandle_eq_some hopen
    have hheld : s.held handle = none := by rw [hs.of_lt hlt, hfree]
    simp only
    refine ⟨⟨fun h => by omega, fun h => ?_⟩, fun h => by omega, fun _ => ⟨by omega, hheld, ?_⟩⟩
    · exact absurd hheld (h handle (by omega) (by exact_mod_cast hlt))
    · intro h hlow hhigh
      rw [hs h, if_pos ⟨hlow, by omega⟩]
      exact hbefore h.toNat (by omega)

/-- A call keeps the table and the partial map together. -/
theorem represents_step (hs : s.Represents) (ho : s.Closable o) (h : s.step o = some s') :
    s'.Represents := by
  cases o with
  | get handle =>
    obtain ⟨r, -, rfl⟩ := Option.map_eq_some_iff.1 h
    exact hs
  | register resource =>
    obtain rfl := Option.some.inj h
    unfold registerResource
    cases hopen : openHandle s.table with
    | none => exact hs
    | some handle =>
      obtain ⟨hlt, -, -⟩ := openHandle_eq_some hopen
      intro h
      simp only
      rw [if_neg (by omega)]
      by_cases hh : h = handle
      · subst hh
        rw [Function.update_self, if_pos ⟨by omega, by exact_mod_cast hlt⟩, Int.toNat_natCast,
          Function.update_self]
      · rw [Function.update_of_ne hh, hs h]
        split
        · next hin => rw [Function.update_of_ne (by omega)]
        · rfl
  | remove handle =>
    obtain ⟨r, hr, rfl⟩ := Option.map_eq_some_iff.1 h
    rw [removeResource_eq hs ho.1] at hr
    obtain rfl := Option.some.inj hr
    cases hheld : s.held handle with
    | none => exact hs
    | some resource =>
      intro h
      simp only [if_neg (ho.2 resource hheld), if_true]
      by_cases hh : h = handle
      · subst hh
        rw [Function.update_self, Function.update_self, ite_self]
      · rw [Function.update_of_ne hh, hs h]
        split
        · next hin =>
          have hhandle := hs.lt_of_held hheld
          rw [Function.update_of_ne (by omega)]
        · rfl

theorem represents_start : Tracked.start.Represents := by
  intro h
  exact (ite_self _).symm

/-- **The resource table is a partial map from handles** in a run if and only if no call is made
with a handle between `MAX_RESOURCES` and `MAX_HANDLES`, and no resource without a close callback is
to be removed. -/
theorem partial_map_iff (os : List Op) :
    Run.Along Tracked.step Tracked.Answers Tracked.start os ↔
      Run.Along Tracked.step Tracked.Closable Tracked.start os := by
  refine Run.along_iff_of_inv (I := Tracked.Represents) (V := fun _ _ => True) ?_ represents_start
    (Run.along_of_forall fun _ _ => trivial)
  intro s o hs _
  refine ⟨?_, fun ho s' h => represents_step hs ho h⟩
  cases o with
  | register resource => exact ⟨fun _ => trivial, fun _ => answers_register hs⟩
  | remove handle => exact answers_remove hs
  | get handle => exact answers_get hs

/-- What `register_file_resource` registers: a resource that cannot be closed. -/
def fileResource (internalHandle : ℤ) : Resource :=
  ⟨.file, internalHandle, some .readResource, none, none, none⟩

/-- **A file cannot be removed**, and a handle of 5 reads behind the table. -/
theorem file_not_removed :
    ¬ Run.Along Tracked.step Tracked.Answers Tracked.start
      [.register (fileResource 0), .remove 0] ∧
    ¬ Run.Along Tracked.step Tracked.Answers Tracked.start [.get 5] := by
  constructor
  · rintro ⟨-, hrun⟩
    obtain ⟨t, ok, hremove, hok, -, -⟩ := (hrun _ rfl).1
    have hfalse : ok = false := (congrArg Prod.snd (Option.some.inj hremove)).symm
    rw [hfalse] at hok
    exact Bool.false_ne_true (hok.2 (by decide))
  · rintro ⟨hget, -⟩
    have hanswer : getResource Tracked.start.table 5 = some none := hget
    exact absurd hanswer (by decide)

end Resource

end TitanOS
