import TitanOS.Vmm.Mapping

/-!
# What happens during a call

The functions of the virtual memory manager answer with the state they leave behind, or with
nothing if they fault.  What they did on the way is listed here: the pages that `pmm_alloc_page`
found or did not find, the entries that were written, and the pages that `mmap` mapped, with their
flags.  The events of a call are read off its run, state by state, also if the run ends in a fault.
-/

namespace TitanOS

open Linked Walk

/-- What can happen during a call. -/
inductive Event
  /-- `pmm_alloc_page` finds the free slot, or none. -/
  | frame (slot : Option ℕ)
  /-- An entry of a table is set. -/
  | write (e : ℕ)
  /-- `mmap` maps the page at `v`. -/
  | map (v flags : ℕ)
  deriving DecidableEq, Repr

/-- The pages that are mapped, with their flags. -/
def Event.maps (events : List Event) : List (ℕ × ℕ) :=
  events.filterMap fun
    | .map v flags => some (v, flags)
    | _ => none

namespace Kernel

/-- The events of `alloc_pg_table`; `mmapEvents` are those of the function it calls back. -/
def allocPgTableEvents (mmapEvents : Kernel → ℕ → ℕ → ℕ → ℕ → List Event) (k : Kernel) :
    List Event :=
  match k.map.getFreedPgTbl with
  | some _ => []
  | none =>
    let (pmm, paddr) := k.pmm.pmmAllocPage
    .frame k.pmm.firstFree :: if paddr = 0 then [] else
      let k := k.newTable pmm paddr
      mmapEvents k k.currentPml4tPtr paddr k.windowTop 0

/-- The events of the loop of `mmap`. -/
def descendEvents (alloc : Kernel → Option (Kernel × ℕ)) (allocEvents : Kernel → List Event)
    (v : ℕ) : List ℕ → Kernel → ℕ → List Event
  | [], _, _ => []
  | l :: ls, k, pt =>
    let offset := pt + 8 * (getIndex v l).val
    match k.load offset with
    | none => []
    | some e =>
      if e % 2 = 1 then
        match k.map.getPtblVaddr (pageAlignDown e) with
        | none => []
        | some w => if w = 0 then [] else descendEvents alloc allocEvents v ls k w
      else allocEvents k ++
        match alloc k with
        | none => []
        | some (k, t) =>
          match k.store offset (t ||| 7) with
          | none => []
          | some k => .write (t ||| 7) ::
            match k.map.getPtblVaddr t with
            | none => []
            | some w => descendEvents alloc allocEvents v ls k w

/-- The events of `mmap`. -/
def mmapEvents : ℕ → Kernel → ℕ → ℕ → ℕ → ℕ → List Event
  | 0, _, _, _, _, _ => []
  | n + 1, k, root, paddr, v, flags =>
    descendEvents (allocPgTable (mmap n)) (allocPgTableEvents (mmapEvents n)) v [3, 2, 1] k root ++
      match descend (allocPgTable (mmap n)) v [3, 2, 1] k root with
      | some (k, some pt) =>
        match k.store (pt + 8 * (getIndex v 0).val) (paddr ||| flags ||| 7) with
        | some _ => [.write (paddr ||| flags ||| 7), .map v flags]
        | none => []
      | _ => []

/-- The events of the loop of `vmm_alloc`. -/
def mapPagesEvents (fuel flags : ℕ) : ℕ → Kernel → ℕ → ℕ → List Event
  | 0, _, _, _ => []
  | n + 1, k, v, args =>
    let (k₁, paddr) := k.takeFrame args
    (if args ≠ 0 then [] else [.frame k.pmm.firstFree]) ++
      mmapEvents fuel k₁ k₁.currentPml4tPtr paddr v flags ++
      match mmap fuel k₁ k₁.currentPml4tPtr paddr v flags with
      | some (k, true) => mapPagesEvents fuel flags n k ((v + 0x1000) % 2 ^ 64)
        (if args ≠ 0 then (args + 0x1000) % 2 ^ 64 else 0)
      | _ => []

/-- The events of `vmm_alloc`. -/
def vmmAllocEvents (fuel : ℕ) (k : Kernel) (start length flags args : ℕ) : List Event :=
  let length := pageAlign length
  match findPlace k.regions k.currentVmm (pageAlignDown start) length with
  | some (some (c, found)) =>
    mapPagesEvents fuel flags ((length + 0xfff) % 2 ^ 64 / 0x1000)
      { k with regions := insertRegion k.regions c found length flags } found (pageAlignDown args)
  | _ => []

/-- The events of the loop of `vmm_lengthen`. -/
def lengthenPagesEvents (fuel : ℕ) : ℕ → Kernel → ℕ → ℕ → List Event
  | 0, _, _, _ => []
  | n + 1, k, c, v =>
    if v < (k.regions.base c + k.regions.length c) % 2 ^ 64 then
      if isMmio (k.regions.flags c) then []
      else
        let (k₁, paddr) := k.takeFrame 0
        .frame k.pmm.firstFree ::
          (mmapEvents fuel k₁ k₁.currentPml4tPtr paddr v (k₁.regions.flags c) ++
            match mmap fuel k₁ k₁.currentPml4tPtr paddr v (k₁.regions.flags c) with
            | some (k, true) => lengthenPagesEvents fuel n k c ((v + 0x1000) % 2 ^ 64)
            | _ => [])
    else []

/-- The object that `vmm_lengthen` extends, if there is one and there is room behind it, and its
new length. -/
def lengthened (k : Kernel) (start : ℕ) (inc : ℤ) : Option (ℕ × ℕ) :=
  let r := k.regions
  match search r.next (fun c => r.base c == start) (r.count + 1) (some k.currentVmm) with
  | some (some c) =>
    let room := match r.next c with
      | some d => decide (((r.base c + r.length c + pageAlignInt inc) % 2 ^ 64).toNat ≤ r.base d)
      | none => true
    if room then some (c, ((r.length c + pageAlignInt inc) % 2 ^ 64).toNat) else none
  | _ => none

/-- The events of `vmm_lengthen`. -/
def vmmLengthenEvents (fuel : ℕ) (k : Kernel) (start : ℕ) (inc : ℤ) : List Event :=
  match k.lengthened start inc with
  | some (c, length) =>
    lengthenPagesEvents fuel fuel
      { k with regions := { k.regions with length := Function.update k.regions.length c length } } c
      ((k.regions.base c + k.regions.length c) % 2 ^ 64)
  | none => []

/-! ### Calls that map pages -/

/-- The calls that map pages into the current space. -/
inductive MapOp
  | mmap (paddr v flags : ℕ)
  | vmmAlloc (start length flags args : ℕ)
  | vmmLengthen (start : ℕ) (inc : ℤ)
  | allocPgTable

/-- The state after a call, and whether it reports success. -/
def MapOp.call (fuel : ℕ) (k : Kernel) : MapOp → Option (Kernel × Bool)
  | .mmap paddr v flags => Kernel.mmap fuel k k.currentPml4tPtr paddr v flags
  | .vmmAlloc start length flags args =>
    (Kernel.vmmAlloc fuel k start length flags args).map fun x => (x.1, x.2 != 0)
  | .vmmLengthen start inc => Kernel.vmmLengthen fuel k start inc
  | .allocPgTable => (k.allocPgTable (Kernel.mmap fuel)).map fun x => (x.1, x.2 != 0)

/-- The events of a call. -/
def MapOp.events (fuel : ℕ) (k : Kernel) : MapOp → List Event
  | .mmap paddr v flags => mmapEvents fuel k k.currentPml4tPtr paddr v flags
  | .vmmAlloc start length flags args => vmmAllocEvents fuel k start length flags args
  | .vmmLengthen start inc => vmmLengthenEvents fuel k start inc
  | .allocPgTable => allocPgTableEvents (mmapEvents fuel) k

/-- One call, with the pages mapped so far and their flags. -/
def MapOp.step (fuel : ℕ) (x : Kernel × List (ℕ × ℕ)) (o : MapOp) :
    Option (Kernel × List (ℕ × ℕ)) :=
  (o.call fuel x.1).map fun y => (y.1, x.2 ++ Event.maps (o.events fuel x.1))

variable {k : Kernel} {R : ℕ → Prop} {r t t' pt v : ℕ} {q : List (Fin 512)} {ls : List ℕ}

/-- `vmm_alloc` turns the request down, or inserts a region and maps its pages. -/
theorem vmmAlloc_cases {fuel start length flags args : ℕ} {x : Kernel × ℕ}
    (h : vmmAlloc fuel k start length flags args = some x) :
    (findPlace k.regions k.currentVmm (pageAlignDown start) (pageAlign length) = some none ∧
        x = (k, 0)) ∨
      ∃ c found k' ok, findPlace k.regions k.currentVmm (pageAlignDown start) (pageAlign length) =
          some (some (c, found)) ∧
        mapPages fuel flags ((pageAlign length + 0xfff) % 2 ^ 64 / 0x1000)
          { k with regions := insertRegion k.regions c found (pageAlign length) flags } found
          (pageAlignDown args) = some (k', ok) ∧ x = (k', if ok then found else 0) := by
  unfold vmmAlloc at h
  obtain ⟨y, hy, h⟩ := Option.bind_eq_some_iff.1 h
  cases y with
  | none => exact Or.inl ⟨hy, (Option.some.inj h).symm⟩
  | some y =>
    obtain ⟨⟨k', ok⟩, hmap, h⟩ := Option.bind_eq_some_iff.1 h
    exact Or.inr ⟨y.1, y.2, k', ok, hy, hmap, (Option.some.inj h).symm⟩

/-- `vmm_lengthen` fails, or maps the new pages of a region. -/
theorem vmmLengthen_cases {fuel start : ℕ} {inc : ℤ} {x : Kernel × Bool}
    (h : vmmLengthen fuel k start inc = some x) :
    (k.lengthened start inc = none ∧ x = (k, false)) ∨
      ∃ c length, k.lengthened start inc = some (c, length) ∧
        lengthenPages fuel fuel { k with regions := { k.regions with
          length := Function.update k.regions.length c length } } c
          ((k.regions.base c + k.regions.length c) % 2 ^ 64) = some x := by
  unfold vmmLengthen at h
  obtain ⟨y, hy, h⟩ := Option.bind_eq_some_iff.1 h
  simp only [lengthened, hy]
  cases y with
  | none => exact Or.inl ⟨rfl, (Option.some.inj h).symm⟩
  | some c =>
    cases hn : k.regions.next c with
    | none =>
      simp only [hn, if_true] at h ⊢
      exact Or.inr ⟨c, _, rfl, h⟩
    | some d =>
      simp only [hn, decide_eq_true_eq] at h ⊢
      split at h
      next hroom => exact Or.inr ⟨c, _, if_pos hroom, h⟩
      next hroom => exact Or.inl ⟨if_neg hroom, (Option.some.inj h).symm⟩

/-- Nothing happens on the way through tables that are there. -/
theorem descendEvents_present (alloc : Kernel → Option (Kernel × ℕ))
    (allocEvents : Kernel → List Event) (ha : k.Registered R) (hr : R r)
    (hq : follow (entry k.mem) r q = some t) (hlen : q.length + ls.length ≤ 3)
    (hpt : k.Accesses pt t) (ht : follow (entry k.mem) t (ls.map (getIndex v)) = some t') :
    descendEvents alloc allocEvents v ls k pt = [] := by
  induction ls generalizing q t pt with
  | nil => rfl
  | cons l ls ih =>
    rw [List.map_cons, follow_cons] at ht
    obtain ⟨t₁, ht₁, ht⟩ := Option.bind_eq_some_iff.1 ht
    simp only [List.length_cons] at hlen
    have hq₁ : follow (entry k.mem) r (q ++ [getIndex v l]) = some t₁ := by
      rw [follow_snoc_of_eq hq, ht₁]
    obtain ⟨w, hw, hw0, hacc⟩ := ha t₁ ⟨r, _, hr, by simp; omega, hq₁⟩
    obtain ⟨hodd, hdown⟩ := entry_eq_some.1 ht₁
    simp only [descendEvents, hpt.load, hodd, if_true, hdown, hw, hw0, if_false]
    exact ih hq₁ (by simp; omega) hacc ht

/-- `mmap` where no table is missing. -/
theorem mmapEvents_present {root : ℕ} (n paddr flags : ℕ) (ha : k.Registered R) (hr : R r)
    (hroot : k.Accesses root r) (ht : follow (entry k.mem) r (tableIndices v) = some t) :
    mmapEvents (n + 1) k root paddr v flags =
      [.write (paddr ||| flags ||| 7), .map v flags] := by
  obtain ⟨pt', hdesc, hpt'⟩ := @descend_present k R r r t root v [] [3, 2, 1]
    (allocPgTable (mmap n)) ha hr rfl (by simp) hroot ht
  have hway := @descendEvents_present k R r r t root v [] [3, 2, 1] (allocPgTable (mmap n))
    (allocPgTableEvents (mmapEvents n)) ha hr rfl (by simp) hroot ht
  rw [mmapEvents, hway]
  simp only [hdesc, hpt'.store, List.nil_append]

end Kernel

end TitanOS
