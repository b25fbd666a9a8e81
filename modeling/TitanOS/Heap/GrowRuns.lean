import TitanOS.Heap.Grow

/-!
# Runs of the heap and the region lists

A run starts behind `kheap_init` with the tables and regions that `vmm_init` sets up.  The objects
that `vmm_init` takes from the heap are requests of the run, and so is `pmm_init`.  `vmm_alloc`
takes a `vm_object` and a `page_table_t` for every table it creates, and `vmm_free` gives the
object back.  What the owner of an allocation does to its payload is a call of its own (`write`).

In such a run a request is served exactly if there is a place for it in the one page that the heap
has from the start (`served_iff_room`): the heap never grows.
-/

namespace TitanOS

open Heap Block Run

/-- The tables are in order, the page of the heap is mapped, and no region starts where it does. -/
structure Kernel.Ready (k : Kernel) : Prop where
  tables : k.Tables (fun r => r = k.cr3) fun _ => False
  mapped : k.Mapped heapStart
  chained : k.Chained k.vmObjects
  unlisted : ∀ c ∈ k.vmObjects, k.regions.base c ≠ heapStart

/-- The machine, the live allocations, and the pointers to the region objects. -/
structure System where
  machine : Machine
  live : List (ℕ × ℕ)
  objects : ℕ → ℕ

/-- The calls of a run. -/
inductive SystemOp
  | kmalloc (n : ℕ)
  | kfree (p : ℕ)
  | write (a : ℕ) (b : UInt8)
  | vmmAlloc (start length flags args : ℕ)
  | vmmFree (start : ℕ)
  | pmmInit (reserved : MmapRegionList) (kernelByteSize : ℕ)

namespace System

/-- The memory managers. -/
def kernel (s : System) : Kernel := s.machine.kernel

/-- The heap. -/
def heap (s : System) : Heap := s.machine.heap

/-- The same heap with other memory managers. -/
def withKernel (s : System) (k : Kernel) : System := { s with machine := ⟨k, s.heap⟩ }

/-- `kmalloc`. -/
def alloc (fuel : ℕ) (s : System) (n : ℕ) : Option (System × ℕ) :=
  (s.machine.kmalloc fuel fuel n).map fun x => (⟨x.1, (x.2, n) :: s.live, s.objects⟩, x.2)

/-- `count` objects of `n` bytes. -/
def allocAll (fuel n : ℕ) : ℕ → System → Option System
  | 0, s => some s
  | count + 1, s => (s.alloc fuel n).bind fun x => allocAll fuel n count x.1

/-- `kfree`. -/
def free (s : System) (p : ℕ) : Option System :=
  if s.kernel.Mapped (p - 5) then
    some ⟨s.machine.withHeap (s.heap.kfree p), s.live.filter (·.1 ≠ p), s.objects⟩
  else none

/-- `vmm_alloc`. -/
def vmmAlloc (fuel : ℕ) (s : System) (start length flags args : ℕ) : Option System := do
  match ← Kernel.findPlace s.kernel.regions s.kernel.currentVmm (pageAlignDown start)
    (pageAlign length) with
  | none => some s
  | some _ =>
    let (s, p) ← s.alloc fuel Machine.vmObjectSize
    let (k, _) ← s.kernel.vmmAlloc fuel start length flags args
    allocAll fuel Machine.pageTableSize (k.map.count - s.kernel.map.count)
      { s.withKernel k with objects := Function.update s.objects s.kernel.regions.count p }

/-- `vmm_free`. -/
def vmmFree (s : System) (start : ℕ) : Option System := do
  let k ← s.kernel.vmmFree start
  if s.kernel.regions.base s.kernel.currentVmm = start then some s
  else
    let c ← s.kernel.freedRegion start
    (s.withKernel k).free (s.objects c)

/-- A byte is written. -/
def setByte (s : System) (a : ℕ) (b : UInt8) : System :=
  let h : Heap := { s.heap with mem := Function.update s.heap.mem a b }
  ⟨s.machine.withHeap h, s.live, s.objects⟩

/-- One call. -/
def step (fuel : ℕ) (s : System) : SystemOp → Option System
  | .kmalloc n => (s.alloc fuel n).map Prod.fst
  | .kfree p => s.free p
  | .write a b => some (s.setByte a b)
  | .vmmAlloc start length flags args => s.vmmAlloc fuel start length flags args
  | .vmmFree start => s.vmmFree start
  | .pmmInit reserved kernelByteSize =>
    (s.kernel.pmmInit fuel reserved kernelByteSize).map s.withKernel

/-- The state after `kheap_init`. -/
def start (k : Kernel) (mem : ℕ → UInt8) : System := ⟨⟨k, kheapInit mem⟩, [], fun _ => 0⟩

/-- There is a sound place for one request after the other. -/
def HasRoom : Heap → List ℕ → Prop
  | _, [] => True
  | h, n :: ns => ∃ p ∈ placement n h.blocks, p.Sound n ∧ HasRoom (h.handOut heapStart n p) ns

/-- The sizes of the objects that a call of `vmm_alloc` takes from the heap. -/
def requests (fuel : ℕ) (k : Kernel) (start length flags args : ℕ) : List ℕ :=
  match Kernel.findPlace k.regions k.currentVmm (pageAlignDown start) (pageAlign length),
    k.vmmAlloc fuel start length flags args with
  | some (some _), some (k', _) =>
    Machine.vmObjectSize :: List.replicate (k'.map.count - k.map.count) Machine.pageTableSize
  | _, _ => []

/-- There is a sound place for every object that a call takes from the heap.  Only live pointers
are freed, and only payloads written.  A request for a region can be backed, and is not for the
page of the heap; a region that is freed is one that `vmm_alloc` made. -/
def Provided (fuel : ℕ) (s : System) : SystemOp → Prop
  | .kmalloc n => HasRoom s.heap [n]
  | .kfree p => p ∈ s.live.map Prod.fst
  | .write a _ => ∃ q ∈ s.live, q.1 ≤ a ∧ a < q.1 + q.2
  | .vmmAlloc start length flags args => 0x1000 ≤ start ∧ pageAlignDown start ≠ heapStart ∧
      Kernel.Backed fuel s.kernel start length flags args ∧
      (∀ u ∈ Kernel.pagesFrom ((pageAlign length + 0xfff) % 2 ^ 64 / 0x1000) (pageAlignDown start),
        page u ≠ page heapStart) ∧
      HasRoom s.heap (requests fuel s.kernel start length flags args)
  | .vmmFree start => ∃ c ∈ s.kernel.freedRegion start, s.objects c ∈ s.live.map Prod.fst
  | .pmmInit _ _ => s.kernel.BeforePmm

/-! ### The memory managers -/

end System

namespace Kernel

variable {k k' : Kernel} {l : List ℕ}

theorem belowWindow_heapStart : BelowWindow heapStart := by
  unfold BelowWindow heapStart
  decide

theorem page_heapStart : page heapStart = page 0xffffff8000200000 := by
  unfold heapStart
  rfl

/-- `vmm_lengthen` leaves the list and the bases as they are. -/
theorem Chained.vmmLengthen {fuel start : ℕ} {inc : ℤ} {b : Bool} (h : k.Chained l)
    (hcall : Kernel.vmmLengthen fuel k start inc = some (k', b)) :
    k'.Chained l ∧ k'.regions.base = k.regions.base ∧ k'.cr3 = k.cr3 := by
  rcases vmmLengthen_cases hcall with ⟨-, hk⟩ | ⟨c, length, -, hpages⟩
  · obtain ⟨rfl, -⟩ := Prod.mk.inj hk
    exact ⟨h, rfl, rfl⟩
  · have hkeep := keeps_lengthenPages fuel fuel hpages
    have hlong : ({ k with regions := { k.regions with
        length := Function.update k.regions.length c length } } : Kernel).Chained l :=
      ⟨h.path, h.lt⟩
    exact ⟨hlong.keeps hkeep, hkeep.base, hkeep.cr3⟩

/-- A request that can be backed. -/
theorem Ready.vmmAlloc {m start length flags args c found : ℕ} (h : k.Ready)
    (hstart : 0x1000 ≤ start) (hne : pageAlignDown start ≠ heapStart)
    (hb : Backed (m + 2) k start length flags args)
    (hfind : findPlace k.regions k.currentVmm (pageAlignDown start) (pageAlign length) =
      some (some (c, found))) :
    ∃ k', Kernel.vmmAlloc (m + 2) k start length flags args = some (k', found) ∧ k'.Ready := by
  obtain ⟨rfl, hc⟩ := h.chained.findPlace (pageAlignDown_ne_zero hstart) hfind
  have hT := h.tables.with_regions (r := insertRegion k.regions c (pageAlignDown start)
    (pageAlign length) flags) (windowTop_insertRegion h.chained.count_pos)
  obtain ⟨k₂, hmap, hT', -, hkept⟩ := mapPages_spec m flags (fun _ _ hp => hp) _ hT (hb c hc)
  refine ⟨k₂, by simp only [Kernel.vmmAlloc, hfind, Option.bind_eq_bind, Option.bind_some, hmap,
    if_true], ?_⟩
  have hkeep := keeps_mapPages _ _ _ hmap
  have hcr3 : k₂.cr3 = k.cr3 := hkeep.cr3
  obtain ⟨l₁, l₂, hl⟩ := List.append_of_mem hc
  have hch := h.chained
  rw [hl] at hch
  have hch' : k₂.Chained (l₁ ++ c :: k.regions.count :: l₂) := hch.insertRegion.keeps hkeep
  refine ⟨?_, hkept heapStart belowWindow_heapStart h.mapped, ?_, fun d hd => ?_⟩
  · rw [hcr3]
    exact hT'
  · rwa [hch'.vmObjects_eq]
  · rw [hkeep.base]
    rw [hch'.vmObjects_eq] at hd
    by_cases hdn : d = k.regions.count
    · rw [hdn, (insertRegion_self k.regions flags).1]
      exact hne
    · have hdl : d ∈ k.vmObjects := by
        rw [hl]
        simp only [List.mem_append, List.mem_cons] at hd ⊢
        tauto
      rw [(h.chained.insertRegion_of_mem hdl).1]
      exact h.unlisted d hdl

theorem Ready.vmmFree {start : ℕ} (h : k.Ready) (hcall : k.vmmFree start = some k') :
    k'.Ready := by
  by_cases hhead : k.regions.base k.currentVmm = start
  · rw [Kernel.vmmFree, if_pos hhead, Option.some.injEq] at hcall
    rwa [← hcall]
  · rcases vmmFree_eq h.chained hhead with ⟨hnone, -⟩ | ⟨l₁, c, d, l₂, hl, -, -, hfree⟩
    · rw [hnone] at hcall
      cases hcall
    · rw [hfree, Option.some.injEq] at hcall
      have hch := h.chained
      rw [hl] at hch
      have hsub : ∀ e ∈ l₁ ++ c :: l₂, e ∈ k.vmObjects := by
        intro e he
        rw [hl]
        simp only [List.mem_append, List.mem_cons] at he ⊢
        tauto
      have hch' : k'.Chained (l₁ ++ c :: l₂) := by
        rw [← hcall]
        exact ⟨hch.path.unlink, fun e he => h.chained.lt e (hsub e he)⟩
      refine ⟨?_, ?_, ?_, fun e he => ?_⟩
      · rw [← hcall]
        exact h.tables.with_regions rfl
      · rw [← hcall]
        exact h.mapped
      · rwa [hch'.vmObjects_eq]
      · rw [hch'.vmObjects_eq] at he
        rw [← hcall]
        exact h.unlisted e (hsub e he)

/-- `pmm_init` maps nothing behind the bitmap. -/
theorem Ready.pmmInit {fuel kernelByteSize : ℕ} {reserved : MmapRegionList} (h : k.Ready)
    (hb : k.BeforePmm) (hfuel : 280 ≤ fuel)
    (hcall : Kernel.pmmInit fuel k reserved kernelByteSize = some k') :
    k'.Ready ∧ ∀ u, page 0xffffff8000200000 ≤ page u →
      translate k'.mem k'.cr3 u = translate k.mem k.cr3 u := by
  unfold Kernel.pmmInit at hcall
  obtain ⟨m, -, hcall⟩ := Option.bind_eq_some_iff.1 hcall
  obtain ⟨m', -, hcall⟩ := Option.bind_eq_some_iff.1 hcall
  obtain ⟨k₁, hk₁, -, -, hT, hkept⟩ := hb.vmmLengthen m' hfuel
  obtain rfl : k₁ = k' := by simpa [hk₁] using hcall
  have hsame : ∀ u, page 0xffffff8000200000 ≤ page u →
      translate k₁.mem k₁.cr3 u = translate k.mem k.cr3 u := by
    intro u hu
    rcases hkept u with hu' | ⟨-, hlt⟩
    · exact hu'
    · omega
  have hchained : ({ k with pmm := m' } : Kernel).Chained k.vmObjects :=
    ⟨h.chained.path, h.chained.lt⟩
  obtain ⟨hch, hbase, hcr3⟩ := hchained.vmmLengthen hk₁
  have hcr3' : k₁.cr3 = k.cr3 := hcr3
  refine ⟨⟨?_, ?_, ?_, fun c hc => ?_⟩, hsame⟩
  · rw [hcr3']
    exact hT
  · have hkept := hsame heapStart page_heapStart.ge
    rw [Mapped, hkept]
    exact h.mapped
  · rwa [hch.vmObjects_eq]
  · rw [hch.vmObjects_eq] at hc
    rw [hbase]
    exact h.unlisted c hc

end Kernel

namespace System

variable {s s' : System} {bs : List Block} {fuel n : ℕ}

/-- The invariant: the memory managers are ready, and the live allocations are backed. -/
structure Intact (s : System) (bs : List Block) : Prop where
  ready : s.kernel.Ready
  backed : Live.Backed ⟨s.heap, s.live⟩ bs

theorem Intact.onePage (h : s.Intact bs) : s.machine.OnePage bs :=
  ⟨h.backed.tiles, h.backed.heapEnd, h.ready.mapped, h.ready.chained, h.ready.unlisted⟩

theorem Intact.blocks_eq (h : s.Intact bs) : s.heap.blocks = bs :=
  h.backed.tiles.blocks_eq h.backed.ne_nil

theorem fits_of_sound {p : Placement} (h : p.Sound n) : Machine.Fits n p := by
  intro hn hfive
  rw [Placement.Sound, if_pos hn] at h
  omega

/-- A request for which there is a sound place. -/
theorem Intact.alloc {p : Placement} (h : s.Intact bs) (hfuel : 0x1000 ≤ fuel)
    (hp : p ∈ placement n s.heap.blocks) (hsound : p.Sound n) :
    ∃ s' q bs', s.alloc fuel n = some (s', q) ∧ s'.Intact bs' ∧ s'.kernel = s.kernel ∧
      s'.heap = s.heap.handOut heapStart n p ∧ s'.live = (q, n) :: s.live ∧
      s'.objects = s.objects := by
  rw [h.blocks_eq, Option.mem_def] at hp
  obtain ⟨bs', hb⟩ := h.backed.handOut hp hsound
  obtain ⟨depth, rfl⟩ : ∃ d, fuel = d + 1 := ⟨fuel - 1, by omega⟩
  have hcall := h.onePage.kmalloc_eq_bind (n := n) (fun hnone => by rw [hp] at hnone; cases hnone)
    hfuel depth
  rw [hp, Option.bind_some, h.onePage.handOut_eq hp (Or.inl (fits_of_sound hsound)),
    if_pos (fits_of_sound hsound)] at hcall
  exact ⟨⟨s.machine.withHeap (s.heap.handOut heapStart n p),
    (heapStart + p.offset + 5, n) :: s.live, s.objects⟩, heapStart + p.offset + 5, bs',
    by rw [System.alloc, hcall]; rfl, ⟨h.ready, hb⟩, rfl, rfl, rfl, rfl⟩

/-- Several requests of the same size. -/
theorem Intact.allocAll {count : ℕ} (h : s.Intact bs) (hfuel : 0x1000 ≤ fuel)
    (hroom : HasRoom s.heap (List.replicate count n)) :
    ∃ s' bs', s.allocAll fuel n count = some s' ∧ s'.Intact bs' := by
  induction count generalizing s bs with
  | zero => exact ⟨s, bs, rfl, h⟩
  | succ count ih =>
    rw [List.replicate_succ] at hroom
    obtain ⟨p, hp, hsound, hrest⟩ := hroom
    obtain ⟨s₁, q, bs₁, hs₁, hI, -, hheap, -⟩ := h.alloc hfuel hp hsound
    rw [← hheap] at hrest
    obtain ⟨s', bs', hs', hI'⟩ := ih hI hrest
    exact ⟨s', bs', by rw [System.allocAll, hs₁, Option.bind_some, hs'], hI'⟩

theorem Intact.free {p : ℕ} (h : s.Intact bs) (hp : p ∈ s.live.map Prod.fst)
    (hcall : s.free p = some s') : ∃ bs', s'.Intact bs' := by
  rw [System.free, Option.ite_none_right_eq_some] at hcall
  obtain ⟨-, hs'⟩ := hcall
  obtain rfl := Option.some.inj hs'
  obtain ⟨bs', hb⟩ := @Live.backed_kfree (fun _ => false) 0 _ _ _ _ h.backed hp rfl
  exact ⟨bs', h.ready, hb⟩

/-- A byte of a payload belongs to no header. -/
theorem Intact.setByte {a : ℕ} {b : UInt8} (h : s.Intact bs)
    (ha : ∃ q ∈ s.live, q.1 ≤ a ∧ a < q.1 + q.2) : (s.setByte a b).Intact bs := by
  obtain ⟨q, hq, hlo, hhi⟩ := ha
  obtain ⟨i, c, hqi, hc, -, hqc⟩ := h.backed.backed q hq
  obtain ⟨l₁, l₂, rfl, rfl⟩ := exists_of_blockAt hc
  refine ⟨h.ready, ⟨?_, h.backed.heapEnd, h.backed.distinct, h.backed.backed⟩⟩
  have ht := h.backed.tiles
  have hkeep : ∀ x, x ≠ a → (s.setByte a b).heap.mem x = s.heap.mem x :=
    fun x hx => Function.update_of_ne hx _ _
  have hhead : ∀ x, x < heapStart + span l₁ + 5 → (s.setByte a b).heap.mem x = s.heap.mem x :=
    fun x hx => hkeep x (by omega)
  rw [tiles_append] at ht
  obtain ⟨-, hu, hs, -⟩ := ht
  refine @Tiles.replace _ _ _ _ l₁ l₂ [c] [c] h.backed.tiles ⟨?_, ?_, rfl⟩ fun x hx => hkeep x ?_
  · rw [← hu, Heap.used, Heap.used, hhead _ (by omega)]
  · rw [← hs, Heap.size, Heap.size, hhead _ (by omega), hhead _ (by omega), hhead _ (by omega),
      hhead _ (by omega)]
  · simp only [span_cons, span_nil] at hx
    omega

theorem Intact.vmmAlloc {start length flags args : ℕ} (h : s.Intact bs) (hfuel : 0x1000 ≤ fuel)
    (ho : s.Provided fuel (.vmmAlloc start length flags args))
    (hcall : s.vmmAlloc fuel start length flags args = some s') : ∃ bs', s'.Intact bs' := by
  obtain ⟨hstart, hne, hb, -, hroom⟩ := ho
  obtain ⟨m, rfl⟩ : ∃ i, fuel = i + 2 := ⟨fuel - 2, by omega⟩
  rw [System.vmmAlloc] at hcall
  obtain ⟨y, hy, hcall⟩ := Option.bind_eq_some_iff.1 hcall
  cases y with
  | none =>
    obtain rfl := Option.some.inj hcall
    exact ⟨bs, h⟩
  | some y =>
    obtain ⟨⟨s₁, q⟩, hs₁, hcall⟩ := Option.bind_eq_some_iff.1 hcall
    obtain ⟨⟨k, found⟩, hk, hcall⟩ := Option.bind_eq_some_iff.1 hcall
    obtain ⟨k', hk', hready⟩ := h.ready.vmmAlloc hstart hne hb hy
    simp only [requests, hy, hk'] at hroom
    obtain ⟨p, hp, hsound, hrest⟩ := hroom
    obtain ⟨s₂, q', bs₂, hs₂, hI, hkernel, hheap, -⟩ := h.alloc hfuel hp hsound
    obtain ⟨rfl, rfl⟩ := Prod.mk.inj (Option.some.inj (hs₂.symm.trans hs₁))
    simp only at hk hcall
    rw [hkernel] at hk hcall
    obtain ⟨rfl, -⟩ := Prod.mk.inj (Option.some.inj (hk'.symm.trans hk))
    have hI' : Intact { s₂.withKernel k' with
        objects := Function.update s₂.objects s.kernel.regions.count q' } bs₂ :=
      ⟨hready, hI.backed⟩
    rw [← hheap] at hrest
    obtain ⟨s₃, bs₃, hs₃, hI₃⟩ := hI'.allocAll hfuel hrest
    obtain rfl := Option.some.inj (hs₃.symm.trans hcall)
    exact ⟨bs₃, hI₃⟩

theorem Intact.vmmFree {start : ℕ} (h : s.Intact bs) (ho : s.Provided fuel (.vmmFree start))
    (hcall : s.vmmFree start = some s') : ∃ bs', s'.Intact bs' := by
  obtain ⟨c, hc, hlive⟩ := ho
  rw [System.vmmFree] at hcall
  obtain ⟨k, hk, hcall⟩ := Option.bind_eq_some_iff.1 hcall
  split at hcall
  next =>
    obtain rfl := Option.some.inj hcall
    exact ⟨bs, h⟩
  next =>
    rw [show s.kernel.freedRegion start = some c from hc] at hcall
    have hI : (s.withKernel k).Intact bs := ⟨h.ready.vmmFree hk, h.backed⟩
    exact hI.free hlive hcall

/-- **One call** keeps the invariant. -/
theorem Intact.step {o : SystemOp} (h : s.Intact bs) (hfuel : 0x1000 ≤ fuel)
    (ho : s.Provided fuel o) (hcall : s.step fuel o = some s') : ∃ bs', s'.Intact bs' := by
  cases o with
  | kmalloc n =>
    obtain ⟨p, hp, hsound, -⟩ := ho
    obtain ⟨s₁, q, bs₁, hs₁, hI, -⟩ := h.alloc hfuel hp hsound
    rw [System.step, hs₁] at hcall
    obtain rfl := Option.some.inj hcall
    exact ⟨bs₁, hI⟩
  | kfree p => exact h.free ho hcall
  | write a b =>
    obtain rfl := Option.some.inj hcall
    exact ⟨bs, h.setByte ho⟩
  | vmmAlloc start length flags args => exact h.vmmAlloc hfuel ho hcall
  | vmmFree start => exact h.vmmFree ho hcall
  | pmmInit reserved kernelByteSize =>
    obtain ⟨k, hk, rfl⟩ := Option.map_eq_some_iff.1 hcall
    exact ⟨bs, (h.ready.pmmInit ho (by omega) hk).1, h.backed⟩

theorem intact_start {k : Kernel} (h : k.Ready) (mem : ℕ → UInt8) :
    (start k mem).Intact [⟨false, 0x1000 - 5⟩] := ⟨h, Live.backed_start mem⟩

/-- **The heap never grows.**  In every state of a run whose calls are provided for, a request is
served if and only if there is a place for it among the blocks that are there, whatever physical
memory is left and however much room there is behind the heap. -/
theorem served_iff_room (fuel : ℕ) (k : Kernel) (mem : ℕ → UInt8) (ops : List SystemOp)
    (hfuel : 0x1000 ≤ fuel) (h : k.Ready) (hops : Along (step fuel) (Provided fuel) (start k mem) ops) :
    Always (step fuel) (fun s => ∀ n, 1 ≤ n → n ≤ 0xffb → s.kernel.pmm.firstFree ≠ none →
      ¬ s.kernel.Mapped s.heap.heapEnd →
      (s.machine.Serves fuel n ↔ ∃ p ∈ placement n s.heap.blocks, Machine.Fits n p))
      (start k mem) ops := by
  refine Always.of_inv (I := fun s => ∃ bs, s.Intact bs) ?_ ?_ ⟨_, intact_start h mem⟩ hops
  · rintro s ⟨bs, hs⟩ n - - - hnext
    rw [hs.blocks_eq]
    exact hs.onePage.serves_iff hnext hfuel n
  · rintro s o s' ⟨bs, hs⟩ ho hcall
    exact hs.step hfuel ho hcall

/-- With anything live there is no place for a request of the size of the page. -/
theorem Intact.placement_page (h : s.Intact bs) (hlive : s.live ≠ []) :
    placement 0xffb bs = none := by
  obtain ⟨q, hq⟩ := List.exists_mem_of_ne_nil _ hlive
  obtain ⟨i, c, -, hc, hu, -⟩ := h.backed.backed q hq
  have hspan := h.onePage.span_eq
  cases hp : placement 0xffb bs with
  | none => rfl
  | some p =>
    obtain ⟨l₁, b, m, l₂, rfl, hfree, rfl, hn, -⟩ := placement_spec hp
    simp only [span_append, span_cons] at hspan hn
    -- nothing is left for a used block
    have hout := blockAt_outside hfree hc hu
    have hin := add_le_span hc
    simp only [span_append, span_cons] at hout hin
    omega

/-- What `vmm_init` takes from the heap: the buckets, a `page_table_t` for each of the eight
tables, and `current_vmm`. -/
def vmmInitRequests : List ℕ := 160 :: (List.replicate 8 Machine.pageTableSize ++ [48])

instance : ∀ h ns, Decidable (HasRoom h ns)
  | _, [] => .isTrue trivial
  | h, n :: ns =>
    match hp : placement n h.blocks with
    | none => .isFalse (by rintro ⟨p, hmem, -⟩; rw [hp] at hmem; cases hmem)
    | some p =>
      have := instDecidableHasRoom (h.handOut heapStart n p) ns
      decidable_of_iff (p.Sound n ∧ HasRoom (h.handOut heapStart n p) ns)
        ⟨fun hr => ⟨p, hp, hr⟩, fun ⟨p', hmem, hr⟩ =>
          Option.some.inj (hp.symm.trans hmem) ▸ hr⟩

/-- Requests that are provided for. -/
theorem Intact.kmallocs {ns : List ℕ} (h : s.Intact bs) (hfuel : 0x1000 ≤ fuel)
    (hroom : HasRoom s.heap ns) :
    Along (System.step fuel) (Provided fuel) s (ns.map SystemOp.kmalloc) ∧
      ∃ s' bs', (ns.map SystemOp.kmalloc).foldlM (System.step fuel) s = some s' ∧ s'.Intact bs' ∧
        s'.kernel = s.kernel ∧ s'.live.length = s.live.length + ns.length := by
  induction ns generalizing s bs with
  | nil => exact ⟨trivial, s, bs, rfl, h, rfl, rfl⟩
  | cons n ns ih =>
    obtain ⟨p, hp, hsound, hrest⟩ := hroom
    obtain ⟨s₁, q, bs₁, hs₁, hI, hkernel, hheap, hlive, -⟩ := h.alloc hfuel hp hsound
    rw [← hheap] at hrest
    have hstep : s.step fuel (.kmalloc n) = some s₁ := by rw [System.step, hs₁]; rfl
    obtain ⟨halong, s', bs', hs', hI', hkernel', hlive'⟩ := ih hI hrest
    refine ⟨⟨⟨p, hp, hsound, trivial⟩, fun s₂ hs₂ => ?_⟩, s', bs', ?_, hI', hkernel'.trans hkernel,
      ?_⟩
    · obtain rfl := Option.some.inj (hstep.symm.trans hs₂)
      exact halong
    · rw [List.map_cons, List.foldlM_cons, hstep]
      exact hs'
    · rw [hlive', hlive, List.length_cons, List.length_cons]
      omega

theorem boot_ready : boot.Ready where
  tables := Kernel.boot_tables (fun _ => Iff.rfl) _
  mapped := by decide +kernel
  chained := Kernel.boot_separate.toChained
  unlisted := by decide +kernel

/-- The requests of `vmm_init`, and then `pmm_init`. -/
theorem served_iff_room_boot :
    Always (step 0x10000) (fun s => ∀ n, 1 ≤ n → n ≤ 0xffb → s.kernel.pmm.firstFree ≠ none →
      ¬ s.kernel.Mapped s.heap.heapEnd →
      (s.machine.Serves 0x10000 n ↔ ∃ p ∈ placement n s.heap.blocks, Machine.Fits n p))
      (start boot fun _ => 0)
      (vmmInitRequests.map .kmalloc ++ [.pmmInit Kernel.reservedPage 0x1f000]) := by
  refine served_iff_room 0x10000 boot (fun _ => 0) _ (by decide) boot_ready ?_
  obtain ⟨halong, s, bs, hs, -, hkernel, -⟩ := @Intact.kmallocs _ _ 0x10000 vmmInitRequests
    (intact_start boot_ready fun _ => 0) (by decide) (by decide +kernel)
  refine along_append halong hs ⟨?_, fun _ _ => trivial⟩
  show s.kernel.BeforePmm
  rw [hkernel]
  exact Kernel.boot_beforePmm

/-- After the boot sequence, the largest request is not served. -/
theorem heap_page_exhausted :
    ¬ Always (step 0x10000) (fun s => ∀ n, 1 ≤ n → n ≤ 0xffb → s.kernel.pmm.firstFree ≠ none →
      ¬ s.kernel.Mapped s.heap.heapEnd → s.machine.Serves 0x10000 n)
      (start boot fun _ => 0)
      (vmmInitRequests.map .kmalloc ++ [.pmmInit Kernel.reservedPage 0x1f000]) := by
  intro hall
  obtain ⟨-, s, bs, hs, hI, hkernel, hlive⟩ := @Intact.kmallocs _ _ 0x10000 vmmInitRequests
    (intact_start boot_ready fun _ => 0) (by decide) (by decide +kernel)
  rcases @Kernel.pmmInit_spec boot Kernel.reservedPage 0x1f000 0x10000 Kernel.boot_beforePmm le_rfl
    with ⟨-, -, k', hk', hrows, htaken⟩ | ⟨hnot, -⟩
  · have hbefore : s.kernel.BeforePmm := by
      rw [hkernel]
      exact Kernel.boot_beforePmm
    have hk : s.kernel.pmmInit 0x10000 Kernel.reservedPage 0x1f000 = some k' := by
      rw [hkernel]
      exact hk'
    obtain ⟨hready, hsame⟩ := hI.ready.pmmInit hbefore (by decide) hk
    have hserve := (hall.append hs).2 (s.withKernel k') (by rw [System.step, hk]; rfl)
    have hI' : (s.withKernel k').Intact bs := ⟨hready, hI.backed⟩
    have hnext : ¬ (s.withKernel k').kernel.Mapped (s.withKernel k').heap.heapEnd := by
      have hpage : page (heapStart + 0x1000) = page 0xffffff8000201000 := by
        unfold heapStart
        rfl
      have hboot : translate boot.mem boot.cr3 0xffffff8000201000 = none := by decide +kernel
      rw [hI'.backed.heapEnd, Machine.mapped_congr hpage]
      show ¬ k'.Mapped _
      rw [Kernel.Mapped, hsame _ (by decide), hkernel]
      exact not_not.2 hboot
    have hfree : (s.withKernel k').kernel.pmm.firstFree ≠ none := by
      intro hnone
      have htrue := Pmm.firstFree_eq_none.1 hnone 311 (by
        show 311 < 32 * k'.pmm.rows
        rw [hrows]
        decide)
      exact Kernel.not_covered_boot ((htaken 311 (by decide)).1 htrue)
    have hlive' : s.live ≠ [] := by
      rintro hnil
      rw [hnil] at hlive
      simp [vmmInitRequests, start] at hlive
    obtain ⟨p, hp, -⟩ := (hI'.onePage.serves_iff hnext (by decide) 0xffb).1
      (hserve 0xffb (by decide) le_rfl hfree hnext)
    rw [hI'.placement_page hlive'] at hp
    cases hp
  · exact absurd ⟨Kernel.scanned_reservedPage, by decide⟩ hnot

end System

end TitanOS
