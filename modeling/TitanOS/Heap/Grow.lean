import TitanOS.Heap.Live
import TitanOS.Vmm.PmmInit
import TitanOS.Vmm.Shared

/-!
# The heap on the machine

Here `kmalloc` runs against the virtual memory manager.  `get_more_pages` calls `vmm_lengthen`,
and touching a header that is not mapped is a page fault, which is again answered by `none`.  The
objects of the memory managers come from the same heap: `vmm_lengthen` takes a `page_table_t` for
every table it creates, so that `kmalloc` and `get_more_pages` call each other.  These objects are
taken when `vmm_lengthen` has returned.

The bytes of the heap are kept apart from the page tables: its frame is taken to be used for
nothing else.

`vmm_lengthen` is called for the region that starts at `KERNEL_HEAP_START`, and no list has such a
region.  So the call fails, its answer is ignored, and the next header is read behind the last
page of the heap.  `kmalloc_eq_bind` says what that amounts to: `kmalloc` hands out the placement
found among the blocks, if there is one and the header behind it is mapped, and faults otherwise.
-/

namespace TitanOS

open Heap Block

/-- The memory managers and the heap. -/
structure Machine where
  kernel : Kernel
  heap : Heap

/-- The byte at virtual address `a` is mapped. -/
def Kernel.Mapped (k : Kernel) (a : ℕ) : Prop := translate k.mem k.cr3 a ≠ none

instance (k : Kernel) (a : ℕ) : Decidable (k.Mapped a) := inferInstanceAs (Decidable (¬ _ = none))

namespace Machine

/-- The five bytes of the header at `a` are mapped. -/
def Header (m : Machine) (a : ℕ) : Prop := m.kernel.Mapped a ∧ m.kernel.Mapped (a + 4)

instance (m : Machine) (a : ℕ) : Decidable (m.Header a) := inferInstanceAs (Decidable (_ ∧ _))

/-- The same memory managers with another heap. -/
def withHeap (m : Machine) (h : Heap) : Machine := { m with heap := h }

@[simp] theorem withHeap_kernel (m : Machine) (h : Heap) : (m.withHeap h).kernel = m.kernel := rfl
@[simp] theorem withHeap_heap (m : Machine) (h : Heap) : (m.withHeap h).heap = h := rfl

/-- `split` writes the header behind the block. -/
def split (m : Machine) (a size total : ℕ) : Option Machine :=
  if m.Header (((m.heap.setUsed a true).setSize a size).goToNextMemoryRegion a) then
    some (m.withHeap (m.heap.split a size total))
  else none

/-- Case 2 of `kmalloc`. -/
def takeBlock (m : Machine) (a size : ℕ) : Option Machine :=
  if size < (((m.heap.size a : ℤ) - 5) % 2 ^ 64).toNat then m.split a size (m.heap.size a)
  else some (m.withHeap (m.heap.setUsed a true))

/-- The end of case 3. -/
def takeMerged (m : Machine) (a size total : ℕ) : Option Machine :=
  if size < (((total : ℤ) - 5) % 2 ^ 32).toNat then m.split a size total
  else some (m.withHeap (m.heap.setUsed a true))

/-- `if (a >= heap_end) get_more_pages(pages)`; `more` is `get_more_pages`. -/
def growAt (more : Machine → ℤ → Option Machine) (m : Machine) (a : ℕ) (pages : ℤ) :
    Option Machine :=
  if m.heap.heapEnd ≤ a then more m pages else some m

/-- The inner loop of case 3. -/
def mergeLoop (more : Machine → ℤ → Option Machine) (curr size : ℕ) :
    ℕ → Machine → ℕ → ℕ → Option (Machine × (ℕ ⊕ ℕ))
  | 0, _, _, _ => none
  | n + 1, m, nxt, total =>
    if m.Header nxt then
      if m.heap.used nxt then some (m, .inr nxt)
      else
        let total := (total + m.heap.size nxt + 5) % 2 ^ 32
        if size ≤ total then (m.takeMerged curr size total).map fun m => (m, .inl (curr + 5))
        else
          let nxt := m.heap.goToNextMemoryRegion nxt
          (m.growAt more nxt (toInt32 (pageRound (size - total)))).bind
            fun m => mergeLoop more curr size n m nxt total
    else none

/-- The outer loop of `kmalloc`, at `curr_mem_region`. -/
def kmallocLoop (more : Machine → ℤ → Option Machine) (size : ℕ) :
    ℕ → Machine → ℕ → Option (Machine × ℕ)
  | 0, _, _ => none
  | n + 1, m, curr =>
    let past := m.heap.heapEnd ≤ curr
    (m.growAt more curr 1).bind fun m =>
      if m.Header curr then
        let m := if past then m.withHeap (m.heap.writeNewMemReg curr) else m
        if m.heap.used curr then kmallocLoop more size n m (m.heap.goToNextMemoryRegion curr)
        else if size ≤ m.heap.size curr then (m.takeBlock curr size).map fun m => (m, curr + 5)
        else
          let total := m.heap.size curr
          let nxt := m.heap.goToNextMemoryRegion curr
          (m.growAt more nxt (toInt32 (pageRound (size - total)))).bind fun m =>
            (mergeLoop more curr size n m nxt total).bind fun x =>
              match x.2 with
              | .inl p => some (x.1, p)
              | .inr nxt => kmallocLoop more size n x.1 (x.1.heap.goToNextMemoryRegion nxt)
      else none

/-- `n` objects of the given size from `kmalloc`. -/
def takeObjects (kmalloc : Machine → ℕ → Option (Machine × ℕ)) (size : ℕ) :
    ℕ → Machine → Option Machine
  | 0, m => some m
  | n + 1, m => (kmalloc m size).bind fun x => takeObjects kmalloc size n x.1

/-- `sizeof(page_table_t)`. -/
def pageTableSize : ℕ := 40

/-- `sizeof(vm_object)`. -/
def vmObjectSize : ℕ := 32

/-- `get_more_pages`. -/
def getMorePages (fuel : ℕ) (kmalloc : Machine → ℕ → Option (Machine × ℕ)) (m : Machine)
    (numPages : ℤ) : Option Machine := do
  let (k, ok) ← m.kernel.vmmLengthen fuel heapStart 0x1000
  let m ← takeObjects kmalloc pageTableSize (k.map.count - m.kernel.map.count) ⟨k, m.heap⟩
  some (m.withHeap (m.heap.getMorePages (fun _ => ok) numPages))

/-- `kmalloc`, at most `n` calls deep. -/
def kmalloc (fuel : ℕ) : ℕ → Machine → ℕ → Option (Machine × ℕ)
  | 0, _, _ => none
  | n + 1, m, bytes => kmallocLoop (getMorePages fuel (kmalloc fuel n)) bytes fuel m heapStart

/-! ### The loops of `kmalloc` on a heap that does not grow -/

variable {m : Machine} {more : Machine → ℤ → Option Machine} {bs : List Block} {r p : Placement}
  {n fuel base offset curr nxt total : ℕ}

/-- The assignments made for a placement, and the pointer. -/
def handOut (m : Machine) (base n : ℕ) (p : Placement) : Option (Machine × ℕ) :=
  (if n ≤ p.size then m.takeBlock (base + p.offset) n
    else m.takeMerged (base + p.offset) n p.total).map fun m => (m, base + p.offset + 5)

/-- `get_more_pages` fails, and the page behind the heap is not mapped. -/
structure Stuck (m : Machine) (more : Machine → ℤ → Option Machine) : Prop where
  more : ∀ pages, ∃ m', more m pages = some m' ∧ m'.kernel = m.kernel ∧
    m'.heap.heapEnd = m.heap.heapEnd
  fault : ¬ m.Header m.heap.heapEnd

theorem mergeLoop_fault (h : ¬ m.Header nxt) : mergeLoop more curr n fuel m nxt total = none := by
  cases fuel with
  | zero => rfl
  | succ fuel => rw [mergeLoop, if_neg h]

/-- Going on behind the last block ends in a fault. -/
theorem Stuck.growAt_fault {α : Type} {f : Machine → Option α} (hs : m.Stuck more)
    (hf : ∀ m' : Machine, ¬ m'.Header m.heap.heapEnd → f m' = none) (pages : ℤ) :
    (m.growAt more m.heap.heapEnd pages).bind f = none := by
  obtain ⟨m', hm', hk, -⟩ := hs.more pages
  rw [growAt, if_pos le_rfl, hm', Option.bind_some]
  refine hf m' ?_
  rw [Header, hk]
  exact hs.fault

theorem growAt_of_lt (h : nxt < m.heap.heapEnd) (pages : ℤ) : m.growAt more nxt pages = some m := by
  rw [growAt, if_neg (by omega)]

/-- A header of the chain is mapped. -/
theorem header_of_tiles {b : Block} (hm : ∀ a, base ≤ a → a < m.heap.heapEnd → m.kernel.Mapped a)
    (ht : m.heap.Tiles (base + offset) (b :: bs) m.heap.heapEnd) : m.Header (base + offset) := by
  have hend := ht.end_eq
  simp only [span_cons] at hend
  exact ⟨hm _ (by omega) (by omega), hm _ (by omega) (by omega)⟩

/-- **The inner loop** hands out what `place` says; `f` is what follows if it leaves a used
block. -/
theorem mergeLoop_bind {f : Machine → ℕ → Option (Machine × ℕ)} (hlt : m.heap.heapEnd < 2 ^ 64)
    (hm : ∀ a, base ≤ a → a < m.heap.heapEnd → m.kernel.Mapped a)
    (ht : m.heap.Tiles (base + offset) bs m.heap.heapEnd) (hf : bs.length ≤ fuel)
    (hr : curr = base + r.offset) (hsize : r.size < n) (htot : r.total < n)
    (h32 : r.total + span bs < 2 ^ 32) (hs : place n offset (some r) bs = none → m.Stuck more)
    (hcont : ∀ l₁ b l₂, bs = l₁ ++ b :: l₂ → place n offset (some r) bs =
        place n (offset + span l₁ + (b.size + 5)) none l₂ →
      f m (base + (offset + span l₁)) =
        (place n (offset + span l₁ + (b.size + 5)) none l₂).bind (m.handOut base n)) :
    ((mergeLoop more curr n fuel m (base + offset) r.total).bind fun x =>
      match x.2 with
      | .inl p => some (x.1, p)
      | .inr nxt => f x.1 nxt) = (place n offset (some r) bs).bind (m.handOut base n) := by
  induction bs generalizing offset r fuel with
  | nil =>
    rw [show base + offset = m.heap.heapEnd from ht, mergeLoop_fault (hs rfl).fault]
    rfl
  | cons b bs ih =>
    obtain ⟨fuel, rfl⟩ : ∃ i, fuel = i + 1 := ⟨fuel - 1, by simp at hf; omega⟩
    have hhead := header_of_tiles hm ht
    have hend := ht.end_eq
    obtain ⟨hu, hsz, ht⟩ := ht
    simp only [span_cons] at hend h32
    rw [mergeLoop, if_pos hhead]
    cases hb : b.used with
    | true =>
      have := hcont [] b bs rfl (by rw [place_used hb]; simp)
      rw [place_used hb]
      simpa [hu, hb] using this
    | false =>
      rw [place_free_some hb] at hs hcont ⊢
      have hmod : (r.total + m.heap.size (base + offset) + 5) % 2 ^ 32 =
          r.total + (b.size + 5) := by
        rw [hsz, Nat.add_assoc, Nat.mod_eq_of_lt (by omega)]
      have hnxt : m.heap.goToNextMemoryRegion (base + offset) = base + (offset + (b.size + 5)) := by
        rw [goToNextMemoryRegion_eq (b := b) hsz (by omega), Nat.add_assoc]
      rw [Nat.add_assoc] at ht
      simp only [hu, hb, hmod, hnxt, Bool.false_eq_true, if_false]
      by_cases hfit : n ≤ r.total + (b.size + 5)
      · rw [if_pos hfit, if_pos hfit, Option.bind_some, handOut, if_neg (not_le.2 hsize), hr]
        cases m.takeMerged (base + r.offset) n (r.total + (b.size + 5)) <;> rfl
      · rw [if_neg hfit] at hs hcont
        rw [if_neg hfit, if_neg hfit]
        cases bs with
        | nil =>
          -- the run ends with the last block of the heap
          rw [show base + (offset + (b.size + 5)) = m.heap.heapEnd from ht,
            (hs rfl).growAt_fault fun m' hm' => mergeLoop_fault hm']
          rfl
        | cons c bs =>
          have hin : base + (offset + (b.size + 5)) < m.heap.heapEnd := by
            simp only [span_cons] at hend
            omega
          rw [growAt_of_lt hin, Option.bind_some]
          refine @ih { r with total := r.total + (b.size + 5) } fuel (offset + (b.size + 5)) ht
            (by simpa using hf) hr hsize (by simpa using hfit)
            (by simp only [span_cons] at h32 ⊢; omega) hs fun l₁ d l₂ hl hplace => ?_
          have := hcont (b :: l₁) d l₂ (by rw [hl]; rfl)
          simp only [span_cons, ← Nat.add_assoc] at this hplace ⊢
          exact this hplace

/-- **The outer loop** hands out what `place` says, and faults if there is no place. -/
theorem kmallocLoop_eq_bind (hlt : m.heap.heapEnd < 2 ^ 64)
    (hm : ∀ a, base ≤ a → a < m.heap.heapEnd → m.kernel.Mapped a)
    (ht : m.heap.Tiles (base + offset) bs m.heap.heapEnd) (hf : bs.length < fuel)
    (h32 : span bs < 2 ^ 32) (hs : place n offset none bs = none → m.Stuck more) :
    kmallocLoop more n fuel m (base + offset) =
      (place n offset none bs).bind (m.handOut base n) := by
  induction fuel generalizing offset bs with
  | zero => omega
  | succ fuel ih =>
    cases bs with
    | nil =>
      rw [show base + offset = m.heap.heapEnd from ht, kmallocLoop]
      exact (hs rfl).growAt_fault (fun m' hm' => if_neg hm') 1
    | cons b bs =>
      have hhead := header_of_tiles hm ht
      have hend := ht.end_eq
      obtain ⟨hu, hsz, ht⟩ := ht
      simp only [span_cons] at hend h32
      have hin : base + offset < m.heap.heapEnd := by omega
      have hnxt : m.heap.goToNextMemoryRegion (base + offset) = base + (offset + (b.size + 5)) := by
        rw [goToNextMemoryRegion_eq (b := b) hsz (by omega), Nat.add_assoc]
      rw [Nat.add_assoc] at ht
      rw [kmallocLoop]
      simp only [growAt_of_lt hin, Option.bind_some, if_pos hhead, if_neg (not_le.2 hin), hu]
      cases hb : b.used with
      | true =>
        rw [place_used hb] at hs ⊢
        rw [if_pos rfl, hnxt]
        exact ih ht (by simpa using hf) (by omega) hs
      | false =>
        rw [place_free_none hb] at hs ⊢
        rw [if_neg Bool.false_ne_true, hsz, hnxt]
        by_cases hfit : n ≤ b.size
        · rw [if_pos hfit, if_pos hfit, Option.bind_some, handOut, if_pos hfit]
        · rw [if_neg hfit] at hs
          rw [if_neg hfit, if_neg hfit]
          cases bs with
          | nil =>
            rw [show base + (offset + (b.size + 5)) = m.heap.heapEnd from ht,
              (hs rfl).growAt_fault fun m' hm' => by rw [mergeLoop_fault hm']; rfl]
            rfl
          | cons c bs =>
            have hin' : base + (offset + (b.size + 5)) < m.heap.heapEnd := by
              simp only [span_cons] at hend
              omega
            rw [growAt_of_lt hin', Option.bind_some]
            refine @mergeLoop_bind m more (c :: bs) ⟨offset, b.size, b.size⟩ n fuel base
              (offset + (b.size + 5)) (base + offset)
              (fun m nxt => kmallocLoop more n fuel m (m.heap.goToNextMemoryRegion nxt)) hlt hm ht
              (by simp at hf ⊢; omega) rfl (by simp only; omega) (by simp only; omega)
              (by simp only; omega) hs fun l₁ d l₂ hl hplace => ?_
            -- behind the used block the outer loop starts afresh
            rw [hplace] at hs
            rw [hl] at ht hf hend h32
            rw [tiles_append] at ht
            obtain ⟨-, -, hszd, htd⟩ := ht
            simp only [span_append, span_cons] at hend h32
            have hnxt' := goToNextMemoryRegion_eq (b := d) hszd (by omega)
            simp only [Nat.add_assoc] at hnxt' htd hs ⊢
            rw [hnxt']
            exact ih htd (by simp at hf; omega) (by omega) hs

/-! ### One call of `kmalloc` -/

/-- The heap is one mapped page tiled by the blocks, and no region starts where it does. -/
structure OnePage (m : Machine) (bs : List Block) : Prop where
  tiles : m.heap.Tiles heapStart bs m.heap.heapEnd
  heapEnd : m.heap.heapEnd = heapStart + 0x1000
  mapped : m.kernel.Mapped heapStart
  chained : m.kernel.Chained m.kernel.vmObjects
  unlisted : ∀ c ∈ m.kernel.vmObjects, m.kernel.regions.base c ≠ heapStart

theorem heapStart_mod : heapStart % 0x1000 = 0 := by norm_num [heapStart]

theorem heapStart_lt : heapStart + 2 ^ 32 < 2 ^ 64 := by norm_num [heapStart]

theorem mapped_congr {k : Kernel} {a b : ℕ} (h : page a = page b) : k.Mapped a ↔ k.Mapped b := by
  rw [Kernel.Mapped, Kernel.Mapped, translate_congr h]

theorem OnePage.mapped_of_lt (h : m.OnePage bs) {a : ℕ} (ha : heapStart ≤ a)
    (hlt : a < m.heap.heapEnd) : m.kernel.Mapped a := by
  have hmod := heapStart_mod
  rw [h.heapEnd] at hlt
  refine (mapped_congr ?_).2 h.mapped
  simp only [page]
  omega

theorem OnePage.span_eq (h : m.OnePage bs) : span bs = 0x1000 := by
  have := h.tiles.end_eq
  rw [h.heapEnd] at this
  omega

/-- **The heap is not lengthened**: no region starts at `KERNEL_HEAP_START`. -/
theorem OnePage.vmmLengthen (h : m.OnePage bs) (fuel : ℕ) (inc : ℤ) :
    m.kernel.vmmLengthen fuel heapStart inc = some (m.kernel, false) := by
  have hfind : m.kernel.vmObjects.find? (fun c => m.kernel.regions.base c == heapStart) = none :=
    List.find?_eq_none.2 fun c hc => by simpa using h.unlisted c hc
  rw [Kernel.vmmLengthen]
  simp only [Linked.search_eq h.chained.path (Nat.lt_succ_of_le h.chained.length_le), hfind,
    Option.bind_eq_bind, Option.bind_some]

theorem OnePage.stuck (h : m.OnePage bs) (hnext : ¬ m.kernel.Mapped m.heap.heapEnd) (fuel : ℕ)
    (kmalloc : Machine → ℕ → Option (Machine × ℕ)) :
    m.Stuck (Machine.getMorePages fuel kmalloc) := by
  refine ⟨fun pages => ⟨m.withHeap (m.heap.getMorePages (fun _ => false) pages), ?_, rfl, rfl⟩,
    fun hhead => hnext hhead.1⟩
  rw [Machine.getMorePages, h.vmmLengthen]
  simp only [Option.bind_eq_bind, Option.bind_some, Nat.sub_self, takeObjects]

/-- **`kmalloc`** hands out the placement found among the blocks of the heap, and faults if there
is none. -/
theorem OnePage.kmalloc_eq_bind (h : m.OnePage bs)
    (hnext : placement n bs = none → ¬ m.kernel.Mapped m.heap.heapEnd) (hfuel : 0x1000 ≤ fuel)
    (depth : ℕ) :
    m.kmalloc fuel (depth + 1) n = (placement n bs).bind (m.handOut heapStart n) := by
  have hend := h.heapEnd
  have hspan := h.span_eq
  have hlen := length_le_span bs
  have hlt := heapStart_lt
  exact @kmallocLoop_eq_bind m _ bs n fuel heapStart 0 (by omega) (fun a => h.mapped_of_lt) h.tiles
    (by omega) (by omega) fun hp => h.stuck (hnext hp) fuel _

/-- A block of fewer than five bytes is always split; the header written behind it must not lie
behind the heap. -/
def Fits (n : ℕ) (p : Placement) : Prop :=
  n ≤ p.size → p.size < 5 → p.offset + n + 10 ≤ 0x1000

instance (n : ℕ) (p : Placement) : Decidable (Fits n p) :=
  inferInstanceAs (Decidable (n ≤ p.size → p.size < 5 → p.offset + n + 10 ≤ 0x1000))

/-- Where a split writes its header. -/
theorem split_next {h : Heap} {a n : ℕ} (hn : n < 2 ^ 32) (ha : a + n + 5 < 2 ^ 64) :
    ((h.setUsed a true).setSize a n).goToNextMemoryRegion a = a + n + 5 := by
  rw [goToNextMemoryRegion, size_setSize_self, Nat.mod_eq_of_lt hn, Nat.mod_eq_of_lt ha]

/-- The header behind a split block is mapped exactly if it lies inside of the heap. -/
theorem OnePage.header_iff (h : m.OnePage bs) {a : ℕ} (hlo : heapStart ≤ a)
    (hhi : a ≤ m.heap.heapEnd)
    (hnext : a + 5 ≤ m.heap.heapEnd ∨ ¬ m.kernel.Mapped m.heap.heapEnd) :
    m.Header a ↔ a + 5 ≤ m.heap.heapEnd := by
  have hend := h.heapEnd
  have hmod := heapStart_mod
  refine ⟨fun hhead => ?_, fun hle => ⟨h.mapped_of_lt hlo (by omega),
    h.mapped_of_lt (by omega) (by omega)⟩⟩
  by_contra hcon
  refine hnext.resolve_left hcon ((mapped_congr ?_).1 hhead.2)
  simp only [page]
  omega

/-- **Handing out a placement** faults exactly if it does not fit. -/
theorem OnePage.handOut_eq (h : m.OnePage bs) (hp : placement n bs = some p)
    (hnext : Fits n p ∨ ¬ m.kernel.Mapped m.heap.heapEnd) : m.handOut heapStart n p = if Fits n p then
      some (m.withHeap (m.heap.handOut heapStart n p), heapStart + p.offset + 5) else none := by
  have hend := h.heapEnd
  have hlt := heapStart_lt
  have hspan := h.span_eq
  obtain ⟨l₁, b, run, l₂, rfl, -, rfl, hn, hrun⟩ := placement_spec hp
  have hsize : m.heap.size (heapStart + span l₁) = b.size := by
    have := h.tiles
    rw [tiles_append] at this
    exact this.2.2.1
  simp only [span_append, span_cons] at hspan
  -- splitting a total of bytes of the run
  have hsplit : ∀ total, n ≤ total → total ≤ b.size + span run →
      (span l₁ + n + 10 ≤ 0x1000 ∨ ¬ m.kernel.Mapped m.heap.heapEnd) →
      m.split (heapStart + span l₁) n total = if span l₁ + n + 10 ≤ 0x1000 then
        some (m.withHeap (m.heap.split (heapStart + span l₁) n total)) else none := by
    intro total hnt htot hor
    have hhead := h.header_iff (a := heapStart + span l₁ + n + 5) (by omega) (by omega)
      (hor.imp_left fun hle => by omega)
    rw [Machine.split, split_next (by omega) (by omega), if_congr hhead rfl rfl]
    exact if_congr (by omega) rfl rfl
  simp only [Machine.handOut, Heap.handOut, Nat.zero_add]
  by_cases hfit : n ≤ b.size
  · rw [if_pos hfit, if_pos hfit, Machine.takeBlock, Heap.takeBlock, hsize]
    by_cases hcut : n < (((b.size : ℤ) - 5) % 2 ^ 64).toNat
    · have hiff : (span l₁ + n + 10 ≤ 0x1000) ↔ Fits n ⟨span l₁, b.size, b.size + span run⟩ :=
        ⟨fun hle _ _ => hle, fun hf => by
          by_cases hfive : b.size < 5
          · exact hf hfit hfive
          · omega⟩
      simp only [Nat.zero_add] at hnext
      rw [if_pos hcut, if_pos hcut, hsplit _ hfit (by omega) (hnext.imp_left hiff.2),
        if_congr hiff rfl rfl]
      split_ifs <;> rfl
    · have hf : Fits n ⟨span l₁, b.size, b.size + span run⟩ := by
        intro _ hfive
        simp only at hfive
        omega
      rw [if_neg hcut, if_neg hcut, if_pos hf]
      rfl
  · have hf : Fits n ⟨span l₁, b.size, b.size + span run⟩ := fun hle => absurd hle hfit
    rw [if_neg hfit, if_neg hfit, if_pos hf, Machine.takeMerged, Heap.takeMerged]
    by_cases hcut : n < ((((b.size + span run : ℕ) : ℤ) - 5) % 2 ^ 32).toNat
    · have hfive : 5 ≤ span run := by
        cases run with
        | nil => exact absurd hn (by simpa using hfit)
        | cons c run => simp; omega
      rw [if_pos hcut, if_pos hcut, hsplit _ hn le_rfl (Or.inl (by omega)), if_pos (by omega)]
      rfl
    · rw [if_neg hcut, if_neg hcut]
      rfl

/-- `kmalloc(n)` returns a block whose payload is mapped and lies inside of the heap. -/
def Serves (fuel : ℕ) (m : Machine) (n : ℕ) : Prop :=
  ∃ m' q, m.kmalloc fuel fuel n = some (m', q) ∧ heapStart ≤ q ∧ q + n ≤ m'.heap.heapEnd ∧
    ∀ a, q ≤ a → a < q + n → m'.kernel.Mapped a

/-- **The heap does not grow**: a request is served if and only if there is a place for it among
the blocks that are there. -/
theorem OnePage.serves_iff (h : m.OnePage bs) (hnext : ¬ m.kernel.Mapped m.heap.heapEnd)
    (hfuel : 0x1000 ≤ fuel) (n : ℕ) :
    m.Serves fuel n ↔ ∃ p ∈ placement n bs, Fits n p := by
  obtain ⟨depth, rfl⟩ : ∃ d, fuel = d + 1 := ⟨fuel - 1, by omega⟩
  have hcall := h.kmalloc_eq_bind (n := n) (fun _ => hnext) hfuel depth
  constructor
  · rintro ⟨m', q, hm', -⟩
    rw [hcall] at hm'
    obtain ⟨p, hp, hm'⟩ := Option.bind_eq_some_iff.1 hm'
    rw [h.handOut_eq hp (Or.inr hnext), Option.ite_none_right_eq_some] at hm'
    exact ⟨p, hp, hm'.1⟩
  · rintro ⟨p, hp, hf⟩
    have hend := h.heapEnd
    have hspan := h.span_eq
    have hin : p.offset + 5 + n ≤ 0x1000 := by
      obtain ⟨l₁, b, run, l₂, rfl, -, rfl, hn, -⟩ := placement_spec hp
      simp only [span_append, span_cons] at hspan hn ⊢
      omega
    refine ⟨m.withHeap (m.heap.handOut heapStart n p), heapStart + p.offset + 5, ?_, by omega, ?_,
      fun a ha hlt => ?_⟩
    · rw [hcall, show placement n bs = some p from hp, Option.bind_some, h.handOut_eq hp (Or.inr hnext),
        if_pos hf]
    · rw [withHeap_heap, handOut_heapEnd]
      omega
    · exact h.mapped_of_lt (by omega) (by omega)

end Machine

end TitanOS
