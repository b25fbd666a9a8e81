import TitanOS.Heap.OpenRun

/-!
# When the heap is refused more pages

`kmalloc` does not look at what `get_more_pages` returns.  When the request has no place and
`vmm_lengthen` refuses, it therefore goes on behind `heap_end`.  There it writes a header at once
if the last block is used.  If the chain ends in free blocks, it takes the bytes behind the heap for
headers, until their sizes make up for the request, and a pointer across `heap_end` is returned, or
until one of them looks used, and a header is written behind that one.  Nothing else can happen
unless these headers lead past the top of the address space (`Overruns`), so there is no chain and
no request for which the refusal does no harm (`never_refusalHarmless`).
-/

namespace TitanOS

open Block

namespace Heap

/-- `vmm_lengthen` returns false. -/
def refuse : ℕ → Bool := fun _ => false

/-- A refused `kmalloc(n)` does no harm: a pointer that is returned lies in the heap, no byte behind
`heap_end` is changed and the chain is as it was; and the outer loop never stands behind `heap_end`,
where it writes a header first of all. -/
def RefusalHarmless (h : Heap) (bs : List Block) (n : ℕ) : Prop :=
  (∀ fuel h' q, h.kmalloc refuse fuel n = some (h', q) →
    heapStart ≤ q ∧ q + n ≤ h.heapEnd ∧ (∀ x, h.heapEnd ≤ x → h'.mem x = h.mem x) ∧
      h'.Tiles heapStart bs h'.heapEnd) ∧
  ∀ g curr, Reaches refuse n (h, heapStart) (g, curr) → curr < g.heapEnd

/-- The headers from `x` on look free, and lead past the top of the address space before their
sizes, added to `total`, make up for `n`. -/
inductive Overruns (h : Heap) (n : ℕ) : ℕ → ℕ → Prop
  | top {x total : ℕ} (htop : 2 ^ 64 ≤ x + (h.size x + 5))
    (hgo : h.used x = true ∨ (total + h.size x + 5) % 2 ^ 32 < n) : Overruns h n x total
  | next {x total : ℕ} (hu : h.used x = false) (hshort : (total + h.size x + 5) % 2 ^ 32 < n)
    (hnext : Overruns h n (x + (h.size x + 5)) ((total + h.size x + 5) % 2 ^ 32)) :
    Overruns h n x total

variable {h h' g : Heap} {n curr x total : ℕ} {bs : List Block}

@[simp] theorem getMorePages_mem (lengthens : ℕ → Bool) (k : ℤ) :
    (h.getMorePages lengthens k).mem = h.mem := by
  unfold getMorePages
  split <;> rfl

@[simp] theorem getMorePages_refuse (k : ℤ) : (h.getMorePages refuse k).heapEnd = h.heapEnd := rfl

theorem growAt_refuse (nxt short : ℕ) : (h.growAt refuse nxt short).mem = h.mem ∧
    (h.growAt refuse nxt short).heapEnd = h.heapEnd := by
  unfold growAt
  split
  · exact ⟨getMorePages_mem _ _, rfl⟩
  · exact ⟨rfl, rfl⟩

/-- The headers are read from memory only. -/
theorem header_of_mem (hm : g.mem = h.mem) (x : ℕ) : g.used x = h.used x ∧ g.size x = h.size x :=
  header_congr fun y _ _ => congrFun hm y

/-- **Behind a refused heap** the inner loop hands out the merged block, or meets a header that
looks used. -/
theorem merges_refused (hm : g.mem = h.mem) (hend : g.heapEnd = h.heapEnd)
    (hx : h.heapEnd ≤ x) (hx64 : x < 2 ^ 64) (hover : ¬ h.Overruns n x total) :
    ∃ g' y, Merges refuse curr n g x total (g', y) ∧ (y = .inl (curr + 5) ∨
      ∃ z, y = .inr z ∧ g'.mem = h.mem ∧ g'.heapEnd = h.heapEnd ∧ h.heapEnd ≤ z ∧
        z + (h.size z + 5) < 2 ^ 64) := by
  induction hd : 2 ^ 64 - x using Nat.strong_induction_on generalizing x total g with
  | h d ih =>
    obtain ⟨hused, hsize⟩ := header_of_mem hm x
    cases hu : h.used x with
    | true =>
      refine ⟨g, .inr x, (merges_used (hused.trans hu)).2 rfl, Or.inr ⟨x, rfl, hm, hend, hx, ?_⟩⟩
      by_contra hge
      exact hover (Overruns.top (by omega) (Or.inl hu))
    | false =>
      by_cases hfit : n ≤ (total + h.size x + 5) % 2 ^ 32
      · rw [← hsize] at hfit
        exact ⟨_, _, (merges_fit (hused.trans hu) hfit).2 rfl, Or.inl rfl⟩
      · have hshort := Nat.lt_of_not_le hfit
        have hin : x + (h.size x + 5) < 2 ^ 64 := by
          by_contra hge
          exact hover (Overruns.top (by omega) (Or.inr hshort))
        have hnxt : g.goToNextMemoryRegion x = x + (h.size x + 5) := by
          rw [goToNextMemoryRegion, hsize, Nat.add_assoc, Nat.mod_eq_of_lt hin]
        obtain ⟨hgm, hgend⟩ := @growAt_refuse g (x + (h.size x + 5))
          (n - (total + h.size x + 5) % 2 ^ 32)
        obtain ⟨g', y, hmerge, hy⟩ := ih (2 ^ 64 - (x + (h.size x + 5))) (by omega)
          (hgm.trans hm) (hgend.trans hend) (by omega) hin
          (fun hnext => hover (Overruns.next hu hshort hnext)) rfl
        refine ⟨g', y, ?_, hy⟩
        rw [merges_short (hused.trans hu) (by rwa [hsize]), hnxt, hsize]
        exact hmerge

/-- A harmless refusal means that the chain ends in free blocks and that what follows leads past
the top of the address space. -/
theorem overruns_of_refusalHarmless (hlt : h.heapEnd < 2 ^ 64)
    (ht : h.Tiles heapStart bs h.heapEnd) (hp : placement n bs = none)
    (hharm : h.RefusalHarmless bs n) : ∃ r, openRun 0 none bs = some r ∧
      h.Overruns n h.heapEnd (r.total % 2 ^ 32) := by
  obtain ⟨hreturns, hstands⟩ := hharm
  have hends : h.Ends refuse n heapStart heapStart (openRun 0 none bs) :=
    @ends_openRun refuse n h bs 0 heapStart hlt ht hp
  cases hr : openRun 0 none bs with
  | none =>
    -- the last block is used, and a header is written at `heap_end`
    rw [hr] at hends
    exact absurd (hstands h h.heapEnd hends) (lt_irrefl _)
  | some r =>
    rw [hr] at hends
    obtain ⟨hreach, hin, hu, hsize, hmerges⟩ := hends
    refine ⟨r, rfl, ?_⟩
    by_contra hover
    obtain ⟨htot, hoff⟩ := openRun_short hp (fun _ hx => by cases hx) hr
    have hend := ht.end_eq
    have harr := @arrive_of_lt refuse _ h hin
    obtain ⟨g', y, hmerge, hy⟩ := @merges_refused h _ n (heapStart + r.offset) _ _
      (getMorePages_mem refuse (toInt32 (pageRound (n - r.total % 2 ^ 32)))) rfl le_rfl hlt hover
    rw [← hmerges] at hmerge
    rcases hy with rfl | ⟨z, rfl, hmem, hend', hz, hz64⟩
    · -- the run is handed out, and ends behind the heap
      have hret : Returns refuse n (h, heapStart) (g', heapStart + r.offset + 5) := by
        rw [hreach.returns_iff, returns_merge (by rwa [harr]) (by rwa [harr]), harr]
        exact ⟨_, hmerge, 0, rfl⟩
      obtain ⟨fuel, hcall⟩ := hret
      have := (hreturns fuel _ _ hcall).2.1
      omega
    · -- a header is written behind the one that looks used
      have hstep := @Continues.merged refuse n h g' (heapStart + r.offset) z (by rwa [harr])
        (by rwa [harr]) (by rwa [harr])
      have hnxt : g'.goToNextMemoryRegion z = z + (h.size z + 5) := by
        rw [goToNextMemoryRegion, (header_of_mem hmem z).2, Nat.add_assoc, Nat.mod_eq_of_lt hz64]
      have := hstands _ _ (hreach.tail hstep)
      rw [hnxt] at this
      omega

/-- The heap with a header put at `a`. -/
def putHeader (h : Heap) (a : ℕ) (u : Bool) (s : ℕ) : Heap := (h.setUsed a u).setSize a s

@[simp] theorem putHeader_heapEnd (a : ℕ) (u : Bool) (s : ℕ) :
    (h.putHeader a u s).heapEnd = h.heapEnd := rfl

@[simp] theorem putHeader_calls (a : ℕ) (u : Bool) (s : ℕ) :
    (h.putHeader a u s).calls = h.calls := rfl

@[simp] theorem used_putHeader (a : ℕ) (u : Bool) (s : ℕ) : (h.putHeader a u s).used a = u := by
  simp [putHeader]

@[simp] theorem size_putHeader (a : ℕ) (u : Bool) (s : ℕ) :
    (h.putHeader a u s).size a = s % 2 ^ 32 := by
  simp [putHeader]

theorem putHeader_mem {a y : ℕ} (u : Bool) (s : ℕ) (hy : y < a ∨ a + 5 ≤ y) :
    (h.putHeader a u s).mem y = h.mem y := by
  rw [putHeader, setSize_mem_of_ne _ _ _ _ (by omega), setUsed_mem_of_ne _ _ _ (by omega)]

/-- The same heap with other memory. -/
def withMem (h : Heap) (mem : ℕ → UInt8) : Heap := { h with mem := mem }

/-- Memory that differs behind the heap only. -/
def Outside (h : Heap) (mem : ℕ → UInt8) : Prop := ∀ x < h.heapEnd, mem x = h.mem x

theorem Outside.tiles {mem : ℕ → UInt8} (ho : h.Outside mem)
    (ht : h.Tiles heapStart bs h.heapEnd) : (h.withMem mem).Tiles heapStart bs h.heapEnd :=
  ht.congr fun x _ hx => ho x hx

theorem outside_putHeader {a : ℕ} (ha : h.heapEnd ≤ a) (u : Bool) (s : ℕ) :
    h.Outside (h.putHeader a u s).mem :=
  fun _ hx => putHeader_mem u s (Or.inl (by omega))

/-- **A refusal is never harmless.**  Whatever lies behind the heap, it does harm unless the chain
ends in free blocks and the headers behind it lead past the top of the address space; so for no
chain and no request without a place is it harmless whatever lies there. -/
theorem never_refusalHarmless (h : Heap) (bs : List Block) (n : ℕ) (hlt : h.heapEnd < 2 ^ 64)
    (hpage : h.heapEnd % 0x1000 = 0) (ht : h.Tiles heapStart bs h.heapEnd)
    (hp : placement n bs = none) :
    (∀ mem, h.Outside mem → (h.withMem mem).RefusalHarmless bs n →
      ∃ r, openRun 0 none bs = some r ∧
        (h.withMem mem).Overruns n h.heapEnd (r.total % 2 ^ 32)) ∧
    ¬ ∀ mem, h.Outside mem → (h.withMem mem).RefusalHarmless bs n := by
  have hall : ∀ mem, h.Outside mem → (h.withMem mem).RefusalHarmless bs n →
      ∃ r, openRun 0 none bs = some r ∧
        (h.withMem mem).Overruns n h.heapEnd (r.total % 2 ^ 32) :=
    fun mem ho hharm => overruns_of_refusalHarmless hlt (ho.tiles ht) hp hharm
  refine ⟨hall, fun hharm => ?_⟩
  -- a header behind the heap that looks used leads nowhere near the top
  have ho := outside_putHeader (le_refl h.heapEnd) true 0
  obtain ⟨r, -, hover⟩ := hall _ ho (hharm _ ho)
  have hused : (h.withMem (h.putHeader h.heapEnd true 0).mem).used h.heapEnd = true :=
    used_putHeader h.heapEnd true 0
  have hsize : (h.withMem (h.putHeader h.heapEnd true 0).mem).size h.heapEnd = 0 :=
    size_putHeader h.heapEnd true 0
  cases hover with
  | top htop _ =>
    rw [hsize] at htop
    omega
  | next hu _ _ =>
    rw [hused] at hu
    cases hu

/-- The heap of one page after `kmalloc(4091)`, which takes all of it. -/
def fullPage : Heap := (kheapInit fun _ => 0).setUsed heapStart true

theorem fullPage_heapEnd : fullPage.heapEnd = heapStart + 0x1000 := rfl

theorem fullPage_tiles : fullPage.Tiles heapStart [⟨true, 0x1000 - 5⟩] fullPage.heapEnd := by
  have hsize : (kheapInit fun _ => 0).size heapStart = 0x1000 - 5 :=
    (Live.backed_start fun _ => 0).tiles.2.1
  have ht := @setUsed_tiles (kheapInit fun _ => 0) heapStart true
  rwa [hsize] at ht

/-- One more byte than the page has. -/
theorem never_refusalHarmless_fullPage : ¬ ∀ mem, fullPage.Outside mem →
    (fullPage.withMem mem).RefusalHarmless [⟨true, 0x1000 - 5⟩] 1 :=
  (never_refusalHarmless fullPage _ 1 (by rw [fullPage_heapEnd]; norm_num [heapStart])
    (by rw [fullPage_heapEnd]; norm_num [heapStart]) fullPage_tiles rfl).2

/-- The page is full, a further byte is refused, and a header is written behind the page. -/
theorem refused_header_written : ¬ fullPage.RefusalHarmless [⟨true, 0x1000 - 5⟩] 1 := by
  intro hharm
  have hlt : fullPage.heapEnd < 2 ^ 64 := by
    rw [fullPage_heapEnd]
    norm_num [heapStart]
  obtain ⟨r, hr, -⟩ := overruns_of_refusalHarmless hlt fullPage_tiles rfl hharm
  cases hr

end Heap

end TitanOS
