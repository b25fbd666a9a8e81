import TitanOS.Heap.Live

/-!
# The chain of headers

For requests of at least five bytes the chain of headers survives also the one path of `kmalloc`
that is wrong about sizes: blocks that are merged and not split keep their headers.  So the chain
tiles the heap in every run that does not grow it, and a call of `kmalloc` stays away from the
blocks that are used (`chain_tiles`).
-/

namespace TitanOS

open Block

namespace Heap

variable {h h' : Heap} {a e n : ℕ} {bs : List Block} {p : Placement}

/-- The placement's run of free blocks `m` is rewritten in place into `b :: rest`. -/
theorem handOut_rewrites (ht : h.Tiles a bs e) (hlt : e < 2 ^ 64) (h32 : span bs < 2 ^ 32)
    (hn : 5 ≤ n) (hp : placement n bs = some p) :
    ∃ l₁ m l₂ b rest, bs = l₁ ++ (m ++ l₂) ∧ (∀ c ∈ m, c.used = false) ∧ p.offset = span l₁ ∧
      n + 5 ≤ span m ∧ b.used = true ∧
      (h.handOut a n p).Tiles (a + span l₁) (b :: rest) (a + span l₁ + span m) ∧
      ∀ x, x < a + span l₁ ∨ a + span l₁ + span m ≤ x → (h.handOut a n p).mem x = h.mem x := by
  by_cases hsound : p.Sound n
  · obtain ⟨l₁, m, l₂, hbs, hfree, hoff, b, rest, hu, hnb, htm, hmem⟩ :=
      handOut_handsOut ht hlt h32 hp hsound
    refine ⟨l₁, m, l₂, b, rest, hbs, hfree, hoff, ?_, hu, htm, hmem⟩
    have := htm.end_eq
    simp only [span_cons] at this
    omega
  · -- merged blocks that are not split: only the flag of the first one changes
    obtain ⟨l₁, b, m, l₂, rfl, hfree, rfl, hntot, -⟩ := placement_spec hp
    simp only [Placement.Sound] at hsound hntot
    simp only [span_append, span_cons, List.cons_append] at h32
    have hnot : ¬ n ≤ b.size := fun hle => hsound (by rw [if_pos hle]; omega)
    rw [if_neg hnot] at hsound
    have hsize : h.size (a + span l₁) = b.size := by
      rw [tiles_append] at ht
      exact ht.2.2.1
    have htm : h.Tiles (a + span l₁ + (b.size + 5)) m (a + span l₁ + span (b :: m)) := by
      rw [tiles_append, List.cons_append] at ht
      obtain ⟨-, -, -, ht⟩ := ht
      rw [tiles_append] at ht
      rw [span_cons, ← Nat.add_assoc (a + span l₁) (b.size + 5)]
      exact ht.1
    have hout : h.handOut a n ⟨0 + span l₁, b.size, b.size + span m⟩ =
        h.setUsed (a + span l₁) true := by
      simp only [handOut, if_neg hnot, Nat.zero_add, takeMerged]
      exact if_neg (by omega)
    refine ⟨l₁, b :: m, l₂, ⟨true, b.size⟩, m, rfl, hfree, by simp, by simp only [span_cons]; omega,
      rfl, ?_, fun x hx => ?_⟩
    · rw [hout]
      refine ⟨used_setUsed_self h _ true, (size_setUsed_self h _ true).trans hsize, ?_⟩
      exact htm.congr fun x hx _ => setUsed_mem_of_ne _ _ _ (by omega)
    · rw [hout]
      refine setUsed_mem_of_ne _ _ _ ?_
      simp only [span_cons] at hx
      omega

end Heap

namespace Live

open Heap

/-- The call does not grow the heap, at least five bytes are requested, and only live pointers are
freed. -/
def Ordinary (lengthens : ℕ → Bool) (fuel : ℕ) (s : Live) : HeapOp → Prop
  | .kmalloc n => 5 ≤ n ∧ ∃ r ∈ s.heap.kmalloc lengthens fuel n, r.1.calls = s.heap.calls
  | .kfree p => p ∈ s.live.map Prod.fst

/-- The headers tile the heap. -/
def Tiled (s : Live) : Prop := s.heap.Tiles heapStart s.heap.blocks s.heap.heapEnd

/-- A call of `kmalloc` keeps the header of every used block, and what it returns lies outside of
every used block. -/
def Spares (lengthens : ℕ → Bool) (fuel : ℕ) (s : Live) : HeapOp → Prop
  | .kmalloc n => ∀ r ∈ s.heap.kmalloc lengthens fuel n, ∀ i b, blockAt s.heap.blocks i = some b →
      b.used = true → r.1.used (heapStart + i) = b.used ∧ r.1.size (heapStart + i) = b.size ∧
        (r.2 + n ≤ heapStart + i ∨ heapStart + i + (b.size + 5) ≤ r.2)
  | .kfree _ => True

/-- The invariant: the blocks tile the one page of the heap, and every live pointer points behind the
header of a used block. -/
structure Linked (s : Live) (bs : List Block) : Prop where
  tiles : s.heap.Tiles heapStart bs s.heap.heapEnd
  heapEnd : s.heap.heapEnd = heapStart + 0x1000
  held : ∀ q ∈ s.live, ∃ i b, q.1 = heapStart + i + 5 ∧ blockAt bs i = some b ∧ b.used = true

variable {lengthens : ℕ → Bool} {fuel n : ℕ} {s s' : Live} {bs : List Block}

theorem Linked.ne_nil (hs : s.Linked bs) : bs ≠ [] := by
  rintro rfl
  have := hs.tiles.end_eq
  rw [hs.heapEnd] at this
  simp at this

theorem Linked.blocks_eq (hs : s.Linked bs) : s.heap.blocks = bs := hs.tiles.blocks_eq hs.ne_nil

theorem Linked.tiled (hs : s.Linked bs) : s.Tiled := by
  rw [Tiled, hs.blocks_eq]
  exact hs.tiles

/-- An ordinary call hands out a placement. -/
theorem Linked.kmalloc_eq (hfuel : 0x1000 ≤ fuel) (hs : s.Linked bs)
    (hc : s.Ordinary lengthens fuel (.kmalloc n)) : ∃ p, placement n bs = some p ∧
      s.heap.kmalloc lengthens fuel n = some (s.heap.handOut heapStart n p,
        heapStart + p.offset + 5) := by
  have hend := hs.heapEnd
  have hspan := hs.tiles.end_eq
  have hlen := length_le_span bs
  have hout := @Heap.kmalloc_eq s.heap bs lengthens n fuel (by omega) hs.tiles (by omega)
  obtain ⟨-, r, hr, hcalls⟩ := hc
  cases hp : placement n bs with
  | none =>
    rw [hp] at hout
    exact absurd (hout r.1 r.2 hr) (by omega)
  | some p =>
    rw [hp] at hout
    exact ⟨p, rfl, hout⟩

/-- The header of a block. -/
theorem tiles_blockAt {h : Heap} {a e i : ℕ} {b : Block} (ht : h.Tiles a bs e)
    (hb : blockAt bs i = some b) : h.used (a + i) = b.used ∧ h.size (a + i) = b.size := by
  obtain ⟨l₁, l₂, rfl, rfl⟩ := exists_of_blockAt hb
  rw [tiles_append] at ht
  exact ⟨ht.2.1, ht.2.2.1⟩

theorem Linked.kmalloc (hfuel : 0x1000 ≤ fuel) (hs : s.Linked bs)
    (hc : s.Ordinary lengthens fuel (.kmalloc n)) : s.Spares lengthens fuel (.kmalloc n) ∧
      ∀ s', s.step lengthens fuel (.kmalloc n) = some s' → ∃ bs', s'.Linked bs' := by
  have hend := hs.heapEnd
  have hspan := hs.tiles.end_eq
  have hstart : heapStart + 2 ^ 32 < 2 ^ 64 := by norm_num [heapStart]
  obtain ⟨p, hp, hcall⟩ := hs.kmalloc_eq hfuel hc
  obtain ⟨l₁, m, l₂, b, rest, rfl, hfree, hoff, hm, hu, htm, hmem⟩ :=
    handOut_rewrites hs.tiles (by omega) (by omega) hc.1 hp
  have ht' := hs.tiles.replace htm hmem
  have hsame : span (b :: rest) = span m := by
    have := htm.end_eq
    omega
  -- a used block is outside of the run of free ones, and is still there
  have hkept : ∀ i c, blockAt (l₁ ++ (m ++ l₂)) i = some c → c.used = true →
      blockAt (l₁ ++ ((b :: rest) ++ l₂)) i = some c := by
    intro i c hc hcu
    rw [blockAt_replace hsame (blockAt_outside hfree hc hcu), hc]
  constructor
  · intro r hr i c hi hcu
    rw [hs.blocks_eq] at hi
    obtain rfl := Option.some.inj (hcall.symm.trans hr)
    obtain ⟨hused, hsize⟩ := tiles_blockAt ht' (hkept i c hi hcu)
    refine ⟨hused, hsize, ?_⟩
    simp only [hoff]
    rcases blockAt_outside hfree hi hcu with hlt | hge
    · rw [blockAt_append_left hlt] at hi
      have := add_le_span hi
      omega
    · omega
  · intro s' hstep
    rw [step, hcall, Option.map_some, Option.some.injEq] at hstep
    rw [← hstep]
    refine ⟨l₁ ++ ((b :: rest) ++ l₂), by simpa using ht', by simpa using hend, fun q hq => ?_⟩
    rcases List.mem_cons.1 hq with rfl | hq
    · have hhead := @blockAt_append_right l₁ ((b :: rest) ++ l₂) 0
      exact ⟨span l₁, b, by simp [hoff], by simpa [blockAt] using hhead, hu⟩
    · obtain ⟨i, c, hqi, hi, hcu⟩ := hs.held q hq
      exact ⟨i, c, hqi, hkept i c hi hcu, hcu⟩

theorem Linked.kfree {p : ℕ} (hs : s.Linked bs) (hc : s.Ordinary lengthens fuel (.kfree p))
    (hstep : s.step lengthens fuel (.kfree p) = some s') : ∃ bs', s'.Linked bs' := by
  simp only [step, Option.some.injEq] at hstep
  subst hstep
  obtain ⟨q, hq, rfl⟩ := List.mem_map.1 hc
  obtain ⟨i, b, hqi, hb, -⟩ := hs.held q hq
  obtain ⟨l₁, l₂, rfl, rfl⟩ := exists_of_blockAt hb
  refine ⟨l₁ ++ ([⟨false, b.size⟩] ++ l₂), kfree_tiles hs.tiles hqi, hs.heapEnd, fun r hr => ?_⟩
  obtain ⟨hr, hne⟩ : r ∈ s.live ∧ r.1 ≠ q.1 := by simpa using hr
  obtain ⟨j, c, hrj, hc, hcu⟩ := hs.held r hr
  exact ⟨j, c, hrj, blockAt_freed hc (by omega), hcu⟩

/-- **The step lemma.** -/
theorem Linked.step (hfuel : 0x1000 ≤ fuel) (s : Live) (o : HeapOp) (hs : ∃ bs, s.Linked bs)
    (hc : s.Ordinary lengthens fuel o) : s.Spares lengthens fuel o ∧
      ∀ s', s.step lengthens fuel o = some s' → ∃ bs', s'.Linked bs' := by
  obtain ⟨bs, hs⟩ := hs
  cases o with
  | kmalloc n => exact hs.kmalloc hfuel hc
  | kfree p => exact ⟨trivial, fun s' => hs.kfree hc⟩

theorem linked_start (mem : ℕ → UInt8) : (start mem).Linked [⟨false, 0x1000 - 5⟩] :=
  ⟨(backed_start mem).tiles, rfl, fun _ hq => by cases hq⟩

/-- **The chain of headers tiles the heap** in every run that does not grow it, and no call of
`kmalloc` touches a block that is used. -/
theorem chain_tiles (lengthens : ℕ → Bool) (fuel : ℕ) (hfuel : 0x1000 ≤ fuel) (mem : ℕ → UInt8)
    (os : List HeapOp)
    (hc : Run.Along (step lengthens fuel) (Ordinary lengthens fuel) (start mem) os) :
    Run.Always (step lengthens fuel) Tiled (start mem) os ∧
      Run.Along (step lengthens fuel) (Spares lengthens fuel) (start mem) os := by
  have hstep := @Linked.step lengthens fuel hfuel
  exact ⟨Run.Always.of_inv (fun _ ⟨_, hs⟩ => hs.tiled) (fun s o s' hs hc => (hstep s o hs hc).2 s')
      ⟨_, linked_start mem⟩ hc,
    Run.Along.of_inv hstep ⟨_, linked_start mem⟩ hc⟩

instance (lengthens : ℕ → Bool) (fuel : ℕ) (s : Live) :
    ∀ o, Decidable (s.Ordinary lengthens fuel o)
  | .kmalloc n => inferInstanceAs (Decidable (5 ≤ n ∧ ∃ r ∈ s.heap.kmalloc lengthens fuel n, _))
  | .kfree p => inferInstanceAs (Decidable (p ∈ s.live.map Prod.fst))

/-- Two freed blocks of eight bytes are merged for a request of seventeen, and not split. -/
theorem chain_tiles_merged :
    Run.Always (step (fun _ => true) 0x1000) Tiled (start fun _ => 0)
        [.kmalloc 8, .kmalloc 8, .kmalloc 8, .kfree (heapStart + 5), .kfree (heapStart + 18),
          .kmalloc 17, .kmalloc 8] ∧
      Run.Along (step (fun _ => true) 0x1000) (Spares (fun _ => true) 0x1000) (start fun _ => 0)
        [.kmalloc 8, .kmalloc 8, .kmalloc 8, .kfree (heapStart + 5), .kfree (heapStart + 18),
          .kmalloc 17, .kmalloc 8] :=
  chain_tiles _ _ le_rfl _ _ (by decide +kernel)

end Live

end TitanOS
