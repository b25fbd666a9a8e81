import TitanOS.Heap.Reuse

/-!
# Behind the last block

When no free block and no run of free blocks is large enough, the loops of `kmalloc` run off the
end of the chain, in one of two ways: the last block is used, and the outer loop stands at
`heap_end`; or the chain ends in a run of free blocks (`openRun`), and the inner loop goes on
merging behind it.  `reaches_heapEnd` and `reaches_openRun` say so.

What happens next depends on bytes outside of the heap, so the loops are described without fuel:
`Merges` and `Returns` are the results of the two loops, and `Continues` is one round of the outer
loop that does not return.  Such a round keeps the result (`Reaches.returns_iff`).
-/

namespace TitanOS

namespace Block

/-- A free block at `offset` joins the run of free blocks before it, if there is one. -/
def join (offset : ℕ) (run : Option Placement) (b : Block) : Placement :=
  match run with
  | none => ⟨offset, b.size, b.size⟩
  | some r => { r with total := r.total + (b.size + 5) }

/-- The run of free blocks that the chain ends in. -/
def openRun : ℕ → Option Placement → List Block → Option Placement
  | _, run, [] => run
  | offset, run, b :: bs =>
    openRun (offset + (b.size + 5)) (if b.used then none else some (join offset run b)) bs

variable {n offset : ℕ} {b : Block} {bs : List Block} {run : Option Placement} {r : Placement}

theorem openRun_used (hb : b.used = true) (run : Option Placement) :
    openRun offset run (b :: bs) = openRun (offset + (b.size + 5)) none bs := by
  rw [openRun, if_pos hb]

theorem openRun_free (hb : b.used = false) (run : Option Placement) :
    openRun offset run (b :: bs) =
      openRun (offset + (b.size + 5)) (some (join offset run b)) bs := by
  rw [openRun, if_neg (by simp [hb])]

/-- Without a place, the run is too short wherever it gets to. -/
theorem place_free_eq_none (hb : b.used = false) :
    place n offset run (b :: bs) = none ↔
      (join offset run b).total < n ∧
        place n (offset + (b.size + 5)) (some (join offset run b)) bs = none := by
  cases run with
  | none =>
    rw [place_free_none hb]
    by_cases hfit : n ≤ b.size
    · simp [join, hfit]
    · simp [join, hfit, Nat.lt_of_not_le hfit]
  | some r =>
    rw [place_free_some hb]
    by_cases hfit : n ≤ r.total + (b.size + 5)
    · simp [join, hfit]
    · simp [join, hfit, Nat.lt_of_not_le hfit]

/-- A run of free blocks that is too short and ends at `offset`. -/
def Short (n offset : ℕ) (r : Placement) : Prop := r.total < n ∧ r.offset + 5 + r.total = offset

theorem short_join (hrun : ∀ r ∈ run, Short n offset r) (hlt : (join offset run b).total < n) :
    Short n (offset + (b.size + 5)) (join offset run b) := by
  refine ⟨hlt, ?_⟩
  cases run with
  | none =>
    simp only [join]
    omega
  | some r =>
    have := (hrun r rfl).2
    simp only [join]
    omega

/-- The run at the end is too short and ends where the chain does. -/
theorem openRun_short (hp : place n offset run bs = none) (hrun : ∀ r ∈ run, Short n offset r)
    (hr : openRun offset run bs = some r) : Short n (offset + span bs) r := by
  induction bs generalizing offset run with
  | nil => exact hrun r hr
  | cons b bs ih =>
    rw [span_cons, ← Nat.add_assoc]
    cases hb : b.used with
    | true =>
      rw [place_used hb] at hp
      rw [openRun_used hb] at hr
      exact ih hp (fun _ hx => by cases hx) hr
    | false =>
      obtain ⟨hlt, hp⟩ := (place_free_eq_none hb).1 hp
      rw [openRun_free hb] at hr
      refine ih hp (fun x hx => ?_) hr
      rw [← Option.some.inj hx]
      exact short_join hrun hlt

end Block

namespace Heap

open Block

variable {lengthens : ℕ → Bool} {n curr nxt total fuel fuel' : ℕ} {h h' g : Heap} {bs : List Block}

/-! ### The loops without fuel -/

/-- `if (next_mem_region >= heap_end) get_more_pages(PAGE_ROUND(short))`. -/
def growAt (lengthens : ℕ → Bool) (h : Heap) (nxt short : ℕ) : Heap :=
  if h.heapEnd ≤ nxt then h.getMorePages lengthens (toInt32 (pageRound short)) else h

/-- The top of the outer loop: behind `heap_end` a page is requested and a header written. -/
def arrive (lengthens : ℕ → Bool) (h : Heap) (curr : ℕ) : Heap :=
  if h.heapEnd ≤ curr then (h.getMorePages lengthens 1).writeNewMemReg curr else h

/-- The inner loop ends with the result `x`. -/
def Merges (lengthens : ℕ → Bool) (curr n : ℕ) (h : Heap) (nxt total : ℕ)
    (x : Heap × (ℕ ⊕ ℕ)) : Prop :=
  ∃ fuel, mergeLoop lengthens curr n fuel h nxt total = some x

/-- The outer loop ends with the result `r`. -/
def Returns (lengthens : ℕ → Bool) (n : ℕ) (s : Heap × ℕ) (r : Heap × ℕ) : Prop :=
  ∃ fuel, kmallocLoop lengthens n fuel s.1 s.2 = some r

theorem merges_used (hu : h.used nxt = true) {x : Heap × (ℕ ⊕ ℕ)} :
    Merges lengthens curr n h nxt total x ↔ x = (h, .inr nxt) := by
  constructor
  · rintro ⟨fuel, hf⟩
    cases fuel with
    | zero => cases hf
    | succ fuel =>
      rw [mergeLoop, if_pos hu] at hf
      exact (Option.some.inj hf).symm
  · rintro rfl
    exact ⟨1, by rw [mergeLoop, if_pos hu]⟩

theorem merges_fit (hu : h.used nxt = false) (hfit : n ≤ (total + h.size nxt + 5) % 2 ^ 32)
    {x : Heap × (ℕ ⊕ ℕ)} : Merges lengthens curr n h nxt total x ↔
      x = (h.takeMerged curr n ((total + h.size nxt + 5) % 2 ^ 32), .inl (curr + 5)) := by
  constructor
  · rintro ⟨fuel, hf⟩
    cases fuel with
    | zero => cases hf
    | succ fuel =>
      rw [mergeLoop, if_neg (by simp [hu]), if_pos hfit] at hf
      exact (Option.some.inj hf).symm
  · rintro rfl
    exact ⟨1, by rw [mergeLoop, if_neg (by simp [hu]), if_pos hfit]⟩

theorem merges_short (hu : h.used nxt = false) (hshort : (total + h.size nxt + 5) % 2 ^ 32 < n)
    {x : Heap × (ℕ ⊕ ℕ)} : Merges lengthens curr n h nxt total x ↔
      Merges lengthens curr n (h.growAt lengthens (h.goToNextMemoryRegion nxt)
        (n - (total + h.size nxt + 5) % 2 ^ 32)) (h.goToNextMemoryRegion nxt)
        ((total + h.size nxt + 5) % 2 ^ 32) x := by
  have hstep : ∀ fuel, mergeLoop lengthens curr n (fuel + 1) h nxt total =
      mergeLoop lengthens curr n fuel (h.growAt lengthens (h.goToNextMemoryRegion nxt)
        (n - (total + h.size nxt + 5) % 2 ^ 32)) (h.goToNextMemoryRegion nxt)
        ((total + h.size nxt + 5) % 2 ^ 32) := fun fuel => by
    rw [mergeLoop, if_neg (by simp [hu]), if_neg (not_le.2 hshort)]
    rfl
  constructor
  · rintro ⟨fuel, hf⟩
    cases fuel with
    | zero => cases hf
    | succ fuel => exact ⟨fuel, by rwa [hstep] at hf⟩
  · rintro ⟨fuel, hf⟩
    exact ⟨fuel + 1, by rwa [hstep]⟩

theorem mergeLoop_mono {x : Heap × (ℕ ⊕ ℕ)} (hle : fuel ≤ fuel')
    (hf : mergeLoop lengthens curr n fuel h nxt total = some x) :
    mergeLoop lengthens curr n fuel' h nxt total = some x := by
  induction fuel generalizing h nxt total fuel' with
  | zero => cases hf
  | succ fuel ih =>
    obtain ⟨fuel', rfl⟩ : ∃ m, fuel' = m + 1 := ⟨fuel' - 1, by omega⟩
    simp only [mergeLoop] at hf ⊢
    by_cases hu : h.used nxt = true
    · rwa [if_pos hu] at hf ⊢
    rw [if_neg hu] at hf ⊢
    by_cases hfit : n ≤ (total + h.size nxt + 5) % 2 ^ 32
    · rwa [if_pos hfit] at hf ⊢
    rw [if_neg hfit] at hf ⊢
    exact ih (Nat.le_of_succ_le_succ hle) hf

/-- What is left of the outer loop once the inner one has ended with `x`. -/
def afterMerge (lengthens : ℕ → Bool) (n fuel : ℕ) (x : Heap × (ℕ ⊕ ℕ)) : Option (Heap × ℕ) :=
  match x.2 with
  | .inl p => some (x.1, p)
  | .inr nxt => kmallocLoop lengthens n fuel x.1 (x.1.goToNextMemoryRegion nxt)

/-- One round of the outer loop. -/
theorem kmallocLoop_succ : kmallocLoop lengthens n (fuel + 1) h curr =
    let g := h.arrive lengthens curr
    if g.used curr then kmallocLoop lengthens n fuel g (g.goToNextMemoryRegion curr)
    else if n ≤ g.size curr then some (g.takeBlock curr n, curr + 5)
    else (mergeLoop lengthens curr n fuel
      (g.growAt lengthens (g.goToNextMemoryRegion curr) (n - g.size curr))
      (g.goToNextMemoryRegion curr) (g.size curr)).bind (afterMerge lengthens n fuel) := by
  obtain ⟨g, hg⟩ : ∃ g, h.arrive lengthens curr = g := ⟨_, rfl⟩
  have hg' : (if h.heapEnd ≤ curr then (h.getMorePages lengthens 1).writeNewMemReg curr else h) =
    g := hg
  simp only [kmallocLoop, hg, hg']
  by_cases hu : g.used curr = true
  · rw [if_pos hu, if_pos hu]
  by_cases hfit : n ≤ g.size curr
  · rw [if_neg hu, if_neg hu, if_pos hfit, if_pos hfit]
  rw [if_neg hu, if_neg hu, if_neg hfit, if_neg hfit, growAt]
  cases mergeLoop lengthens curr n fuel
    (if g.heapEnd ≤ g.goToNextMemoryRegion curr then
      g.getMorePages lengthens (toInt32 (pageRound (n - g.size curr))) else g)
    (g.goToNextMemoryRegion curr) (g.size curr) with
  | none => rfl
  | some x =>
    obtain ⟨g', p | nxt⟩ := x
    · rfl
    · rfl

theorem kmallocLoop_mono {r : Heap × ℕ} (hle : fuel ≤ fuel')
    (hf : kmallocLoop lengthens n fuel h curr = some r) :
    kmallocLoop lengthens n fuel' h curr = some r := by
  induction fuel generalizing h curr fuel' with
  | zero => cases hf
  | succ fuel ih =>
    obtain ⟨fuel', rfl⟩ : ∃ m, fuel' = m + 1 := ⟨fuel' - 1, by omega⟩
    have hle := Nat.le_of_succ_le_succ hle
    rw [kmallocLoop_succ] at hf ⊢
    simp only at hf ⊢
    split_ifs at hf ⊢ with hu hfit
    · exact ih hle hf
    · exact hf
    · obtain ⟨x, hx, hr⟩ := Option.bind_eq_some_iff.1 hf
      rw [mergeLoop_mono hle hx, Option.bind_some]
      obtain ⟨g, p | nxt⟩ := x
      · exact hr
      · exact ih hle hr

theorem returns_fit (hu : (h.arrive lengthens curr).used curr = false)
    (hfit : n ≤ (h.arrive lengthens curr).size curr) {r : Heap × ℕ} :
    Returns lengthens n (h, curr) r ↔
      r = ((h.arrive lengthens curr).takeBlock curr n, curr + 5) := by
  constructor
  · rintro ⟨fuel, hf⟩
    cases fuel with
    | zero => cases hf
    | succ fuel =>
      simp only [kmallocLoop_succ, hu, Bool.false_eq_true, if_false, if_pos hfit] at hf
      exact (Option.some.inj hf).symm
  · rintro rfl
    refine ⟨1, ?_⟩
    simp only [kmallocLoop_succ, hu, Bool.false_eq_true, if_false, if_pos hfit]

/-- Case 3: the result is that of the inner loop, or of the outer loop behind the used block that
the inner one has met. -/
theorem returns_merge (hu : (h.arrive lengthens curr).used curr = false)
    (hshort : (h.arrive lengthens curr).size curr < n) {r : Heap × ℕ} :
    Returns lengthens n (h, curr) r ↔ ∃ x, Merges lengthens curr n
      ((h.arrive lengthens curr).growAt lengthens
        ((h.arrive lengthens curr).goToNextMemoryRegion curr)
        (n - (h.arrive lengthens curr).size curr))
      ((h.arrive lengthens curr).goToNextMemoryRegion curr)
      ((h.arrive lengthens curr).size curr) x ∧ ∃ fuel, afterMerge lengthens n fuel x = some r := by
  constructor
  · rintro ⟨fuel, hf⟩
    cases fuel with
    | zero => cases hf
    | succ fuel =>
      simp only [kmallocLoop_succ, hu, Bool.false_eq_true, if_false, if_neg (not_le.2 hshort)] at hf
      obtain ⟨x, hx, hr⟩ := Option.bind_eq_some_iff.1 hf
      exact ⟨x, ⟨fuel, hx⟩, fuel, hr⟩
  · rintro ⟨x, ⟨fuel, hx⟩, fuel', hr⟩
    refine ⟨max fuel fuel' + 1, ?_⟩
    simp only [kmallocLoop_succ, hu, Bool.false_eq_true, if_false, if_neg (not_le.2 hshort)]
    rw [mergeLoop_mono (le_max_left _ _) hx, Option.bind_some]
    obtain ⟨g, p | nxt⟩ := x
    · exact hr
    · exact kmallocLoop_mono (le_max_right _ _) hr

/-- One round of the outer loop that does not return. -/
inductive Continues (lengthens : ℕ → Bool) (n : ℕ) : Heap × ℕ → Heap × ℕ → Prop
  | used {h : Heap} {curr : ℕ} (hu : (h.arrive lengthens curr).used curr = true) :
    Continues lengthens n (h, curr)
      (h.arrive lengthens curr, (h.arrive lengthens curr).goToNextMemoryRegion curr)
  | merged {h h' : Heap} {curr nxt : ℕ} (hu : (h.arrive lengthens curr).used curr = false)
    (hshort : (h.arrive lengthens curr).size curr < n)
    (hm : Merges lengthens curr n ((h.arrive lengthens curr).growAt lengthens
        ((h.arrive lengthens curr).goToNextMemoryRegion curr)
        (n - (h.arrive lengthens curr).size curr))
      ((h.arrive lengthens curr).goToNextMemoryRegion curr)
      ((h.arrive lengthens curr).size curr) (h', .inr nxt)) :
    Continues lengthens n (h, curr) (h', h'.goToNextMemoryRegion nxt)

/-- The outer loop gets from one round to another. -/
def Reaches (lengthens : ℕ → Bool) (n : ℕ) : Heap × ℕ → Heap × ℕ → Prop :=
  Relation.ReflTransGen (Continues lengthens n)

theorem Merges.unique {x y : Heap × (ℕ ⊕ ℕ)} (hx : Merges lengthens curr n h nxt total x)
    (hy : Merges lengthens curr n h nxt total y) : x = y := by
  obtain ⟨fuel, hx⟩ := hx
  obtain ⟨fuel', hy⟩ := hy
  have hx' := mergeLoop_mono (le_max_left fuel fuel') hx
  rw [mergeLoop_mono (le_max_right fuel fuel') hy] at hx'
  exact (Option.some.inj hx').symm

theorem Continues.returns_iff {s t r : Heap × ℕ} (hc : Continues lengthens n s t) :
    Returns lengthens n s r ↔ Returns lengthens n t r := by
  cases hc with
  | used hu =>
    constructor
    · rintro ⟨fuel, hf⟩
      cases fuel with
      | zero => cases hf
      | succ fuel =>
        simp only [kmallocLoop_succ, hu, if_true] at hf
        exact ⟨fuel, hf⟩
    · rintro ⟨fuel, hf⟩
      refine ⟨fuel + 1, ?_⟩
      simp only [kmallocLoop_succ, hu, if_true]
      exact hf
  | merged hu hshort hm =>
    rw [returns_merge hu hshort]
    constructor
    · rintro ⟨x, hx, fuel, hr⟩
      rw [hx.unique hm] at hr
      exact ⟨fuel, hr⟩
    · rintro ⟨fuel, hr⟩
      exact ⟨_, hm, fuel, hr⟩

/-- A round that does not return keeps the result. -/
theorem Reaches.returns_iff {s t r : Heap × ℕ} (hr : Reaches lengthens n s t) :
    Returns lengthens n s r ↔ Returns lengthens n t r := by
  induction hr with
  | refl => exact Iff.rfl
  | tail _ hc ih => exact ih.trans hc.returns_iff

/-! ### Where the loops run off the chain -/

/-- At `curr` the outer loop finds a free block that is too small, and the inner loop merges up to
`heap_end`, where it stands with `total`. -/
structure RunsOff (lengthens : ℕ → Bool) (n : ℕ) (h : Heap) (curr total : ℕ) : Prop where
  lt : curr < h.heapEnd
  used : h.used curr = false
  short : h.size curr < n
  merges : ∀ x, Merges lengthens curr n
      (h.growAt lengthens (h.goToNextMemoryRegion curr) (n - h.size curr))
      (h.goToNextMemoryRegion curr) (h.size curr) x ↔
    Merges lengthens curr n (h.getMorePages lengthens (toInt32 (pageRound (n - total))))
      h.heapEnd total x

/-- From `start` the outer loop gets to `heap_end`, or to the run that the chain ends in. -/
def Ends (lengthens : ℕ → Bool) (n : ℕ) (h : Heap) (base start : ℕ) : Option Placement → Prop
  | none => Reaches lengthens n (h, start) (h, h.heapEnd)
  | some r => Reaches lengthens n (h, start) (h, base + r.offset) ∧
      h.RunsOff lengthens n (base + r.offset) (r.total % 2 ^ 32)

variable {offset base start : ℕ} {r : Placement}

theorem Ends.head {run : Option Placement} (hr : Reaches lengthens n (h, curr) (h, start))
    (he : h.Ends lengthens n base start run) : h.Ends lengthens n base curr run := by
  cases run with
  | none => exact hr.trans he
  | some r => exact ⟨hr.trans he.1, he.2⟩

theorem arrive_of_lt (hlt : curr < h.heapEnd) : h.arrive lengthens curr = h :=
  if_neg (not_le.2 hlt)

theorem growAt_of_tiles (ht : h.Tiles nxt bs h.heapEnd) (short : ℕ) : h.growAt lengthens nxt short =
    if bs = [] then h.getMorePages lengthens (toInt32 (pageRound short)) else h := by
  cases bs with
  | nil => exact if_pos (Nat.le_of_eq (Eq.symm ht))
  | cons b bs =>
    have hend := ht.end_eq
    rw [span_cons] at hend
    exact if_neg (by omega)

/-- From a run of free blocks the inner loop gets to a used block, or to the end of the chain. -/
theorem merges_of_tiles (hlt : h.heapEnd < 2 ^ 64) (ht : h.Tiles (base + offset) bs h.heapEnd)
    (hne : bs ≠ []) (hp : place n offset (some r) bs = none) :
    (∃ l₁ b l₂, bs = l₁ ++ b :: l₂ ∧ b.used = true ∧
      Merges lengthens curr n h (base + offset) (r.total % 2 ^ 32)
        (h, .inr (base + (offset + span l₁))) ∧
      place n (offset + span l₁ + (b.size + 5)) none l₂ = none ∧
      openRun offset (some r) bs = openRun (offset + span l₁ + (b.size + 5)) none l₂) ∨
    (∃ r', openRun offset (some r) bs = some r' ∧ r'.offset = r.offset ∧
      ∀ x, Merges lengthens curr n h (base + offset) (r.total % 2 ^ 32) x ↔
        Merges lengthens curr n
          (h.getMorePages lengthens (toInt32 (pageRound (n - r'.total % 2 ^ 32))))
          h.heapEnd (r'.total % 2 ^ 32) x) := by
  induction bs generalizing offset r with
  | nil => exact absurd rfl hne
  | cons b bs ih =>
    have hend := ht.end_eq
    obtain ⟨hu, hs, ht⟩ := ht
    rw [span_cons] at hend
    cases hb : b.used with
    | true =>
      rw [place_used hb] at hp
      exact Or.inl ⟨[], b, bs, rfl, hb, (merges_used (hu.trans hb)).2 rfl, hp, openRun_used hb _⟩
    | false =>
      obtain ⟨htot, hp⟩ := (place_free_eq_none hb).1 hp
      rw [openRun_free hb]
      have hnxt : h.goToNextMemoryRegion (base + offset) = base + (offset + (b.size + 5)) := by
        rw [goToNextMemoryRegion_eq (b := b) hs (by omega), Nat.add_assoc]
      -- the run goes on with the sizes of both, modulo the width of `mem_reg_size`
      have hjoin : (r.total % 2 ^ 32 + h.size (base + offset) + 5) % 2 ^ 32 =
          (join offset (some r) b).total % 2 ^ 32 := by
        simp only [join, hs]
        omega
      have hshort : (r.total % 2 ^ 32 + h.size (base + offset) + 5) % 2 ^ 32 < n := by
        rw [hjoin]
        exact (Nat.mod_le _ _).trans_lt htot
      rw [Nat.add_assoc] at ht
      have hstep := @merges_short lengthens n curr _ _ h (hu.trans hb) hshort
      simp only [hnxt, growAt_of_tiles ht, hjoin] at hstep
      by_cases hlast : bs = []
      · subst hlast
        refine Or.inr ⟨_, rfl, rfl, fun x => ?_⟩
        rw [hstep, if_pos rfl]
        rw [show base + (offset + (b.size + 5)) = h.heapEnd from ht]
      · simp only [if_neg hlast] at hstep
        rcases ih ht hlast hp with ⟨l₁, c, l₂, rfl, hc, hm, hp', hopen⟩ | ⟨r', hopen, hoff, hm⟩
        · have hassoc : offset + span (b :: l₁) = offset + (b.size + 5) + span l₁ := by
            rw [span_cons, ← Nat.add_assoc]
          refine Or.inl ⟨b :: l₁, c, l₂, rfl, hc, ?_, ?_, ?_⟩
          · rw [hstep, hassoc]
            exact hm
          · rw [hassoc]
            exact hp'
          · rw [hassoc]
            exact hopen
        · exact Or.inr ⟨r', hopen, hoff, fun x => hstep.trans (hm x)⟩

/-- **Without a place, the loops run off the end of the chain.** -/
theorem ends_openRun (hlt : h.heapEnd < 2 ^ 64) (ht : h.Tiles (base + offset) bs h.heapEnd)
    (hp : place n offset none bs = none) :
    h.Ends lengthens n base (base + offset) (openRun offset none bs) := by
  induction hk : bs.length using Nat.strong_induction_on generalizing bs offset with
  | h k ih =>
    cases bs with
    | nil =>
      rw [show base + offset = h.heapEnd from ht]
      exact Relation.ReflTransGen.refl
    | cons b bs =>
      have hend := ht.end_eq
      obtain ⟨hu, hs, ht⟩ := ht
      rw [span_cons] at hend
      have hin : base + offset < h.heapEnd := by omega
      have hnxt : h.goToNextMemoryRegion (base + offset) = base + (offset + (b.size + 5)) := by
        rw [goToNextMemoryRegion_eq (b := b) hs (by omega), Nat.add_assoc]
      have harr := @arrive_of_lt lengthens _ h hin
      rw [Nat.add_assoc] at ht
      rw [List.length_cons] at hk
      cases hb : b.used with
      | true =>
        rw [place_used hb] at hp
        rw [openRun_used hb]
        have hstep := @Continues.used lengthens n h (base + offset) (by rw [harr, hu, hb])
        rw [harr, hnxt] at hstep
        exact (ih bs.length (by omega) ht hp rfl).head (Relation.ReflTransGen.single hstep)
      | false =>
        obtain ⟨htot, hp⟩ := (place_free_eq_none hb).1 hp
        rw [openRun_free hb]
        have hsize : h.size (base + offset) = (join offset none b).total % 2 ^ 32 := by
          have := size_lt h (base + offset)
          simp only [join]
          omega
        have hshort : h.size (base + offset) < n := by
          rw [hsize]
          exact (Nat.mod_le _ _).trans_lt htot
        have hgrow := @growAt_of_tiles lengthens _ h bs ht (n - h.size (base + offset))
        by_cases hlast : bs = []
        · -- the last block of the chain is free and too small
          subst hlast
          refine ⟨Relation.ReflTransGen.refl, hin, hu.trans hb, hshort, fun x => ?_⟩
          simp only [join] at hsize ⊢
          rw [hnxt, hgrow, if_pos rfl, hsize,
            show base + (offset + (b.size + 5)) = h.heapEnd from ht]
        · rw [if_neg hlast] at hgrow
          have hmerge := @merges_of_tiles lengthens n (base + offset) h bs _ base _ hlt ht hlast hp
          rw [← hsize] at hmerge
          rcases hmerge with ⟨l₁, c, l₂, rfl, hc, hm, hp', hopen⟩ | ⟨r', hopen, hoff, hm⟩
          · -- behind the used block the outer loop starts afresh
            rw [hopen]
            rw [tiles_append] at ht
            obtain ⟨-, -, hsc, htc⟩ := ht
            simp only [span_append, span_cons] at hend
            have hnxt' : h.goToNextMemoryRegion (base + (offset + (b.size + 5) + span l₁)) =
                base + (offset + (b.size + 5) + span l₁ + (c.size + 5)) := by
              rw [goToNextMemoryRegion_eq (b := c) (by rw [← hsc]; congr 1; omega) (by omega)]
              omega
            have hstep := @Continues.merged lengthens n h h (base + offset)
              (base + (offset + (b.size + 5) + span l₁)) (by rw [harr, hu, hb])
              (by rwa [harr]) (by rw [harr, hnxt, hgrow]; exact hm)
            rw [hnxt'] at hstep
            refine (ih l₂.length ?_ ?_ hp' rfl).head (Relation.ReflTransGen.single hstep)
            · simp only [List.length_append, List.length_cons] at hk
              omega
            · rwa [← Nat.add_assoc base, ← Nat.add_assoc base]
          · rw [hopen]
            refine ⟨?_, ?_, ?_, ?_, ?_⟩ <;> rw [hoff]
            · exact Relation.ReflTransGen.refl
            · exact hin
            · exact hu.trans hb
            · exact hshort
            · intro x
              simp only [join]
              rw [hnxt, hgrow]
              exact hm x

end Heap

end TitanOS
