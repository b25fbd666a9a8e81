import TitanOS.Lib.SharedTail
import TitanOS.Vmm.RegionRuns
import TitanOS.Vmm.Spaces

/-!
# What the region lists of the address spaces share

`create_vmm` links the head of every new list to `kernel_text_obj`, and `vmm_alloc` keeps the lists
sorted by base.  So a region below `KERNEL_TEXT_START` is linked in front of `kernel_text_obj`,
behind a node of the current list only, and any other behind a node that all lists have in common.
`Shared` is the invariant: the lists share their tail from `kernel_text_obj` on, they are sorted,
and `kernel_text_obj` separates the two kinds of regions.
-/

namespace TitanOS

open Linked Run

/-- `KERNEL_TEXT_START`. -/
def kernelTextStart : ℕ := 0xffffff8000000000

namespace Kernel

/-- The region list with the given head. -/
def regionList (k : Kernel) (head : ℕ) : List ℕ :=
  toList k.regions.next k.regions.count (some head)

/-- The nodes from `kernel_text_obj` on. -/
def kernelObjects (k : Kernel) : List ℕ := k.regionList kernelTextObj

/-- The nodes of a list in front of `kernel_text_obj`. -/
def ownObjects (k : Kernel) (head : ℕ) : List ℕ :=
  (k.regionList head).takeWhile fun c => c ≠ kernelTextObj

/-- The region lists with heads in `S` are sorted and share their nodes from `kernel_text_obj` on,
which are those that start at or above it. -/
structure Shared (k : Kernel) (S : ℕ → Prop) (own : ℕ → List ℕ) (t : List ℕ) : Prop where
  lists : SharedTail k.regions.next (some kernelTextObj) S own t
  lt : ∀ a, S a → ∀ c ∈ own a ++ t, c < k.regions.count
  sorted : ∀ a, S a → (own a ++ t).Pairwise fun c d => k.regions.base c ≤ k.regions.base d
  low : ∀ a, S a → ∀ c ∈ own a, k.regions.base c < kernelTextStart
  text : k.regions.base kernelTextObj = kernelTextStart
  window : kernelTextStart ≤ k.regions.base kernelPageTblsObj
  head : ∀ a, S a → k.regions.base a = 0
  current : S k.currentVmm

variable {k k' : Kernel} {S : ℕ → Prop} {own : ℕ → List ℕ} {t : List ℕ} {a c d s n : ℕ}

/-! ### The parts of the lists -/

theorem Shared.exists_tail (h : k.Shared S own t) : ∃ t', t = kernelTextObj :: t' := by
  obtain ⟨t', ht, -⟩ := path_some.1 h.lists.common
  exact ⟨t', ht⟩

theorem Shared.high (h : k.Shared S own t) (hc : c ∈ t) : kernelTextStart ≤ k.regions.base c := by
  obtain ⟨t', rfl⟩ := h.exists_tail
  rcases List.mem_cons.1 hc with rfl | hc
  · exact h.text.ge
  · have hsorted := (List.pairwise_append.1 (h.sorted _ h.current)).2.1
    exact h.text.ge.trans ((List.pairwise_cons.1 hsorted).1 c hc)

theorem Shared.lt_tail (h : k.Shared S own t) (hc : c ∈ t) : c < k.regions.count :=
  h.lt _ h.current c (List.mem_append_right _ hc)

theorem Shared.lt_own (h : k.Shared S own t) (ha : S a) (hc : c ∈ own a) : c < k.regions.count :=
  h.lt a ha c (List.mem_append_left _ hc)

/-- The list of the current space. -/
theorem Shared.listed (h : k.Shared S own t) : k.Listed (own k.currentVmm ++ t) :=
  ⟨⟨h.lists.path _ h.current, h.lt _ h.current⟩, h.sorted _ h.current⟩

theorem Shared.regionList_eq (h : k.Shared S own t) (ha : S a) : k.regionList a = own a ++ t :=
  toList_eq (h.lists.path a ha) ((h.lists.path a ha).length_le (h.lt a ha))

theorem Shared.kernelObjects_eq (h : k.Shared S own t) : k.kernelObjects = t :=
  toList_eq h.lists.common (h.lists.common.length_le fun _ hc => h.lt_tail hc)

theorem Shared.ownObjects_eq (h : k.Shared S own t) (ha : S a) : k.ownObjects a = own a := by
  obtain ⟨t', ht⟩ := h.exists_tail
  rw [ownObjects, h.regionList_eq ha, ht, List.takeWhile_append_of_pos, List.takeWhile_cons_of_neg]
  · simp
  · simp
  · intro c hc
    have hlow := h.low a ha c hc
    rw [← h.text] at hlow
    simp only [decide_eq_true_eq, ne_eq]
    rintro rfl
    exact hlow.false

/-! ### Writes to the regions -/

/-- Lengths do not matter. -/
theorem Shared.keeps (h : k.Shared S own t) (hk : k.Keeps k') : k'.Shared S own t := by
  refine ⟨?_, ?_, ?_, ?_, ?_, ?_, ?_, ?_⟩
  · rw [hk.next]
    exact h.lists
  · rw [hk.count]
    exact h.lt
  · rw [hk.base]
    exact h.sorted
  · rw [hk.base]
    exact h.low
  · rw [hk.base]
    exact h.text
  · rw [hk.base]
    exact h.window
  · rw [hk.base]
    exact h.head
  · rw [hk.currentVmm]
    exact h.current

theorem Shared.mem_self (h : k.Shared S own t) (ha : S a) : a ∈ own a := by
  obtain ⟨r, hr, -⟩ := path_some.1 (h.lists.path a ha)
  have hmem : a ∈ own a ++ t := by
    rw [hr]
    exact List.mem_cons_self
  refine (List.mem_append.1 hmem).resolve_right fun hat => ?_
  have hhigh := h.high hat
  rw [h.head a ha] at hhigh
  exact absurd hhigh (by decide)

/-- The regions that were there keep their bases. -/
theorem Shared.update {own' : ℕ → List ℕ} {t' : List ℕ} (h : k.Shared S own t)
    (hcur : k'.currentVmm = k.currentVmm)
    (hbase : ∀ d, d < k.regions.count → k'.regions.base d = k.regions.base d)
    (hlists : SharedTail k'.regions.next (some kernelTextObj) S own' t')
    (hlt : ∀ a, S a → ∀ c ∈ own' a ++ t', c < k'.regions.count)
    (hsorted : ∀ a, S a → (own' a ++ t').Pairwise fun c d =>
      k'.regions.base c ≤ k'.regions.base d)
    (hlow : ∀ a, S a → ∀ c ∈ own' a, k'.regions.base c < kernelTextStart) :
    k'.Shared S own' t' := by
  obtain ⟨t₀, ht⟩ := h.exists_tail
  have htext : kernelTextObj < k.regions.count := h.lt_tail (by rw [ht]; exact List.mem_cons_self)
  have hzero : kernelPageTblsObj < k.regions.count := lt_trans (by decide) htext
  refine ⟨hlists, hlt, hsorted, hlow, ?_, ?_, fun a ha => ?_, ?_⟩
  · rw [hbase _ htext, h.text]
  · rw [hbase _ hzero]
    exact h.window
  · rw [hbase a (h.lt_own ha (h.mem_self ha)), h.head a ha]
  · rw [hcur]
    exact h.current

section Insert

variable {l₁ l₂ : List ℕ} {flags : ℕ}

/-- The list stays sorted if a region is linked in its place. -/
theorem pairwise_insertRegion {l : List ℕ} (hlt : ∀ d ∈ l, d < k.regions.count)
    (hl : l = l₁ ++ c :: l₂) (hsorted : l.Pairwise fun c d => k.regions.base c ≤ k.regions.base d)
    (hle : ∀ d ∈ l₁ ++ [c], k.regions.base d ≤ s) (hge : ∀ d ∈ l₂, s ≤ k.regions.base d) :
    (l₁ ++ c :: k.regions.count :: l₂).Pairwise fun x y =>
      (insertRegion k.regions c s n flags).base x ≤ (insertRegion k.regions c s n flags).base y := by
  have hbase := fun d hd => (@insertRegion_of_lt s n c k.regions d flags hd).1
  have hnew := (@insertRegion_self s n c k.regions flags).1
  subst hl
  refine pairwise_insert (hsorted.imp_of_mem fun {x y} hx hy hxy => ?_) (fun d hd => ?_)
    fun d hd => ?_
  · rwa [hbase x (hlt x hx), hbase y (hlt y hy)]
  · have hd' : d ∈ l₁ ++ c :: l₂ := by
      simp only [List.mem_append, List.mem_cons, List.not_mem_nil, or_false] at hd ⊢
      tauto
    rw [hbase d (hlt d hd'), hnew]
    exact hle d hd
  · rw [hbase d (hlt d (by simp [hd])), hnew]
    exact hge d hd

/-- A region below `KERNEL_TEXT_START` is linked in front of `kernel_text_obj`. -/
theorem Shared.insert_own (h : k.Shared S own t) (hl : own k.currentVmm = l₁ ++ c :: l₂)
    (hs : s < kernelTextStart) (hle : ∀ d ∈ l₁ ++ [c], k.regions.base d ≤ s)
    (hge : ∀ d ∈ l₂ ++ t, s ≤ k.regions.base d) :
    ({ k with regions := insertRegion k.regions c s n flags } : Kernel).Shared S
      (Function.update own k.currentVmm (l₁ ++ c :: k.regions.count :: l₂)) t := by
  have hnew : ∀ a, S a → k.regions.count ∉ own a := fun a ha hx => (h.lt_own ha hx).false
  have hnewt : k.regions.count ∉ t := fun hx => (h.lt_tail hx).false
  have hbase := fun d hd => (@insertRegion_of_lt s n c k.regions d flags hd).1
  have hcount := (@insertRegion_self s n c k.regions flags).1
  have hlist := h.listed
  have hsplit : own k.currentVmm ++ t = l₁ ++ c :: (l₂ ++ t) := by
    rw [hl, List.append_assoc, List.cons_append]
  have hmem : ∀ a, S a → ∀ x ∈ Function.update own k.currentVmm
      (l₁ ++ c :: k.regions.count :: l₂) a, x ∈ own a ∨ x = k.regions.count := by
    intro a ha x hx
    by_cases hac : a = k.currentVmm
    · subst hac
      rw [Function.update_self] at hx
      rw [hl]
      simp only [List.mem_append, List.mem_cons] at hx ⊢
      tauto
    · rw [Function.update_of_ne hac] at hx
      exact Or.inl hx
  refine h.update rfl hbase ?_ (fun a ha x hx => ?_) (fun a ha => ?_) fun a ha x hx => ?_
  · have hlists := h.lists.update_of_notMem (q := k.regions.next c) hnew hnewt
    refine hlists.splice_own h.current hl ⟨rfl, ?_⟩ ?_ ?_
    · rw [Function.update_self]
      have hpath := hlist.path
      rw [hsplit] at hpath
      refine hpath.suffix.update_of_notMem fun hx => ?_
      exact (hlist.lt _ (by
        rw [hsplit]
        exact List.mem_append_right _ (List.mem_cons_of_mem _ hx))).false
    · have hnd := (List.nodup_append.1 (hsplit ▸ hlist.path.nodup)).2.1
      intro hc
      rcases List.mem_cons.1 hc with rfl | hc
      · exact hnew _ h.current (by rw [hl]; simp)
      · exact (List.nodup_cons.1 hnd).1 (List.mem_append_left t hc)
    · intro b hb hne x hx hxb
      rcases List.mem_cons.1 hx with rfl | hx
      · exact hnew b hb hxb
      · exact h.lists.apart b _ hb h.current hne hxb (by rw [hl]; simp [hx])
  · rcases List.mem_append.1 hx with hx | hx
    · rcases hmem a ha x hx with hx | rfl
      · exact Nat.lt_succ_of_lt (h.lt_own ha hx)
      · exact Nat.lt_succ_self _
    · exact Nat.lt_succ_of_lt (h.lt_tail hx)
  · by_cases hac : a = k.currentVmm
    · subst hac
      rw [Function.update_self, List.append_assoc]
      exact pairwise_insertRegion hlist.lt hsplit hlist.sorted hle hge
    · rw [Function.update_of_ne hac]
      refine (h.sorted a ha).imp_of_mem fun {x y} hx hy hxy => ?_
      rwa [hbase x (h.lt a ha x hx), hbase y (h.lt a ha y hy)]
  · rcases hmem a ha x hx with hx | rfl
    · rw [hbase x (h.lt_own ha hx)]
      exact h.low a ha x hx
    · rw [hcount]
      exact hs

/-- Any other region is linked into all lists. -/
theorem Shared.insert_tail (h : k.Shared S own (l₁ ++ c :: l₂)) (hs : kernelTextStart ≤ s)
    (hle : ∀ d ∈ l₁ ++ [c], k.regions.base d ≤ s) (hge : ∀ d ∈ l₂, s ≤ k.regions.base d) :
    ({ k with regions := insertRegion k.regions c s n flags } : Kernel).Shared S own
      (l₁ ++ c :: k.regions.count :: l₂) := by
  have hnew : ∀ a, S a → k.regions.count ∉ own a := fun a ha hx => (h.lt_own ha hx).false
  have hnewt : k.regions.count ∉ l₁ ++ c :: l₂ := fun hx => (h.lt_tail hx).false
  have hbase := fun d hd => (@insertRegion_of_lt s n c k.regions d flags hd).1
  refine h.update rfl hbase ?_ (fun a ha x hx => ?_) (fun a ha => ?_) fun a ha x hx => ?_
  · have hlists := h.lists.update_of_notMem (q := k.regions.next c) hnew hnewt
    refine hlists.splice_tail ⟨rfl, ?_⟩ ?_
    · rw [Function.update_self]
      exact h.lists.common.suffix.update_of_notMem fun hx => hnewt (by simp [hx])
    · have hnd := (List.nodup_append.1 h.lists.common.nodup).2.1
      intro hc
      rcases List.mem_cons.1 hc with hc | hc
      · exact hnewt (hc ▸ by simp)
      · exact (List.nodup_cons.1 hnd).1 hc
  · have hx' : x ∈ own a ++ (l₁ ++ c :: l₂) ∨ x = k.regions.count := by
      simp only [List.mem_append, List.mem_cons] at hx ⊢
      tauto
    rcases hx' with hx | rfl
    · exact Nat.lt_succ_of_lt (h.lt a ha x hx)
    · exact Nat.lt_succ_self _
  · rw [← List.append_assoc]
    refine pairwise_insertRegion (h.lt a ha) (List.append_assoc _ _ _).symm (h.sorted a ha)
      (fun d hd => ?_) hge
    rw [List.append_assoc] at hd
    rcases List.mem_append.1 hd with hd | hd
    · exact ((h.low a ha d hd).trans_le hs).le
    · exact hle d hd
  · rw [hbase x (h.lt_own ha hx)]
    exact h.low a ha x hx

end Insert

section Unlink

variable {l₁ l₂ : List ℕ} {next : ℕ → Option ℕ}

/-- Nodes are taken off the lists. -/
theorem Shared.sublist {own' : ℕ → List ℕ} {t' : List ℕ} (h : k.Shared S own t)
    (hlists : SharedTail next (some kernelTextObj) S own' t')
    (hown : ∀ a, S a → (own' a).Sublist (own a)) (ht : t'.Sublist t) :
    ({ k with regions := { k.regions with next := next } } : Kernel).Shared S own' t' := by
  have hsub := fun a ha => (hown a ha).append ht
  exact h.update rfl (fun _ _ => rfl) hlists
    (fun a ha c hc => h.lt a ha c ((hsub a ha).subset hc))
    (fun a ha => (h.sorted a ha).sublist (hsub a ha))
    fun a ha c hc => h.low a ha c ((hown a ha).subset hc)

theorem Shared.unlink_own (h : k.Shared S own t) (hl : own k.currentVmm = l₁ ++ c :: d :: l₂) :
    ({ k with regions := { k.regions with
        next := Function.update k.regions.next c (k.regions.next d) } } : Kernel).Shared S
      (Function.update own k.currentVmm (l₁ ++ c :: l₂)) t := by
  have hpath := h.lists.path _ h.current
  rw [hl] at hpath
  have hq : Path k.regions.next (k.regions.next d) (l₂ ++ t) := by
    rw [List.append_cons, List.append_assoc, List.cons_append] at hpath
    exact hpath.suffix
  have hnd := hpath.nodup
  have hc : c ∉ l₂ := by
    intro hc
    rw [List.append_assoc, List.nodup_append] at hnd
    simp [hc] at hnd
  have hsub : (l₁ ++ c :: l₂).Sublist (own k.currentVmm) := by
    rw [hl]
    exact ((List.sublist_cons_self d l₂).cons_cons c).append_left l₁
  refine h.sublist (h.lists.splice_own h.current hl hq hc fun b hb hne x hx hxb => ?_)
    (fun a ha => ?_) (List.Sublist.refl t)
  · exact h.lists.apart b _ hb h.current hne hxb (by rw [hl]; simp [hx])
  · by_cases hac : a = k.currentVmm
    · subst hac
      rwa [Function.update_self]
    · rw [Function.update_of_ne hac]

theorem Shared.unlink_tail (h : k.Shared S own (l₁ ++ c :: d :: l₂)) :
    ({ k with regions := { k.regions with
        next := Function.update k.regions.next c (k.regions.next d) } } : Kernel).Shared S own
      (l₁ ++ c :: l₂) := by
  have hpath := h.lists.common
  have hq : Path k.regions.next (k.regions.next d) l₂ := by
    rw [List.append_cons] at hpath
    exact hpath.suffix
  have hc : c ∉ l₂ := by
    have hnd := (List.nodup_append.1 hpath.nodup).2.1
    intro hc
    simp [hc] at hnd
  exact h.sublist (h.lists.splice_tail hq hc) (fun a _ => List.Sublist.refl _)
    (((List.sublist_cons_self d l₂).cons_cons c).append_left l₁)

end Unlink

/-! ### What a call changes -/

/-- The regions on `l` keep their fields. -/
def SameRegions (k k' : Kernel) (l : List ℕ) : Prop :=
  ∀ c ∈ l, k'.regions.base c = k.regions.base c ∧ k'.regions.length c = k.regions.length c ∧
    k'.regions.flags c = k.regions.flags c

/-- A call for a region at or above `KERNEL_TEXT_START` leaves the own nodes of all lists alone; any
other leaves the common nodes alone, apart from the length of `kernel_page_tbls_obj`, and the own
nodes of all lists but the current one. -/
structure Confined (k k' : Kernel) (S : ℕ → Prop) (start : ℕ) : Prop where
  kernel : kernelTextStart ≤ start → ∀ a, S a →
    k'.ownObjects a = k.ownObjects a ∧ k.SameRegions k' (k.ownObjects a)
  common : start < kernelTextStart → k'.kernelObjects = k.kernelObjects ∧
    k.SameRegions k' (k.kernelObjects.filter fun c => c ≠ kernelPageTblsObj) ∧
    k'.regions.base kernelPageTblsObj = k.regions.base kernelPageTblsObj ∧
    k'.regions.flags kernelPageTblsObj = k.regions.flags kernelPageTblsObj
  others : start < kernelTextStart → ∀ a, S a → a ≠ k.currentVmm →
    k'.ownObjects a = k.ownObjects a ∧ k.SameRegions k' (k.ownObjects a)

/-- What can be seen from the lists: the only length that changes, apart from that of
`kernel_page_tbls_obj`, is that of a region of the current list that starts at `start`. -/
theorem Shared.confined {own' : ℕ → List ℕ} {t' : List ℕ} {start : ℕ} (h : k.Shared S own t)
    (h' : k'.Shared S own' t')
    (hfields : ∀ c, c < k.regions.count → k'.regions.base c = k.regions.base c ∧
      k'.regions.flags c = k.regions.flags c)
    (hlen : ∀ c, c < k.regions.count → c ≠ kernelPageTblsObj →
      k'.regions.length c = k.regions.length c ∨
      (c ∈ own k.currentVmm ++ t ∧ k.regions.base c = start))
    (hown : kernelTextStart ≤ start → ∀ a, S a → own' a = own a)
    (ht : start < kernelTextStart → t' = t ∧ ∀ a, S a → a ≠ k.currentVmm → own' a = own a) :
    k.Confined k' S start := by
  have hne : ∀ a, S a → ∀ c ∈ own a, c ≠ kernelPageTblsObj := by
    rintro a ha c hc rfl
    exact absurd (h.low a ha _ hc) h.window.not_gt
  have hsame : ∀ l : List ℕ, (∀ c ∈ l, c < k.regions.count) → (∀ c ∈ l, c ≠ kernelPageTblsObj) →
      (∀ c ∈ l, c ∈ own k.currentVmm ++ t → k.regions.base c ≠ start) → k.SameRegions k' l := by
    intro l hlt hl0 hl c hc
    obtain ⟨hbase, hflags⟩ := hfields c (hlt c hc)
    refine ⟨hbase, (hlen c (hlt c hc) (hl0 c hc)).resolve_right ?_, hflags⟩
    rintro ⟨hmem, hstart⟩
    exact hl c hc hmem hstart
  have hzero : kernelPageTblsObj < k.regions.count := by
    exact Nat.zero_lt_of_lt (h.lt_own h.current (h.mem_self h.current))
  refine ⟨fun hs a ha => ?_, fun hs => ?_, fun hs a ha hac => ?_⟩
  · rw [h'.ownObjects_eq ha, h.ownObjects_eq ha]
    refine ⟨hown hs a ha, hsame _ (fun c hc => h.lt_own ha hc) (hne a ha) fun c hc _ he => ?_⟩
    exact absurd (h.low a ha c hc) (by rw [he]; exact hs.not_gt)
  · rw [h'.kernelObjects_eq, h.kernelObjects_eq]
    refine ⟨(ht hs).1, hsame _ (fun c hc => ?_) (fun c hc => ?_) fun c hc _ he => ?_,
      hfields _ hzero⟩
    · exact h.lt_tail (List.mem_filter.1 hc).1
    · simpa using (List.mem_filter.1 hc).2
    · exact absurd (h.high (List.mem_filter.1 hc).1) (by rw [he]; exact hs.not_ge)
  · rw [h'.ownObjects_eq ha, h.ownObjects_eq ha]
    refine ⟨(ht hs).2 a ha hac,
      hsame _ (fun c hc => h.lt_own ha hc) (hne a ha) fun c hc hmem _ => ?_⟩
    rcases List.mem_append.1 hmem with hmem | hmem
    · exact h.lists.apart a _ ha h.current hac hc hmem
    · exact h.lists.notMem_tail ha hc hmem

theorem Shared.confined_self (h : k.Shared S own t) (start : ℕ) : k.Confined k S start :=
  h.confined h (fun _ _ => ⟨rfl, rfl⟩) (fun _ _ _ => Or.inl rfl) (fun _ _ _ => rfl)
    fun _ => ⟨rfl, fun _ _ _ => rfl⟩

theorem kernelTextStart_le_pageAlignDown {start : ℕ} :
    kernelTextStart ≤ pageAlignDown start ↔ kernelTextStart ≤ start := by
  unfold kernelTextStart pageAlignDown
  omega

/-! ### The calls -/

/-- **`vmm_alloc`** links a region below `KERNEL_TEXT_START` into the current list only. -/
theorem Shared.vmmAlloc {fuel start length flags args p : ℕ} (h : k.Shared S own t)
    (hstart : 0x1000 ≤ start)
    (hcall : Kernel.vmmAlloc fuel k start length flags args = some (k', p)) :
    ∃ own' t', k'.Shared S own' t' ∧ k.Confined k' S start := by
  rcases vmmAlloc_cases hcall with ⟨-, hx⟩ | ⟨c, found, k₁, ok, hfind, hmap, hx⟩
  · obtain ⟨rfl, -⟩ := Prod.mk.inj hx
    exact ⟨own, t, h, h.confined_self start⟩
  obtain ⟨rfl, -⟩ := Prod.mk.inj hx
  have hkeep := keeps_mapPages _ _ _ hmap
  rcases @findPlace_spec k _ (pageAlignDown start) (pageAlign length) h.listed
    (pageAlignDown_ne_zero hstart) with ⟨-, hnone⟩ | ⟨-, l₁, d, l₂, hl, hplace, hsplit⟩
  · rw [hnone] at hfind
    cases Option.some.inj hfind
  rw [hplace] at hfind
  obtain ⟨rfl, rfl⟩ := Prod.mk.inj (Option.some.inj (Option.some.inj hfind))
  obtain ⟨hle, hlt⟩ := hsplit (by rw [h.head _ h.current]; exact Nat.zero_le _)
  -- the fields of the regions that were there
  have hfields : ∀ x, x < k.regions.count → k'.regions.base x = k.regions.base x ∧
      k'.regions.flags x = k.regions.flags x := by
    intro x hx
    rw [hkeep.base, hkeep.flags]
    exact ⟨(insertRegion_of_lt hx).1, (insertRegion_of_lt hx).2.2⟩
  have hlen : ∀ x, x < k.regions.count → x ≠ kernelPageTblsObj →
      k'.regions.length x = k.regions.length x ∨
      (x ∈ own k.currentVmm ++ t ∧ k.regions.base x = start) :=
    fun x hx hx0 => Or.inl ((hkeep.length x hx0).trans (insertRegion_of_lt hx).2.1)
  rcases append_eq_append_cons hl with ⟨m, hm, rfl⟩ | ⟨m, rfl, rfl⟩
  · -- `kernel_text_obj` is behind the place
    have hs : pageAlignDown start < kernelTextStart := by
      obtain ⟨t', rfl⟩ := h.exists_tail
      have := hlt kernelTextObj (by simp)
      rwa [h.text] at this
    have hins := @Shared.insert_own k S own t d _ (pageAlign length) l₁ m flags h hm hs hle
      fun x hx => (hlt x hx).le
    refine ⟨_, t, hins.keeps hkeep, h.confined (hins.keeps hkeep) hfields hlen (fun hk => ?_)
      fun _ => ⟨rfl, fun a _ hac => Function.update_of_ne hac _ _⟩⟩
    exact absurd (kernelTextStart_le_pageAlignDown.2 hk) hs.not_ge
  · have hs : kernelTextStart ≤ pageAlignDown start :=
      (h.high (by simp)).trans (hle d (by simp))
    have hins := @Shared.insert_tail k S own d _ (pageAlign length) m l₂ flags h hs
      (fun x hx => hle x (by rw [List.append_assoc]; exact List.mem_append_right _ hx))
      fun x hx => (hlt x hx).le
    refine ⟨own, _, hins.keeps hkeep, h.confined (hins.keeps hkeep) hfields hlen
      (fun _ _ _ => rfl) fun hu => ?_⟩
    exact absurd (kernelTextStart_le_pageAlignDown.1 hs) hu.not_ge

/-- **`vmm_lengthen`** writes the length of one region of the current list. -/
theorem Shared.vmmLengthen {fuel start : ℕ} {inc : ℤ} {b : Bool} (h : k.Shared S own t)
    (hcall : Kernel.vmmLengthen fuel k start inc = some (k', b)) :
    k'.Shared S own t ∧ k.Confined k' S start := by
  rcases vmmLengthen_cases hcall with ⟨-, hx⟩ | ⟨c, length, hfind, hpages⟩
  · obtain ⟨rfl, -⟩ := Prod.mk.inj hx
    exact ⟨h, h.confined_self start⟩
  · obtain ⟨hc, hbase, -⟩ := h.listed.toChained.lengthened hfind
    have hkeep := keeps_lengthenPages _ _ hpages
    have hlong : (k.withLength c length).Shared S own t :=
      h.update rfl (fun _ _ => rfl) h.lists h.lt h.sorted h.low
    refine ⟨hlong.keeps hkeep, h.confined (hlong.keeps hkeep) (fun x _ => ?_) (fun x _ hx0 => ?_)
      (fun _ _ _ => rfl) fun _ => ⟨rfl, fun _ _ _ => rfl⟩⟩
    · rw [hkeep.base, hkeep.flags]
      exact ⟨rfl, rfl⟩
    · by_cases hxc : x = c
      · subst hxc
        exact Or.inr ⟨hc, hbase⟩
      · exact Or.inl ((hkeep.length x hx0).trans (Function.update_of_ne hxc _ _))

/-- The region that `vmm_free` takes off the current list. -/
def freedRegion (k : Kernel) (start : ℕ) : Option ℕ :=
  k.vmObjects.find? fun c => k.regions.base c == start

/-- **`vmm_free`** of a region other than `kernel_text_obj`. -/
theorem Shared.vmmFree {start : ℕ} (h : k.Shared S own t) (hd : k.freedRegion start = some d)
    (hd3 : d ≠ kernelTextObj) (hcall : k.vmmFree start = some k') :
    ∃ own' t', k'.Shared S own' t' ∧ k.Confined k' S start := by
  rw [freedRegion, h.listed.vmObjects_eq] at hd
  by_cases hhead : k.regions.base k.currentVmm = start
  · rw [Kernel.vmmFree, if_pos hhead, Option.some.injEq] at hcall
    subst hcall
    exact ⟨own, t, h, h.confined_self start⟩
  rcases vmmFree_eq h.listed.toChained hhead with
    ⟨hnone, -⟩ | ⟨l₁, c, e, l₂, hl, hbase, hfirst, hfree⟩
  · rw [hnone] at hcall
    cases hcall
  rw [hfree, Option.some.injEq] at hcall
  -- the region found is the first one that starts there
  obtain rfl : d = e := by
    rw [hl, List.append_cons, List.find?_append, List.find?_cons_of_pos (by simpa using hbase),
      List.find?_eq_none.2 (fun x hx => by simpa using hfirst x hx)] at hd
    simpa using hd.symm
  have hfields : ∀ x, x < k.regions.count → k'.regions.base x = k.regions.base x ∧
      k'.regions.flags x = k.regions.flags x := by
    intro x _
    rw [← hcall]
    exact ⟨rfl, rfl⟩
  have hlen : ∀ x, x < k.regions.count → x ≠ kernelPageTblsObj →
      k'.regions.length x = k.regions.length x ∨
      (x ∈ own k.currentVmm ++ t ∧ k.regions.base x = start) := by
    intro x _ _
    rw [← hcall]
    exact Or.inl rfl
  rcases append_eq_append_cons hl with ⟨m, hm, hrest⟩ | ⟨m, rfl, rfl⟩
  · -- behind a node of its own the current list has another one, or `kernel_text_obj`
    cases m with
    | nil =>
      obtain ⟨t', rfl⟩ := h.exists_tail
      exact absurd (List.cons.inj hrest).1 hd3
    | cons x m =>
      obtain ⟨rfl, rfl⟩ := List.cons.inj hrest
      have hs : start < kernelTextStart := by
        rw [← hbase]
        exact h.low _ h.current d (by rw [hm]; simp)
      have hun := h.unlink_own hm
      rw [hcall] at hun
      refine ⟨_, t, hun, h.confined hun hfields hlen (fun hk => ?_)
        fun _ => ⟨rfl, fun a _ hac => Function.update_of_ne hac _ _⟩⟩
      exact absurd hk hs.not_ge
  · have hs : kernelTextStart ≤ start := by
      rw [← hbase]
      exact h.high (by simp)
    have hun := h.unlink_tail
    rw [hcall] at hun
    exact ⟨own, _, hun, h.confined hun hfields hlen (fun _ _ _ => rfl) fun hu =>
      absurd hs hu.not_ge⟩

theorem keeps_createNewPml4t {fuel f : ℕ} (h : k.createNewPml4t fuel = some (k', f)) :
    k.Keeps k' := by
  unfold createNewPml4t at h
  simp only [Option.bind_eq_bind, Option.bind_eq_some_iff, Option.some.injEq, Prod.mk.injEq] at h
  obtain ⟨⟨k₁, f₁⟩, halloc, w, -, e, -, k₂, hstore, rfl, -⟩ := h
  exact (keeps_allocPgTable _ halloc).trans (steps_store hstore).keeps

/-- **`create_vmm`** makes a list of one node in front of `kernel_text_obj`. -/
theorem Shared.createVmm {fuel : ℕ} {vmm : Vmm} (h : k.Shared S own t)
    (hcall : k.createVmm fuel = some (k', vmm)) :
    k'.Shared (fun a => S a ∨ a = vmm.head) (Function.update own vmm.head [vmm.head]) t := by
  unfold Kernel.createVmm at hcall
  simp only [Option.bind_eq_bind, Option.bind_eq_some_iff, Option.some.injEq, Prod.mk.injEq] at hcall
  obtain ⟨⟨k₁, f⟩, hnew, rfl, rfl⟩ := hcall
  have h₁ := h.keeps (keeps_createNewPml4t hnew)
  have hout : ∀ a, S a → k₁.regions.count ∉ own a := fun a ha hx => (h₁.lt_own ha hx).false
  have houtt : k₁.regions.count ∉ t := fun hx => (h₁.lt_tail hx).false
  have hS : ¬ S k₁.regions.count := fun ha => hout _ ha (h₁.mem_self ha)
  have hold : ∀ a, S a →
      Function.update own k₁.regions.count [k₁.regions.count] a = own a := by
    intro a ha
    refine Function.update_of_ne ?_ _ _
    rintro rfl
    exact hS ha
  have hbase : ∀ d, d < k₁.regions.count →
      (newRegion k₁.regions 0 0 1 (some kernelTextObj)).base d = k₁.regions.base d :=
    fun d hd => Function.update_of_ne hd.ne _ _
  have hself : (newRegion k₁.regions 0 0 1 (some kernelTextObj)).base k₁.regions.count = 0 :=
    Function.update_self _ _ _
  have hlists := (h₁.lists.update_of_notMem (q := some kernelTextObj) hout houtt).insert_head
    (Function.update_self _ _ _) hout hS
  obtain ⟨t', ht⟩ := h₁.exists_tail
  have htext : kernelTextObj < k₁.regions.count := h₁.lt_tail (by rw [ht]; exact List.mem_cons_self)
  refine ⟨hlists, ?_, ?_, ?_, ?_, ?_, ?_, Or.inl h₁.current⟩
  · rintro a (ha | rfl) c hc
    · rw [hold a ha] at hc
      exact Nat.lt_succ_of_lt (h₁.lt a ha c hc)
    · rw [Function.update_self, List.singleton_append] at hc
      rcases List.mem_cons.1 hc with rfl | hc
      · exact Nat.lt_succ_self _
      · exact Nat.lt_succ_of_lt (h₁.lt_tail hc)
  · have hkept : ∀ l : List ℕ, (∀ c ∈ l, c < k₁.regions.count) →
        l.Pairwise (fun c d => k₁.regions.base c ≤ k₁.regions.base d) →
        l.Pairwise fun c d => (newRegion k₁.regions 0 0 1 (some kernelTextObj)).base c ≤
          (newRegion k₁.regions 0 0 1 (some kernelTextObj)).base d := by
      refine fun l hlt hl => hl.imp_of_mem fun {x y} hx hy hxy => ?_
      rwa [hbase x (hlt x hx), hbase y (hlt y hy)]
    rintro a (ha | rfl)
    · rw [hold a ha]
      exact hkept _ (h₁.lt a ha) (h₁.sorted a ha)
    · rw [Function.update_self, List.singleton_append]
      refine List.pairwise_cons.2 ⟨fun c _ => ?_, hkept _ (fun c hc => h₁.lt_tail hc) ?_⟩
      · rw [hself]
        exact Nat.zero_le _
      · exact (List.pairwise_append.1 (h₁.sorted _ h₁.current)).2.1
  · rintro a (ha | rfl) c hc
    · rw [hold a ha] at hc
      rw [hbase c (h₁.lt_own ha hc)]
      exact h₁.low a ha c hc
    · rw [Function.update_self, List.mem_singleton] at hc
      rw [hc, hself]
      decide
  · exact (hbase _ htext).trans h₁.text
  · rw [hbase _ (lt_trans (by decide) htext)]
    exact h₁.window
  · rintro a (ha | rfl)
    · rw [hbase a (h₁.lt_own ha (h₁.mem_self ha))]
      exact h₁.head a ha
    · exact hself

/-- **`switch_vm_space`** changes no list. -/
theorem Shared.switchVmSpace {vmm : Vmm} (h : k.Shared S own t) (hS : S vmm.head)
    (hcall : k.switchVmSpace vmm = some k') : k'.Shared S own t := by
  obtain ⟨w, -, rfl⟩ := Option.map_eq_some_iff.1 hcall
  exact ⟨h.lists, h.lt, h.sorted, h.low, h.text, h.window, h.head, hS⟩

end Kernel

/-! ### Runs -/

namespace Spaces

/-- The calls of a run. -/
inductive ListOp
  | createVmm
  | switchVmSpace (vmm : Vmm)
  | vmmAlloc (start length flags args : ℕ)
  | vmmLengthen (start : ℕ) (inc : ℤ)
  | vmmFree (start : ℕ)
  deriving Repr

/-- One call. -/
def listStep (fuel : ℕ) (s : Spaces) : ListOp → Option Spaces
  | .createVmm => (s.kernel.createVmm fuel).map fun x => ⟨x.1, s.spaces ++ [x.2]⟩
  | .switchVmSpace vmm => (s.kernel.switchVmSpace vmm).map fun k => ⟨k, s.spaces⟩
  | .vmmAlloc start length flags args =>
    (s.kernel.vmmAlloc fuel start length flags args).map fun x => ⟨x.1, s.spaces⟩
  | .vmmLengthen start inc => (s.kernel.vmmLengthen fuel start inc).map fun x => ⟨x.1, s.spaces⟩
  | .vmmFree start => (s.kernel.vmmFree start).map fun k => ⟨k, s.spaces⟩

/-- A space that is switched to has been created, a region that is requested does not start in the
first page, an increment is positive, and the region that is freed is on the current list.  Of the
four regions that the source initialises, it may be any but `kernel_text_obj`. -/
def Admissible (s : Spaces) : ListOp → Prop
  | .createVmm => True
  | .switchVmSpace vmm => vmm ∈ s.spaces
  | .vmmAlloc start _ _ _ => 0x1000 ≤ start
  | .vmmLengthen _ inc => 0 < inc
  | .vmmFree start => ∃ d ∈ s.kernel.freedRegion start, d ≠ kernelTextObj

/-- `a` is the head of the list of a space. -/
def Head (s : Spaces) (a : ℕ) : Prop := ∃ vmm ∈ s.spaces, vmm.head = a

/-- Every list consists of nodes of its own, and of the common nodes from `kernel_text_obj` on. -/
def SharesKernel (s : Spaces) : Prop :=
  (∃ t, s.kernel.kernelObjects = kernelTextObj :: t) ∧ ∀ a, s.Head a →
    Path s.kernel.regions.next (some a) (s.kernel.ownObjects a ++ s.kernel.kernelObjects) ∧
    ∀ b, s.Head b → a ≠ b → (s.kernel.ownObjects a).Disjoint (s.kernel.ownObjects b)

/-- A call changes its own kind of nodes only. -/
def ChangesOwnPart (fuel : ℕ) (s : Spaces) (o : ListOp) : Prop :=
  ∀ s', s.listStep fuel o = some s' →
    match o with
    | .createVmm => True
    | .switchVmSpace _ => True
    | .vmmAlloc start _ _ _ => s.kernel.Confined s'.kernel s.Head start
    | .vmmLengthen start _ => s.kernel.Confined s'.kernel s.Head start
    | .vmmFree start => s.kernel.Confined s'.kernel s.Head start

variable {s s' : Spaces}

theorem head_append (k : Kernel) (l : List Vmm) (vmm : Vmm) :
    Head ⟨k, l ++ [vmm]⟩ = fun a => Head ⟨k, l⟩ a ∨ a = vmm.head := by
  funext a
  simp only [Head, List.mem_append, List.mem_singleton, or_and_right, exists_or, exists_eq_left,
    @eq_comm ℕ a]

/-- One call. -/
theorem shared_listStep {fuel : ℕ} {o : ListOp} {own : ℕ → List ℕ} {t : List ℕ}
    (h : s.kernel.Shared s.Head own t) (ho : s.Admissible o) :
    s.ChangesOwnPart fuel o ∧ ∀ s', s.listStep fuel o = some s' →
      ∃ own' t', s'.kernel.Shared s'.Head own' t' := by
  cases o with
  | createVmm =>
    refine ⟨fun _ _ => trivial, fun s' hs' => ?_⟩
    obtain ⟨⟨k, vmm⟩, hcall, rfl⟩ := Option.map_eq_some_iff.1 hs'
    exact ⟨_, t, head_append k s.spaces vmm ▸ h.createVmm hcall⟩
  | switchVmSpace vmm =>
    refine ⟨fun _ _ => trivial, fun s' hs' => ?_⟩
    obtain ⟨k, hcall, rfl⟩ := Option.map_eq_some_iff.1 hs'
    exact ⟨own, t, h.switchVmSpace ⟨vmm, ho, rfl⟩ hcall⟩
  | vmmAlloc start length flags args =>
    have hcase : ∀ s', s.listStep fuel (.vmmAlloc start length flags args) = some s' →
        ∃ own' t', s'.kernel.Shared s'.Head own' t' ∧
          s.kernel.Confined s'.kernel s.Head start := by
      intro s' hs'
      obtain ⟨⟨k, p⟩, hcall, rfl⟩ := Option.map_eq_some_iff.1 hs'
      exact h.vmmAlloc ho hcall
    refine ⟨fun s' hs' => ?_, fun s' hs' => ?_⟩
    · obtain ⟨-, -, -, hc⟩ := hcase s' hs'
      exact hc
    · obtain ⟨own', t', hsh, -⟩ := hcase s' hs'
      exact ⟨own', t', hsh⟩
  | vmmLengthen start inc =>
    have hcase : ∀ s', s.listStep fuel (.vmmLengthen start inc) = some s' →
        s'.kernel.Shared s'.Head own t ∧ s.kernel.Confined s'.kernel s.Head start := by
      intro s' hs'
      obtain ⟨⟨k, b⟩, hcall, rfl⟩ := Option.map_eq_some_iff.1 hs'
      exact h.vmmLengthen hcall
    exact ⟨fun s' hs' => (hcase s' hs').2, fun s' hs' => ⟨own, t, (hcase s' hs').1⟩⟩
  | vmmFree start =>
    obtain ⟨d, hd, hd3⟩ := ho
    have hcase : ∀ s', s.listStep fuel (.vmmFree start) = some s' →
        ∃ own' t', s'.kernel.Shared s'.Head own' t' ∧
          s.kernel.Confined s'.kernel s.Head start := by
      intro s' hs'
      obtain ⟨k, hcall, rfl⟩ := Option.map_eq_some_iff.1 hs'
      exact h.vmmFree hd hd3 hcall
    refine ⟨fun s' hs' => ?_, fun s' hs' => ?_⟩
    · obtain ⟨-, -, -, hc⟩ := hcase s' hs'
      exact hc
    · obtain ⟨own', t', hsh, -⟩ := hcase s' hs'
      exact ⟨own', t', hsh⟩

theorem sharesKernel_of_shared {own : ℕ → List ℕ} {t : List ℕ}
    (h : s.kernel.Shared s.Head own t) : s.SharesKernel := by
  rw [SharesKernel, h.kernelObjects_eq]
  refine ⟨h.exists_tail, fun a ha => ?_⟩
  rw [h.ownObjects_eq ha]
  refine ⟨h.lists.path a ha, fun b hb hne => ?_⟩
  rw [h.ownObjects_eq hb]
  exact h.lists.apart a b ha hb hne

/-- The list that `vmm_init` makes: the head of the first space, and then `kernel_text_obj` and the
other regions of the kernel in the order of their bases. -/
structure Started (k : Kernel) (vmm : Vmm) : Prop where
  head : vmm.head = k.currentVmm
  next : k.regions.next k.currentVmm = some kernelTextObj
  listed : k.Listed k.vmObjects
  zero : k.regions.base k.currentVmm = 0
  text : k.regions.base kernelTextObj = kernelTextStart
  window : kernelTextStart ≤ k.regions.base kernelPageTblsObj

theorem Started.shared {k : Kernel} {vmm : Vmm} (h : Started k vmm) :
    ∃ own t, k.Shared (Head ⟨k, [vmm]⟩) own t := by
  obtain ⟨t, ht, hpath⟩ := h.listed.exists_cons
  have hlist := h.listed
  rw [ht] at hlist
  have hhead : Head ⟨k, [vmm]⟩ = fun a => a = k.currentVmm := by
    funext a
    simp [Head, h.head, eq_comm]
  rw [hhead]
  refine ⟨fun _ => [k.currentVmm], t, ⟨h.next ▸ hpath, ?_, ?_⟩, ?_, ?_, ?_, h.text, h.window, ?_, rfl⟩
  · rintro a rfl
    exact hlist.path
  · rintro a b rfl rfl hne
    exact absurd rfl hne
  · rintro a rfl
    exact hlist.lt
  · rintro a rfl
    exact hlist.sorted
  · rintro a rfl c hc
    rw [List.mem_singleton.1 hc, h.zero]
    decide
  · rintro a rfl
    exact h.zero

/-- **Kernel regions are shared, and user regions are private.**  In every run that starts with the
first space, all lists share their nodes from `kernel_text_obj` on and nothing else; a call for a
region at or above `KERNEL_TEXT_START` changes only common nodes, and any other only the current
list's own. -/
theorem kernel_regions_shared (fuel : ℕ) (k : Kernel) (vmm : Vmm) (ops : List ListOp)
    (h : Started k vmm) (hops : Along (listStep fuel) Admissible ⟨k, [vmm]⟩ ops) :
    Always (listStep fuel) SharesKernel ⟨k, [vmm]⟩ ops ∧
      Along (listStep fuel) (ChangesOwnPart fuel) ⟨k, [vmm]⟩ ops := by
  have hI : ∀ (s : Spaces) o, (∃ own t, s.kernel.Shared s.Head own t) → s.Admissible o →
      s.ChangesOwnPart fuel o ∧
        ∀ s', s.listStep fuel o = some s' → ∃ own t, s'.kernel.Shared s'.Head own t := by
    rintro s o ⟨own, t, hs⟩ ho
    exact shared_listStep hs ho
  constructor
  · refine Always.of_inv (fun s hs => ?_) (fun s o s' hs ho => (hI s o hs ho).2 s') h.shared hops
    obtain ⟨own, t, hs⟩ := hs
    exact sharesKernel_of_shared hs
  · exact Along.of_inv hI h.shared hops

instance (s : Spaces) : ∀ o, Decidable (s.Admissible o)
  | .createVmm => .isTrue trivial
  | .switchVmSpace _ => inferInstanceAs (Decidable (_ ∈ _))
  | .vmmAlloc _ _ _ _ => inferInstanceAs (Decidable (_ ≤ _))
  | .vmmLengthen _ _ => inferInstanceAs (Decidable (_ < _))
  | .vmmFree start =>
    decidable_of_iff ((s.kernel.freedRegion start).any (· ≠ kernelTextObj) = true)
      (by simp [Admissible, Option.any_eq_true])

/-- A second space with a region of its own, and a kernel stack that is allocated in it and freed in
the first space. -/
theorem kernel_regions_shared_boot :
    Always (listStep 4) SharesKernel ⟨boot, [⟨4, 0x111000⟩]⟩ [.createVmm,
        .switchVmSpace ⟨5, 0x40000⟩, .vmmAlloc 0x400000 0x1000 3 0,
        .vmmAlloc 0xffffff80002fb000 0x1000 1 0, .switchVmSpace ⟨4, 0x111000⟩,
        .vmmFree 0xffffff80002fb000] ∧
      Along (listStep 4) (ChangesOwnPart 4) ⟨boot, [⟨4, 0x111000⟩]⟩ [.createVmm,
        .switchVmSpace ⟨5, 0x40000⟩, .vmmAlloc 0x400000 0x1000 3 0,
        .vmmAlloc 0xffffff80002fb000 0x1000 1 0, .switchVmSpace ⟨4, 0x111000⟩,
        .vmmFree 0xffffff80002fb000] := by
  have hstart : Started boot ⟨4, 0x111000⟩ :=
    ⟨rfl, rfl, Kernel.boot_separate.toListed, rfl, rfl, by decide⟩
  exact kernel_regions_shared 4 boot ⟨4, 0x111000⟩ _ hstart (by decide +kernel)

end Spaces

end TitanOS
