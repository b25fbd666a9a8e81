import TitanOS.Lib.Ascending
import TitanOS.Vmm.FirstFit

/-!
# The region lists stay sorted

`vmm_alloc` has two loops that look for the place of a new region.  With an explicit start the loop
ends at the last region that starts at or below the request.  At null it ends at the first region
with a gap behind it that is large enough, and the new region starts where that region ends.  Both
places keep the order of the bases, whether or not regions overlap.

The invariant `Ascends` is about the links of all regions that a space can reach, and not about
the list of one space: the lists share nodes, and a node that was unlinked from one list may still
be on another.
-/

namespace TitanOS

open Linked Run

namespace Kernel

variable {k k' : Kernel} {l : List ℕ} {S L : ℕ → Prop} {a c d n : ℕ}

/-! ### The invariant -/

/-- The links of the regions in `L` lead to greater or equal bases, and the lists with heads in `S`
consist of regions in `L`. -/
structure Ascends (k : Kernel) (S L : ℕ → Prop) : Prop where
  links : Ascending k.regions.next k.regions.base L
  lt : ∀ c, L c → c < k.regions.count
  text : L kernelTextObj
  head : ∀ a, S a → L a ∧ k.regions.base a = 0
  current : S k.currentVmm

theorem Ascends.exists_listed (h : k.Ascends S L) : ∃ l, k.Listed l ∧ ∀ c ∈ l, L c := by
  have hcur := (h.head _ h.current).1
  obtain ⟨l, hl⟩ := h.links.ends _ hcur
  obtain ⟨hmem, hsorted⟩ := h.links.sorted hcur hl
  exact ⟨l, ⟨⟨hl, fun c hc => h.lt c (hmem c hc)⟩, hsorted⟩, hmem⟩

theorem Ascends.keeps (h : k.Ascends S L) (hk : k.Keeps k') : k'.Ascends S L := by
  refine ⟨?_, ?_, h.text, ?_, ?_⟩
  · rw [hk.next, hk.base]
    exact h.links
  · rw [hk.count]
    exact h.lt
  · rw [hk.base]
    exact h.head
  · rw [hk.currentVmm]
    exact h.current

/-- The lengths do not matter. -/
theorem Ascends.withLength (h : k.Ascends S L) : (k.withLength c n).Ascends S L :=
  ⟨h.links, h.lt, h.text, h.head, h.current⟩

/-- A region is inserted between two bases. -/
theorem Ascends.insertRegion {s flags : ℕ} (h : k.Ascends S L) (hc : L c)
    (hlo : k.regions.base c ≤ s) (hhi : ∀ d, k.regions.next c = some d → s ≤ k.regions.base d) :
    ({ k with regions := Kernel.insertRegion k.regions c s n flags } : Kernel).Ascends S
      fun a => L a ∨ a = k.regions.count := by
  have hout : ¬ L k.regions.count := fun hL => (h.lt _ hL).false
  have hold : ∀ a, L a → (Kernel.insertRegion k.regions c s n flags).base a = k.regions.base a :=
    fun a ha => (insertRegion_of_lt (h.lt a ha)).1
  have hnew := (@insertRegion_self s n c k.regions flags).1
  refine ⟨?_, ?_, Or.inl h.text, fun a ha => ?_, h.current⟩
  · refine (h.links.congr_key hold).insert hc hout ?_ fun d hd => ?_
    · rw [hold c hc, hnew]
      exact hlo
    · rw [hold d (h.links.link c d hc hd).1, hnew]
      exact hhi d hd
  · rintro a (ha | rfl)
    · exact Nat.lt_succ_of_lt (h.lt a ha)
    · exact Nat.lt_succ_self _
  · obtain ⟨hL, hbase⟩ := h.head a ha
    exact ⟨Or.inl hL, (hold a hL).trans hbase⟩

/-! ### The calls -/

/-- No region on the current list wraps around. -/
def NoWrap (k : Kernel) : Prop :=
  ∀ c ∈ k.vmObjects, k.regions.base c + k.regions.length c < 2 ^ 64

instance (k : Kernel) : Decidable k.NoWrap := inferInstanceAs (Decidable (∀ c ∈ _, _))

/-- The place that `vmm_alloc` finds keeps the list sorted. -/
theorem Listed.findPlace_between {l₁ l₂ : List ℕ} {start found : ℕ}
    (h : k.Listed (l₁ ++ c :: l₂)) (hzero : k.regions.base k.currentVmm = 0)
    (hold : k.regions.base c + k.regions.length c < 2 ^ 64) (hnew : found + n < 2 ^ 64)
    (hf : Kernel.findPlace k.regions k.currentVmm start n = some (some (c, found))) :
    k.regions.base c ≤ found ∧ ∀ d, k.regions.next c = some d → found ≤ k.regions.base d := by
  -- the list is cut at `c` in one way only
  have hcut : ∀ m₁ m₂, l₁ ++ c :: l₂ = m₁ ++ c :: m₂ → k.regions.next c = m₂.head? := by
    intro m₁ m₂ hm
    have hpath := h.path
    rw [hm] at hpath
    exact hpath.suffix.head?
  by_cases hs : start = 0
  · subst hs
    rw [h.toChained.firstFit, Option.map_eq_some_iff] at hf
    obtain ⟨⟨e, d⟩, hroom, he⟩ := hf
    obtain ⟨rfl, hfound⟩ := Prod.mk.inj (Option.some.inj he)
    obtain ⟨⟨m₁, m₂, hm⟩, hfit⟩ := firstRoom_mem hroom
    rw [h.vmObjects_eq] at hm
    rw [regionEnd, Nat.mod_eq_of_lt hold] at hfound
    refine ⟨hfound ▸ Nat.le_add_right _ _, fun x hx => ?_⟩
    rw [hcut m₁ (d :: m₂) hm, List.head?_cons, Option.some.injEq] at hx
    subst hx
    rw [RoomBehind, hfound, Nat.mod_eq_of_lt hnew] at hfit
    omega
  · rcases @findPlace_spec k _ start n h hs with ⟨-, hfind⟩ | ⟨-, m₁, e, m₂, hm, hfind, hplace⟩
    · rw [hfind] at hf
      cases Option.some.inj hf
    · rw [hfind, Option.some.injEq, Option.some.injEq, Prod.mk.injEq] at hf
      obtain ⟨rfl, rfl⟩ := hf
      obtain ⟨hle, hlt⟩ := hplace (by rw [hzero]; exact Nat.zero_le _)
      refine ⟨hle _ (by simp), fun d hd => (hlt d ?_).le⟩
      rw [hcut m₁ m₂ hm] at hd
      exact List.mem_of_mem_head? hd

/-- **`vmm_alloc`**, at an explicit start and at null. -/
theorem Ascends.vmmAlloc {fuel start length flags args p : ℕ} (h : k.Ascends S L)
    (hwrap : k.NoWrap) (hwrap' : k'.NoWrap)
    (hcall : vmmAlloc fuel k start length flags args = some (k', p)) : ∃ L', k'.Ascends S L' := by
  obtain ⟨l, hlisted, hL⟩ := h.exists_listed
  rw [NoWrap, hlisted.vmObjects_eq] at hwrap
  rcases vmmAlloc_cases hcall with ⟨-, hx⟩ | ⟨c, found, k₁, ok, hfind, hmap, hx⟩
  · obtain ⟨rfl, -⟩ := Prod.mk.inj hx
    exact ⟨L, h⟩
  obtain ⟨rfl, -⟩ := Prod.mk.inj hx
  have hk := keeps_mapPages _ _ _ hmap
  have hcl := hlisted.toChained.findPlace_mem hfind
  obtain ⟨l₁, l₂, rfl⟩ := List.append_of_mem hcl
  -- the new region is on the list, so it does not wrap around
  have hnew : found + pageAlign length < 2 ^ 64 := by
    have hlist := (@Chained.insertRegion k found (pageAlign length) c l₁ l₂ flags
      hlisted.toChained).keeps hk
    have hpos : k.regions.count ≠ kernelPageTblsObj := hlisted.count_pos.ne'
    have := hwrap' k.regions.count (by rw [hlist.vmObjects_eq]; simp)
    rw [hk.base, hk.length _ hpos] at this
    simpa only [insertRegion_self] using this
  obtain ⟨hlo, hhi⟩ := hlisted.findPlace_between (h.head _ h.current).2 (hwrap c hcl) hnew hfind
  exact ⟨_, (h.insertRegion (hL c hcl) hlo hhi).keeps hk⟩

theorem Ascends.vmmLengthen {fuel start : ℕ} {inc : ℤ} {b : Bool} (h : k.Ascends S L)
    (hcall : vmmLengthen fuel k start inc = some (k', b)) : k'.Ascends S L := by
  rcases vmmLengthen_cases hcall with ⟨-, hx⟩ | ⟨c, length, -, hmap⟩
  · obtain ⟨rfl, -⟩ := Prod.mk.inj hx
    exact h
  · exact h.withLength.keeps (keeps_lengthenPages _ _ hmap)

/-- **`vmm_free`** of a region on the list. -/
theorem Ascends.vmmFree {start : ℕ} (h : k.Ascends S L) (hcall : k.vmmFree start = some k') :
    k'.Ascends S L := by
  obtain ⟨l, hlisted, hL⟩ := h.exists_listed
  by_cases hhead : k.regions.base k.currentVmm = start
  · rw [Kernel.vmmFree, if_pos hhead, Option.some.injEq] at hcall
    exact hcall ▸ h
  rcases vmmFree_eq hlisted.toChained hhead with ⟨hnone, -⟩ | ⟨l₁, c, d, l₂, rfl, -, -, hfree⟩
  · rw [hnone] at hcall
    cases hcall
  · rw [hfree, Option.some.injEq] at hcall
    subst hcall
    have hnext : k.regions.next c = some d := hlisted.path.suffix.head?
    exact ⟨h.links.unlink (hL c (by simp)) hnext, h.lt, h.text, h.head, h.current⟩

/-- **`create_vmm`** links a new head, with base 0, to `kernel_text_obj`. -/
theorem Ascends.createVmm {fuel : ℕ} {vmm : Vmm} (h : k.Ascends S L)
    (hcall : k.createVmm fuel = some (k', vmm)) :
    k'.Ascends (fun a => S a ∨ a = vmm.head) fun a => L a ∨ a = vmm.head := by
  unfold Kernel.createVmm at hcall
  simp only [Option.bind_eq_bind, Option.bind_eq_some_iff, Option.some.injEq,
    Prod.mk.injEq] at hcall
  obtain ⟨⟨k₁, f⟩, hnew, rfl, rfl⟩ := hcall
  have h₁ := h.keeps (keeps_createNewPml4t hnew)
  have hout : ¬ L k₁.regions.count := fun hL => (h₁.lt _ hL).false
  have hold : ∀ a, L a →
      (newRegion k₁.regions 0 0 1 (some kernelTextObj)).base a = k₁.regions.base a :=
    fun a ha => Function.update_of_ne (h₁.lt a ha).ne _ _
  have hself : (newRegion k₁.regions 0 0 1 (some kernelTextObj)).base k₁.regions.count = 0 :=
    Function.update_self _ _ _
  refine ⟨(h₁.links.congr_key hold).front hout fun d hd => ?_, ?_, Or.inl h₁.text, ?_,
    Or.inl h₁.current⟩
  · obtain rfl := Option.some.inj hd
    refine ⟨h₁.text, ?_⟩
    rw [hself]
    exact Nat.zero_le _
  · rintro a (ha | rfl)
    · exact Nat.lt_succ_of_lt (h₁.lt a ha)
    · exact Nat.lt_succ_self _
  · rintro a (ha | rfl)
    · obtain ⟨hL, hbase⟩ := h₁.head a ha
      exact ⟨Or.inl hL, (hold a hL).trans hbase⟩
    · exact ⟨Or.inr rfl, hself⟩

theorem Ascends.switchVmSpace {vmm : Vmm} (h : k.Ascends S L) (hS : S vmm.head)
    (hcall : k.switchVmSpace vmm = some k') : k'.Ascends S L := by
  obtain ⟨w, -, rfl⟩ := Option.map_eq_some_iff.1 hcall
  exact ⟨h.links, h.lt, h.text, h.head, hS⟩

end Kernel

/-! ### Runs -/

namespace Spaces

/-- The calls of a run. -/
inductive OrderOp
  | list (o : ListOp)
  | allocPgTable
  deriving Repr

/-- One call. -/
def orderStep (fuel : ℕ) (s : Spaces) : OrderOp → Option Spaces
  | .list o => s.listStep fuel o
  | .allocPgTable =>
    (s.kernel.allocPgTable (Kernel.mmap fuel)).map fun x => ⟨x.1, s.spaces⟩

/-- A space that is switched to has been created. -/
def Created (s : Spaces) : OrderOp → Prop
  | .list (.switchVmSpace vmm) => vmm ∈ s.spaces
  | _ => True

/-- The region list of every space ends, and its bases do not decrease. -/
def RegionsSorted (s : Spaces) : Prop :=
  ∀ vmm ∈ s.spaces, ∃ l, Path s.kernel.regions.next (some vmm.head) l ∧
    l.Pairwise fun c d => s.kernel.regions.base c ≤ s.kernel.regions.base d

variable {s s' : Spaces}

/-- One call. -/
theorem ascends_orderStep {fuel : ℕ} {o : OrderOp} {L : ℕ → Prop} (h : s.kernel.Ascends s.Head L)
    (ho : s.Created o) (hwrap : s.kernel.NoWrap) (hwrap' : s'.kernel.NoWrap)
    (hs' : s.orderStep fuel o = some s') : ∃ L', s'.kernel.Ascends s'.Head L' := by
  cases o with
  | allocPgTable =>
    obtain ⟨⟨k, p⟩, hcall, rfl⟩ := Option.map_eq_some_iff.1 hs'
    exact ⟨L, h.keeps (Kernel.keeps_allocPgTable _ hcall)⟩
  | list o =>
    cases o with
    | createVmm =>
      obtain ⟨⟨k, vmm⟩, hcall, rfl⟩ := Option.map_eq_some_iff.1 hs'
      exact ⟨_, head_append k s.spaces vmm ▸ h.createVmm hcall⟩
    | switchVmSpace vmm =>
      obtain ⟨k, hcall, rfl⟩ := Option.map_eq_some_iff.1 hs'
      exact ⟨L, h.switchVmSpace ⟨vmm, ho, rfl⟩ hcall⟩
    | vmmAlloc start length flags args =>
      obtain ⟨⟨k, p⟩, hcall, rfl⟩ := Option.map_eq_some_iff.1 hs'
      exact h.vmmAlloc hwrap hwrap' hcall
    | vmmLengthen start inc =>
      obtain ⟨⟨k, b⟩, hcall, rfl⟩ := Option.map_eq_some_iff.1 hs'
      exact ⟨L, h.vmmLengthen hcall⟩
    | vmmFree start =>
      obtain ⟨k, hcall, rfl⟩ := Option.map_eq_some_iff.1 hs'
      exact ⟨L, h.vmmFree hcall⟩

theorem regionsSorted_of_ascends {L : ℕ → Prop} (h : s.kernel.Ascends s.Head L) :
    s.RegionsSorted := by
  intro vmm hvmm
  have hL := (h.head vmm.head ⟨vmm, hvmm, rfl⟩).1
  obtain ⟨l, hl⟩ := h.links.ends _ hL
  exact ⟨l, hl, (h.links.sorted hL hl).2⟩

theorem Started.ascends {k : Kernel} {vmm : Vmm} (h : Started k vmm) :
    k.Ascends (Head ⟨k, [vmm]⟩) (· ∈ k.vmObjects) := by
  obtain ⟨t, ht, -⟩ := h.listed.exists_cons
  have hcur : k.currentVmm ∈ k.vmObjects := by
    rw [ht]
    exact List.mem_cons_self
  refine ⟨⟨fun a ha => ?_, fun a b ha hab => ?_⟩, h.listed.lt,
    (h.listed.path.mem_of_next hcur h.next).1, ?_, vmm, by simp, h.head⟩
  · obtain ⟨l₁, l₂, hl⟩ := List.append_of_mem ha
    exact ⟨a :: l₂, rfl, (hl ▸ h.listed.path).suffix⟩
  · refine ⟨(h.listed.path.mem_of_next ha hab).1, ?_⟩
    obtain ⟨l₁, l₂, hl⟩ := List.append_of_mem ha
    have hlist := h.listed
    rw [hl] at hlist
    refine hlist.split.2 (List.mem_of_mem_head? ?_)
    rw [← hlist.path.suffix.head?]
    exact hab
  · rintro a ⟨v, hv, rfl⟩
    rw [List.mem_singleton.1 hv, h.head]
    exact ⟨hcur, h.zero⟩

/-- **The region lists stay sorted.**  In every run from the first space in which no region wraps
around, the bases along the list of every space do not decrease. -/
theorem regions_sorted (fuel : ℕ) (k : Kernel) (vmm : Vmm) (ops : List OrderOp)
    (h : Started k vmm) (hops : Along (orderStep fuel) Created ⟨k, [vmm]⟩ ops)
    (hwrap : Always (orderStep fuel) (fun s => s.kernel.NoWrap) ⟨k, [vmm]⟩ ops) :
    Always (orderStep fuel) RegionsSorted ⟨k, [vmm]⟩ ops := by
  refine Always.of_inv (I := fun s => ∃ L, s.kernel.Ascends s.Head L) ?_ ?_ ⟨_, h.ascends⟩
    (hops.and hwrap.along)
  · rintro s ⟨L, hs⟩
    exact regionsSorted_of_ascends hs
  · rintro s o s' ⟨L, hs⟩ ⟨ho, hw, hw'⟩ hs'
    exact ascends_orderStep hs ho hw (hw' s' hs') hs'

instance (s : Spaces) : ∀ o, Decidable (s.Created o)
  | .list .createVmm => .isTrue trivial
  | .list (.switchVmSpace _) => inferInstanceAs (Decidable (_ ∈ _))
  | .list (.vmmAlloc _ _ _ _) => .isTrue trivial
  | .list (.vmmLengthen _ _) => .isTrue trivial
  | .list (.vmmFree _) => .isTrue trivial
  | .allocPgTable => .isTrue trivial

/-- Regions are allocated at explicit starts and at null, lengthened and freed, in two spaces. -/
theorem regions_sorted_boot :
    Always (orderStep 4) RegionsSorted ⟨boot, [⟨4, 0x111000⟩]⟩
      [.list (.vmmAlloc 0x400000 0x1800 3 0), .list (.vmmAlloc 0 0x2000 3 0), .allocPgTable,
        .list .createVmm, .list (.switchVmSpace ⟨7, 0x46000⟩),
        .list (.vmmAlloc 0xffffff80002fb000 0x1000 1 0), .list (.switchVmSpace ⟨4, 0x111000⟩),
        .list (.vmmLengthen 0x400000 0x1000), .list (.vmmFree 0x400000)] := by
  have hstart : Started boot ⟨4, 0x111000⟩ :=
    ⟨rfl, rfl, Kernel.boot_separate.toListed, rfl, rfl, by decide⟩
  exact regions_sorted 4 boot ⟨4, 0x111000⟩ _ hstart (by decide +kernel) (by decide +kernel)

end Spaces

end TitanOS
