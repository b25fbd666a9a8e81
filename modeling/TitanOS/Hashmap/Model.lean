import TitanOS.Lib.Linked

/-!
# The page-table hash map (`vmm_hashmap.c`)

The map sends the physical address of a page table to the virtual address it can be accessed at.
Nodes hang in 20 bucket chains, and a removed node moves to the list `tables` of freed nodes; a
node has a single link field for both.

The store of `page_table_t` nodes is modelled field by field, indexed by the address of the node.
`kmalloc` hands out the addresses `0, 1, 2, …`; `count` is the number handed out so far.  The
fields `level` and `used` are written but never read, and are left out, as is the check that the
map pointer is not null, which holds from `vmm_hashmap_init` on.

A walk answers `none` when it has visited more nodes than exist, that is, when the C loop never
ends.
-/

namespace TitanOS

open Linked

/-- The buckets, the freed nodes, and the nodes they link. -/
structure Hashmap where
  ptVaddr : ℕ → ℕ
  ptPaddr : ℕ → ℕ
  next : ℕ → Option ℕ
  count : ℕ
  bucket : ℕ → Option ℕ
  tables : Option ℕ

namespace Hashmap

/-- `hash_function`, with `HASH_MAP_BUCKETS` = 20. -/
def hashFunction (paddr : ℕ) : ℕ := paddr % 20

/-- `vmm_hashmap_init`: 20 null buckets. -/
def vmmHashmapInit : Hashmap :=
  ⟨fun _ => 0, fun _ => 0, fun _ => none, 0, fun _ => none, none⟩

/-- More steps than there are nodes. -/
def fuel (h : Hashmap) : ℕ := h.count + 1

/-- A node from `kmalloc`, with its fields set. -/
def newNode (h : Hashmap) (vaddr paddr : ℕ) : Hashmap :=
  { h with
    ptVaddr := Function.update h.ptVaddr h.count vaddr
    ptPaddr := Function.update h.ptPaddr h.count paddr
    next := Function.update h.next h.count none
    count := h.count + 1 }

/-- `pg_tbl_insert`.  The first node of a non-empty bucket is not compared. -/
def pgTblInsert (h : Hashmap) (table : ℕ) : Option (Hashmap × Bool) :=
  let b := hashFunction (h.ptPaddr table)
  match h.bucket b with
  | none => some ({ h with bucket := Function.update h.bucket b (some table) }, true)
  | some c =>
    match scan h.next (fun _ d => h.ptPaddr d == h.ptPaddr table) h.fuel c with
    | none => none
    | some (_, some d) =>
      some ({ h with ptVaddr := Function.update h.ptVaddr d (h.ptVaddr table) }, false)
    | some (e, none) => some ({ h with next := Function.update h.next e (some table) }, true)

/-- `vmm_hashmap_put`. -/
def vmmHashmapPut (h : Hashmap) (_level vaddr paddr : ℕ) : Option (Hashmap × Bool) :=
  (h.newNode vaddr paddr).pgTblInsert h.count

/-- `get_ptbl_vaddr`; the null pointer is `0`. -/
def getPtblVaddr (h : Hashmap) (paddr : ℕ) : Option ℕ :=
  match search h.next (fun i => h.ptPaddr i == paddr) h.fuel (h.bucket (hashFunction paddr)) with
  | none => none
  | some none => some 0
  | some (some i) => some (h.ptVaddr i)

/-- `vmm_hashmap_remove`.  The first node of the bucket is not compared. -/
def vmmHashmapRemove (h : Hashmap) (paddr : ℕ) : Option (Hashmap × Bool) :=
  match h.bucket (hashFunction paddr) with
  | none => some (h, false)
  | some c =>
    match scan h.next (fun _ d => h.ptPaddr d == paddr) h.fuel c with
    | none => none
    | some (e, some d) =>
      let next := Function.update h.next e (h.next d)
      some ({ h with next := Function.update next d h.tables, tables := some d }, true)
    | some (_, none) => some (h, false)

/-- `get_freed_pg_tbl`.  The list is left as it is, and what is returned is the node behind its
first one. -/
def getFreedPgTbl (h : Hashmap) : Option ℕ :=
  match h.tables with
  | none => none
  | some freedTbl => h.next freedTbl

/-! ### The chains as lists -/

/-- Bucket `b` chains exactly the nodes `L b`, the freed nodes are exactly `F`, and no node is on
two of these lists. -/
structure Lists (h : Hashmap) (L : ℕ → List ℕ) (F : List ℕ) : Prop where
  chain : ∀ b, Path h.next (h.bucket b) (L b)
  free : Path h.next h.tables F
  home : ∀ b, ∀ i ∈ L b, i < h.count ∧ hashFunction (h.ptPaddr i) = b
  free_lt : ∀ i ∈ F, i < h.count
  disjoint : ∀ b, ∀ i ∈ L b, i ∉ F

variable {h h' : Hashmap} {L : ℕ → List ℕ} {F : List ℕ} {p v t b c i : ℕ}

theorem lists_init : Lists vmmHashmapInit (fun _ => []) [] where
  chain _ := rfl
  free := rfl
  home _ _ hi := by simp at hi
  free_lt _ hi := by simp at hi
  disjoint _ _ hi := by simp at hi

/-- A list of distinct nodes is shorter than the fuel. -/
theorem length_lt_fuel {l : List ℕ} (hl : l.Nodup) (hlt : ∀ i ∈ l, i < h.count) :
    l.length < h.fuel := by
  have : l ⊆ List.range h.count := fun i hi => List.mem_range.2 (hlt i hi)
  have := (List.subperm_of_subset hl this).length_le
  simp [fuel] at this ⊢
  omega

theorem Lists.length_lt (hL : Lists h L F) (b : ℕ) : (L b).length < h.fuel :=
  length_lt_fuel (hL.chain b).nodup fun i hi => (hL.home b i hi).1

theorem Lists.eq_of_mem (hL : Lists h L F) {b' : ℕ} (hb : i ∈ L b) (hb' : i ∈ L b') : b = b' :=
  (hL.home b i hb).2.symm.trans (hL.home b' i hb').2

theorem Lists.bucket_eq (hL : Lists h L F) (b : ℕ) : h.bucket b = (L b).head? := (hL.chain b).head?

/-- `get_ptbl_vaddr` reads the first node of its bucket with the right key. -/
theorem Lists.getPtblVaddr (hL : Lists h L F) (p : ℕ) : h.getPtblVaddr p = some
    (((L (hashFunction p)).find? fun i => h.ptPaddr i == p).elim 0 h.ptVaddr) := by
  unfold Hashmap.getPtblVaddr
  rw [search_eq (hL.chain _) (hL.length_lt _)]
  cases (L (hashFunction p)).find? fun i => h.ptPaddr i == p <;> rfl

/-- A new node is on no list. -/
theorem Lists.newNode (hL : Lists h L F) (v p : ℕ) : Lists (h.newNode v p) L F where
  chain b := (hL.chain b).update_of_notMem fun hi => (hL.home b _ hi).1.false
  free := hL.free.update_of_notMem fun hi => (hL.free_lt _ hi).false
  home b i hi := by
    have ⟨hlt, hb⟩ := hL.home b i hi
    refine ⟨Nat.lt_succ_of_lt hlt, ?_⟩
    simpa [Hashmap.newNode, Function.update_of_ne hlt.ne] using hb
  free_lt i hi := Nat.lt_succ_of_lt (hL.free_lt i hi)
  disjoint := hL.disjoint

/-- The lists after `table` is appended to its bucket. -/
def append (L : ℕ → List ℕ) (b t : ℕ) : ℕ → List ℕ := Function.update L b (L b ++ [t])

theorem mem_append_iff : i ∈ append L b t c ↔ i ∈ L c ∨ i = t ∧ c = b := by
  unfold append
  by_cases hc : c = b
  · subst hc; simp
  · simp [hc]

/-- What `pg_tbl_insert` does with a node that is on no list: it is appended to its bucket, unless
a node behind the first one has its key; then that node takes over the virtual address. -/
theorem Lists.pgTblInsert (hL : Lists h L F) (ht : t < h.count) (hlink : h.next t = none)
    (hout : ∀ b, t ∉ L b) (hfree : t ∉ F) :
    let b := hashFunction (h.ptPaddr t)
    (((L b).tail.find? (fun i => h.ptPaddr i == h.ptPaddr t) = none) ∧
      ∃ h', h.pgTblInsert t = some (h', true) ∧ Lists h' (append L b t) F ∧
        h'.ptVaddr = h.ptVaddr ∧ h'.ptPaddr = h.ptPaddr ∧ h'.count = h.count ∧
        h'.tables = h.tables ∧ ∀ i, (∀ b, i ∉ L b) → h'.next i = h.next i) ∨
    ∃ d, (L b).tail.find? (fun i => h.ptPaddr i == h.ptPaddr t) = some d ∧
      h.pgTblInsert t =
        some ({ h with ptVaddr := Function.update h.ptVaddr d (h.ptVaddr t) }, false) := by
  intro b
  have hchain := hL.chain b
  cases hLb : L b with
  | nil =>
    have hbucket : h.bucket b = none := by rw [hL.bucket_eq, hLb]; rfl
    have htable : Path h.next (some t) [t] := ⟨rfl, hlink⟩
    refine Or.inl ⟨rfl, { h with bucket := Function.update h.bucket b (some t) }, ?_, ?_, rfl, rfl,
      rfl, rfl, fun _ _ => rfl⟩
    · simp only [Hashmap.pgTblInsert]
      rw [hbucket]
    · refine ⟨fun b' => ?_, hL.free, fun b' i hi => ?_, hL.free_lt, fun b' i hi => ?_⟩
      · by_cases hb : b' = b
        · subst hb
          simp only [append, Function.update_self, hLb]
          exact htable
        · simpa only [append, Function.update_of_ne hb] using hL.chain b'
      · rcases mem_append_iff.1 hi with hi | ⟨rfl, rfl⟩
        · exact hL.home b' i hi
        · exact ⟨ht, rfl⟩
      · rcases mem_append_iff.1 hi with hi | ⟨rfl, -⟩
        · exact hL.disjoint b' i hi
        · exact hfree
  | cons c l =>
    have hbucket : h.bucket b = some c := by rw [hL.bucket_eq, hLb]; rfl
    rw [hLb] at hchain
    have hlen : l.length < h.fuel := by
      have := hL.length_lt b
      rw [hLb] at this
      simp at this
      omega
    have hscan : scan h.next (fun _ d => h.ptPaddr d == h.ptPaddr t) h.fuel c =
        some (scanList (fun _ d => h.ptPaddr d == h.ptPaddr t) c l) := scan_eq hchain.2 hlen
    rcases scanList_hit (fun d => h.ptPaddr d == h.ptPaddr t) c l with
      ⟨hnone, l₁, e, hl, hres⟩ | ⟨l₁, d, e, l₂, hl, -, hfind, hres⟩
    · have he : e ∈ L b := by rw [hLb, hl]; simp
      refine Or.inl ⟨hnone, { h with next := Function.update h.next e (some t) }, ?_, ?_, rfl, rfl,
        rfl, rfl, fun i hi => Function.update_of_ne (fun hie : i = e => hi b (hie ▸ he)) _ _⟩
      · simp only [Hashmap.pgTblInsert]
        rw [hbucket]
        simp only [hscan, hres]
      · have het : e ≠ t := fun e' => hout b (e' ▸ he)
        refine ⟨fun b' => ?_, ?_, fun b' i hi => ?_, hL.free_lt, fun b' i hi => ?_⟩
        · by_cases hb : b' = b
          · subst hb
            simp only [append, Function.update_self]
            rw [hLb, hl, List.append_assoc]
            rw [hl] at hchain
            exact hchain.splice (r := [t]) ⟨rfl, hlink⟩ (by simpa using het)
          · simp only [append, Function.update_of_ne hb]
            exact (hL.chain b').update_of_notMem fun he' => hb (hL.eq_of_mem he' he)
        · exact hL.free.update_of_notMem (hL.disjoint b e he)
        · rcases mem_append_iff.1 hi with hi | ⟨rfl, rfl⟩
          · exact hL.home b' i hi
          · exact ⟨ht, rfl⟩
        · rcases mem_append_iff.1 hi with hi | ⟨rfl, -⟩
          · exact hL.disjoint b' i hi
          · exact hfree
    · refine Or.inr ⟨e, hfind, ?_⟩
      simp only [Hashmap.pgTblInsert]
      rw [hbucket]
      simp only [hscan, hres]

/-- The lists after the first node with `hit` behind the first one leaves its bucket. -/
def detach (L : ℕ → List ℕ) (b : ℕ) (hit : ℕ → Bool) : ℕ → List ℕ :=
  Function.update L b ((L b).take 1 ++ (L b).tail.eraseP hit)

/-- Only the node that was found leaves its bucket. -/
theorem mem_detach {hit : ℕ → Bool} {d : ℕ} (hd : (L b).tail.find? hit = some d) (hi : i ∈ L c) :
    i ∈ detach L b hit c ∨ i = d := by
  by_cases hc : c = b
  · subst hc
    obtain ⟨hhit, l₁, l₂, htail, hnot⟩ := List.find?_eq_some_iff_append.1 hd
    have herase : (L c).tail.eraseP hit = l₁ ++ l₂ := by
      rw [htail, List.eraseP_append_right _ fun x hx => by simpa using hnot x hx,
        List.eraseP_cons_of_pos hhit]
    rw [detach, Function.update_self, herase]
    cases hL : L c with
    | nil =>
      rw [hL] at hi
      cases hi
    | cons a l =>
      rw [hL] at hi htail
      simp only [List.tail_cons] at htail
      simp only [htail, List.mem_cons, List.mem_append] at hi
      simp only [List.take_succ_cons, List.take_zero, List.cons_append, List.nil_append,
        List.mem_cons, List.mem_append]
      tauto
  · exact Or.inl (by rwa [detach, Function.update_of_ne hc])

/-- What `vmm_hashmap_remove` does: the node it finds behind the first one moves to the front of
the freed nodes. -/
theorem Lists.vmmHashmapRemove (hL : Lists h L F) (p : ℕ) :
    let b := hashFunction p
    let hit := fun i => h.ptPaddr i == p
    ((L b).tail.find? hit = none ∧ h.vmmHashmapRemove p = some (h, false)) ∨
    ∃ d h', (L b).tail.find? hit = some d ∧ h.vmmHashmapRemove p = some (h', true) ∧
      Lists h' (detach L b hit) (d :: F) ∧ h'.ptVaddr = h.ptVaddr ∧ h'.ptPaddr = h.ptPaddr ∧
      h'.count = h.count := by
  intro b hit
  have hchain := hL.chain b
  cases hLb : L b with
  | nil =>
    have hbucket : h.bucket b = none := by rw [hL.bucket_eq, hLb]; rfl
    refine Or.inl ⟨rfl, ?_⟩
    simp only [Hashmap.vmmHashmapRemove]
    rw [hbucket]
  | cons c l =>
    have hbucket : h.bucket b = some c := by rw [hL.bucket_eq, hLb]; rfl
    rw [hLb] at hchain
    have hlen : l.length < h.fuel := by
      have := hL.length_lt b
      rw [hLb] at this
      simp at this
      omega
    have hscan : scan h.next (fun _ d => hit d) h.fuel c =
        some (scanList (fun _ d => hit d) c l) := scan_eq hchain.2 hlen
    rcases scanList_hit hit c l with
      ⟨hnone, l₁, e, hl, hres⟩ | ⟨l₁, e, d, l₂, hl, herase, hfind, hres⟩
    · refine Or.inl ⟨hnone, ?_⟩
      simp only [Hashmap.vmmHashmapRemove]
      rw [hbucket]
      simp only [hit] at hscan hres
      simp only [hscan, hres]
    · have hd : d ∈ L b := by rw [hLb, hl]; simp
      have he : e ∈ L b := by rw [hLb, hl]; simp
      refine Or.inr ⟨d, { h with
        next := Function.update (Function.update h.next e (h.next d)) d h.tables
        tables := some d }, hfind, ?_, ?_, rfl, rfl, rfl⟩
      · simp only [Hashmap.vmmHashmapRemove]
        rw [hbucket]
        simp only [hit] at hscan hres
        simp only [hscan, hres]
      · have hsub : ∀ b' i, i ∈ detach L b hit b' → i ∈ L b' := by
          intro b' i hi
          unfold detach at hi
          by_cases hb : b' = b
          · subst hb
            rw [Function.update_self, hLb] at hi
            rw [hLb]
            rcases List.mem_append.1 hi with hi | hi
            · exact List.mem_of_mem_take hi
            · exact List.mem_cons_of_mem c (List.mem_of_mem_eraseP hi)
          · rwa [Function.update_of_ne hb] at hi
        rw [hl] at hchain
        -- `d` does not occur a second time in its bucket
        have hdout : d ∉ l₁ ++ e :: l₂ := by
          have hnd := hchain.nodup
          rw [List.append_cons, List.nodup_middle] at hnd
          simpa using (List.nodup_cons.1 hnd).1
        have hdetach : detach L b hit b = l₁ ++ e :: l₂ := by
          simp [detach, hLb, herase]
        refine ⟨fun b' => ?_, ⟨rfl, ?_⟩, fun b' i hi => hL.home b' i (hsub b' i hi), ?_,
          fun b' i hi => ?_⟩
        · by_cases hb : b' = b
          · subst hb
            rw [hdetach]
            exact hchain.unlink.update_of_notMem hdout
          · simp only [detach, Function.update_of_ne hb]
            exact ((hL.chain b').update_of_notMem fun h' => hb (hL.eq_of_mem h' he))
              |>.update_of_notMem fun h' => hb (hL.eq_of_mem h' hd)
        · simp only [Function.update_self]
          exact (hL.free.update_of_notMem (hL.disjoint b e he)).update_of_notMem
            (hL.disjoint b d hd)
        · intro i hi
          rcases List.mem_cons.1 hi with rfl | hi
          · exact (hL.home b i hd).1
          · exact hL.free_lt i hi
        · rintro (_ | ⟨_, hF⟩)
          · have hb := hL.eq_of_mem (hsub b' d hi) hd
            subst hb
            rw [hdetach] at hi
            exact hdout hi
          · exact hL.disjoint b' i (hsub b' i hi) hF

/-- A put leaves the map made of lists. -/
theorem Lists.vmmHashmapPut (hL : Lists h L F) {level : ℕ} {r : Hashmap × Bool}
    (hr : h.vmmHashmapPut level v p = some r) : ∃ L', Lists r.1 L' F := by
  have hL₁ := hL.newNode v p
  have hlt : ∀ b, h.count ∉ L b := fun b hb => (hL.home b _ hb).1.false
  rcases hL₁.pgTblInsert (t := h.count) (Nat.lt_succ_self _) (by simp [Hashmap.newNode]) hlt
    (fun hF => (hL.free_lt _ hF).false) with ⟨-, h', hins, hL', -⟩ | ⟨d, -, hins⟩
  · rw [Hashmap.vmmHashmapPut, hins, Option.some.injEq] at hr
    subst hr
    exact ⟨_, hL'⟩
  · rw [Hashmap.vmmHashmapPut, hins, Option.some.injEq] at hr
    subst hr
    exact ⟨L, hL₁.chain, hL₁.free, hL₁.home, hL₁.free_lt, hL₁.disjoint⟩

/-! ### Registering a new table -/

/-- Some node of the bucket carries the key. -/
def registered (h : Hashmap) (p : ℕ) : Bool :=
  (search h.next (fun i => h.ptPaddr i == p) h.fuel (h.bucket (hashFunction p))).any Option.isSome

theorem Lists.registered_iff (hL : Lists h L F) :
    h.registered p = true ↔ ∃ i ∈ L (hashFunction p), h.ptPaddr i = p := by
  rw [registered, search_eq (hL.chain _) (hL.length_lt _)]
  simp [List.find?_isSome]

theorem Lists.getPtblVaddr_of_not (hL : Lists h L F) (hp : h.registered p = false) :
    h.getPtblVaddr p = some 0 := by
  have hnone : (L (hashFunction p)).find? (fun i => h.ptPaddr i == p) = none := by
    rw [List.find?_eq_none]
    intro i hi hip
    have := hL.registered_iff.2 ⟨i, hi, by simpa using hip⟩
    rw [hp] at this
    cases this
  rw [hL.getPtblVaddr, hnone]
  rfl

/-- A node that is on no list does not show. -/
theorem Lists.getPtblVaddr_newNode (hL : Lists h L F) (v p q : ℕ) :
    (h.newNode v p).getPtblVaddr q = h.getPtblVaddr q := by
  rw [(hL.newNode v p).getPtblVaddr, hL.getPtblVaddr]
  have hold : ∀ i ∈ L (hashFunction q), i ≠ h.count := fun i hi => (hL.home _ i hi).1.ne
  have hfind : (L (hashFunction q)).find? (fun i => (h.newNode v p).ptPaddr i == q) =
      (L (hashFunction q)).find? fun i => h.ptPaddr i == q := by
    refine List.find?_congr fun i hi => ?_
    simp [Hashmap.newNode, Function.update_of_ne (hold i hi)]
  rw [hfind]
  cases hq : (L (hashFunction q)).find? fun i => h.ptPaddr i == q with
  | none => rfl
  | some i =>
    simp [Hashmap.newNode, Function.update_of_ne (hold i (List.mem_of_find?_eq_some hq))]

/-- **Registering a table** under a new key: a new node is appended to its bucket, and only this
key changes. -/
theorem Lists.register (hL : Lists h L F) (hp : h.registered p = false) (v : ℕ) :
    ∃ h', (h.newNode v p).pgTblInsert h.count = some (h', true) ∧
      Lists h' (append L (hashFunction p) h.count) F ∧ h'.tables = h.tables ∧
      h'.ptVaddr = (h.newNode v p).ptVaddr ∧ h'.ptPaddr = (h.newNode v p).ptPaddr ∧
      h'.count = h.count + 1 ∧ h'.getPtblVaddr p = some v ∧
      (∀ q, q ≠ p → h'.getPtblVaddr q = h.getPtblVaddr q) ∧
      ∀ q, h'.registered q = true ↔ h.registered q = true ∨ q = p := by
  have hlt : ∀ b, ∀ i ∈ L b, i < h.count := fun b i hi => (hL.home b i hi).1
  have hkey : (h.newNode v p).ptPaddr h.count = p := by simp [Hashmap.newNode]
  have hval : (h.newNode v p).ptVaddr h.count = v := by simp [Hashmap.newNode]
  have hold : ∀ b, ∀ i ∈ L b, (h.newNode v p).ptPaddr i = h.ptPaddr i ∧
      (h.newNode v p).ptVaddr i = h.ptVaddr i := by
    intro b i hi
    simp [Hashmap.newNode, Function.update_of_ne (hlt b i hi).ne]
  have hmiss : ∀ i ∈ L (hashFunction p), h.ptPaddr i ≠ p := by
    intro i hi hip
    have := hL.registered_iff.2 ⟨i, hi, hip⟩
    rw [hp] at this
    cases this
  have hins := (hL.newNode v p).pgTblInsert (t := h.count) (Nat.lt_succ_self _)
    (by simp [Hashmap.newNode]) (fun b hb => (hlt b _ hb).false)
    (fun hF => (hL.free_lt _ hF).false)
  rw [hkey] at hins
  rcases hins with ⟨-, h', hins, hL', hv', hk', hc', ht', -⟩ | ⟨d, hd, -⟩
  · refine ⟨h', hins, hL', ht', hv', hk', hc', ?_, fun q hq => ?_, fun q => ?_⟩
    · have hfind : (append L (hashFunction p) h.count (hashFunction p)).find?
          (fun i => h'.ptPaddr i == p) = some h.count := by
        rw [append, Function.update_self, List.find?_append, List.find?_eq_none.2]
        · simp [hk', hkey]
        · intro i hi
          simpa [hk', (hold _ i hi).1] using hmiss i hi
      rw [hL'.getPtblVaddr, hfind, Option.elim_some, hv', hval]
    · rw [hL'.getPtblVaddr, hL.getPtblVaddr]
      have hfind : (append L (hashFunction p) h.count (hashFunction q)).find?
          (fun i => h'.ptPaddr i == q) =
          (L (hashFunction q)).find? fun i => h.ptPaddr i == q := by
        have hsame : (L (hashFunction q)).find? (fun i => h'.ptPaddr i == q) =
            (L (hashFunction q)).find? fun i => h.ptPaddr i == q := by
          refine List.find?_congr fun i hi => ?_
          rw [hk', (hold _ i hi).1]
        by_cases hb : hashFunction q = hashFunction p
        · rw [append, hb, Function.update_self, List.find?_append, ← hb, hsame]
          cases (L (hashFunction q)).find? fun i => h.ptPaddr i == q with
          | some i => rfl
          | none => simp [hk', hkey, Ne.symm hq]
        · rw [append, Function.update_of_ne hb, hsame]
      rw [hfind]
      cases hq' : (L (hashFunction q)).find? fun i => h.ptPaddr i == q with
      | none => rfl
      | some i =>
        have hi := List.mem_of_find?_eq_some hq'
        simp [hv', (hold _ i hi).2]
    · rw [hL'.registered_iff, hL.registered_iff]
      constructor
      · rintro ⟨i, hi, hiq⟩
        rcases mem_append_iff.1 hi with hi | ⟨rfl, -⟩
        · exact Or.inl ⟨i, hi, by rwa [hk', (hold _ i hi).1] at hiq⟩
        · rw [hk', hkey] at hiq
          exact Or.inr hiq.symm
      · rintro (⟨i, hi, hiq⟩ | rfl)
        · exact ⟨i, mem_append_iff.2 (Or.inl hi), by rw [hk', (hold _ i hi).1, hiq]⟩
        · exact ⟨h.count, mem_append_iff.2 (Or.inr ⟨rfl, rfl⟩), by rw [hk', hkey]⟩
  · have hmem := List.mem_of_mem_tail (List.mem_of_find?_eq_some hd)
    have := List.find?_some hd
    simp [(hold _ d hmem).1] at this
    exact absurd this (hmiss d hmem)

end Hashmap

end TitanOS
