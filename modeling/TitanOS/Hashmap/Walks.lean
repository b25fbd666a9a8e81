import TitanOS.Lib.Acyclic
import TitanOS.Lib.Run
import TitanOS.Hashmap.Model

/-!
# When the walks over the hash map end

`get_freed_pg_tbl` returns the second node of the list of freed ones and leaves it there.
`alloc_pg_table` appends this node to its bucket, together with all nodes that it links to, so that
from then on a chain and the list of freed nodes run into each other.  A later call can close a
cycle:

* `vmm_hashmap_remove`, when it puts a node on the list of freed nodes that is still on it;
* `alloc_pg_table`, when the chain that it appends to ends in a node behind the one it appends.

A call of `alloc_pg_table` that takes a new table is interrupted by `mmap`, which may call
`alloc_pg_table` in turn.  `pending` is the stack of these calls, and `mapped` lets the innermost one
go on.
-/

namespace TitanOS

open Linked Run

namespace Hashmap

/-- The calls of a run. -/
inductive WalkOp
  | put (level vaddr paddr : ℕ)
  | remove (paddr : ℕ)
  | allocPgTable (frame vaddr : ℕ)
  | mapped
  deriving DecidableEq, Repr

/-- The hash map, and the new tables whose `mmap` has not returned yet. -/
structure Walked where
  map : Hashmap
  pending : List ℕ

/-- Where the loops of `pg_tbl_insert` and `vmm_hashmap_remove` stop. -/
def stopsAt (h : Hashmap) (paddr : ℕ) : Option (ℕ × Option ℕ) :=
  (h.bucket (hashFunction paddr)).bind fun c =>
    scan h.next (fun _ d => h.ptPaddr d == paddr) h.fuel c

/-- All bucket chains and the list of freed nodes end. -/
def ListsEnd (h : Hashmap) : Prop := (∀ b, Ends h.next (h.bucket b)) ∧ Ends h.next h.tables

/-- The walks end, for every physical address. -/
def WalksEnd (h : Hashmap) : Prop :=
  ∀ p, h.getPtblVaddr p ≠ none ∧ h.vmmHashmapRemove p ≠ none ∧
    ∀ t, h.ptPaddr t = p → h.pgTblInsert t ≠ none

namespace Walked

/-- One call, or the rest of one. -/
def step (s : Walked) : WalkOp → Option Walked
  | .put level v p => (s.map.vmmHashmapPut level v p).map fun r => { s with map := r.1 }
  | .remove p => (s.map.vmmHashmapRemove p).map fun r => { s with map := r.1 }
  | .allocPgTable frame v =>
    match s.map.getFreedPgTbl with
    | some t => (s.map.pgTblInsert t).map fun r => { s with map := r.1 }
    | none => some ⟨s.map.newNode v frame, s.map.count :: s.pending⟩
  | .mapped =>
    match s.pending with
    | [] => some s
    | t :: ts => (s.map.pgTblInsert t).map fun r => ⟨r.1, ts⟩

/-- `vmm_hashmap_init`. -/
def start : Walked := ⟨vmmHashmapInit, []⟩

/-- The call closes no cycle: a node that is removed is not freed already, unless the node in front of
it is; and the chain that a freed table is appended to does not end behind this table. -/
def Harmless (s : Walked) : WalkOp → Prop
  | .put _ _ _ => True
  | .remove p => ∀ e d, s.map.stopsAt p = some (e, some d) → OnPath s.map.next s.map.tables d →
      OnPath s.map.next s.map.tables e
  | .allocPgTable _ _ => ∀ t e, s.map.getFreedPgTbl = some t →
      s.map.stopsAt (s.map.ptPaddr t) = some (e, none) → ¬ OnPath s.map.next (some t) e
  | .mapped => True

end Walked

/-! ### One call on a store without cycles -/

variable {h : Hashmap} {t p v : ℕ}

/-- Every node is linked to allocated ones only, and every traversal ends. -/
structure Sound (h : Hashmap) : Prop where
  acyclic : Acyclic h.next
  next_lt : ∀ a x, h.next a = some x → x < h.count
  bucket_lt : ∀ b x, h.bucket b = some x → x < h.count
  tables_lt : ∀ x, h.tables = some x → x < h.count

/-- No pointer leads to `t`, and `t` leads nowhere. -/
structure Unlinked (h : Hashmap) (t : ℕ) : Prop where
  lt : t < h.count
  last : h.next t = none
  next : ∀ a, h.next a ≠ some t
  bucket : ∀ b, h.bucket b ≠ some t
  tables : h.tables ≠ some t

theorem Sound.path_lt (hs : h.Sound) {q : Option ℕ} {l : List ℕ}
    (hq : ∀ x, q = some x → x < h.count)
    (hl : Path h.next q l) : ∀ x ∈ l, x < h.count := by
  induction l generalizing q with
  | nil => simp
  | cons a l ih =>
    obtain ⟨rfl, hl⟩ := hl
    intro x hx
    rcases List.mem_cons.1 hx with rfl | hx
    · exact hq x rfl
    · exact ih (hs.next_lt a) hl x hx

theorem Sound.path_length (hs : h.Sound) {q : Option ℕ} {l : List ℕ}
    (hq : ∀ x, q = some x → x < h.count) (hl : Path h.next q l) : l.length < h.fuel :=
  length_lt_fuel hl.nodup (hs.path_lt hq hl)

/-- Where the loops stop in a bucket that is not empty: at its end, or in front of a node with the
key. -/
theorem Sound.stopsAt (hs : h.Sound) {c : ℕ} (hc : h.bucket (hashFunction p) = some c) :
    ∃ e o, h.stopsAt p = some (e, o) ∧ h.next e = o ∧
      OnPath h.next (h.bucket (hashFunction p)) e := by
  obtain ⟨l, hl⟩ := hs.acyclic c
  have hlen := hs.path_length (fun x hx => hs.bucket_lt _ x (hc.trans hx)) hl
  obtain ⟨l, rfl, hl'⟩ := path_some.1 hl
  have hscan : h.stopsAt p = some (scanList (fun _ d => h.ptPaddr d == p) c l) := by
    rw [Hashmap.stopsAt, hc, Option.bind_some]
    exact scan_eq hl' (by simp at hlen; omega)
  rw [hscan, hc]
  rcases scanList_hit (fun d => h.ptPaddr d == p) c l with
    ⟨-, l₁, e, hcl, hres⟩ | ⟨l₁, e, d, l₂, hcl, -, -, hres⟩
  · rw [hcl] at hl
    exact ⟨e, none, by rw [hres], hl.suffix, _, hl, by simp⟩
  · rw [hcl] at hl
    exact ⟨e, some d, by rw [hres], hl.suffix.1, _, hl, by simp⟩

/-- What `pg_tbl_insert` does, by where its loop stops. -/
theorem pgTblInsert_eq {c e : ℕ} {o : Option ℕ}
    (hc : h.bucket (hashFunction (h.ptPaddr t)) = some c)
    (hst : h.stopsAt (h.ptPaddr t) = some (e, o)) : h.pgTblInsert t = some (match o with
      | some d => ({ h with ptVaddr := Function.update h.ptVaddr d (h.ptVaddr t) }, false)
      | none => ({ h with next := Function.update h.next e (some t) }, true)) := by
  rw [Hashmap.stopsAt, hc, Option.bind_some] at hst
  simp only [pgTblInsert, hc, hst]
  cases o <;> rfl

theorem vmmHashmapRemove_eq {c e : ℕ} {o : Option ℕ} (hc : h.bucket (hashFunction p) = some c)
    (hst : h.stopsAt p = some (e, o)) : h.vmmHashmapRemove p = some (match o with
      | some d => ({ h with
          next := Function.update (Function.update h.next e (h.next d)) d h.tables
          tables := some d }, true)
      | none => (h, false)) := by
  rw [Hashmap.stopsAt, hc, Option.bind_some] at hst
  simp only [vmmHashmapRemove, hc, hst]
  cases o <;> rfl

theorem Sound.walksEnd (hs : h.Sound) : h.WalksEnd := by
  intro p
  have hsearch := fun l hl => @search_eq _ h.next (h.bucket (hashFunction p)) l
    (fun i => h.ptPaddr i == p) h.fuel hl (hs.path_length (hs.bucket_lt _) hl)
  obtain ⟨l, hl⟩ := hs.acyclic.ends (h.bucket (hashFunction p))
  refine ⟨?_, ?_, ?_⟩
  · rw [getPtblVaddr, hsearch l hl]
    cases l.find? fun i => h.ptPaddr i == p <;> simp
  · cases hc : h.bucket (hashFunction p) with
    | none => simp [vmmHashmapRemove, hc]
    | some c =>
      obtain ⟨e, o, hst, -⟩ := hs.stopsAt hc
      rw [vmmHashmapRemove_eq hc hst]
      exact Option.some_ne_none _
  · rintro t rfl
    cases hc : h.bucket (hashFunction (h.ptPaddr t)) with
    | none => simp [pgTblInsert, hc]
    | some c =>
      obtain ⟨e, o, hst, -⟩ := hs.stopsAt hc
      rw [pgTblInsert_eq hc hst]
      exact Option.some_ne_none _

theorem Sound.listsEnd (hs : h.Sound) : h.ListsEnd :=
  ⟨fun b => hs.acyclic.ends (h.bucket b), hs.acyclic.ends h.tables⟩

/-- A node on a path is its first one, or some node links to it. -/
theorem onPath_cases {next : ℕ → Option ℕ} {q : Option ℕ} {x : ℕ} (hx : OnPath next q x) :
    q = some x ∨ ∃ a, next a = some x := by
  obtain ⟨l, hl, hx⟩ := hx
  induction l generalizing q with
  | nil => cases hx
  | cons b l ih =>
    rcases List.mem_cons.1 hx with rfl | hx
    · exact Or.inl hl.1
    · exact Or.inr ((ih hl.2 hx).elim (fun hq => ⟨b, hq⟩) id)

theorem update_eq_some {f : ℕ → Option ℕ} {a b x : ℕ} {q : Option ℕ}
    (hx : Function.update f a q b = some x) : q = some x ∨ f b = some x := by
  rw [Function.update_apply] at hx
  split at hx
  · exact Or.inl hx
  · exact Or.inr hx

/-- A node on the chain of a bucket has a pointer to it. -/
theorem Unlinked.not_onPath (hu : h.Unlinked t) (b : ℕ) : ¬ OnPath h.next (h.bucket b) t := by
  intro hon
  rcases onPath_cases hon with hb | ⟨a, ha⟩
  · exact hu.bucket b hb
  · exact hu.next a ha

/-- **`pg_tbl_insert`** closes no cycle unless the chain ends behind the node. -/
theorem Sound.insert (hs : h.Sound) (ht : t < h.count)
    (hsafe : ∀ e, h.stopsAt (h.ptPaddr t) = some (e, none) → ¬ OnPath h.next (some t) e) :
    ∃ r, h.pgTblInsert t = some r ∧ r.1.Sound ∧ r.1.count = h.count ∧
      ∀ u, h.Unlinked u → u ≠ t → r.1.Unlinked u := by
  cases hc : h.bucket (hashFunction (h.ptPaddr t)) with
  | none =>
    refine ⟨({ h with bucket := Function.update h.bucket (hashFunction (h.ptPaddr t)) (some t) },
      true), by simp [pgTblInsert, hc], ⟨hs.acyclic, hs.next_lt, fun b x hx => ?_, hs.tables_lt⟩,
      rfl, fun u hu hne => ⟨hu.lt, hu.last, hu.next, fun b hb => ?_, hu.tables⟩⟩
    · rcases update_eq_some hx with hx | hx
      · exact Option.some.inj hx ▸ ht
      · exact hs.bucket_lt b x hx
    · rcases update_eq_some hb with hb | hb
      · exact hne (Option.some.inj hb).symm
      · exact hu.bucket b hb
  | some c =>
    obtain ⟨e, o, hst, hnext, hon⟩ := hs.stopsAt hc
    refine ⟨_, pgTblInsert_eq hc hst, ?_⟩
    cases o with
    | some d => exact ⟨⟨hs.acyclic, hs.next_lt, hs.bucket_lt, hs.tables_lt⟩, rfl,
        fun u hu _ => ⟨hu.lt, hu.last, hu.next, hu.bucket, hu.tables⟩⟩
    | none =>
      refine ⟨⟨hs.acyclic.update (hsafe e hst), fun a x hx => ?_, hs.bucket_lt, hs.tables_lt⟩, rfl,
        fun u hu hne => ⟨hu.lt, ?_, fun a ha => ?_, hu.bucket, hu.tables⟩⟩
      · rcases update_eq_some hx with hx | hx
        · exact Option.some.inj hx ▸ ht
        · exact hs.next_lt a x hx
      · -- the end of the chain is another node
        refine (Function.update_of_ne ?_ _ _).trans hu.last
        rintro rfl
        exact hu.not_onPath _ hon
      · rcases update_eq_some ha with ha | ha
        · exact hne (Option.some.inj ha).symm
        · exact hu.next a ha

/-- If the chain ends behind the node, its list does not end afterwards. -/
theorem Sound.insert_cycle {e : ℕ} {r : Hashmap × Bool} (hs : h.Sound)
    (hst : h.stopsAt (h.ptPaddr t) = some (e, none)) (hon : OnPath h.next (some t) e)
    (hr : h.pgTblInsert t = some r) : ¬ r.1.ListsEnd := by
  obtain ⟨c, hc, -⟩ := Option.bind_eq_some_iff.1 hst
  obtain ⟨e', o, hst', -, l, hl, he⟩ := hs.stopsAt hc
  obtain ⟨rfl, rfl⟩ := Prod.mk.inj (Option.some.inj (hst.symm.trans hst'))
  rw [pgTblInsert_eq hc hst] at hr
  obtain rfl := Option.some.inj hr
  rintro ⟨hbuckets, -⟩
  refine not_ends_update hon ((hbuckets (hashFunction (h.ptPaddr t))).of_reaches fun r hr => ?_)
  obtain ⟨l₁, l₂, rfl⟩ := List.append_of_mem he
  have hnd := hl.nodup
  refine path_update_front hl (fun hmem => ?_) hr
  rw [List.nodup_append] at hnd
  exact hnd.2.2 e hmem e List.mem_cons_self rfl

/-- The node found by `vmm_hashmap_remove`, once it is unlinked, is on the list of freed nodes if and only
if it was and the node in front of it was not. -/
theorem Sound.unlinked_onPath {e d : ℕ} (hs : h.Sound) (hnext : h.next e = some d) :
    OnPath (Function.update h.next e (h.next d)) h.tables d ↔
      OnPath h.next h.tables d ∧ ¬ OnPath h.next h.tables e := by
  obtain ⟨l, hl⟩ := hs.acyclic.ends h.tables
  by_cases he : e ∈ l
  · obtain ⟨l₁, l₂, rfl⟩ := List.append_of_mem he
    obtain ⟨l₂, rfl, -⟩ := path_some.1 (hnext ▸ hl.suffix)
    have hnd := hl.nodup
    refine iff_of_false ?_ fun hand => hand.2 ⟨_, hl, he⟩
    rintro ⟨r, hr, hd⟩
    rw [hr.unique hl.unlink] at hd
    rw [List.append_cons, List.nodup_append, List.nodup_cons] at hnd
    rcases List.mem_append.1 hd with hd | hd
    · exact hnd.2.2 d (List.mem_append_left _ hd) d List.mem_cons_self rfl
    · rcases List.mem_cons.1 hd with rfl | hd
      · exact hs.acyclic.ne_self d hnext
      · exact hnd.2.1.1 hd
  · have hl' : Path (Function.update h.next e (h.next d)) h.tables l := hl.update_of_notMem he
    constructor
    · rintro ⟨r, hr, hd⟩
      rw [hr.unique hl'] at hd
      refine ⟨⟨l, hl, hd⟩, ?_⟩
      rintro ⟨r, hr, her⟩
      exact he (hr.unique hl ▸ her)
    · rintro ⟨⟨r, hr, hd⟩, -⟩
      exact ⟨l, hl', hr.unique hl ▸ hd⟩

/-- **`vmm_hashmap_remove`** closes no cycle unless the node is freed already. -/
theorem Sound.remove (hs : h.Sound) (hsafe : ∀ e d, h.stopsAt p = some (e, some d) →
      OnPath h.next h.tables d → OnPath h.next h.tables e) :
    ∃ r, h.vmmHashmapRemove p = some r ∧ r.1.Sound ∧ r.1.count = h.count ∧
      ∀ u, h.Unlinked u → r.1.Unlinked u := by
  cases hc : h.bucket (hashFunction p) with
  | none => exact ⟨(h, false), by simp [vmmHashmapRemove, hc], hs, rfl, fun u hu => hu⟩
  | some c =>
    obtain ⟨e, o, hst, hnext, hon⟩ := hs.stopsAt hc
    refine ⟨_, vmmHashmapRemove_eq hc hst, ?_⟩
    cases o with
    | none => exact ⟨hs, rfl, fun u hu => hu⟩
    | some d =>
      have hfirst : Acyclic (Function.update h.next e (h.next d)) := by
        refine hs.acyclic.update fun hback => hs.acyclic.not_onPath_next e ?_
        rw [hnext]
        exact (hs.acyclic.onPath_self d).tail hback
      have hsecond := hfirst.update (q := h.tables) (c := d) fun hback => by
        obtain ⟨hd, he⟩ := (hs.unlinked_onPath hnext).1 hback
        exact he (hsafe e d hst hd)
      refine ⟨⟨hsecond, fun a x hx => ?_, hs.bucket_lt, fun x hx => ?_⟩, rfl,
        fun u hu => ⟨hu.lt, ?_, fun a ha => ?_, hu.bucket, ?_⟩⟩
      · rcases update_eq_some hx with hx | hx
        · exact hs.tables_lt x hx
        · rcases update_eq_some hx with hx | hx
          · exact hs.next_lt d x hx
          · exact hs.next_lt a x hx
      · exact Option.some.inj hx ▸ hs.next_lt e d hnext
      · have hud : u ≠ d := fun hud => hu.next e (hud ▸ hnext)
        have hue : u ≠ e := fun hue => hu.not_onPath _ (hue ▸ hon)
        show Function.update (Function.update h.next e (h.next d)) d h.tables u = none
        rw [Function.update_of_ne hud, Function.update_of_ne hue, hu.last]
      · rcases update_eq_some ha with ha | ha
        · exact hu.tables ha
        · rcases update_eq_some ha with ha | ha
          · exact hu.next d ha
          · exact hu.next a ha
      · exact fun hud => hu.next e (hnext.trans hud)

theorem Sound.remove_cycle {e d : ℕ} {r : Hashmap × Bool} (hs : h.Sound)
    (hst : h.stopsAt p = some (e, some d)) (hd : OnPath h.next h.tables d)
    (he : ¬ OnPath h.next h.tables e) (hr : h.vmmHashmapRemove p = some r) : ¬ r.1.ListsEnd := by
  obtain ⟨c, hc, -⟩ := Option.bind_eq_some_iff.1 hst
  obtain ⟨e', o, hst', hnext, -⟩ := hs.stopsAt hc
  obtain ⟨rfl, rfl⟩ := Prod.mk.inj (Option.some.inj (hst.symm.trans hst'))
  rw [vmmHashmapRemove_eq hc hst] at hr
  obtain rfl := Option.some.inj hr
  rintro ⟨-, hfreed⟩
  exact not_ends_update ((hs.unlinked_onPath hnext).2 ⟨hd, he⟩) hfreed

/-- A new node. -/
theorem Sound.newNode (hs : h.Sound) (v p : ℕ) : (h.newNode v p).Sound where
  acyclic := hs.acyclic.update fun hback => by
    obtain ⟨l, hl, hmem⟩ := hback
    rw [path_none.1 hl] at hmem
    cases hmem
  next_lt a x hx := by
    rcases update_eq_some hx with hx | hx
    · cases hx
    · exact (hs.next_lt a x hx).trans (Nat.lt_succ_self _)
  bucket_lt b x hx := (hs.bucket_lt b x hx).trans (Nat.lt_succ_self _)
  tables_lt x hx := (hs.tables_lt x hx).trans (Nat.lt_succ_self _)

theorem Sound.unlinked_newNode (hs : h.Sound) (v p : ℕ) : (h.newNode v p).Unlinked h.count where
  lt := Nat.lt_succ_self _
  last := Function.update_self ..
  next a ha := by
    rcases update_eq_some ha with ha | ha
    · cases ha
    · exact (hs.next_lt a _ ha).false
  bucket b hb := (hs.bucket_lt b _ hb).false
  tables ht := (hs.tables_lt _ ht).false

theorem Unlinked.newNode {u : ℕ} (hu : h.Unlinked u) (v p : ℕ) : (h.newNode v p).Unlinked u where
  lt := hu.lt.trans (Nat.lt_succ_self _)
  last := (Function.update_of_ne hu.lt.ne _ _).trans hu.last
  next a ha := by
    rcases update_eq_some ha with ha | ha
    · cases ha
    · exact hu.next a ha
  bucket := hu.bucket
  tables := hu.tables

/-- An unlinked node is the only one on its path. -/
theorem Unlinked.safe (hs : h.Sound) (hu : h.Unlinked t) :
    ∀ e, h.stopsAt (h.ptPaddr t) = some (e, none) → ¬ OnPath h.next (some t) e := by
  rintro e hst ⟨l, hl, he⟩
  obtain ⟨c, hc, -⟩ := Option.bind_eq_some_iff.1 hst
  obtain ⟨e', o, hst', -, hon⟩ := hs.stopsAt hc
  obtain ⟨rfl, -⟩ := Prod.mk.inj (Option.some.inj (hst.symm.trans hst'))
  obtain ⟨r, rfl, hr⟩ := path_some.1 hl
  rw [hu.last, path_none] at hr
  subst hr
  exact hu.not_onPath _ (List.mem_singleton.1 he ▸ hon)

namespace Walked

variable {s s' : Walked}

/-- The invariant: the store has no cycle, and the pending tables are not linked. -/
structure Fine (s : Walked) : Prop where
  sound : s.map.Sound
  unlinked : ∀ t ∈ s.pending, s.map.Unlinked t
  nodup : s.pending.Nodup

theorem fine_start : start.Fine where
  sound := by
    refine ⟨fun a => ⟨[a], rfl, rfl⟩, ?_, ?_, ?_⟩
    · rintro a x ⟨⟩
    · rintro b x ⟨⟩
    · rintro x ⟨⟩
  unlinked _ ht := by cases ht
  nodup := .nil

/-- **The step lemma**: from a fine state every call returns, and the state is fine again or its lists
do not end, depending on whether the call was harmless. -/
theorem Fine.step (hs : s.Fine) (o : WalkOp) :
    ∃ s', s.step o = some s' ∧ (s.Harmless o → s'.Fine) ∧ (¬ s.Harmless o → ¬ s'.map.ListsEnd) := by
  cases o with
  | put level v p =>
    have hnew := hs.sound.unlinked_newNode v p
    obtain ⟨r, hr, hsound, -, hkept⟩ := (hs.sound.newNode v p).insert hnew.lt
      (hnew.safe (hs.sound.newNode v p))
    refine ⟨⟨r.1, s.pending⟩, ?_, fun _ => ⟨hsound, fun t ht => ?_, hs.nodup⟩,
      fun hnot => absurd trivial hnot⟩
    · rw [Walked.step, vmmHashmapPut, hr]
      rfl
    · exact hkept t ((hs.unlinked t ht).newNode v p) (hs.unlinked t ht).lt.ne
  | remove p =>
    by_cases hsafe : s.Harmless (.remove p)
    · obtain ⟨r, hr, hsound, -, hkept⟩ := hs.sound.remove hsafe
      refine ⟨⟨r.1, s.pending⟩, ?_, fun _ => ⟨hsound, fun t ht => ?_, hs.nodup⟩,
        fun hnot => absurd hsafe hnot⟩
      · rw [Walked.step, hr]
        rfl
      · exact hkept t (hs.unlinked t ht)
    · obtain ⟨r, hr⟩ := Option.ne_none_iff_exists'.1 (hs.sound.walksEnd p).2.1
      refine ⟨⟨r.1, s.pending⟩, ?_, fun h => absurd h hsafe, fun _ => ?_⟩
      · rw [Walked.step, hr]
        rfl
      · simp only [Harmless, not_forall] at hsafe
        obtain ⟨e, d, hst, hd, he⟩ := hsafe
        exact hs.sound.remove_cycle hst hd he hr
  | allocPgTable frame v =>
    cases hfreed : s.map.getFreedPgTbl with
    | none =>
      refine ⟨⟨s.map.newNode v frame, s.map.count :: s.pending⟩, by rw [Walked.step, hfreed],
        fun _ => ⟨hs.sound.newNode v frame, fun t ht => ?_, ?_⟩, fun hnot => ?_⟩
      · rcases List.mem_cons.1 ht with rfl | ht
        · exact hs.sound.unlinked_newNode v frame
        · exact (hs.unlinked t ht).newNode v frame
      · exact List.nodup_cons.2 ⟨fun hmem => (hs.unlinked _ hmem).lt.false, hs.nodup⟩
      · exact absurd (fun t e ht => by rw [hfreed] at ht; cases ht) hnot
    | some t =>
      have hlink : ∃ a, s.map.next a = some t := by
        unfold getFreedPgTbl at hfreed
        split at hfreed
        · cases hfreed
        · exact ⟨_, hfreed⟩
      obtain ⟨a, ha⟩ := hlink
      by_cases hsafe : s.Harmless (.allocPgTable frame v)
      · obtain ⟨r, hr, hsound, -, hkept⟩ := hs.sound.insert (hs.sound.next_lt a t ha)
          fun e => hsafe t e hfreed
        refine ⟨⟨r.1, s.pending⟩, ?_, fun _ => ⟨hsound, fun u hu => ?_, hs.nodup⟩,
          fun hnot => absurd hsafe hnot⟩
        · simp only [Walked.step, hfreed, hr]
          rfl
        · exact hkept u (hs.unlinked u hu) fun hut => (hs.unlinked u hu).next a (hut ▸ ha)
      · obtain ⟨r, hr⟩ := Option.ne_none_iff_exists'.1 ((hs.sound.walksEnd _).2.2 t rfl)
        refine ⟨⟨r.1, s.pending⟩, ?_, fun h => absurd h hsafe, fun _ => ?_⟩
        · simp only [Walked.step, hfreed, hr]
          rfl
        · simp only [Harmless, not_forall, not_not] at hsafe
          obtain ⟨t', e, ht', hst, hon⟩ := hsafe
          obtain rfl := Option.some.inj (hfreed.symm.trans ht')
          exact hs.sound.insert_cycle hst hon hr
  | mapped =>
    cases hp : s.pending with
    | nil =>
      refine ⟨s, by rw [Walked.step, hp], fun _ => hs, fun hnot => absurd trivial hnot⟩
    | cons t ts =>
      have hu := hs.unlinked t (by rw [hp]; exact List.mem_cons_self)
      have hnd := hs.nodup
      rw [hp, List.nodup_cons] at hnd
      obtain ⟨r, hr, hsound, -, hkept⟩ := hs.sound.insert hu.lt (hu.safe hs.sound)
      refine ⟨⟨r.1, ts⟩, ?_, fun _ => ⟨hsound, fun u hut => ?_, hnd.2⟩,
        fun hnot => absurd trivial hnot⟩
      · simp only [Walked.step, hp, hr]
        rfl
      · refine hkept u (hs.unlinked u (by rw [hp]; exact List.mem_cons_of_mem t hut)) ?_
        rintro rfl
        exact hnd.1 hut

/-- **The walks over the hash map end** in every state of a run if and only if all calls of the run
are harmless. -/
theorem walks_end_iff (ops : List WalkOp) : Along step Harmless start ops ↔
    Always step (fun s => s.map.ListsEnd ∧ s.map.WalksEnd) start ops := by
  have hfine : ∀ s : Walked, s.Fine → (Along step Harmless s ops ↔
      Always step (fun s => s.map.ListsEnd ∧ s.map.WalksEnd) s ops) := by
    induction ops with
    | nil => exact fun s hs => ⟨fun _ => ⟨hs.sound.listsEnd, hs.sound.walksEnd⟩, fun _ => trivial⟩
    | cons o ops ih =>
      intro s hs
      obtain ⟨s', hs', hgood, hbad⟩ := hs.step o
      simp only [along_cons, always_cons, hs', Option.some.injEq, forall_eq']
      constructor
      · rintro ⟨ho, hrest⟩
        exact ⟨⟨hs.sound.listsEnd, hs.sound.walksEnd⟩, (ih s' (hgood ho)).1 hrest⟩
      · rintro ⟨-, hrest⟩
        have ho : s.Harmless o := by
          by_contra hnot
          refine hbad hnot ?_
          cases ops with
          | nil => exact hrest.1
          | cons _ _ => exact hrest.1.1
        exact ⟨ho, (ih s' (hgood ho)).2 hrest⟩
  exact hfine start fine_start

/-- Three tables of one bucket are put, two of them are removed, one of these is taken again by
`alloc_pg_table` and removed again.  It links to the other freed one, and that one back to it; after
the next `alloc_pg_table` the look-up of a further address of the bucket does not return. -/
theorem freed_tables_cycle : ¬ Always step (fun s => s.map.ListsEnd ∧ s.map.WalksEnd) start
    [.put 1 0xffffff8000301000 0x1000, .put 1 0xffffff8000302000 0x6000,
      .put 1 0xffffff8000303000 0xb000, .remove 0x6000, .remove 0xb000,
      .allocPgTable 0x15000 0xffffff8000304000, .remove 0x6000,
      .allocPgTable 0x15000 0xffffff8000304000] := by
  have hrun : (([.put 1 0xffffff8000301000 0x1000, .put 1 0xffffff8000302000 0x6000,
      .put 1 0xffffff8000303000 0xb000, .remove 0x6000, .remove 0xb000,
      .allocPgTable 0x15000 0xffffff8000304000, .remove 0x6000,
      .allocPgTable 0x15000 0xffffff8000304000].foldlM step start).map
        fun s => s.map.getPtblVaddr 0x10000) = some none := by
    decide +kernel
  obtain ⟨s, hs, hget⟩ := Option.map_eq_some_iff.1 hrun
  intro hall
  rw [← List.append_nil [_, _, _, _, _, _, _, _]] at hall
  exact (hall.append hs).2 0x10000 |>.1 hget

end Walked

end Hashmap

end TitanOS
