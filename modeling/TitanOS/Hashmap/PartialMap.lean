import TitanOS.Lib.Run
import TitanOS.Hashmap.Model

/-!
# The hash map as a partial map

The abstract behaviour is a partial map `spec` from physical to virtual addresses: a put
overrides, a remove deletes, a get reads.  `Tracked` runs the chains and the partial map side by
side, and `Answers` says that a call returns and answers as the partial map does.

`pg_tbl_insert` and `vmm_hashmap_remove` never compare the first node of a bucket.  `HeadClear`
is the condition on the state before a call under which this does not show: the first node of the
bucket does not carry the key, or, for a put, carries the value that is put.  Under it the
chains keep representing the partial map (`Represents`), for runs of any length (`answers`).
-/

namespace TitanOS

namespace Hashmap

open Linked

/-- The calls of a run. -/
inductive Op
  | put (level vaddr paddr : ℕ)
  | remove (paddr : ℕ)
  | get (paddr : ℕ)
  deriving DecidableEq, Repr

/-- The chains beside the partial map that they should represent. -/
structure Tracked where
  map : Hashmap
  spec : ℕ → Option ℕ

namespace Tracked

/-- One call, on the chains and on the partial map. -/
def step (s : Tracked) : Op → Option Tracked
  | .put level v p =>
    (s.map.vmmHashmapPut level v p).map fun r => ⟨r.1, Function.update s.spec p (some v)⟩
  | .remove p => (s.map.vmmHashmapRemove p).map fun r => ⟨r.1, Function.update s.spec p none⟩
  | .get p => (s.map.getPtblVaddr p).map fun _ => s

/-- `vmm_hashmap_init` and the empty map. -/
def start : Tracked := ⟨vmmHashmapInit, fun _ => none⟩

/-- The call returns, with the answer of the partial map. -/
def Answers (s : Tracked) : Op → Prop
  | .put level v p => (s.map.vmmHashmapPut level v p).isSome
  | .remove p => (s.map.vmmHashmapRemove p).map Prod.snd = some (s.spec p).isSome
  | .get p => s.map.getPtblVaddr p = some ((s.spec p).getD 0)

instance (s : Tracked) : ∀ o, Decidable (s.Answers o)
  | .put _ _ _ => inferInstanceAs (Decidable (_ = true))
  | .remove _ | .get _ => inferInstanceAs (Decidable (_ = _))

/-- The first node of the bucket does not carry the key of the call; a put may repeat the value
that this node has. -/
def HeadClear (s : Tracked) : Op → Prop
  | .put _ v p => ∀ c ∈ s.map.bucket (hashFunction p), s.map.ptPaddr c = p → s.map.ptVaddr c = v
  | .remove p => ∀ c ∈ s.map.bucket (hashFunction p), s.map.ptPaddr c ≠ p
  | .get _ => True

instance (s : Tracked) : ∀ o, Decidable (s.HeadClear o)
  | .put _ _ _ | .remove _ => inferInstanceAs (Decidable (∀ c ∈ _, _))
  | .get _ => .isTrue trivial

end Tracked

/-! ### Looking up a key in a chain -/

/-- The value of the first node with key `p`. -/
def lookup (h : Hashmap) (l : List ℕ) (p : ℕ) : Option ℕ :=
  (l.find? fun i => h.ptPaddr i == p).map h.ptVaddr

variable {h h' : Hashmap} {L : ℕ → List ℕ} {F l : List ℕ} {p q v c d t : ℕ}

theorem lookup_congr (hk : ∀ i ∈ l, h'.ptPaddr i = h.ptPaddr i)
    (hv : ∀ i ∈ l, h'.ptVaddr i = h.ptVaddr i) : h'.lookup l p = h.lookup l p := by
  induction l with
  | nil => rfl
  | cons a l ih =>
    have ih := ih (fun i hi => hk i (.tail a hi)) (fun i hi => hv i (.tail a hi))
    unfold lookup at ih ⊢
    rw [List.find?_cons, List.find?_cons, hk a List.mem_cons_self]
    split
    · simp [hv a List.mem_cons_self]
    · exact ih

theorem lookup_append : h.lookup (l ++ [t]) p =
    (h.lookup l p).or (if h.ptPaddr t = p then some (h.ptVaddr t) else none) := by
  unfold lookup
  rw [List.find?_append]
  cases l.find? fun i => h.ptPaddr i == p with
  | some i => rfl
  | none =>
    by_cases ht : h.ptPaddr t = p
    · simp [ht]
    · simp [ht]

theorem lookup_cons_of_ne (hc : h.ptPaddr c ≠ p) : h.lookup (c :: l) p = h.lookup l p := by
  simp [lookup, hc]

theorem lookup_cons_self : h.lookup (c :: l) (h.ptPaddr c) = some (h.ptVaddr c) := by
  simp [lookup]

/-- Removing a node with key `p` does not show at another key. -/
theorem lookup_eraseP_of_ne (hq : q ≠ p) :
    h.lookup (l.eraseP fun i => h.ptPaddr i == p) q = h.lookup l q := by
  induction l with
  | nil => rfl
  | cons a l ih =>
    by_cases ha : h.ptPaddr a = p
    · rw [List.eraseP_cons_of_pos (by simp [ha]), lookup_cons_of_ne (by simpa [ha] using hq.symm)]
    · rw [List.eraseP_cons_of_neg (by simp [ha])]
      by_cases haq : h.ptPaddr a = q
      · subst haq; rw [lookup_cons_self, lookup_cons_self]
      · rw [lookup_cons_of_ne haq, lookup_cons_of_ne haq, ih]

/-- Where keys do not repeat, removing the node with key `p` removes the key. -/
theorem lookup_eraseP_self (hnd : (l.map h.ptPaddr).Nodup) :
    h.lookup (l.eraseP fun i => h.ptPaddr i == p) p = none := by
  induction l with
  | nil => rfl
  | cons a l ih =>
    obtain ⟨ha, hnd⟩ := List.nodup_cons.1 hnd
    by_cases hap : h.ptPaddr a = p
    · rw [List.eraseP_cons_of_pos (by simp [hap]), lookup, Option.map_eq_none_iff,
        List.find?_eq_none]
      intro i hi he
      exact ha (List.mem_map.2 ⟨i, hi, by simpa [hap] using he⟩)
    · rw [List.eraseP_cons_of_neg (by simp [hap]), lookup_cons_of_ne hap, ih hnd]

/-! ### The invariant of a run -/

/-- Behind the first node keys do not repeat, and a repetition of the first node's key has its
value. -/
def Consistent (h : Hashmap) (l : List ℕ) : Prop :=
  (l.tail.map h.ptPaddr).Nodup ∧
    ∀ c ∈ l.head?, ∀ i ∈ l.tail, h.ptPaddr i = h.ptPaddr c → h.ptVaddr i = h.ptVaddr c

/-- The chains represent the partial map. -/
def Tracked.Represents (s : Tracked) : Prop :=
  ∃ L F, Lists s.map L F ∧ (∀ b, Consistent s.map (L b)) ∧
    ∀ p, s.map.lookup (L (hashFunction p)) p = s.spec p

theorem consistent_congr (hk : ∀ i ∈ l, h'.ptPaddr i = h.ptPaddr i)
    (hv : ∀ i ∈ l, h'.ptVaddr i = h.ptVaddr i) (hc : Consistent h l) : Consistent h' l := by
  obtain ⟨hnd, hdup⟩ := hc
  have hmem : ∀ i ∈ l.tail, i ∈ l := fun i hi => List.mem_of_mem_tail hi
  refine ⟨?_, fun c hch i hi he => ?_⟩
  · rwa [List.map_congr_left fun i hi => hk i (hmem i hi)]
  · have hcl := List.mem_of_mem_head? hch
    rw [hv i (hmem i hi), hv c hcl]
    rw [hk i (hmem i hi), hk c hcl] at he
    exact hdup c hch i hi he

/-- A key found in a consistent list is that of its first node or is found behind it. -/
theorem lookup_eq_tail (hc : ∀ c ∈ l.head?, h.ptPaddr c ≠ p) :
    h.lookup l p = h.lookup l.tail p := by
  cases l with
  | nil => rfl
  | cons c l => exact lookup_cons_of_ne (hc c rfl)

theorem lookup_eq_none (h0 : l.find? (fun i => h.ptPaddr i == p) = none) : h.lookup l p = none := by
  rw [lookup, h0]; rfl

theorem consistent_append (hc : Consistent h l) (hnone : h.lookup l.tail (h.ptPaddr t) = none)
    (hhead : ∀ c ∈ l.head?, h.ptPaddr c = h.ptPaddr t → h.ptVaddr c = h.ptVaddr t) :
    Consistent h (l ++ [t]) := by
  cases l with
  | nil => exact ⟨List.nodup_nil, fun _ _ _ hi => by simp at hi⟩
  | cons c l =>
    obtain ⟨hnd, hdup⟩ := hc
    simp only [List.tail_cons, List.head?_cons, Option.mem_def, Option.some.injEq, forall_eq'] at *
    refine ⟨?_, ?_⟩
    · simp only [List.cons_append, List.tail_cons, List.map_append, List.map_cons, List.map_nil]
      refine List.Nodup.append hnd (List.nodup_singleton _) ?_
      rw [List.disjoint_singleton]
      intro hmem
      obtain ⟨i, hi, he⟩ := List.mem_map.1 hmem
      rw [lookup, Option.map_eq_none_iff, List.find?_eq_none] at hnone
      exact hnone i hi (by simpa using he)
    · simp only [List.cons_append, List.head?_cons, Option.mem_def, Option.some.injEq, forall_eq',
        List.tail_cons, List.mem_append, List.mem_singleton]
      rintro i (hi | rfl) he
      · exact hdup i hi he
      · exact (hhead he.symm).symm

theorem lookup_append_self (hnone : h.lookup l.tail (h.ptPaddr t) = none)
    (hhead : ∀ c ∈ l.head?, h.ptPaddr c = h.ptPaddr t → h.ptVaddr c = h.ptVaddr t) :
    h.lookup (l ++ [t]) (h.ptPaddr t) = some (h.ptVaddr t) := by
  rw [lookup_append, if_pos rfl]
  cases l with
  | nil => rfl
  | cons c l =>
    by_cases hc : h.ptPaddr c = h.ptPaddr t
    · rw [← hc, lookup_cons_self, hhead c rfl hc]; rfl
    · rw [lookup_cons_of_ne hc, show h.lookup l (h.ptPaddr t) = none from hnone]; rfl

section Update

/-- The map with the value of node `d` replaced. -/
def setVaddr (h : Hashmap) (d v : ℕ) : Hashmap :=
  { h with ptVaddr := Function.update h.ptVaddr d v }

theorem consistent_setVaddr (hc : Consistent h l) (hl : l.Nodup) (hd : d ∈ l.tail)
    (hhead : ∀ c ∈ l.head?, h.ptPaddr c = h.ptPaddr d → h.ptVaddr c = v) :
    Consistent (h.setVaddr d v) l := by
  cases l with
  | nil => simp at hd
  | cons c l =>
    obtain ⟨hnd, hdup⟩ := hc
    simp only [List.tail_cons, List.head?_cons, Option.mem_def, Option.some.injEq, forall_eq'] at *
    have hcd : c ≠ d := fun e => (List.nodup_cons.1 hl).1 (e ▸ hd)
    refine ⟨hnd, ?_⟩
    simp only [List.head?_cons, Option.mem_def, Option.some.injEq, forall_eq', List.tail_cons]
    intro i hi he
    simp only [setVaddr, Function.update_of_ne hcd] at he ⊢
    by_cases hid : i = d
    · subst hid; rw [Function.update_self, hhead he.symm]
    · rw [Function.update_of_ne hid]; exact hdup i hi he

theorem lookup_setVaddr_of_ne (hq : h.ptPaddr d ≠ q) :
    (h.setVaddr d v).lookup l q = h.lookup l q := by
  unfold lookup
  cases hf : l.find? fun i => h.ptPaddr i == q with
  | none => simp [setVaddr, hf]
  | some i =>
    have hi : h.ptPaddr i = q := by simpa using List.find?_some hf
    have hid : i ≠ d := fun e => hq (e ▸ hi)
    simp [setVaddr, hf, hid]

theorem lookup_setVaddr_self (hl : l.Nodup)
    (hd : l.tail.find? (fun i => h.ptPaddr i == p) = some d)
    (hhead : ∀ c ∈ l.head?, h.ptPaddr c = p → h.ptVaddr c = v) :
    (h.setVaddr d v).lookup l p = some v := by
  cases l with
  | nil => simp at hd
  | cons c l =>
    have hcd : c ≠ d := fun e => (List.nodup_cons.1 hl).1 (e ▸ List.mem_of_find?_eq_some hd)
    by_cases hc : h.ptPaddr c = p
    · simp [lookup, setVaddr, hc, hcd, hhead c rfl hc]
    · have hd' : l.find? (fun i => h.ptPaddr i == p) = some d := hd
      simp [lookup, setVaddr, hc, hd']

end Update

namespace Tracked

theorem represents_start : start.Represents :=
  ⟨fun _ => [], [], lists_init, fun _ => ⟨List.nodup_nil, fun _ _ _ hi => by simp at hi⟩,
    fun _ => rfl⟩

theorem answers_get {s : Tracked} (hs : s.Represents) (p : ℕ) : s.Answers (.get p) := by
  obtain ⟨L, F, hL, -, hspec⟩ := hs
  simp only [Answers]
  rw [hL.getPtblVaddr, ← hspec p, lookup]
  cases (L (hashFunction p)).find? fun i => s.map.ptPaddr i == p <;> rfl

theorem remove_step {s : Tracked} (hs : s.Represents) (hc : s.HeadClear (.remove p)) :
    s.Answers (.remove p) ∧ ∀ s', s.step (.remove p) = some s' → s'.Represents := by
  obtain ⟨L, F, hL, hcons, hspec⟩ := hs
  have hclear : ∀ c ∈ (L (hashFunction p)).head?, s.map.ptPaddr c ≠ p := fun c hcb =>
    hc c (by rw [hL.bucket_eq]; exact hcb)
  have hlook := lookup_eq_tail hclear
  rcases hL.vmmHashmapRemove p with ⟨hnone, heq⟩ | ⟨d, h', hd, heq, hL', hv, hk, -⟩
  · have habs : s.spec p = none := by rw [← hspec p, hlook, lookup_eq_none hnone]
    refine ⟨by simp [Answers, heq, habs], fun s' hs' => ?_⟩
    simp only [step, heq, Option.map_some, Option.some.injEq] at hs'
    subst hs'
    refine ⟨L, F, hL, hcons, fun q => ?_⟩
    rw [hspec q]
    by_cases hq : q = p
    · subst hq; simp [habs]
    · simp [hq]
  · have hpres : (s.spec p).isSome := by rw [← hspec p, hlook, lookup, hd]; rfl
    refine ⟨by simp [Answers, heq, hpres], fun s' hs' => ?_⟩
    simp only [step, heq, Option.map_some, Option.some.injEq] at hs'
    subst hs'
    -- fields are those of before, so both parts can be read on the old map
    have hlk : ∀ l q, h'.lookup l q = s.map.lookup l q := fun l q =>
      lookup_congr (fun i _ => by rw [hk]) (fun i _ => by rw [hv])
    cases hLb : L (hashFunction p) with
    | nil => simp [hLb] at hd
    | cons c l =>
      have hdet : detach L (hashFunction p) (fun i => s.map.ptPaddr i == p) (hashFunction p) =
          c :: l.eraseP fun i => s.map.ptPaddr i == p := by simp [detach, hLb]
      have hcp : s.map.ptPaddr c ≠ p := hclear c (by simp [hLb])
      have hcb := hcons (hashFunction p)
      rw [hLb] at hcb
      refine ⟨_, _, hL', fun b => ?_, fun q => ?_⟩
      · by_cases hb : b = hashFunction p
        · subst hb
          rw [hdet]
          refine consistent_congr (h := s.map) (fun i _ => by rw [hk]) (fun i _ => by rw [hv])
            ⟨?_, ?_⟩
          · exact hcb.1.sublist (List.eraseP_sublist.map _)
          · intro c' hc' i hi
            exact hcb.2 c' hc' i (List.mem_of_mem_eraseP hi)
        · simp only [detach, Function.update_of_ne hb]
          exact consistent_congr (fun i _ => by rw [hk]) (fun i _ => by rw [hv]) (hcons b)
      · simp only [hlk]
        by_cases hb : hashFunction q = hashFunction p
        · rw [hb, hdet]
          by_cases hq : q = p
          · subst hq
            rw [lookup_cons_of_ne hcp, lookup_eraseP_self (l := l) hcb.1, Function.update_self]
          · rw [Function.update_of_ne hq, ← hspec q, hb, hLb]
            by_cases hcq : s.map.ptPaddr c = q
            · subst hcq; rw [lookup_cons_self, lookup_cons_self]
            · rw [lookup_cons_of_ne hcq, lookup_cons_of_ne hcq, lookup_eraseP_of_ne hq]
        · have hq : q ≠ p := fun e => hb (by rw [e])
          simp only [detach, Function.update_of_ne hb, Function.update_of_ne hq]
          exact hspec q

/-- The two outcomes of a put on the lists of nodes. -/
theorem put_cases {s : Tracked} {L : ℕ → List ℕ} {F : List ℕ} (hL : Lists s.map L F)
    (level v p : ℕ) :
    let b := hashFunction p
    let h := s.map.newNode v p
    (h.lookup (L b).tail p = none ∧ ∃ h', s.map.vmmHashmapPut level v p = some (h', true) ∧
        Lists h' (append L b s.map.count) F ∧ h'.ptVaddr = h.ptVaddr ∧ h'.ptPaddr = h.ptPaddr) ∨
      ∃ d ∈ (L b).tail, (L b).tail.find? (fun i => h.ptPaddr i == p) = some d ∧
        s.map.vmmHashmapPut level v p =
          some (h.setVaddr d v, false) := by
  intro b h
  have hp : h.ptPaddr s.map.count = p := by simp [h, newNode]
  have hv : h.ptVaddr s.map.count = v := by simp [h, newNode]
  have hout : ∀ b, s.map.count ∉ L b := fun b hi => (hL.home b _ hi).1.false
  have hfree : s.map.count ∉ F := fun hi => (hL.free_lt _ hi).false
  rcases (hL.newNode v p).pgTblInsert (t := s.map.count) (Nat.lt_succ_self _) (by simp [newNode])
    hout hfree with ⟨hnone, h', heq, hL', hv', hk', -⟩ | ⟨d, hd, heq⟩
  · rw [hp] at hnone hL'
    exact Or.inl ⟨lookup_eq_none hnone, h', heq, hL', hv', hk'⟩
  · rw [hp] at hd
    rw [hv] at heq
    exact Or.inr ⟨d, List.mem_of_find?_eq_some hd, hd, heq⟩

theorem put_step {s : Tracked} {level : ℕ} (hs : s.Represents)
    (hc : s.HeadClear (.put level v p)) :
    s.Answers (.put level v p) ∧ ∀ s', s.step (.put level v p) = some s' → s'.Represents := by
  obtain ⟨L, F, hL, hcons, hspec⟩ := hs
  have hold : ∀ b, ∀ i ∈ L b, i ≠ s.map.count := fun b i hi => (hL.home b i hi).1.ne
  -- on the nodes of the chains the new node changes nothing
  have hk : ∀ b, ∀ i ∈ L b, (s.map.newNode v p).ptPaddr i = s.map.ptPaddr i := fun b i hi => by
    simp [newNode, Function.update_of_ne (hold b i hi)]
  have hv : ∀ b, ∀ i ∈ L b, (s.map.newNode v p).ptVaddr i = s.map.ptVaddr i := fun b i hi => by
    simp [newNode, Function.update_of_ne (hold b i hi)]
  have hhead : ∀ c ∈ (L (hashFunction p)).head?, s.map.ptPaddr c = p → s.map.ptVaddr c = v :=
    fun c hcb => hc c (by rw [hL.bucket_eq]; exact hcb)
  rcases put_cases hL level v p with ⟨hnone, h', heq, hL', hv', hk'⟩ | ⟨d, hd, hfind, heq⟩
  · refine ⟨by simp [Answers, heq], fun s' hs' => ?_⟩
    simp only [step, heq, Option.map_some, Option.some.injEq] at hs'
    subst hs'
    have htp : h'.ptPaddr s.map.count = p := by rw [hk']; simp [newNode]
    have htv : h'.ptVaddr s.map.count = v := by rw [hv']; simp [newNode]
    have hk₁ : ∀ b, ∀ i ∈ L b, h'.ptPaddr i = s.map.ptPaddr i := fun b i hi => by
      rw [hk', hk b i hi]
    have hv₁ : ∀ b, ∀ i ∈ L b, h'.ptVaddr i = s.map.ptVaddr i := fun b i hi => by
      rw [hv', hv b i hi]
    have hnone' : h'.lookup (L (hashFunction p)).tail (h'.ptPaddr s.map.count) = none := by
      rw [htp, ← hnone]
      exact lookup_congr (fun i _ => by rw [hk']) (fun i _ => by rw [hv'])
    have hhead' : ∀ c ∈ (L (hashFunction p)).head?, h'.ptPaddr c = h'.ptPaddr s.map.count →
        h'.ptVaddr c = h'.ptVaddr s.map.count := by
      intro c hcl
      have hcm := List.mem_of_mem_head? hcl
      rw [htp, htv, hk₁ _ c hcm, hv₁ _ c hcm]
      exact hhead c hcl
    refine ⟨_, F, hL', fun b => ?_, fun q => ?_⟩
    · by_cases hb : b = hashFunction p
      · subst hb
        rw [append, Function.update_self]
        exact consistent_append (consistent_congr (hk₁ _) (hv₁ _) (hcons _)) hnone' hhead'
      · rw [append, Function.update_of_ne hb]
        exact consistent_congr (hk₁ b) (hv₁ b) (hcons b)
    · have hsame := lookup_congr (p := q) (hk₁ (hashFunction q)) (hv₁ (hashFunction q))
      by_cases hq : q = p
      · subst hq
        have := lookup_append_self hnone' hhead'
        rw [htp, htv] at this
        simpa [append] using this
      · by_cases hb : hashFunction q = hashFunction p
        · rw [hb] at hsame
          simp only [append, hb, Function.update_self, Function.update_of_ne hq]
          rw [lookup_append, hsame, ← hb, hspec q, htp, if_neg (Ne.symm hq), Option.or_none]
        · simp only [append, Function.update_of_ne hb, Function.update_of_ne hq]
          rw [hsame, hspec q]
  · refine ⟨by simp [Answers, heq], fun s' hs' => ?_⟩
    simp only [step, heq, Option.map_some, Option.some.injEq] at hs'
    subst hs'
    have hnd := (hL.chain (hashFunction p)).nodup
    have hdp : (s.map.newNode v p).ptPaddr d = p := by simpa using List.find?_some hfind
    have hhead' : ∀ c ∈ (L (hashFunction p)).head?, (s.map.newNode v p).ptPaddr c = p →
        (s.map.newNode v p).ptVaddr c = v := by
      intro c hcl
      have hcm := List.mem_of_mem_head? hcl
      rw [hk _ c hcm, hv _ c hcm]
      exact hhead c hcl
    have hL' := hL.newNode v p
    refine ⟨L, F, ⟨hL'.chain, hL'.free, hL'.home, hL'.free_lt, hL'.disjoint⟩, fun b => ?_,
      fun q => ?_⟩
    · have hcb := consistent_congr (hk b) (hv b) (hcons b)
      by_cases hb : b = hashFunction p
      · subst hb
        exact consistent_setVaddr hcb hnd hd (by rwa [hdp])
      · refine consistent_congr (h := s.map.newNode v p) (fun _ _ => rfl) (fun i hi => ?_) hcb
        have hid : i ≠ d := by
          rintro rfl
          exact hb (hL.eq_of_mem hi (List.mem_of_mem_tail hd))
        simp [setVaddr, Function.update_of_ne hid]
    · by_cases hq : q = p
      · subst hq
        simpa using lookup_setVaddr_self hnd hfind hhead'
      · rw [lookup_setVaddr_of_ne (by rw [hdp]; exact Ne.symm hq), lookup_congr (hk _) (hv _),
          hspec q]
        simp [hq]

/-- One call: it answers as the partial map does, and the representation carries over. -/
theorem step_represents (s : Tracked) (o : Op) (hs : s.Represents) (hc : s.HeadClear o) :
    s.Answers o ∧ ∀ s', s.step o = some s' → s'.Represents := by
  cases o with
  | put level v p => exact put_step hs hc
  | remove p => exact remove_step hs hc
  | get p =>
    refine ⟨answers_get hs p, fun s' hs' => ?_⟩
    obtain ⟨_, _, rfl⟩ := Option.map_eq_some_iff.1 hs'
    exact hs

/-- **The hash map refines a partial map** in every run whose puts and removes meet
`HeadClear`. -/
theorem answers_along (os : List Op) (hc : Run.Along step HeadClear start os) :
    Run.Along step Answers start os :=
  Run.Along.of_inv step_represents represents_start hc

/-- Two keys of one bucket: the second is overridden, removed and looked up. -/
theorem answers_along_collision : Run.Along step Answers start
    [.put 1 0x1000 0x1000, .put 1 0x4000 0x15000, .put 1 0x8000 0x15000, .get 0x15000,
      .remove 0x15000, .get 0x15000, .get 0x1000] := by
  exact answers_along _ (by decide +kernel)

/-- A second put for the key of a first node is not seen by a get, and such a node cannot be
removed. -/
theorem head_not_compared :
    ¬ Run.Along step Answers start [.put 1 0x1000 0x1000, .put 1 0x4000 0x1000, .get 0x1000] ∧
      ¬ Run.Along step Answers start [.put 1 0x1000 0x1000, .remove 0x1000] := by
  decide +kernel

end Tracked

end Hashmap

end TitanOS
