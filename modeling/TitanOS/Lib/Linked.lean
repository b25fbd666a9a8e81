import Mathlib.Tactic

/-!
# Singly linked lists in a pointer store

Nodes are named by a type `α` of addresses; `next : α → Option α` is the content of their link
fields, with `none` for the null pointer.

* `Path next p l`: following the links from `p` visits exactly the nodes `l`, in order, and then
  reaches null.  A pointer has at most one path (`Path.unique`) and a path repeats no node
  (`Path.nodup`), so having a path is the same as the traversal ending.
* `splice`: redirecting the link of one node of a path replaces what follows it.  Appending,
  inserting behind a node and unlinking the successor of a node are its three uses.
* `search` and `scan` are the two loops that C code writes over such lists: the first examines
  the node it stands on, the second the pair of a node and its successor.  Both take fuel, and
  answer `none` when it runs out; on a path, any fuel above its length gives the answer of the
  list function `List.find?` or `scanList`.
* `remove` unlinks a given node, looking for its predecessor without testing for null.
-/

namespace Linked

variable {α : Type*}

/-- The links lead from `p` through exactly the nodes `l` to null. -/
def Path (next : α → Option α) : Option α → List α → Prop
  | p, [] => p = none
  | p, a :: l => p = some a ∧ Path next (next a) l

variable {next : α → Option α} {p : Option α} {a c x : α} {l l' : List α}

@[simp] theorem path_nil : Path next p [] ↔ p = none := Iff.rfl

@[simp] theorem path_cons : Path next p (a :: l) ↔ p = some a ∧ Path next (next a) l := Iff.rfl

instance Path.decidable [DecidableEq α] : ∀ p l, Decidable (Path next p l)
  | p, [] => inferInstanceAs (Decidable (p = none))
  | p, a :: l =>
    have := Path.decidable (next a) l
    inferInstanceAs (Decidable (p = some a ∧ Path next (next a) l))

theorem path_none : Path next none l ↔ l = [] := by cases l <;> simp

theorem path_some : Path next (some a) l ↔ ∃ r, l = a :: r ∧ Path next (next a) r := by
  cases l with
  | nil => simp
  | cons b r => simp only [path_cons, Option.some.injEq, List.cons.injEq]; aesop

theorem Path.head? (h : Path next p l) : p = l.head? := by
  cases l with
  | nil => exact h
  | cons a l => exact h.1

theorem Path.unique (h : Path next p l) (h' : Path next p l') : l = l' := by
  induction l generalizing p l' with
  | nil => subst h; exact (path_none.1 h').symm
  | cons a l ih =>
    obtain ⟨rfl, h⟩ := h
    obtain ⟨r, rfl, hr⟩ := path_some.1 h'
    rw [ih h hr]

/-- What follows a node of a path is the path of its link. -/
theorem Path.suffix {l₁ l₂ : List α} (h : Path next p (l₁ ++ a :: l₂)) :
    Path next (next a) l₂ := by
  induction l₁ generalizing p with
  | nil => exact h.2
  | cons b l₁ ih => exact ih h.2

theorem Path.nodup (h : Path next p l) : l.Nodup := by
  induction l generalizing p with
  | nil => exact List.nodup_nil
  | cons a l ih =>
    refine List.nodup_cons.2 ⟨fun ha => ?_, ih h.2⟩
    -- a second visit to `a` would have the same path behind it, hence the same length
    obtain ⟨l₁, l₂, rfl⟩ := List.append_of_mem ha
    have hlen := congrArg List.length (h.2.unique (Path.suffix h.2))
    simp at hlen
    omega

/-- A path through nodes below `n` has at most `n` of them. -/
theorem Path.length_le {next : ℕ → Option ℕ} {p : Option ℕ} {l : List ℕ} {n : ℕ}
    (h : Path next p l) (hlt : ∀ c ∈ l, c < n) : l.length ≤ n := by
  have hsub : l ⊆ List.range n := fun c hc => List.mem_range.2 (hlt c hc)
  simpa using (List.subperm_of_subset h.nodup hsub).length_le

/-- The link of a node of a path leads to a further node of it. -/
theorem Path.mem_of_next (h : Path next p l) (ha : a ∈ l) (hx : next a = some x) :
    x ∈ l ∧ x ≠ a := by
  obtain ⟨l₁, l₂, rfl⟩ := List.append_of_mem ha
  have hnd := h.nodup
  obtain ⟨r, rfl, -⟩ := path_some.1 (hx ▸ h.suffix)
  refine ⟨by simp, ?_⟩
  rintro rfl
  simp [List.nodup_append] at hnd

theorem Path.congr {next' : α → Option α} (h : Path next p l)
    (heq : ∀ a ∈ l, next' a = next a) : Path next' p l := by
  induction l generalizing p with
  | nil => exact h
  | cons a l ih =>
    refine ⟨h.1, ?_⟩
    rw [heq a List.mem_cons_self]
    exact ih h.2 fun b hb => heq b (List.mem_cons_of_mem a hb)

/-- Links that lead from the last node of a path to a new one, and on to null, extend it. -/
theorem Path.snoc {next' : α → Option α} (h : Path next p (l ++ [a])) (ha : next' a = some x)
    (hx : next' x = none) (heq : ∀ b ∈ l, next' b = next b) : Path next' p (l ++ [a] ++ [x]) := by
  induction l generalizing p with
  | nil => exact ⟨h.1, ha, hx⟩
  | cons b l ih =>
    refine ⟨h.1, ?_⟩
    rw [heq b List.mem_cons_self]
    exact ih h.2 fun c hc => heq c (List.mem_cons_of_mem b hc)

section Update

variable [DecidableEq α] {q : Option α}

theorem Path.update_of_notMem (h : Path next p l) (hc : c ∉ l) :
    Path (Function.update next c q) p l := by
  refine h.congr fun a ha => Function.update_of_ne ?_ _ _
  rintro rfl
  exact hc ha

/-- Redirecting the link of `c` to `q` replaces the nodes behind `c` by those of `q`. -/
theorem Path.splice {l₁ l₂ r : List α} (h : Path next p (l₁ ++ c :: l₂)) (hq : Path next q r)
    (hc : c ∉ r) : Path (Function.update next c q) p (l₁ ++ c :: r) := by
  induction l₁ generalizing p with
  | nil =>
    refine ⟨h.1, ?_⟩
    rw [Function.update_self]
    exact hq.update_of_notMem hc
  | cons b l₁ ih =>
    have hb : b ≠ c := by
      rintro rfl
      simpa using h.nodup
    refine ⟨h.1, ?_⟩
    rw [Function.update_of_ne hb]
    exact ih h.2

/-- Unlinking the successor of `c`. -/
theorem Path.unlink {l₁ l₂ : List α} (h : Path next p (l₁ ++ c :: x :: l₂)) :
    Path (Function.update next c (next x)) p (l₁ ++ c :: l₂) := by
  have hx : Path next (next x) l₂ := by
    rw [List.append_cons] at h
    exact h.suffix
  refine h.splice hx fun hc => ?_
  have hnd := (List.nodup_append.1 h.nodup).2.1
  simp [hc] at hnd

end Update

/-! ### Loops over a list -/

variable (next)

/-- `while (c != NULL) { if (hit(c)) return c; c = c->next; } return NULL;` -/
def search (hit : α → Bool) : ℕ → Option α → Option (Option α)
  | 0, _ => none
  | _ + 1, none => some none
  | n + 1, some a => if hit a then some (some a) else search hit n (next a)

/-- `while (c->next != NULL) { if (stop(c, c->next)) break; c = c->next; }`: the node the loop
stops at, with its successor when `stop` held there. -/
def scan (stop : α → α → Bool) : ℕ → α → Option (α × Option α)
  | 0, _ => none
  | n + 1, c =>
    match next c with
    | none => some (c, none)
    | some d => if stop c d then some (c, some d) else scan stop n d

/-- The effect of `scan` on the list of nodes behind `c`. -/
def scanList (stop : α → α → Bool) : α → List α → α × Option α
  | c, [] => (c, none)
  | c, d :: l => if stop c d then (c, some d) else scanList stop d l

/-- The nodes on the way from `p`, at most `n` of them. -/
def toList : ℕ → Option α → List α
  | 0, _ => []
  | _ + 1, none => []
  | n + 1, some a => a :: toList n (next a)

variable {next}

theorem toList_eq {n : ℕ} (h : Path next p l) (hn : l.length ≤ n) : toList next n p = l := by
  induction l generalizing p n with
  | nil =>
    rw [path_nil.1 h]
    cases n <;> rfl
  | cons a l ih =>
    obtain ⟨n, rfl⟩ : ∃ m, n = m + 1 := ⟨n - 1, by simp at hn; omega⟩
    rw [h.1, toList, ih h.2 (by simpa using hn)]

theorem search_eq {hit : α → Bool} {n : ℕ} (h : Path next p l) (hn : l.length < n) :
    search next hit n p = some (l.find? hit) := by
  induction l generalizing p n with
  | nil =>
    obtain ⟨n, rfl⟩ := Nat.exists_eq_add_of_lt hn
    rw [path_nil.1 h]
    rfl
  | cons a l ih =>
    obtain ⟨n, rfl⟩ : ∃ m, n = m + 1 := ⟨n - 1, by omega⟩
    obtain ⟨rfl, h⟩ := h
    simp only [search, List.find?_cons]
    cases hit a with
    | true => rfl
    | false => exact ih h (by simpa using hn)

theorem scan_eq {stop : α → α → Bool} {n : ℕ} (h : Path next (next c) l) (hn : l.length < n) :
    scan next stop n c = some (scanList stop c l) := by
  induction l generalizing c n with
  | nil =>
    obtain ⟨n, rfl⟩ := Nat.exists_eq_add_of_lt hn
    simp only [scan, path_nil.1 h, scanList]
  | cons d l ih =>
    obtain ⟨n, rfl⟩ : ∃ m, n = m + 1 := ⟨n - 1, by omega⟩
    simp only [scan, h.1, scanList]
    cases stop c d with
    | true => rfl
    | false => exact ih h.2 (by simpa using hn)

/-- Where `scan` stops: at the end of the list, or at the first pair that satisfies `stop`. -/
theorem scanList_cases (stop : α → α → Bool) (c : α) (l : List α) :
    (∃ l₁ d, c :: l = l₁ ++ [d] ∧ (c :: l).IsChain (fun a b => stop a b = false) ∧
        scanList stop c l = (d, none)) ∨
      ∃ l₁ d e l₂, c :: l = l₁ ++ d :: e :: l₂ ∧
        (l₁ ++ [d]).IsChain (fun a b => stop a b = false) ∧ stop d e = true ∧
        scanList stop c l = (d, some e) := by
  induction l generalizing c with
  | nil => exact Or.inl ⟨[], c, rfl, .singleton c, rfl⟩
  | cons d l ih =>
    by_cases hs : stop c d = true
    · exact Or.inr ⟨[], c, d, l, rfl, .singleton c, hs, by simp [scanList, hs]⟩
    · rw [Bool.not_eq_true] at hs
      have he : scanList stop c (d :: l) = scanList stop d l := by simp [scanList, hs]
      rw [he]
      rcases ih d with ⟨l₁, e, hl, hch, h⟩ | ⟨l₁, e, f, l₂, hl, hch, hst, h⟩
      · exact Or.inl ⟨c :: l₁, e, by rw [hl]; rfl, .cons_cons hs hch, h⟩
      · refine Or.inr ⟨c :: l₁, e, f, l₂, by rw [hl]; rfl, ?_, hst, h⟩
        cases l₁ with
        | nil =>
          obtain ⟨rfl, -⟩ := List.cons.inj hl
          exact .cons_cons hs (.singleton _)
        | cons x l₁ =>
          obtain ⟨rfl, -⟩ := List.cons.inj hl
          exact .cons_cons hs hch

/-- A `scan` whose test looks at the successor only finds the first hit behind `c`. -/
theorem scanList_hit (hit : α → Bool) (c : α) (l : List α) :
    (l.find? hit = none ∧ ∃ l₁ d, c :: l = l₁ ++ [d] ∧
        scanList (fun _ e => hit e) c l = (d, none)) ∨
      ∃ l₁ d e l₂, c :: l = l₁ ++ d :: e :: l₂ ∧ l₁ ++ d :: l₂ = c :: l.eraseP hit ∧
        l.find? hit = some e ∧ scanList (fun _ e => hit e) c l = (d, some e) := by
  induction l generalizing c with
  | nil => exact Or.inl ⟨rfl, [], c, rfl, rfl⟩
  | cons d l ih =>
    cases hs : hit d with
    | true =>
      exact Or.inr ⟨[], c, d, l, rfl, by simp [hs], by simp [hs], by simp [scanList, hs]⟩
    | false =>
      have he : scanList (fun _ e => hit e) c (d :: l) = scanList (fun _ e => hit e) d l := by
        simp [scanList, hs]
      rw [he, List.find?_cons_of_neg (by simp [hs]), List.eraseP_cons_of_neg (by simp [hs])]
      rcases ih d with ⟨hnone, l₁, e, hl, h⟩ | ⟨l₁, e, f, l₂, hl, her, hf, h⟩
      · exact Or.inl ⟨hnone, c :: l₁, e, by rw [hl]; rfl, h⟩
      · exact Or.inr ⟨c :: l₁, e, f, l₂, by rw [hl]; rfl, by rw [← her]; rfl, hf, h⟩

/-! ### Unlinking a node -/

section Remove

variable [DecidableEq α] (next)

/-- `while (c->next != x) c = c->next;` -/
def predecessor (x : α) : ℕ → α → Option α
  | 0, _ => none
  | n + 1, c =>
    if next c = some x then some c
    else match next c with
      | none => none
      | some d => predecessor x n d

/-- Unlink `x`: redirect the head pointer if `x` is first, and otherwise the link of its
predecessor.  Answers the new head pointer and the new links. -/
def remove (n : ℕ) (head : Option α) (x : α) : Option (Option α × (α → Option α)) :=
  match head with
  | none => none
  | some c =>
    if c = x then some (next c, next)
    else (predecessor next x n c).map fun d =>
      (some c, Function.update next d ((next d).bind next))

variable {next}

theorem predecessor_eq {n : ℕ} {l₁ l₂ : List α} (h : Path next (some c) (l₁ ++ a :: x :: l₂))
    (hn : l₁.length < n) : predecessor next x n c = some a := by
  induction l₁ generalizing c n with
  | nil =>
    obtain ⟨n, rfl⟩ : ∃ m, n = m + 1 := ⟨n - 1, by omega⟩
    obtain ⟨hc, hnext, -⟩ := h
    cases hc
    simp [predecessor, hnext]
  | cons b l₁ ih =>
    obtain ⟨n, rfl⟩ : ∃ m, n = m + 1 := ⟨n - 1, by omega⟩
    have hnd := h.nodup
    obtain ⟨hb, h⟩ := h
    rw [Option.some.injEq] at hb
    subst hb
    -- the node behind `c` is on the way to `a`, so it is not `x`
    obtain ⟨d, hd⟩ : ∃ d, next c = some d := by
      cases l₁ with
      | nil => exact ⟨a, h.1⟩
      | cons d l₁ => exact ⟨d, h.1⟩
    have hne : d ≠ x := by
      rintro rfl
      rw [hd] at h
      cases l₁ with
      | nil => obtain ⟨ha, -⟩ := h; cases ha; simp at hnd
      | cons d l₁ => obtain ⟨ha, -⟩ := h; cases ha; simp at hnd
    rw [predecessor, if_neg (by simp [hd, hne]), hd]
    rw [hd] at h
    exact ih h (by simpa using hn)

/-- Unlinking a node of a path erases it from the list; the node keeps its own link. -/
theorem remove_eq {n : ℕ} (h : Path next p l) (hx : x ∈ l) (hn : l.length < n) :
    ∃ head next', remove next n p x = some (head, next') ∧ Path next' head (l.erase x) ∧
      next' x = next x ∧ ∀ y ∉ l, next' y = next y := by
  cases l with
  | nil => simp at hx
  | cons c l =>
    obtain ⟨rfl, hl⟩ := h
    by_cases hcx : c = x
    · subst hcx
      exact ⟨next c, next, by simp [remove], by simpa using hl, rfl, fun _ _ => rfl⟩
    · obtain ⟨l₁, l₂, hsplit⟩ := List.append_of_mem ((List.mem_cons.1 hx).resolve_left (Ne.symm hcx))
      obtain ⟨l₀, a, hlast⟩ : ∃ l₀ a, c :: l₁ = l₀ ++ [a] :=
        ⟨_, _, (List.dropLast_concat_getLast (List.cons_ne_nil c l₁)).symm⟩
      have hfull : c :: l = l₀ ++ a :: x :: l₂ := by
        rw [hsplit, ← List.cons_append, hlast]
        simp
      have hpath : Path next (some c) (l₀ ++ a :: x :: l₂) := by
        rw [← hfull]
        exact ⟨rfl, hl⟩
      have hlen : l₀.length < n := by
        rw [hfull] at hn
        simp at hn
        omega
      have hnd := hpath.nodup
      have hnext : next a = some x := hpath.suffix.1
      have hax : a ≠ x := by
        rintro rfl
        simp [List.nodup_append] at hnd
      refine ⟨some c, Function.update next a (next x), ?_, ?_, Function.update_of_ne hax.symm _ _,
        fun y hy => Function.update_of_ne ?_ _ _⟩
      · rw [remove]
        simp only [hcx, if_false, predecessor_eq hpath hlen, Option.map_some, hnext,
          Option.bind_some]
      · have herase : (l₀ ++ a :: x :: l₂).erase x = l₀ ++ a :: l₂ := by
          have hx0 : x ∉ l₀ := by
            intro hx0
            exact (List.nodup_append.1 hnd).2.2 x hx0 x (by simp) rfl
          rw [List.erase_append_right _ hx0, List.erase_cons_tail (by simpa using hax),
            List.erase_cons_head]
        rw [hfull, herase]
        exact hpath.unlink
      · rintro rfl
        exact hy (by rw [hfull]; simp)

end Remove

end Linked
