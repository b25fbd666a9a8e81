import Mathlib.Tactic

/-!
# Walks through tables with labelled edges

A table `a : α` has at most one edge for each label `i : ι`, given by `edge : α → ι → Option α`.
`follow edge a p` is the table that the labels `p` lead to from `a`.

`Forest edge R n C` says that the tables within depth `n` of the roots `R` form trees: a table is
reached by one list of labels only, and from two different roots only along a list in `C`.  The
set `C` of lists along which roots may share tables is a parameter, closed under extension.

There are three ways to change a forest.

* `attach`: give a table a missing edge to a fresh table that has no edges of its own.  Nothing
  that could be reached is lost, and only the fresh table is new.
* `redirect`: change an edge of a table at depth `n`.  The forest within depth `n` stays as it is,
  and of the walks one step beyond it only those through this edge change.
* `share`: make a fresh table a root, with one edge copied from another root.
-/

namespace Walk

variable {α ι : Type*}

/-- The table that the labels lead to. -/
def follow (edge : α → ι → Option α) : α → List ι → Option α
  | a, [] => some a
  | a, i :: p => (edge a i).bind fun b => follow edge b p

variable {edge edge' : α → ι → Option α} {a b f r r' t : α} {i : ι} {p p' q : List ι}

@[simp] theorem follow_nil : follow edge a [] = some a := rfl

theorem follow_cons : follow edge a (i :: p) = (edge a i).bind fun b => follow edge b p := rfl

theorem follow_append :
    follow edge a (p ++ q) = (follow edge a p).bind fun b => follow edge b q := by
  induction p generalizing a with
  | nil => rfl
  | cons i p ih =>
    rw [List.cons_append, follow_cons, follow_cons, Option.bind_assoc]
    congr
    funext b
    exact ih

theorem follow_snoc : follow edge a (p ++ [i]) = (follow edge a p).bind fun b => edge b i := by
  rw [follow_append]
  congr
  funext b
  simp [follow_cons]

theorem follow_snoc_of_eq (h : follow edge a p = some b) : follow edge a (p ++ [i]) = edge b i := by
  rw [follow_snoc, h, Option.bind_some]

/-- A walk sees only the edges it takes. -/
theorem follow_congr (h : ∀ p₁ i p₂, p = p₁ ++ i :: p₂ → ∀ b, follow edge a p₁ = some b →
    edge' b i = edge b i) : follow edge' a p = follow edge a p := by
  induction p generalizing a with
  | nil => rfl
  | cons i p ih =>
    rw [follow_cons, follow_cons, h [] i p rfl a rfl]
    cases hb : edge a i with
    | none => rfl
    | some b =>
      refine ih fun p₁ j p₂ hp c hc => h (i :: p₁) j p₂ (by rw [hp]; rfl) c ?_
      rw [follow_cons, hb, Option.bind_some, hc]

/-- `t` is at most `n` steps from a root. -/
def Reach (edge : α → ι → Option α) (R : α → Prop) (n : ℕ) (t : α) : Prop :=
  ∃ r p, R r ∧ p.length ≤ n ∧ follow edge r p = some t

/-- Within depth `n` a table is reached from a root in one way, and from two roots only along a
list of labels in `C`. -/
def Forest (edge : α → ι → Option α) (R : α → Prop) (n : ℕ) (C : List ι → Prop) : Prop :=
  ∀ r r' p p' t, R r → R r' → p.length ≤ n → p'.length ≤ n →
    follow edge r p = some t → follow edge r' p' = some t → p = p' ∧ (r = r' ∨ C p)

variable {R : α → Prop} {n : ℕ} {C : List ι → Prop}

theorem reach_root (hr : R r) : Reach edge R n r := ⟨r, [], hr, by simp, rfl⟩

theorem Reach.mono {m : ℕ} (h : Reach edge R n t) (hnm : n ≤ m) : Reach edge R m t := by
  obtain ⟨r, p, hr, hp, ht⟩ := h
  exact ⟨r, p, hr, hp.trans hnm, ht⟩

/-- `edge` and `edge'` have the same walks of at most `n` steps from the roots. -/
def Same (edge edge' : α → ι → Option α) (R : α → Prop) (n : ℕ) : Prop :=
  ∀ r p, R r → p.length ≤ n → follow edge' r p = follow edge r p

theorem Same.trans {edge'' : α → ι → Option α} (h : Same edge edge' R n)
    (h' : Same edge' edge'' R n) : Same edge edge'' R n :=
  fun r p hr hp => (h' r p hr hp).trans (h r p hr hp)

theorem Same.mono {m : ℕ} (h : Same edge edge' R n) (hmn : m ≤ n) : Same edge edge' R m :=
  fun r p hr hp => h r p hr (hp.trans hmn)

theorem Same.reach_iff (h : Same edge edge' R n) : Reach edge' R n b ↔ Reach edge R n b := by
  constructor
  · rintro ⟨r, p, hr, hp, hb⟩
    exact ⟨r, p, hr, hp, by rwa [← h r p hr hp]⟩
  · rintro ⟨r, p, hr, hp, hb⟩
    exact ⟨r, p, hr, hp, by rwa [h r p hr hp]⟩

theorem Same.forest (h : Same edge edge' R n) (hF : Forest edge R n C) : Forest edge' R n C := by
  intro s s' p p' b hs hs' hp hp' hb hb'
  rw [h s p hs hp] at hb
  rw [h s' p' hs' hp'] at hb'
  exact hF s s' p p' b hs hs' hp hp' hb hb'

/-- The edges of a table out of reach do not matter. -/
theorem same_of_unreached (hf : ¬ Reach edge R n f)
    (h : ∀ a j, a ≠ f → edge' a j = edge a j) : Same edge edge' R (n + 1) := by
  intro r p hr hp
  refine follow_congr fun p₁ j p₂ hsplit c hc => h c j ?_
  rintro rfl
  refine hf ⟨r, p₁, hr, ?_, hc⟩
  rw [hsplit] at hp
  simp at hp
  omega

/-! ### Attaching a fresh table -/

/-- `edge'` is `edge` with the missing edge `i` of `t` leading to `f`, which has no edges. -/
structure Attach (edge edge' : α → ι → Option α) (t : α) (i : ι) (f : α) : Prop where
  missing : edge t i = none
  link : edge' t i = some f
  leaf : ∀ j, edge' f j = none
  other : ∀ a j, a ≠ f → (a = t → j ≠ i) → edge' a j = edge a j

section Attach

variable (h : Attach edge edge' t i f) (hf : ¬ Reach edge R n f)

include h hf

/-- A walk that led somewhere still leads there. -/
theorem Attach.follow_of_eq (hr : R r) (hp : p.length ≤ n + 1) (hb : follow edge r p = some b) :
    follow edge' r p = some b := by
  rw [← hb]
  refine follow_congr fun p₁ j p₂ hsplit c hc => h.other c j ?_ ?_
  · rintro rfl
    refine hf ⟨r, p₁, hr, ?_, hc⟩
    rw [hsplit] at hp
    simp at hp
    omega
  · rintro rfl rfl
    rw [hsplit, follow_append, hc, Option.bind_some, follow_cons, h.missing] at hb
    cases hb

/-- A walk that leads somewhere now did so before, or ends with the new edge. -/
theorem Attach.follow_cases (hr : R r) (hp : p.length ≤ n + 1) (hb : follow edge' r p = some b) :
    follow edge r p = some b ∨ (b = f ∧ ∃ q, p = q ++ [i] ∧ follow edge r q = some t) := by
  induction p using List.reverseRecOn generalizing b with
  | nil => exact Or.inl hb
  | append_singleton q j ih =>
    rw [follow_snoc] at hb
    obtain ⟨c, hc, hj⟩ := Option.bind_eq_some_iff.1 hb
    have hq : q.length ≤ n := by simpa using hp
    rcases ih (by omega) hc with hold | ⟨rfl, -⟩
    · have hcf : c ≠ f := by
        rintro rfl
        exact hf ⟨r, q, hr, hq, hold⟩
      by_cases hci : c = t ∧ j = i
      · obtain ⟨rfl, rfl⟩ := hci
        rw [h.link] at hj
        cases hj
        exact Or.inr ⟨rfl, q, rfl, hold⟩
      · rw [h.other c j hcf fun hct hji => hci ⟨hct, hji⟩] at hj
        exact Or.inl (by rw [follow_snoc_of_eq hold, hj])
    · rw [h.leaf] at hj
      cases hj

/-- Within depth `n` the fresh table is the only new one. -/
theorem Attach.reach_cases (hb : Reach edge' R n b) : Reach edge R n b ∨ b = f := by
  obtain ⟨r, p, hr, hp, hb⟩ := hb
  rcases h.follow_cases hf hr (by omega) hb with hb | ⟨rfl, -⟩
  · exact Or.inl ⟨r, p, hr, hp, hb⟩
  · exact Or.inr rfl

theorem Attach.forest (hC : ∀ p i, C p → C (p ++ [i])) (hF : Forest edge R n C) :
    Forest edge' R n C := by
  intro r r' p p' b hr hr' hp hp' hb hb'
  rcases h.follow_cases hf hr (by omega) hb with hold | ⟨rfl, q, rfl, hq⟩
  · rcases h.follow_cases hf hr' (by omega) hb' with hold' | ⟨rfl, -⟩
    · exact hF r r' p p' b hr hr' hp hp' hold hold'
    · exact absurd ⟨r, p, hr, hp, hold⟩ hf
  · rcases h.follow_cases hf hr' (by omega) hb' with hold' | ⟨-, q', rfl, hq'⟩
    · exact absurd ⟨r', p', hr', hp', hold'⟩ hf
    · simp only [List.length_append, List.length_singleton] at hp hp'
      obtain ⟨rfl, hor⟩ := hF r r' q q' t hr hr' (by omega) (by omega) hq hq'
      exact ⟨rfl, hor.imp_right (hC q i)⟩

/-- Beyond depth `n` nothing changes when the fresh table is attached within it. -/
theorem Attach.follow_eq (hF : Forest edge R n C) (hq : R r') (hql : q.length < n)
    (ht : follow edge r' q = some t) (hr : R r) (hp : p.length = n + 1) :
    follow edge' r p = follow edge r p := by
  cases hb : follow edge r p with
  | some b => exact h.follow_of_eq hf hr (by omega) hb
  | none =>
    by_contra hne
    obtain ⟨b, hb'⟩ := Option.ne_none_iff_exists'.1 hne
    rcases h.follow_cases hf hr (by omega) hb' with hold | ⟨-, q', rfl, hq'⟩
    · rw [hb] at hold
      cases hold
    · have hlen : q'.length ≤ n := by simpa using hp.le
      obtain ⟨rfl, -⟩ := hF r' r q q' t hq hr (by omega) hlen ht hq'
      simp at hp
      omega

end Attach

/-! ### Redirecting an edge at the last level -/

/-- `edge'` differs from `edge` at most in the edge `i` of `t`. -/
def Redirect (edge edge' : α → ι → Option α) (t : α) (i : ι) : Prop :=
  ∀ a j, (a = t → j ≠ i) → edge' a j = edge a j

section Redirect

variable (h : Redirect edge edge' t i) (hF : Forest edge R n C) (hq : R r') (hql : q.length = n)
  (ht : follow edge r' q = some t)

include h hF hq hql ht

/-- A walk of at most `n` steps does not take an edge of `t`. -/
theorem Redirect.same : Same edge edge' R n := by
  intro r p hr hp
  refine follow_congr fun p₁ j p₂ hsplit c hc => h c j ?_
  rintro rfl -
  have hlen : p₁.length < n := by
    rw [hsplit] at hp
    simp at hp
    omega
  obtain ⟨rfl, -⟩ := hF r' r q p₁ c hq hr hql.le hlen.le ht hc
  omega

/-- A walk of `n + 1` steps changes only if it is the one through the edge. -/
theorem Redirect.follow_of_ne (hr : R r) (hp : p.length = n + 1) (hne : p ≠ q ++ [i]) :
    follow edge' r p = follow edge r p := by
  refine follow_congr fun p₁ j p₂ hsplit c hc => h c j ?_
  rintro rfl rfl
  have hlen : p₁.length ≤ n := by
    rw [hsplit] at hp
    simp at hp
    omega
  obtain ⟨rfl, -⟩ := hF r' r q p₁ c hq hr hql.le hlen ht hc
  rw [hsplit] at hp
  have : p₂ = [] := by
    simp at hp
    exact List.length_eq_zero_iff.1 (by omega)
  exact hne (by rw [hsplit, this])

/-- The walk through the edge ends where the edge leads now. -/
theorem Redirect.follow_self : follow edge' r' (q ++ [i]) = edge' t i := by
  rw [follow_snoc, h.same hF hq hql ht r' q hq hql.le, ht, Option.bind_some]

end Redirect

/-! ### A new root that shares an edge -/

/-- `edge'` is `edge` with a table `f` whose only edge `i` leads where that of `a` does. -/
structure Share (edge edge' : α → ι → Option α) (a : α) (i : ι) (f : α) : Prop where
  link : edge' f i = edge a i
  leaf : ∀ j, j ≠ i → edge' f j = none
  other : ∀ b j, b ≠ f → edge' b j = edge b j

section Share

variable (h : Share edge edge' a i f) (hf : ¬ Reach edge R n f) (ha : R a)

include h hf

/-- Nothing changes for the old roots. -/
theorem Share.same : Same edge edge' R (n + 1) := same_of_unreached hf h.other

include ha

/-- A walk from the new root along the shared edge is a walk from the old one. -/
theorem Share.follow_shared (hp : p.length ≤ n) :
    follow edge' f (i :: p) = follow edge a (i :: p) := by
  have hcopy : follow edge' f (i :: p) = follow edge' a (i :: p) := by
    have haf : a ≠ f := by
      rintro rfl
      exact hf (reach_root ha)
    rw [follow_cons, follow_cons, h.link, h.other a i haf]
  rw [hcopy, h.same hf a _ ha (by simpa using hp)]

theorem Share.follow_cases (hp : p.length ≤ n + 1) (hb : follow edge' f p = some b) :
    (p = [] ∧ b = f) ∨ (p.head? = some i ∧ follow edge a p = some b) := by
  cases p with
  | nil => exact Or.inl ⟨rfl, by simpa using hb.symm⟩
  | cons j p =>
    by_cases hj : j = i
    · subst hj
      rw [h.follow_shared hf ha (by simpa using hp)] at hb
      exact Or.inr ⟨rfl, hb⟩
    · rw [follow_cons, h.leaf j hj] at hb
      cases hb

/-- The new root is the only new table. -/
theorem Share.reach_cases (hb : Reach edge' (fun r => R r ∨ r = f) n b) :
    Reach edge R n b ∨ b = f := by
  obtain ⟨r, p, hr | rfl, hp, hb⟩ := hb
  · rw [h.same hf r p hr (by omega)] at hb
    exact Or.inl ⟨r, p, hr, hp, hb⟩
  · rcases h.follow_cases hf ha (by omega) hb with ⟨-, rfl⟩ | ⟨-, hb⟩
    · exact Or.inr rfl
    · exact Or.inl ⟨a, p, ha, hp, hb⟩

theorem Share.forest (hC : ∀ p, p.head? = some i → C p) (hF : Forest edge R n C) :
    Forest edge' (fun r => R r ∨ r = f) n C := by
  -- a walk from the new root is empty, or it is one from `a` along the shared edge
  have hold : ∀ r p b, R r → p.length ≤ n → follow edge' r p = some b →
      follow edge r p = some b := fun r p b hr hp hb => by rwa [h.same hf r p hr (by omega)] at hb
  have hne : ∀ r p, R r → p.length ≤ n → follow edge r p ≠ some f :=
    fun r p hr hp hb => hf ⟨r, p, hr, hp, hb⟩
  rintro r r' p p' b (hr | rfl) (hr' | rfl) hp hp' hb hb'
  · exact hF r r' p p' b hr hr' hp hp' (hold r p b hr hp hb) (hold r' p' b hr' hp' hb')
  · have hb := hold r p b hr hp hb
    rcases h.follow_cases hf ha (by omega) hb' with ⟨-, rfl⟩ | ⟨hi, hb'⟩
    · exact absurd hb (hne r p hr hp)
    · obtain ⟨rfl, -⟩ := hF r a p p' b hr ha hp hp' hb hb'
      exact ⟨rfl, Or.inr (hC p hi)⟩
  · have hb' := hold r' p' b hr' hp' hb'
    rcases h.follow_cases hf ha (by omega) hb with ⟨-, rfl⟩ | ⟨hi, hb⟩
    · exact absurd hb' (hne r' p' hr' hp')
    · obtain ⟨rfl, -⟩ := hF a r' p p' b ha hr' hp hp' hb hb'
      exact ⟨rfl, Or.inr (hC p hi)⟩
  · refine ⟨?_, Or.inl rfl⟩
    rcases h.follow_cases hf ha (by omega) hb with ⟨rfl, rfl⟩ | ⟨-, hb⟩ <;>
      rcases h.follow_cases hf ha (by omega) hb' with ⟨rfl, hb₂⟩ | ⟨-, hb'⟩
    · rfl
    · exact absurd hb' (hne a p' ha hp')
    · exact absurd (hb₂ ▸ hb) (hne a p ha hp)
    · exact (hF a a p p' b ha ha hp hp' hb hb').1

end Share

end Walk
