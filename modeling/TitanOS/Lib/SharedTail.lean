import TitanOS.Lib.Linked

/-!
# Lists with a common tail

Several singly linked lists in one pointer store can end in the same nodes, if each of them links
to the first of these.  `SharedTail next p S own t` says that this is all they share: the list of
every head `a` in `S` consists of its own nodes `own a`, followed by the nodes `t` that the pointer
`p` leads to.

What a write to one link does depends on where the node is.  Behind a node of `own a` it changes
the list of `a` only (`splice_own`), behind a node of `t` it changes all lists alike
(`splice_tail`).
-/

namespace Linked

variable {α : Type*}

/-- The lists of the heads in `S` are their own nodes, followed by the common nodes `t`. -/
structure SharedTail (next : α → Option α) (p : Option α) (S : α → Prop) (own : α → List α)
    (t : List α) : Prop where
  common : Path next p t
  path : ∀ a, S a → Path next (some a) (own a ++ t)
  apart : ∀ a b, S a → S b → a ≠ b → (own a).Disjoint (own b)

variable {next : α → Option α} {p q : Option α} {S : α → Prop} {own : α → List α} {t r : List α}
  {a c : α} {l₁ l₂ : List α}

/-- A node of a list with two parts is in the first or in the second. -/
theorem append_eq_append_cons {l l' : List α} (h : l ++ l' = l₁ ++ c :: l₂) :
    (∃ m, l = l₁ ++ c :: m ∧ l₂ = m ++ l') ∨ ∃ m, l₁ = l ++ m ∧ l' = m ++ c :: l₂ := by
  rcases List.append_eq_append_iff.1 h with ⟨m, hl, hl'⟩ | ⟨m, hl, hl'⟩
  · exact Or.inr ⟨m, hl, hl'⟩
  · cases m with
    | nil => exact Or.inr ⟨[], by simpa using hl.symm, by simpa using hl'.symm⟩
    | cons d m =>
      obtain ⟨rfl, hm⟩ := List.cons.inj hl'
      exact Or.inl ⟨m, hl, hm⟩

theorem SharedTail.notMem_tail (h : SharedTail next p S own t) (ha : S a) (hc : c ∈ own a) :
    c ∉ t :=
  fun ht => (List.nodup_append.1 (h.path a ha).nodup).2.2 c hc c ht rfl

variable [DecidableEq α]

/-- A link of a node on no list is written. -/
theorem SharedTail.update_of_notMem (h : SharedTail next p S own t) (hown : ∀ a, S a → c ∉ own a)
    (ht : c ∉ t) : SharedTail (Function.update next c q) p S own t := by
  refine ⟨h.common.update_of_notMem ht, fun a ha => (h.path a ha).update_of_notMem ?_, h.apart⟩
  rw [List.mem_append, not_or]
  exact ⟨hown a ha, ht⟩

/-- Redirecting the link of a node of `a` replaces its own nodes behind it. -/
theorem SharedTail.splice_own (h : SharedTail next p S own t) (ha : S a)
    (hl : own a = l₁ ++ c :: l₂) (hq : Path next q (r ++ t)) (hc : c ∉ r)
    (hr : ∀ b, S b → b ≠ a → r.Disjoint (own b)) :
    SharedTail (Function.update next c q) p S (Function.update own a (l₁ ++ c :: r)) t := by
  have hca : c ∈ own a := by
    rw [hl]
    simp
  have hct : c ∉ t := h.notMem_tail ha hca
  have hcross : ∀ b, S b → b ≠ a → (l₁ ++ c :: r).Disjoint (own b) := by
    intro b hb hba x hx hxb
    rcases List.mem_append.1 hx with hx | hx
    · exact h.apart a b ha hb hba.symm (by rw [hl]; simp [hx]) hxb
    · rcases List.mem_cons.1 hx with rfl | hx
      · exact h.apart a b ha hb hba.symm hca hxb
      · exact hr b hb hba hx hxb
  refine ⟨h.common.update_of_notMem hct, fun b hb => ?_, fun b b' hb hb' hne => ?_⟩
  · by_cases hba : b = a
    · subst hba
      have hpath := h.path b hb
      rw [hl, List.append_assoc, List.cons_append] at hpath
      rw [Function.update_self, List.append_assoc, List.cons_append]
      refine hpath.splice hq ?_
      rw [List.mem_append, not_or]
      exact ⟨hc, hct⟩
    · rw [Function.update_of_ne hba]
      refine (h.path b hb).update_of_notMem ?_
      rw [List.mem_append, not_or]
      exact ⟨fun hcb => h.apart a b ha hb (Ne.symm hba) hca hcb, hct⟩
  · by_cases hba : b = a
    · subst hba
      rw [Function.update_self, Function.update_of_ne hne.symm]
      exact hcross b' hb' hne.symm
    · by_cases hba' : b' = a
      · subst hba'
        rw [Function.update_self, Function.update_of_ne hne]
        exact (hcross b hb hne).symm
      · rw [Function.update_of_ne hba, Function.update_of_ne hba']
        exact h.apart b b' hb hb' hne

/-- Redirecting the link of a common node replaces the nodes behind it in all lists. -/
theorem SharedTail.splice_tail (h : SharedTail next p S own (l₁ ++ c :: l₂)) (hq : Path next q r)
    (hc : c ∉ r) : SharedTail (Function.update next c q) p S own (l₁ ++ c :: r) := by
  refine ⟨h.common.splice hq hc, fun a ha => ?_, h.apart⟩
  have hpath := h.path a ha
  rw [← List.append_assoc] at hpath ⊢
  exact hpath.splice hq hc

/-- A new head that links to the common nodes. -/
theorem SharedTail.insert_head (h : SharedTail next p S own t) (hnext : next a = p)
    (hown : ∀ b, S b → a ∉ own b) (ha : ¬ S a) :
    SharedTail next p (fun b => S b ∨ b = a) (Function.update own a [a]) t := by
  have hold : ∀ b, S b → Function.update own a [a] b = own b := by
    intro b hb
    refine Function.update_of_ne ?_ _ _
    rintro rfl
    exact ha hb
  refine ⟨h.common, ?_, ?_⟩
  · rintro b (hb | rfl)
    · rw [hold b hb]
      exact h.path b hb
    · rw [Function.update_self]
      exact ⟨rfl, by rw [hnext]; exact h.common⟩
  · rintro b b' (hb | rfl) (hb' | rfl) hne
    · rw [hold b hb, hold b' hb']
      exact h.apart b b' hb hb' hne
    · rw [hold b hb, Function.update_self, List.disjoint_singleton]
      exact hown b hb
    · rw [hold b' hb', Function.update_self, List.singleton_disjoint]
      exact hown b' hb'
    · exact absurd rfl hne

end Linked
