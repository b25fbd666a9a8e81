import TitanOS.Lib.Linked

/-!
# Pointer stores without cycles

In a store that holds many lists, which may run into each other, the question is whether every
traversal ends.  `Acyclic next` says so for all nodes.  Writing one link keeps it exactly when the
node that is written is not behind the new target (`Acyclic.update`, `not_ends_update`).
-/

namespace Linked

variable {α : Type*} {next : α → Option α} {p q : Option α} {a c : α} {l : List α}

/-- The traversal from `p` ends. -/
def Ends (next : α → Option α) (p : Option α) : Prop := ∃ l, Path next p l

/-- The traversal from `p` ends and passes through `a`. -/
def OnPath (next : α → Option α) (p : Option α) (a : α) : Prop := ∃ l, Path next p l ∧ a ∈ l

/-- Every traversal ends. -/
def Acyclic (next : α → Option α) : Prop := ∀ a, Ends next (some a)

theorem Acyclic.ends (h : Acyclic next) : ∀ p, Ends next p
  | none => ⟨[], rfl⟩
  | some a => h a

theorem Acyclic.ne_self (h : Acyclic next) (a : α) : next a ≠ some a := by
  intro ha
  obtain ⟨l, hl⟩ := h a
  obtain ⟨r, rfl, hr⟩ := path_some.1 hl
  rw [ha] at hr
  have := congrArg List.length (hl.unique hr)
  simp at this

/-- A node is not on the path behind it. -/
theorem Acyclic.not_onPath_next (h : Acyclic next) (a : α) : ¬ OnPath next (next a) a := by
  rintro ⟨l, hl, ha⟩
  obtain ⟨r, hr⟩ := h a
  obtain ⟨r, rfl, hr'⟩ := path_some.1 hr
  have := hr.nodup
  rw [hr'.unique hl] at this
  exact (List.nodup_cons.1 this).1 ha

theorem Acyclic.onPath_self (h : Acyclic next) (a : α) : OnPath next (some a) a := by
  obtain ⟨l, hl⟩ := h a
  refine ⟨l, hl, ?_⟩
  obtain ⟨r, rfl, -⟩ := path_some.1 hl
  exact List.mem_cons_self

/-- With a node, its successors are on the path. -/
theorem OnPath.tail (h : OnPath next p a) (hc : OnPath next (next a) c) : OnPath next p c := by
  obtain ⟨l, hl, ha⟩ := h
  obtain ⟨r, hr, hc⟩ := hc
  obtain ⟨l₁, l₂, rfl⟩ := List.append_of_mem ha
  refine ⟨_, hl, ?_⟩
  rw [hr.unique hl.suffix] at hc
  simp [hc]

/-- A node that every list from `p` passes through is followed by a list that ends. -/
theorem Ends.of_reaches {b : α} (h : Ends next p) (hl : ∀ l, Path next p l → b ∈ l) :
    Ends next (some b) := by
  obtain ⟨l, hp⟩ := h
  obtain ⟨l₁, l₂, rfl⟩ := List.append_of_mem (hl l hp)
  exact ⟨b :: l₂, rfl, hp.suffix⟩

variable [DecidableEq α]

/-- A traversal that does not pass through `c` does not see its link. -/
theorem Acyclic.update (h : Acyclic next) (hq : ¬ OnPath next q c) :
    Acyclic (Function.update next c q) := by
  intro a
  obtain ⟨l, hl⟩ := h a
  obtain ⟨r, hr⟩ := h.ends q
  by_cases hc : c ∈ l
  · obtain ⟨l₁, l₂, rfl⟩ := List.append_of_mem hc
    exact ⟨_, hl.splice hr fun hcr => hq ⟨r, hr, hcr⟩⟩
  · exact ⟨l, hl.update_of_notMem hc⟩

/-- Up to the node that is written, the path is the same. -/
theorem path_update_front {l₁ l₂ r : List α} (h : Path next p (l₁ ++ c :: l₂)) (hc : c ∉ l₁)
    (hr : Path (Function.update next c q) p r) : c ∈ r := by
  induction l₁ generalizing p r with
  | nil =>
    obtain ⟨rfl, -⟩ := h
    obtain ⟨r, rfl, -⟩ := path_some.1 hr
    exact List.mem_cons_self
  | cons b l₁ ih =>
    obtain ⟨rfl, h⟩ := h
    obtain ⟨r, rfl, hr'⟩ := path_some.1 hr
    have hbc : b ≠ c := fun hbc => hc (by simp [hbc])
    rw [Function.update_of_ne hbc] at hr'
    exact List.mem_cons_of_mem b (ih h (fun hmem => hc (List.mem_cons_of_mem b hmem)) hr')

/-- A link to a node in front of it closes a cycle. -/
theorem not_ends_update (h : OnPath next q c) : ¬ Ends (Function.update next c q) (some c) := by
  rintro ⟨r, hr⟩
  obtain ⟨l, hl, hc⟩ := h
  obtain ⟨l₁, l₂, rfl⟩ := List.append_of_mem hc
  have hnd := hl.nodup
  have hnodup := hr.nodup
  obtain ⟨r, rfl, hr'⟩ := path_some.1 hr
  rw [Function.update_self] at hr'
  refine (List.nodup_cons.1 hnodup).1 (path_update_front hl (fun hmem => ?_) hr')
  rw [List.nodup_append] at hnd
  exact hnd.2.2 c hmem c List.mem_cons_self rfl

end Linked
