import Mathlib.Tactic

/-!
# Runs of a partial step function

A system is given by `step : σ → ο → Option σ`: the state before, the operation issued, and the
state after it, or `none` when the operation faults or never returns.  A run is a list of
operations.

* `Along step P s os`: every operation `o` issued in the run `os` from `s`, in the state `t` it is
  issued in, satisfies `P t o`;
* `Always step Q s os`: every state the run passes through, the first and the last included,
  satisfies `Q`.

`Along.of_inv` and `Always.of_inv` are the two forms of the invariant rule.  Both let a step use
that the run meets a side condition `C` at that step, so that a property of all runs whose steps
meet `C` comes down to one lemma about one step.
-/

namespace Run

variable {σ ο : Type*} (step : σ → ο → Option σ)

/-- Every operation of the run satisfies `P` in the state it is issued in. -/
def Along (P : σ → ο → Prop) : σ → List ο → Prop
  | _, [] => True
  | s, o :: os => P s o ∧ ∀ s', step s o = some s' → Along P s' os

/-- Every state the run passes through satisfies `Q`. -/
def Always (Q : σ → Prop) : σ → List ο → Prop
  | s, [] => Q s
  | s, o :: os => Q s ∧ ∀ s', step s o = some s' → Always Q s' os

variable {step}

@[simp] theorem along_nil {P : σ → ο → Prop} {s : σ} : Along step P s [] := trivial

theorem along_cons {P : σ → ο → Prop} {s : σ} {o : ο} {os : List ο} :
    Along step P s (o :: os) ↔ P s o ∧ ∀ s', step s o = some s' → Along step P s' os := Iff.rfl

theorem always_cons {Q : σ → Prop} {s : σ} {o : ο} {os : List ο} :
    Always step Q s (o :: os) ↔ Q s ∧ ∀ s', step s o = some s' → Always step Q s' os := Iff.rfl

/-- A condition on runs is decided by evaluating the run. -/
instance Along.decidable (P : σ → ο → Prop) [∀ s o, Decidable (P s o)] :
    ∀ (s : σ) (os : List ο), Decidable (Along step P s os)
  | _, [] => .isTrue trivial
  | s, o :: os =>
    match h : step s o with
    | none => decidable_of_iff (P s o) (by simp [along_cons, h])
    | some s' =>
      have := Along.decidable P s' os
      decidable_of_iff (P s o ∧ Along step P s' os) (by simp [along_cons, h])

instance Always.decidable (Q : σ → Prop) [∀ s, Decidable (Q s)] :
    ∀ (s : σ) (os : List ο), Decidable (Always step Q s os)
  | s, [] => inferInstanceAs (Decidable (Q s))
  | s, o :: os =>
    match h : step s o with
    | none => decidable_of_iff (Q s) (by simp [always_cons, h])
    | some s' =>
      have := Always.decidable Q s' os
      decidable_of_iff (Q s ∧ Always step Q s' os) (by simp [always_cons, h])

/-- **The invariant rule.**  If `C` at a step in a state satisfying `I` gives `P` there and `I`
afterwards, then a run all of whose steps meet `C` satisfies `P` at every step. -/
theorem Along.of_inv {I : σ → Prop} {C P : σ → ο → Prop}
    (hstep : ∀ s o, I s → C s o → P s o ∧ ∀ s', step s o = some s' → I s')
    {s : σ} {os : List ο} (hs : I s) (hC : Along step C s os) : Along step P s os := by
  induction os generalizing s with
  | nil => exact trivial
  | cons o os ih =>
    obtain ⟨hc, hrest⟩ := hC
    obtain ⟨hp, hnext⟩ := hstep s o hs hc
    exact ⟨hp, fun s' h => ih (hnext s' h) (hrest s' h)⟩

/-- The invariant rule for states. -/
theorem Always.of_inv {I Q : σ → Prop} {C : σ → ο → Prop} (hQ : ∀ s, I s → Q s)
    (hstep : ∀ s o s', I s → C s o → step s o = some s' → I s')
    {s : σ} {os : List ο} (hs : I s) (hC : Along step C s os) : Always step Q s os := by
  induction os generalizing s with
  | nil => exact hQ s hs
  | cons o os ih =>
    obtain ⟨hc, hrest⟩ := hC
    exact ⟨hQ s hs, fun s' h => ih (hstep s o s' hs hc h) (hrest s' h)⟩

theorem Always.head {Q : σ → Prop} {s : σ} {os : List ο} (h : Always step Q s os) : Q s := by
  cases os with
  | nil => exact h
  | cons o os => exact h.1

/-- What holds of every state holds before and after every step. -/
theorem Always.along {Q : σ → Prop} {s : σ} {os : List ο} (h : Always step Q s os) :
    Along step (fun s o => Q s ∧ ∀ s', step s o = some s' → Q s') s os := by
  induction os generalizing s with
  | nil => exact trivial
  | cons o os ih => exact ⟨⟨h.1, fun s' hs' => (h.2 s' hs').head⟩, fun s' hs' => ih (h.2 s' hs')⟩

/-- What holds of every state holds of the first one, and every step leads to a state where it
does. -/
theorem always_iff_along {Q : σ → Prop} {s : σ} {os : List ο} : Always step Q s os ↔
    Q s ∧ Along step (fun s o => ∀ s', step s o = some s' → Q s') s os := by
  induction os generalizing s with
  | nil => exact (and_iff_left trivial).symm
  | cons o os ih =>
    rw [always_cons, along_cons]
    refine and_congr_right fun _ => ⟨fun h => ⟨fun s' hs' => (h s' hs').head, fun s' hs' =>
      (ih.1 (h s' hs')).2⟩, fun h s' hs' => ih.2 ⟨h.1 s' hs', h.2 s' hs'⟩⟩

theorem Along.and {P Q : σ → ο → Prop} {s : σ} {os : List ο} (hP : Along step P s os)
    (hQ : Along step Q s os) : Along step (fun s o => P s o ∧ Q s o) s os := by
  induction os generalizing s with
  | nil => exact trivial
  | cons o os ih => exact ⟨⟨hP.1, hQ.1⟩, fun s' hs' => ih (hP.2 s' hs') (hQ.2 s' hs')⟩

/-- What holds of every operation of a list holds along every run of it. -/
theorem along_of_forall {P : ο → Prop} {s : σ} {os : List ο} (h : ∀ o ∈ os, P o) :
    Along step (fun _ o => P o) s os := by
  induction os generalizing s with
  | nil => exact trivial
  | cons o os ih =>
    exact ⟨h o List.mem_cons_self, fun _ _ => ih fun o ho => h o (List.mem_cons_of_mem _ ho)⟩

/-- **The rule for conditions that are exact.**  If `P` and `C` agree in the states that satisfy
`I`, and a step that meets `C` keeps `I`, then they agree along every run of valid operations. -/
theorem along_iff_of_inv {I : σ → Prop} {V C P : σ → ο → Prop}
    (hstep : ∀ s o, I s → V s o →
      (P s o ↔ C s o) ∧ (C s o → ∀ s', step s o = some s' → I s'))
    {s : σ} {os : List ο} (hs : I s) (hV : Along step V s os) :
    Along step P s os ↔ Along step C s os := by
  induction os generalizing s with
  | nil => exact Iff.rfl
  | cons o os ih =>
    obtain ⟨hiff, hnext⟩ := hstep s o hs hV.1
    rw [along_cons, along_cons, hiff]
    constructor
    · rintro ⟨hc, hrest⟩
      exact ⟨hc, fun s' h => (ih (hnext hc s' h) (hV.2 s' h)).1 (hrest s' h)⟩
    · rintro ⟨hc, hrest⟩
      exact ⟨hc, fun s' h => (ih (hnext hc s' h) (hV.2 s' h)).2 (hrest s' h)⟩

/-- A run of two parts. -/
theorem along_append {P : σ → ο → Prop} {s t : σ} {as bs : List ο} (ha : Along step P s as)
    (ht : as.foldlM step s = some t) (hb : Along step P t bs) : Along step P s (as ++ bs) := by
  induction as generalizing s with
  | nil =>
    obtain rfl := Option.some.inj ht
    exact hb
  | cons o as ih =>
    obtain ⟨s₁, hs₁, ht⟩ := Option.bind_eq_some_iff.1 ht
    refine ⟨ha.1, fun s' hs' => ?_⟩
    obtain rfl := Option.some.inj (hs₁.symm.trans hs')
    exact ih (ha.2 s₁ hs₁) ht

theorem Always.append {Q : σ → Prop} {s t : σ} {as bs : List ο} (h : Always step Q s (as ++ bs))
    (ht : as.foldlM step s = some t) : Always step Q t bs := by
  induction as generalizing s with
  | nil =>
    obtain rfl := Option.some.inj ht
    exact h
  | cons o as ih =>
    obtain ⟨s₁, hs₁, ht⟩ := Option.bind_eq_some_iff.1 ht
    exact ih (h.2 s₁ hs₁) ht

end Run
