import TitanOS.Sched.Dispatch

/-!
# Contexts survive preemption

A run keeps a history of register contexts, newest first: `create_thread` adds the context it
builds for the new thread, and every call of `schedule` adds the context it is passed for the
thread that was current.  So the newest entry of a thread is the context with which it was last
left, or the one it was created with if it has never run.  Objects that `kmalloc` puts at the
address of a reaped thread start with an entry of their own.

`context_schedule` says what one `schedule` does to the saved contexts: it saves the one it is
passed, unless the idle thread is current, and reaping and choosing the next thread leave all of
them alone.  `Saved` follows for every state of a run: the context stored in each live thread is
the newest of the history.
-/

namespace TitanOS

namespace Sched

open Function (update)

variable {s s' : Sched} {g : Ledger} {idle p t : ℕ}

/-! ### What the operations do to the stored contexts -/

theorem context_createThread {w stack : ℕ} {e : Entry}
    (h : s.createThread w p t e stack = some s') :
    s'.context = update s.context t (newContext w e stack) := by
  unfold createThread at h
  cases hth : s.threads p with
  | none =>
    simp only [hth, Option.some.injEq] at h
    subst h
    rfl
  | some c =>
    simp only [hth, Option.map_eq_some_iff] at h
    obtain ⟨d, -, rfl⟩ := h
    rfl

theorem context_createProc {w pml4t stack : ℕ} {e : Entry} {b : Bool}
    (h : s.createProc w p t pml4t e b stack = some s') :
    s'.context = update s.context t (newContext w e stack) := by
  obtain ⟨s₁, hs₁, rfl⟩ := Option.map_eq_some_iff.1 h
  have hc := context_createThread hs₁
  cases b <;> exact hc

theorem context_reapThreads {reap : Sched → ℕ → Option Sched}
    (hreap : ∀ s t s', reap s t = some s' → s'.context = s.context) {n : ℕ} {c : Option ℕ}
    (h : reapThreads reap n s c = some s') : s'.context = s.context := by
  induction n generalizing s c with
  | zero => cases h
  | succ n ih =>
    cases c with
    | none =>
      cases h
      rfl
    | some t =>
      obtain ⟨s₁, hs₁, h⟩ := Option.bind_eq_some_iff.1 h
      exact (ih h).trans (hreap _ _ _ hs₁)

theorem context_reapProcess {reap : Sched → ℕ → Option Sched}
    (hreap : ∀ s t s', reap s t = some s' → s'.context = s.context)
    {regions : ℕ → List ℕ} (h : reapProcess reap regions s p = some s') :
    s'.context = s.context := by
  obtain ⟨r, -, h⟩ := Option.bind_eq_some_iff.1 h
  obtain ⟨s₁, hs₁, rfl⟩ := Option.map_eq_some_iff.1 h
  have hctx := context_reapThreads hreap hs₁
  rw [foldl_call]
  exact hctx

/-- Reaping frees objects; it writes no context. -/
theorem context_reapThread {regions : ℕ → List ℕ} {n : ℕ}
    (h : reapThread regions n s t = some s') : s'.context = s.context := by
  induction n generalizing s s' t with
  | zero => cases h
  | succ n ih =>
    obtain ⟨r, -, h⟩ := Option.bind_eq_some_iff.1 h
    simp only at h
    split at h
    · have hreap : ∀ s t s', reapThread regions n s t = some s' → s'.context = s.context :=
        fun _ _ _ h => ih h
      exact (context_reapProcess hreap h).trans rfl
    · cases h
      rfl

theorem context_advance (h : s.advance = some s') : s'.context = s.context := by
  obtain ⟨r, hr, rfl⟩ := Option.map_eq_some_iff.1 h
  have hctx : r.context = s.context := by
    unfold nextRunnable at hr
    split at hr
    · cases hr
      rfl
    · obtain ⟨t, -, rfl⟩ := Option.map_eq_some_iff.1 hr
      rfl
  rw [← hctx]
  split <;> rfl

/-- `schedule` saves the context it is passed, unless the idle thread is current, and returns the
one stored in the thread it chooses. -/
theorem context_schedule {ctx ctx' : CpuContext} {regions : ℕ → List ℕ}
    (h : s.schedule ctx regions = some (s', ctx')) :
    s'.context = (if some s.currentThread ≠ s.threads s.idleProc then
        update s.context s.currentThread ctx else s.context) ∧
      ctx' = s'.context s'.currentThread := by
  obtain ⟨s₂, hs₂, heq⟩ := Option.map_eq_some_iff.1 h
  cases heq
  refine ⟨?_, rfl⟩
  obtain ⟨s₁, hs₁, hadv⟩ := Option.bind_eq_some_iff.1 hs₂
  rw [context_advance hadv]
  set r := if some s.currentThread ≠ s.threads s.idleProc then
    { s with context := update s.context s.currentThread ctx } else s with hr
  have hsaved : r.context = if some s.currentThread ≠ s.threads s.idleProc then
      update s.context s.currentThread ctx else s.context := by
    rw [hr]
    split <;> rfl
  rw [← hsaved]
  by_cases hdead : r.status r.currentThread = .dead
  · rw [if_pos hdead] at hs₁
    exact context_reapThread hs₁
  · rw [if_neg hdead] at hs₁
    cases hs₁
    rfl

/-! ### Runs -/

/-- The entry that a call adds to the history. -/
def record (wrapper : ℕ) (s : Sched) : Op → List (ℕ × CpuContext)
  | .createProc _ t _ e stack => [(t, newContext wrapper e stack)]
  | .createThread _ t e stack => [(t, newContext wrapper e stack)]
  | .exit => []
  | .schedule context _ => [(s.currentThread, context)]

/-- One call on the scheduler, with the ledger and the history of contexts. -/
def stepHistory (wrapper : ℕ) (x : (Sched × Ledger) × List (ℕ × CpuContext)) (o : Op) :
    Option ((Sched × Ledger) × List (ℕ × CpuContext)) :=
  (step wrapper x.1 o).map fun y => (y, x.1.1.record wrapper o ++ x.2)

/-- Each live thread stores the newest context that the history has for it. -/
structure Saved (s : Sched) (g : Ledger) (idle : ℕ) (hist : List (ℕ × CpuContext)) : Prop where
  accounts : s.Accounts g idle
  newest : ∀ e ∈ g.queue, ∀ a ∈ e.2, hist.lookup a = some (s.context a)

variable {hist : List (ℕ × CpuContext)}

/-- Writing the context of one thread and recording it. -/
theorem lookup_update {f : ℕ → CpuContext} {a b : ℕ} (c : CpuContext)
    (h : a ≠ b → hist.lookup a = some (f a)) :
    ([(b, c)] ++ hist).lookup a = some (update f b c a) := by
  rw [List.singleton_append, List.lookup_cons]
  by_cases hab : a = b
  · simp [hab]
  · rw [beq_false_of_ne hab, Function.update_of_ne hab, h hab]

/-- A new thread starts with the context that is built for it. -/
theorem Saved.of_created {g' : Ledger} {c : CpuContext} (h : s.Saved g idle hist)
    (hacc : s'.Accounts g' idle)
    (hq : ∀ e ∈ g'.queue, ∀ a ∈ e.2, a = t ∨ ∃ e' ∈ g.queue, a ∈ e'.2)
    (hctx : s'.context = update s.context t c) :
    s'.Saved g' idle ([(t, c)] ++ hist) := by
  refine ⟨hacc, fun e he a ha => ?_⟩
  rw [hctx]
  refine lookup_update c fun hat => ?_
  obtain ⟨e', he', ha'⟩ := (hq e he a ha).resolve_left hat
  exact h.newest e' he' a ha'

/-- One `schedule` returns the newest context of the thread it chooses. -/
theorem Saved.schedule (h : s.Saved g idle hist) (ctx : CpuContext) (regions : ℕ → List ℕ) :
    ∃ s' ctx', s.schedule ctx regions = some (s', ctx') ∧
      s'.Saved g.schedule idle ([(s.currentThread, ctx)] ++ hist) ∧
      (s'.currentThread ≠ idle →
        ([(s.currentThread, ctx)] ++ hist).lookup s'.currentThread = some ctx') := by
  obtain ⟨s', ctx', hs', hacc⟩ := accounts_schedule h.accounts ctx regions
  obtain ⟨hctx, hret⟩ := context_schedule hs'
  have hnewest : ∀ e ∈ g.schedule.queue, ∀ a ∈ e.2,
      ([(s.currentThread, ctx)] ++ hist).lookup a = some (s'.context a) := by
    intro e he a ha
    obtain ⟨e', he', ha'⟩ := mem_schedule he ha
    have hold := h.newest e' he' a ha'
    rw [hctx, h.accounts.apart.threads]
    by_cases hidle : s.currentThread = idle
    · -- the idle thread is not queued, so its entry hides nothing
      have hne : a ≠ s.currentThread := by
        rintro rfl
        exact h.accounts.apart.thread_notMem e' he' (hidle ▸ ha')
      rw [if_neg (by simp [hidle]), ← Function.update_of_ne hne ctx s.context]
      exact lookup_update ctx fun _ => hold
    · rw [if_pos (by simpa using hidle)]
      exact lookup_update ctx fun _ => hold
  refine ⟨s', ctx', hs', ⟨hacc, hnewest⟩, fun hne => ?_⟩
  obtain ⟨e, he, -, hct⟩ := hacc.current.resolve_left fun hc => hne hc.2
  rw [hret]
  exact hnewest e he _ hct

/-- The context that a `schedule` returns for a thread other than the idle one is the newest that
the history, with the context just passed in, has for it. -/
def Resumes (wrapper idle : ℕ) (x : (Sched × Ledger) × List (ℕ × CpuContext)) : Op → Prop
  | .schedule context regions => ∃ s' ctx', x.1.1.schedule context regions = some (s', ctx') ∧
      (s'.currentThread ≠ idle →
        (x.1.1.record wrapper (.schedule context regions) ++ x.2).lookup s'.currentThread =
          some ctx')
  | o => (step wrapper x.1 o).isSome = true

/-- One call returns, resumes a thread as it was left, and keeps the history in step. -/
theorem step_saved (wrapper : ℕ) (x : (Sched × Ledger) × List (ℕ × CpuContext)) (o : Op)
    (h : x.1.1.Saved x.1.2 idle x.2) (hv : Valid idle x.1 o) :
    Resumes wrapper idle x o ∧
      ∃ x', stepHistory wrapper x o = some x' ∧ x'.1.1.Saved x'.1.2 idle x'.2 := by
  obtain ⟨⟨s, g⟩, hist⟩ := x
  cases o with
  | createProc p t pml4t e stack =>
    obtain ⟨s', hs', hacc⟩ := @accounts_createProc s g idle p t wrapper pml4t stack e
      h.accounts hv.1 hv.2.1
    have hstep : step wrapper (s, g) (.createProc p t pml4t e stack) =
        some (s', g.createProc p t) := by rw [step, hs', Option.map_some]
    exact ⟨congrArg Option.isSome hstep, _, by rw [stepHistory, hstep, Option.map_some],
      h.of_created hacc (fun e he a ha => queued_createProc he ha) (context_createProc hs')⟩
  | createThread p t e stack =>
    obtain ⟨s', hs', hacc⟩ := @accounts_createThread s g idle p t wrapper stack e
      h.accounts hv.1 hv.2
    obtain ⟨e₀, he₀, rfl⟩ := List.mem_map.1 hv.1
    have hstep : step wrapper (s, g) (.createThread e₀.1 t e stack) =
        some (s', g.createThread e₀.1 t) := by rw [step, hs', Option.map_some]
    exact ⟨congrArg Option.isSome hstep, _, by rw [stepHistory, hstep, Option.map_some],
      h.of_created hacc (fun e he a ha => queued_createThread h.accounts.lists he₀ he ha)
        (context_createThread hs')⟩
  | exit =>
    exact ⟨rfl, _, rfl, accounts_exit h.accounts hv, h.newest⟩
  | schedule ctx regions =>
    obtain ⟨s', ctx', hs', hsaved, hret⟩ := h.schedule ctx regions
    exact ⟨⟨s', ctx', hs', hret⟩, _, by rw [stepHistory, step, hs']; rfl, hsaved⟩

/-- **Contexts survive preemption.**  In every run from `sched_init` every call returns, and
whenever `schedule` chooses a thread other than the idle one, the context it returns is the one
with which that thread was last left, or the one it was created with. -/
theorem contexts_survive (s₀ : Sched) (h₀ : s₀.headProc = none)
    (wrapper p t pml4t idleMain stack : ℕ) :
    ∃ s, s₀.schedInit wrapper p t pml4t idleMain stack = some s ∧
      ∀ os, Run.Along (stepHistory wrapper) (fun x o => Valid t x.1 o) ((s, ⟨[], none⟩), []) os →
        Run.Along (stepHistory wrapper) (Resumes wrapper t) ((s, ⟨[], none⟩), []) os := by
  obtain ⟨s, hs, hacc⟩ := accounts_schedInit s₀ h₀ wrapper p t pml4t idleMain stack
  refine ⟨s, hs, fun os hv => ?_⟩
  refine Run.Along.of_inv (I := fun x => x.1.1.Saved x.1.2 t x.2) (fun x o hx hv => ?_)
    ⟨hacc, nofun⟩ hv
  obtain ⟨hres, x', hstep, hx'⟩ := step_saved wrapper x o hx hv
  refine ⟨hres, fun x'' hstep' => ?_⟩
  obtain rfl := Option.some.inj (hstep.symm.trans hstep')
  exact hx'

/-- A thread is left with `rax = 1`, another one runs, exits and is reaped, and its addresses are
used again before the first thread goes on. -/
theorem contexts_survive_reuse : ∃ s, blank.schedInit 9 0x100 0x200 0x7000 5 0x3000 = some s ∧
    Run.Along (stepHistory 9) (Resumes 9 0x200) ((s, ⟨[], none⟩), [])
      [.createProc 0x300 0x400 0x8000 ⟨5, 0, false⟩ 0x6000,
        .createProc 0x600 0x700 0xa000 ⟨5, 0, true⟩ 0xb000, .schedule {} fun _ => [],
        .schedule { rax := 2 } fun _ => [], .schedule { rax := 1 } fun _ => [], .exit,
        .schedule {} fun _ => [0xb000], .createProc 0x600 0x700 0xa000 ⟨6, 0, true⟩ 0xb000,
        .schedule { rax := 3 } fun _ => [], .schedule {} fun _ => []] := by
  obtain ⟨s, hs, hrun⟩ := contexts_survive blank rfl 9 0x100 0x200 0x7000 5 0x3000
  refine ⟨s, hs, hrun _ ?_⟩
  cases hs
  decide +kernel

end Sched

end TitanOS
