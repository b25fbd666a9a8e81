import TitanOS.Proc.Grows

/-!
# Reaping

A call of `schedule` makes the calls of `reap_thread` and `reap_process`, if the current thread is
dead, and of `switch_process`.  Of all of them only `vmm_hashmap_remove` has an effect on the
tables: it moves the node of the root to the freed ones, unless it is the first of its bucket.
-/

namespace TitanOS

/-- The calls that leave the tables alone. -/
def VmCall.Quiet : VmCall → Prop
  | .vmmFree _ | .switchVmSpace _ => True
  | _ => False

namespace Sched

variable {s s' : Sched} {regions : ℕ → List ℕ} {p t : ℕ}

/-- From `s` to `s'` quiet calls are made, and `vmm_hashmap_remove` at most once, at the end. -/
def Reaps (s s' : Sched) : Prop :=
  ∃ l r, s'.calls = s.calls ++ (l ++ r) ∧ (∀ c ∈ l, c.Quiet) ∧
    (r = [] ∨ ∃ q, r = [.vmmHashmapRemove q])

/-- With no thread left, `reap_process` frees the regions and removes the root. -/
theorem reaps_reapProcess {reapThread : Sched → ℕ → Option Sched} (hp : s.threads p = none)
    (h : reapProcess reapThread regions s p = some s') : s.Reaps s' := by
  unfold reapProcess at h
  obtain ⟨r, -, h⟩ := Option.bind_eq_some_iff.1 h
  obtain ⟨s₁, hs₁, rfl⟩ := Option.map_eq_some_iff.1 h
  simp only [hp, fuel, reapThreads, Option.some.injEq] at hs₁
  subst hs₁
  refine ⟨(regions p).map .vmmFree ++ [.switchVmSpace s.idleProc], [.vmmHashmapRemove (s.pml4t p)],
    ?_, fun c hc => ?_, Or.inr ⟨_, rfl⟩⟩
  · rw [foldl_call]
    simp [call]
  · rcases List.mem_append.1 hc with hc | hc
    · obtain ⟨b, -, rfl⟩ := List.mem_map.1 hc
      exact trivial
    · obtain rfl := List.mem_singleton.1 hc
      exact trivial

/-- `reap_thread` goes on to `reap_process` after the last thread only. -/
theorem reaps_reapThread {n : ℕ} (h : reapThread regions n s t = some s') : s.Reaps s' := by
  cases n with
  | zero => cases h
  | succ n =>
    rw [reapThread] at h
    obtain ⟨r, -, h⟩ := Option.bind_eq_some_iff.1 h
    have hquiet : ∀ c ∈ [VmCall.vmmFree (s.stack t)], c.Quiet := by
      intro c hc
      obtain rfl := List.mem_singleton.1 hc
      exact trivial
    simp only at h
    split at h
    next hp =>
      obtain ⟨l, e, hcalls, hl, he⟩ := reaps_reapProcess hp h
      refine ⟨.vmmFree (s.stack t) :: l, e, ?_, List.forall_mem_append.2 ⟨hquiet, hl⟩, he⟩
      rw [hcalls]
      simp [call]
    next =>
      obtain rfl := Option.some.inj h
      exact ⟨[.vmmFree (s.stack t)], [], by simp [call], hquiet, Or.inl rfl⟩

/-- Choosing the next thread makes one call at most. -/
theorem calls_advance (h : s.advance = some s') :
    ∃ l, s'.calls = s.calls ++ l ∧ ∀ c ∈ l, c.Quiet := by
  obtain ⟨s₁, hs₁, h⟩ := Option.map_eq_some_iff.1 h
  have hcalls : s'.calls = s₁.calls := by
    rw [← h]
    split <;> rfl
  rw [hcalls]
  unfold nextRunnable at hs₁
  split at hs₁
  · obtain rfl := Option.some.inj hs₁
    exact ⟨[], by simp, by simp⟩
  · obtain ⟨u, -, rfl⟩ := Option.map_eq_some_iff.1 hs₁
    refine ⟨[.switchVmSpace s.switchProcess.currentProcess], rfl, fun c hc => ?_⟩
    obtain rfl := List.mem_singleton.1 hc
    exact trivial

/-- **The calls of `schedule`.** -/
theorem calls_schedule {context c' : CpuContext} (h : s.schedule context regions = some (s', c')) :
    ∃ l r l', s'.calls = s.calls ++ (l ++ r ++ l') ∧ (∀ c ∈ l, c.Quiet) ∧ (∀ c ∈ l', c.Quiet) ∧
      (r = [] ∨ s.status s.currentThread = .dead ∧ ∃ q, r = [.vmmHashmapRemove q]) := by
  unfold schedule at h
  obtain ⟨s₂, hs₂, h⟩ := Option.map_eq_some_iff.1 h
  obtain ⟨rfl, -⟩ := Prod.mk.inj h
  obtain ⟨s₁, hs₁, hadv⟩ := Option.bind_eq_some_iff.1 hs₂
  obtain ⟨l', hl', hquiet'⟩ := calls_advance hadv
  have hsaved : ∀ s₀ : Sched, (if some s.currentThread ≠ s.threads s.idleProc then
      { s with context := Function.update s.context s.currentThread context } else s) = s₀ →
      s₀.calls = s.calls ∧ s₀.status = s.status ∧ s₀.currentThread = s.currentThread := by
    rintro s₀ rfl
    split <;> exact ⟨rfl, rfl, rfl⟩
  obtain ⟨hcalls, hstatus, hcurrent⟩ := hsaved _ rfl
  generalize (if some s.currentThread ≠ s.threads s.idleProc then
    { s with context := Function.update s.context s.currentThread context } else s) = s₀ at *
  split at hs₁
  next hdead =>
    obtain ⟨l, r, hr, hquiet, hlast⟩ := reaps_reapThread hs₁
    refine ⟨l, r, l', ?_, hquiet, hquiet', hlast.imp id fun hq => ⟨?_, hq⟩⟩
    · rw [hl', hr, hcalls, List.append_assoc]
    · rw [← hstatus, ← hcurrent]
      exact hdead
  next =>
    obtain rfl := Option.some.inj hs₁
    refine ⟨[], [], l', ?_, by simp, hquiet', Or.inl rfl⟩
    rw [hl']
    exact congrArg (· ++ l') hcalls

end Sched

namespace Processes

variable {s s₁ s₂ s' : Processes} {F : List ℕ} {fuel : ℕ}

theorem keeps_quiet {cs : List VmCall} (hcs : ∀ c ∈ cs, c.Quiet)
    (h : cs.foldlM (call fuel) s = some s') : s.Keeps s' := by
  induction cs generalizing s with
  | nil =>
    obtain rfl := Option.some.inj h
    exact .refl s
  | cons c cs ih =>
    obtain ⟨s₁, hs₁, h⟩ := Option.bind_eq_some_iff.1 h
    refine Keeps.trans ?_ (ih (fun c hc => hcs c (List.mem_cons_of_mem _ hc)) h)
    have hc := hcs c List.mem_cons_self
    cases c with
    | vmmFree base => exact keeps_vmmFree hs₁
    | switchVmSpace p => exact keeps_switchVmSpace hs₁
    | allocKernelStack => cases hc
    | allocUserStack p => cases hc
    | vmmHashmapRemove q => cases hc

/-- No table is made or given back, and at most one comes from its chain to the list of freed
ones. -/
structure Parks (s s' : Processes) : Prop where
  kept : ∀ i, .table i ∈ s.objects → .table i ∈ s'.objects
  freed : ∀ L F, s.kernel.map.Lists L F → ∃ o : Option ℕ,
    s'.kernel.map.freed = o.toList ++ F ∧ ∀ d ∈ o, ∃ b, d ∈ L b

theorem Keeps.parks (h : s.Keeps s') : s.Parks s' where
  kept := h.kept
  freed L F hL := ⟨none, by rw [h.map, hL.freed_eq]; rfl, by simp⟩

theorem Parks.of_keeps (h₁ : s.Keeps s₁) (h : s₁.Parks s₂) (h₂ : s₂.Keeps s') : s.Parks s' where
  kept i hi := h₂.kept i (h.kept i (h₁.kept i hi))
  freed L F hL := by
    rw [h₂.map]
    exact h.freed L F (h₁.map ▸ hL)

theorem parks_vmmHashmapRemove {q : ℕ} (h : s.call fuel (.vmmHashmapRemove q) = some s') :
    s.Parks s' := by
  obtain ⟨r, hr, rfl⟩ := Option.map_eq_some_iff.1 h
  refine ⟨fun _ hi => hi, fun L F hL => ?_⟩
  rcases hL.vmmHashmapRemove q with ⟨-, he⟩ | ⟨d, h', hd, he, hL', -⟩
  · obtain rfl := Option.some.inj (he.symm.trans hr)
    exact ⟨none, hL.freed_eq, by simp⟩
  · obtain rfl := Option.some.inj (he.symm.trans hr)
    refine ⟨some d, hL'.freed_eq, fun e he => ?_⟩
    obtain rfl := Option.some.inj he
    exact ⟨_, List.mem_of_mem_tail (List.mem_of_find?_eq_some hd)⟩

/-- **Reaping.**  `schedule` parks at most one table, and none while no thread has ended. -/
theorem parks_schedule {context : CpuContext} (h : s.schedule fuel context = some s') :
    s.Parks s' ∧ (s.sched.status s.sched.currentThread ≠ .dead → s.Keeps s') := by
  unfold schedule at h
  obtain ⟨k, -, h⟩ := Option.bind_eq_some_iff.1 h
  obtain ⟨⟨sched, c'⟩, hsched, h⟩ := Option.bind_eq_some_iff.1 h
  obtain ⟨s₃, hs₃, h⟩ := Option.bind_eq_some_iff.1 h
  obtain ⟨l, r, l', hcalls, hl, hl', hr⟩ := Sched.calls_schedule hsched
  simp only [follow, hcalls, List.drop_left, List.foldlM_append] at hs₃
  obtain ⟨s₂, hs₂, hs₃⟩ := Option.bind_eq_some_iff.1 hs₃
  obtain ⟨s₁, hs₁, hs₂⟩ := Option.bind_eq_some_iff.1 hs₂
  have hset : s.Keeps { s with sched := sched } := ⟨rfl, fun _ hi => hi⟩
  have hstart : s.Keeps s₁ := hset.trans (keeps_quiet hl hs₁)
  have hend : s₂.Keeps s' := by
    refine (keeps_quiet hl' hs₃).trans ?_
    obtain rfl := Option.some.inj h
    split
    · exact ⟨rfl, fun i hi => List.mem_filter.2 ⟨hi, by simp⟩⟩
    · exact .refl s₃
  rcases hr with rfl | ⟨hdead, q, rfl⟩
  · obtain rfl := Option.some.inj hs₂
    exact ⟨(hstart.trans hend).parks, fun _ => hstart.trans hend⟩
  · rw [List.foldlM_cons] at hs₂
    obtain ⟨s₂', hs₂', hs₂⟩ := Option.bind_eq_some_iff.1 hs₂
    obtain rfl := Option.some.inj hs₂
    exact ⟨.of_keeps hstart (parks_vmmHashmapRemove hs₂') hend, fun hne => absurd hdead hne⟩

/-- What happens between keeps all tables. -/
theorem keeps_step {o : Op} (h : s.step fuel o = some s') : s.Keeps s' := by
  cases o with
  | schedule context =>
    simp only [step] at h
    split at h
    · cases h
    · rename_i hne
      exact (parks_schedule h).2 hne
  | store v e =>
    obtain ⟨k, hk, rfl⟩ := Option.map_eq_some_iff.1 h
    exact ⟨Kernel.map_of_store hk, fun _ hi => hi⟩

theorem keeps_run {ops : List Op} (h : ops.foldlM (step fuel) s = some s') : s.Keeps s' := by
  induction ops generalizing s with
  | nil =>
    obtain rfl := Option.some.inj h
    exact .refl s
  | cons o ops ih =>
    obtain ⟨s₁, hs₁, h⟩ := Option.bind_eq_some_iff.1 h
    exact (keeps_step hs₁).trans (ih h)

end Processes

end TitanOS
