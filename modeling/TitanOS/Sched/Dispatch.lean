import Mathlib.Data.List.Cycle
import TitanOS.Sched.Ledger

/-!
# Which thread runs

`schedule` reads the links of the thread and of the process that were current, which it may have
freed a moment before.  The threads, process by process along `head_proc`, form one cyclic order.

* `every_dispatch_valid`: the thread dispatched is alive and the only one that is running, and its
  address space is the current one.
* `round_robin`: it is the cyclic successor of the thread that was running.

`current_vmm` points to the `vmm` of a process, or, until the first switch, to what `vmm_init`
leaves there.  Which process it is follows from the calls into the virtual memory manager.
-/

namespace TitanOS

open Linked

/-- What a call made while process `p` is current leaves in `current_vmm`.  `alloc_user_stack`
switches to the space of the new thread, and then to that of the current process. -/
def VmCall.vmm (p : ℕ) (vmm : Option ℕ) : VmCall → Option ℕ
  | .switchVmSpace r => some r
  | .allocUserStack _ => some p
  | _ => vmm

namespace Sched

open Function (update)

/-- The processes on the list of `head_proc`. -/
def procs (s : Sched) : List ℕ := toList s.nextProc s.fuel s.headProc

/-- The thread list of a process. -/
def threadsOf (s : Sched) (p : ℕ) : List ℕ := toList s.nextThread s.fuel (s.threads p)

/-- The thread lists of the queued processes, one behind the other. -/
def order (s : Sched) : List ℕ := s.procs.flatMap s.threadsOf

/-- `current_vmm` after the calls that lead from `s` to `s'`. -/
def vmmAfter (s s' : Sched) (vmm : Option ℕ) : Option ℕ :=
  (s'.calls.drop s.calls.length).foldl (VmCall.vmm s.currentProcess) vmm

variable {s s' s₁ : Sched} {g : Ledger} {q : List (ℕ × List ℕ)} {vmm : Option ℕ}
  {idle p t u : ℕ} {ts l : List ℕ}

/-! ### The order and the ledger -/

theorem Lists.procs_eq (h : s.Lists q) : s.procs = q.map Prod.fst := by
  refine toList_eq h.procs ?_
  have := h.procs_le
  rw [List.length_map, fuel]
  omega

theorem Lists.threadsOf_eq (h : s.Lists q) {e : ℕ × List ℕ} (he : e ∈ q) :
    s.threadsOf e.1 = e.2 :=
  toList_eq (h.threads e he) (Nat.le_succ_of_le (h.threads_le e he))

theorem Lists.order_eq (h : s.Lists q) : s.order = q.flatMap Prod.snd := by
  rw [order, h.procs_eq, List.flatMap_map]
  exact List.flatMap_congr fun e he => h.threadsOf_eq he

theorem Lists.nodup_order (h : s.Lists q) : (q.flatMap Prod.snd).Nodup := by
  refine List.nodup_flatMap.2 ⟨fun e he => (h.threads e he).nodup, ?_⟩
  have hnd : q.Pairwise fun a b => a.1 ≠ b.1 := List.pairwise_map.1 h.procs.nodup
  refine hnd.imp_of_mem fun {a b} ha hb hne x hxa hxb => ?_
  exact hne (congrArg Prod.fst (h.eq_of_mem ha hb hxa hxb))

/-- The idle process has the one thread `idle`. -/
theorem Idle.threadsOf_eq (h : s.Idle q idle) : s.threadsOf s.idleProc = [idle] := by
  have hpath : Path s.nextThread (s.threads s.idleProc) [idle] := by
    simp [h.threads, h.nextThread]
  exact toList_eq hpath (by simp [fuel])

/-- Reaping takes the thread out of the order. -/
theorem Lists.order_reap (h : s.Lists q) (he : (p, ts) ∈ q) (ht : t ∈ ts) :
    (Ledger.reap q t).flatMap Prod.snd = (q.flatMap Prod.snd).erase t := by
  obtain ⟨q₁, q₂, rfl⟩ := List.append_of_mem he
  have hother := h.others ht
  have hq₁ : t ∉ q₁.flatMap Prod.snd := by
    intro hmem
    obtain ⟨e, he', hte⟩ := List.mem_flatMap.1 hmem
    exact (hother e (List.mem_append_left _ he')).2.2 hte
  rw [Ledger.reap_append (fun e he' => (hother e (List.mem_append_left _ he')).2)
    (fun e he' => (hother e (List.mem_append_right _ he')).2)]
  have hmid : (if ts.erase t = [] then [] else [(p, ts.erase t)]).flatMap Prod.snd =
      ts.erase t := by
    by_cases hem : ts.erase t = [] <;> simp [hem]
  rw [List.flatMap_append, List.flatMap_append, hmid, List.flatMap_append, List.flatMap_cons,
    List.erase_append_right _ hq₁, List.erase_append_left _ ht, List.append_assoc]

/-- The threads left after a schedule were there before. -/
theorem mem_schedule {e : ℕ × List ℕ} (he : e ∈ g.schedule.queue) (ht : t ∈ e.2) :
    ∃ e' ∈ g.queue, t ∈ e'.2 := by
  unfold Ledger.schedule at he
  cases hex : g.exited with
  | none =>
    simp only [hex] at he
    exact ⟨e, he, ht⟩
  | some u =>
    simp only [hex] at he
    obtain ⟨e', he', rfl⟩ := List.mem_map.1 (List.mem_of_mem_filter he)
    exact ⟨e', he', List.mem_of_mem_erase ht⟩

/-! ### Valid dispatches -/

/-- No live thread but the current one is running. -/
structure OneRunning (s : Sched) (q : List (ℕ × List ℕ)) (idle : ℕ) : Prop where
  queued : ∀ e ∈ q, ∀ a ∈ e.2, s.status a = .running → a = s.currentThread
  idle : s.status idle = .running → idle = s.currentThread

/-- In the first half of `schedule` the running thread stops. -/
theorem Vacated.not_running (h : s.Vacated s₁ g idle) (hr : s.OneRunning g.queue idle) :
    (∀ e ∈ g.schedule.queue, ∀ a ∈ e.2, s₁.status a ≠ .running) ∧
      s₁.status idle ≠ .running := by
  have hstop : ∀ a, (s.status a = .running → a = s.currentThread) → s₁.status a ≠ .running := by
    intro a ha
    rw [h.status]
    split
    next hdead =>
      intro hrun
      rw [ha hrun, hdead] at hrun
      cases hrun
    next =>
      by_cases hac : a = s.currentThread
      · simp [hac]
      · rw [Function.update_of_ne hac]
        exact fun hrun => hac (ha hrun)
  refine ⟨fun e he a ha => hstop a ?_, hstop idle hr.idle⟩
  obtain ⟨e', he', ha'⟩ := mem_schedule he ha
  exact hr.queued e' he' a ha'

/-- Releasing memory leaves `current_vmm` as it is. -/
theorem foldl_vmmFree {cs : List VmCall} (h : ∀ c ∈ cs, ∃ b, c = .vmmFree b) :
    cs.foldl (VmCall.vmm p) vmm = vmm := by
  induction cs with
  | nil => rfl
  | cons c cs ih =>
    obtain ⟨b, rfl⟩ := h c List.mem_cons_self
    exact ih fun c hc => h c (List.mem_cons_of_mem _ hc)

/-- What one `schedule` does: how it gets to the next thread, and what holds of that thread. -/
structure Dispatches (s s' : Sched) (g : Ledger) (idle : ℕ) (vmm : Option ℕ) : Prop where
  accounts : s'.Accounts g.schedule idle
  idleProc : s'.idleProc = s.idleProc
  queued : s'.currentProcess = s'.idleProc → g.schedule.queue = []
  running : s'.status s'.currentThread = .running
  one : s'.OneRunning g.schedule.queue idle
  vmm : s.vmmAfter s' vmm = some s'.currentProcess

theorem schedule_dispatches (h : s.Accounts g idle) (hr : s.OneRunning g.queue idle)
    (hvmm : s.currentProcess ≠ s.idleProc → vmm = some s.currentProcess) (ctx : CpuContext)
    (regions : ℕ → List ℕ) :
    ∃ s' ctx', s.schedule ctx regions = some (s', ctx') ∧ s.Dispatches s' g idle vmm := by
  obtain ⟨s₁, hv, hsched⟩ := schedule_eq h ctx regions
  obtain ⟨s', hadv, hacc, ⟨r, hrun, hcp, hct, hcalls⟩, hstatus, hid⟩ :=
    advance_eq hv.lists hv.apart hv.successors hv.alive
  obtain ⟨cp, ct, cs, hrun', hcur, hway⟩ := nextRunnable_eq hv.lists hv.apart hv.successors
  obtain rfl := Option.some.inj (hrun'.symm.trans hrun)
  simp only at hcp hct hcalls
  subst hcp hct
  have hid' := hid.trans hv.idleProc
  obtain ⟨hstop, hstop'⟩ := hv.not_running hr
  -- the thread chosen is neither dead nor running
  have hready : s₁.status s'.currentThread = .ready := by
    have halive : s₁.status s'.currentThread ≠ .dead ∧ s₁.status s'.currentThread ≠ .running := by
      rcases hcur with ⟨-, hct, -⟩ | ⟨e, he, -, hct⟩
      · rw [hct]
        exact ⟨hv.apart.alive, hstop'⟩
      · exact ⟨hv.alive e he _ hct, hstop e he _ hct⟩
    cases hst : s₁.status s'.currentThread with
    | ready => rfl
    | running => exact absurd hst halive.2
    | dead => exact absurd hst halive.1
  rw [if_pos hready] at hstatus
  have hone : ∀ a, s₁.status a ≠ .running → s'.status a = .running → a = s'.currentThread := by
    intro a ha hrunning
    by_contra hac
    rw [hstatus, Function.update_of_ne hac] at hrunning
    exact ha hrunning
  refine ⟨s', _, hsched s' hadv, hacc, hid', fun hidle => ?_, ?_,
    ⟨fun e he a ha => hone a (hstop e he a ha), hone idle hstop'⟩, ?_⟩
  · rcases hcur with ⟨-, -, hq⟩ | ⟨e, he, hcp, -⟩
    · exact hq
    · refine absurd ?_ hv.apart.notMem
      rw [← hid, ← hidle, hcp]
      exact List.mem_map_of_mem he
  · rw [hstatus, Function.update_self]
  · obtain ⟨cs₁, hcs₁, hfree⟩ := hv.calls
    rw [vmmAfter, hcalls, hcs₁, List.append_assoc, List.drop_left, List.foldl_append]
    rw [hv.currentThread, hv.thread_link] at hway
    cases hn : s.nextThread s.currentThread with
    | some u =>
      simp only [hn] at hway
      obtain ⟨hcp, -, rfl⟩ := hway
      rw [List.foldl_nil, foldl_vmmFree (hfree (by simp [hn])), hcp, hv.currentProcess]
      refine hvmm fun hidle => ?_
      -- the idle thread has no successor
      rcases h.current with ⟨-, hct⟩ | ⟨e, he, hcp', -⟩
      · rw [hct, h.apart.nextThread] at hn
        cases hn
      · exact h.apart.notMem (hidle ▸ hcp' ▸ List.mem_map_of_mem he)
    | none =>
      simp only [hn] at hway
      obtain ⟨-, -, rfl⟩ := hway
      rfl

/-! ### Runs -/

/-- What holds between any two calls. -/
structure Live (s : Sched) (g : Ledger) (idle : ℕ) (vmm : Option ℕ) : Prop where
  accounts : s.Accounts g idle
  one : s.OneRunning g.queue idle
  vmm : s.currentProcess ≠ s.idleProc → vmm = some s.currentProcess

/-- What a new thread `t` changes besides the lists. -/
structure Created (s s' : Sched) (t : ℕ) (cs : List VmCall) : Prop where
  status : s'.status = update s.status t .ready
  currentThread : s'.currentThread = s.currentThread
  currentProcess : s'.currentProcess = s.currentProcess
  idleProc : s'.idleProc = s.idleProc
  calls : s'.calls = s.calls ++ cs

theorem created_createThread {w stack : ℕ} {en : Entry}
    (h : s.createThread w p t en stack = some s') :
    s.Created s' t [if en.isUser then .allocUserStack p else .allocKernelStack] := by
  unfold createThread at h
  cases hth : s.threads p with
  | none =>
    simp only [hth, Option.some.injEq] at h
    subst h
    exact ⟨rfl, rfl, rfl, rfl, rfl⟩
  | some c =>
    simp only [hth, Option.map_eq_some_iff] at h
    obtain ⟨d, -, rfl⟩ := h
    exact ⟨rfl, rfl, rfl, rfl, rfl⟩

theorem created_createProc {w pml4 stack : ℕ} {en : Entry} {b : Bool}
    (h : s.createProc w p t pml4 en b stack = some s') :
    s.Created s' t [if en.isUser then .allocUserStack p else .allocKernelStack] := by
  obtain ⟨s'', hs'', -, -, -, hst, -, hip, hct, hcp, -, -, hcalls⟩ :=
    @createProc_eq s p t w pml4 stack en b
  obtain rfl := Option.some.inj (hs''.symm.trans h)
  exact ⟨hst, hct, hcp, hip, hcalls⟩

/-- A new thread is not running, and its stack is allocated in a space that is left again. -/
theorem Live.of_created {g' : Ledger} {en : Entry} (h : s.Live g idle vmm)
    (hacc : s'.Accounts g' idle)
    (hq : ∀ e ∈ g'.queue, ∀ a ∈ e.2, a = t ∨ ∃ e' ∈ g.queue, a ∈ e'.2)
    (hc : s.Created s' t [if en.isUser then .allocUserStack p else .allocKernelStack]) :
    s'.Live g' idle (s.vmmAfter s' vmm) := by
  have hold : ∀ a, (s.status a = .running → a = s.currentThread) →
      s'.status a = .running → a = s'.currentThread := by
    intro a ha hrun
    rw [hc.status] at hrun
    rw [hc.currentThread]
    by_cases hat : a = t
    · rw [hat, Function.update_self] at hrun
      cases hrun
    · rw [Function.update_of_ne hat] at hrun
      exact ha hrun
  refine ⟨hacc, ⟨fun e he a ha => ?_, hold idle h.one.idle⟩, fun hne => ?_⟩
  · rcases hq e he a ha with rfl | ⟨e', he', ha'⟩
    · intro hrun
      rw [hc.status, Function.update_self] at hrun
      cases hrun
    · exact hold a (h.one.queued e' he' a ha')
  · rw [hc.currentProcess, hc.idleProc] at hne
    rw [vmmAfter, hc.calls, List.drop_left, hc.currentProcess]
    cases en.isUser with
    | true => rfl
    | false => exact h.vmm hne

theorem Live.exit (h : s.Live g idle vmm) (hne : s.currentProcess ≠ s.idleProc) :
    s.exit.Live (g.exit s.currentThread) idle vmm := by
  have hold : ∀ a, (s.status a = .running → a = s.currentThread) →
      s.exit.status a = .running → a = s.currentThread := by
    intro a ha hrun
    by_contra hac
    simp only [Sched.exit, Function.update_of_ne hac] at hrun
    exact hac (ha hrun)
  exact ⟨accounts_exit h.accounts hne, ⟨fun e he a ha => hold a (h.one.queued e he a ha),
    hold idle h.one.idle⟩, h.vmm⟩

/-- One call on the scheduler, with the ledger and `current_vmm`. -/
def stepVmm (wrapper : ℕ) (x : (Sched × Ledger) × Option ℕ) (o : Op) :
    Option ((Sched × Ledger) × Option ℕ) :=
  (step wrapper x.1 o).map fun y => (y, x.1.1.vmmAfter y.1 x.2)

/-- One call returns and keeps what holds between calls. -/
theorem step_live (wrapper : ℕ) (x : (Sched × Ledger) × Option ℕ) (o : Op)
    (h : x.1.1.Live x.1.2 idle x.2) (hv : Valid idle x.1 o) :
    ∃ x', stepVmm wrapper x o = some x' ∧ x'.1.1.Live x'.1.2 idle x'.2 ∧
      ∀ ctx regions, o = .schedule ctx regions → x.1.1.Dispatches x'.1.1 x.1.2 idle x.2 := by
  obtain ⟨⟨s, g⟩, vmm⟩ := x
  simp only at h hv
  cases o with
  | createProc p t pml4t e stack =>
    obtain ⟨s', hs', hacc⟩ := @accounts_createProc s g idle p t wrapper pml4t stack e
      h.accounts hv.1 hv.2.1
    refine ⟨((s', g.createProc p t), s.vmmAfter s' vmm), ?_,
      h.of_created hacc (fun e he a ha => queued_createProc he ha) (created_createProc hs'),
      fun _ _ h => by cases h⟩
    simp only [stepVmm, step, hs', Option.map_some]
  | createThread p t e stack =>
    obtain ⟨s', hs', hacc⟩ := @accounts_createThread s g idle p t wrapper stack e
      h.accounts hv.1 hv.2
    obtain ⟨e₀, he₀, rfl⟩ := List.mem_map.1 hv.1
    refine ⟨((s', g.createThread e₀.1 t), s.vmmAfter s' vmm), ?_,
      h.of_created hacc (fun e he a ha => queued_createThread h.accounts.lists he₀ he ha)
        (created_createThread hs'), fun _ _ h => by cases h⟩
    simp only [stepVmm, step, hs', Option.map_some]
  | exit =>
    refine ⟨((s.exit, g.exit s.currentThread), vmm), ?_, h.exit hv, fun _ _ h => by cases h⟩
    simp [stepVmm, step, vmmAfter, exit]
  | schedule ctx regions =>
    obtain ⟨s', ctx', hs', hd⟩ := schedule_dispatches h.accounts h.one h.vmm ctx regions
    refine ⟨((s', g.schedule), s.vmmAfter s' vmm), ?_, ⟨hd.accounts, hd.one, fun _ => hd.vmm⟩,
      fun _ _ _ => hd⟩
    simp only [stepVmm, step, hs', Option.map_some]

/-- The dispatch of a `schedule` is valid: the current process is queued, or the idle one if the
queue is empty; the current thread is one of its threads, and the only thread running; and
`current_vmm` is that of the current process. -/
structure Dispatched (s : Sched) (vmm : Option ℕ) : Prop where
  procs : Path s.nextProc s.headProc s.procs
  process : s.currentProcess ∈ s.procs ∨ (s.currentProcess = s.idleProc ∧ s.procs = [])
  threads : Path s.nextThread (s.threads s.currentProcess) (s.threadsOf s.currentProcess)
  thread : s.currentThread ∈ s.threadsOf s.currentProcess
  running : s.status s.currentThread = .running
  one : ∀ p, p = s.idleProc ∨ p ∈ s.procs → ∀ a ∈ s.threadsOf p, s.status a = .running →
    a = s.currentThread
  vmm : vmm = some s.currentProcess

theorem Dispatches.dispatched (h : s.Dispatches s' g idle vmm) :
    s'.Dispatched (s.vmmAfter s' vmm) := by
  have hl := h.accounts.lists
  have hi := h.accounts.apart
  have hprocs : Path s'.nextProc s'.headProc s'.procs := by
    rw [hl.procs_eq]
    exact hl.procs
  have hone : ∀ p, p = s'.idleProc ∨ p ∈ s'.procs → ∀ a ∈ s'.threadsOf p,
      s'.status a = .running → a = s'.currentThread := by
    rintro p (rfl | hp) a ha
    · rw [hi.threadsOf_eq, List.mem_singleton] at ha
      exact ha ▸ h.one.idle
    · rw [hl.procs_eq] at hp
      obtain ⟨e, he, rfl⟩ := List.mem_map.1 hp
      rw [hl.threadsOf_eq he] at ha
      exact h.one.queued e he a ha
  rcases h.accounts.current with ⟨hcp, hct⟩ | ⟨e, he, hcp, hct⟩
  · refine ⟨hprocs, Or.inr ⟨hcp, ?_⟩, ?_, ?_, h.running, hone, h.vmm⟩
    · rw [hl.procs_eq, h.queued hcp, List.map_nil]
    · rw [hcp, hi.threadsOf_eq]
      simp [hi.threads, hi.nextThread]
    · rw [hcp, hct, hi.threadsOf_eq]
      exact List.mem_singleton_self _
  · refine ⟨hprocs, Or.inl ?_, ?_, ?_, h.running, hone, h.vmm⟩
    · rw [hl.procs_eq, hcp]
      exact List.mem_map_of_mem he
    · rw [hcp, hl.threadsOf_eq he]
      exact hl.threads e he
    · rwa [hcp, hl.threadsOf_eq he]

/-- `sched_init` leaves a state in which the calls can start. -/
theorem live_schedInit (s₀ : Sched) (h₀ : s₀.headProc = none)
    (wrapper p t pml4t idleMain stack : ℕ) (vmm : Option ℕ) :
    ∃ s, s₀.schedInit wrapper p t pml4t idleMain stack = some s ∧ s.Live ⟨[], none⟩ t vmm := by
  obtain ⟨s, hs, hacc⟩ := accounts_schedInit s₀ h₀ wrapper p t pml4t idleMain stack
  have hcur : s.currentThread = t ∧ s.currentProcess = s.idleProc := by
    obtain ⟨s', hs', rfl⟩ := Option.map_eq_some_iff.1 hs
    exact ⟨rfl, rfl⟩
  exact ⟨s, hs, hacc, ⟨nofun, fun _ => hcur.1.symm⟩, fun hne => absurd hcur.2 hne⟩

/-- **Every dispatch is valid.**  In every run from `sched_init` every call returns, and the
dispatch of every `schedule` is valid. -/
theorem every_dispatch_valid (s₀ : Sched) (h₀ : s₀.headProc = none)
    (wrapper p t pml4t idleMain stack : ℕ) (vmm : Option ℕ) :
    ∃ s, s₀.schedInit wrapper p t pml4t idleMain stack = some s ∧
      ∀ os, Run.Along (stepVmm wrapper) (fun x o => Valid t x.1 o) ((s, ⟨[], none⟩), vmm) os →
        Run.Along (stepVmm wrapper) (fun x o => ∃ x', stepVmm wrapper x o = some x' ∧
            ∀ ctx regions, o = .schedule ctx regions → x'.1.1.Dispatched x'.2)
          ((s, ⟨[], none⟩), vmm) os := by
  obtain ⟨s, hs, hlive⟩ := live_schedInit s₀ h₀ wrapper p t pml4t idleMain stack vmm
  refine ⟨s, hs, fun os hv => ?_⟩
  refine Run.Along.of_inv (I := fun x => x.1.1.Live x.1.2 t x.2) (fun x o hx hv => ?_) hlive hv
  obtain ⟨x', hstep, hlive', hd⟩ := step_live wrapper x o hx hv
  refine ⟨⟨x', hstep, fun ctx regions ho => ?_⟩, fun x'' hstep' => ?_⟩
  · have hvmm : x'.2 = x.1.1.vmmAfter x'.1.1 x.2 := by
      obtain ⟨y, -, rfl⟩ := Option.map_eq_some_iff.1 hstep
      rfl
    rw [hvmm]
    exact (hd ctx regions ho).dispatched
  · obtain rfl := Option.some.inj (hstep.symm.trans hstep')
    exact hlive'

/-- Two processes and a user thread; the current thread exits, and with it its process. -/
theorem every_dispatch_valid_exit : ∃ s, blank.schedInit 9 0x100 0x200 0x7000 5 0x3000 = some s ∧
    Run.Along (stepVmm 9) (fun x o => ∃ x', stepVmm 9 x o = some x' ∧
        ∀ ctx regions, o = .schedule ctx regions → x'.1.1.Dispatched x'.2)
      ((s, ⟨[], none⟩), none)
      [.schedule {} fun _ => [], .createProc 0x300 0x400 0x8000 ⟨5, 0, false⟩ 0x6000,
        .createProc 0x600 0x700 0xa000 ⟨5, 0, true⟩ 0xb000,
        .createThread 0x300 0x500 ⟨5, 0, false⟩ 0x9000, .schedule {} fun _ => [], .exit,
        .schedule {} fun _ => [0xb000], .schedule {} fun _ => []] := by
  obtain ⟨s, hs, hrun⟩ := every_dispatch_valid blank rfl 9 0x100 0x200 0x7000 5 0x3000 none
  refine ⟨s, hs, hrun _ ?_⟩
  cases hs
  decide +kernel

/-! ### The cyclic order -/

theorem next_of_append {α : Type*} [DecidableEq α] {a b : List α} {x y : α}
    (hnd : (a ++ x :: y :: b).Nodup) (hx : x ∈ a ++ x :: y :: b) :
    (a ++ x :: y :: b).next x hx = y := by
  have hrot : (a ++ x :: y :: b) ~r (x :: y :: b ++ a) := List.isRotated_append
  rw [List.isRotated_next_eq hrot hnd hx]
  exact List.next_cons_cons_eq ..

theorem append_ne_singleton {α : Type*} (a b : List α) (x y : α) : a ++ x :: y :: b ≠ [x] := by
  intro h
  have := congrArg List.length h
  simp at this
  omega

theorem next_of_concat {α : Type*} [DecidableEq α] {a : List α} {x : α}
    (hnd : (a ++ [x]).Nodup) (hx : x ∈ a ++ [x]) :
    some ((a ++ [x]).next x hx) = (a ++ [x]).head? := by
  cases a with
  | nil => rfl
  | cons y a =>
    obtain ⟨hy, hnd⟩ := List.nodup_cons.1 hnd
    have hxa : x ∉ a := fun h => (List.nodup_append.1 hnd).2.2 x h x (by simp) rfl
    have hxy : x ≠ y := by
      rintro rfl
      exact hy (by simp)
    exact congrArg some (List.next_cons_concat _ _ y hxy hxa)

/-- What follows the current thread in the order: the thread behind it, or the first thread of the
process behind its own, or nothing. -/
theorem Lists.order_split (hl : s.Lists q) (he : (p, ts) ∈ q) (ht : t ∈ ts) :
    ∃ a b, q.flatMap Prod.snd = a ++ t :: b ∧
      match s.nextThread t with
      | some u => ∃ c, b = u :: c
      | none => match s.nextProc p with
        | some r => r ≠ p ∧ ∃ u c, s.threads r = some u ∧ b = u :: c
        | none => b = [] := by
  obtain ⟨q₁, q₂, rfl⟩ := List.append_of_mem he
  obtain ⟨l₁, l₂, rfl⟩ := List.append_of_mem ht
  have hthreads : Path s.nextThread (s.nextThread t) l₂ := (hl.threads _ he).suffix
  have hprocs : Path s.nextProc (s.nextProc p) (q₂.map Prod.fst) := by
    have := hl.procs
    rw [List.map_append, List.map_cons] at this
    exact this.suffix
  refine ⟨q₁.flatMap Prod.snd ++ l₁, l₂ ++ q₂.flatMap Prod.snd, by simp, ?_⟩
  cases l₂ with
  | cons u l₂ =>
    rw [hthreads.1]
    exact ⟨_, rfl⟩
  | nil =>
    rw [path_nil.1 hthreads]
    cases q₂ with
    | nil =>
      rw [path_nil.1 hprocs]
      rfl
    | cons e q₂ =>
      rw [hprocs.1]
      have he' : e ∈ q₁ ++ (p, l₁ ++ [t]) :: e :: q₂ := by simp
      obtain ⟨u, us, hus⟩ := List.exists_cons_of_ne_nil (hl.nonempty e he')
      refine ⟨(hl.others ht e (by simp)).1, u, us ++ q₂.flatMap Prod.snd, ?_, by simp [hus]⟩
      rw [(hl.threads e he').head?, hus, List.head?_cons]

/-- The first thread of the first process is the first of the order. -/
theorem Lists.head?_order (hl : s.Lists q) {h : ℕ} (hh : s.headProc = some h) :
    (q.flatMap Prod.snd).head? = s.threads h := by
  have hprocs := hl.procs
  rw [hh] at hprocs
  cases q with
  | nil => cases hprocs
  | cons e q =>
    obtain rfl := Option.some.inj hprocs.1
    obtain ⟨u, us, hus⟩ := List.exists_cons_of_ne_nil (hl.nonempty e List.mem_cons_self)
    rw [(hl.threads e List.mem_cons_self).head?, List.flatMap_cons, hus]
    rfl

/-- `s'` runs the thread whose turn it is after `s`: the first one if the idle thread was running,
the idle thread if the only thread has exited, and otherwise the cyclic successor of the thread
that was running, in the order before anything is reaped. -/
structure Succeeds (s s' : Sched) : Prop where
  idle : s.currentProcess = s.idleProc →
    some s'.currentThread = s.order.head?.or (s.threads s.idleProc)
  queued : s.currentProcess ≠ s.idleProc → ∃ h : s.currentThread ∈ s.order,
    if s.status s.currentThread = .dead ∧ s.order = [s.currentThread] then
      some s'.currentThread = s.threads s.idleProc
    else s'.currentThread = s.order.next s.currentThread h

/-- The order after the first half of `schedule`. -/
theorem order_schedule (h : s.Accounts g idle) :
    g.schedule.queue.flatMap Prod.snd =
      match g.exited with
      | some t => (g.queue.flatMap Prod.snd).erase t
      | none => g.queue.flatMap Prod.snd := by
  cases hex : g.exited with
  | none => simp only [Ledger.schedule, hex]
  | some t =>
    obtain ⟨rfl, hne⟩ := h.exited t hex
    obtain ⟨⟨p, ts⟩, he, -, hct⟩ := h.current.resolve_left fun hc => hne hc.1
    simp only [Ledger.schedule, hex]
    exact h.lists.order_reap he hct

/-- The idle thread gives way to the first thread. -/
theorem Vacated.next_idle (h : s.Accounts g idle) (hv : s.Vacated s₁ g idle)
    (hcp : s.currentProcess = s.idleProc) (ht : s₁.threads s₁.switchProcess.currentProcess = some t) :
    some t = s.order.head?.or (s.threads s.idleProc) := by
  have hex : g.exited = none := by
    cases hex : g.exited with
    | none => rfl
    | some u => exact absurd hcp (h.exited u hex).2
  have horder := order_schedule h
  simp only [hex] at horder
  rw [h.lists.order_eq, ← horder]
  cases hh : s₁.headProc with
  | none =>
    have hprocs := hv.lists.procs.head?
    rw [hh] at hprocs
    have hq : g.schedule.queue = [] := by simpa using hprocs.symm
    have hsw : s₁.switchProcess.currentProcess = s.idleProc := by
      simp [switchProcess, hh, call, hv.idleProc]
    rw [hsw, ← hv.idleProc, hv.apart.threads] at ht
    rw [hq, h.apart.threads]
    exact ht.symm
  | some r =>
    have hnext : s₁.nextProc s₁.currentProcess = none := by
      rw [hv.currentProcess, hv.proc_link, hcp]
      exact h.apart.nextProc
    have hsw : s₁.switchProcess.currentProcess = r := by
      simp [switchProcess, hh, call, hnext]
    rw [hsw] at ht
    rw [hv.lists.head?_order hh, ht]
    rfl

/-- Behind the last thread of all the first one comes again. -/
theorem Vacated.next_last (h : s.Accounts g idle) (hv : s.Vacated s₁ g idle) {a : List ℕ}
    (horder : g.queue.flatMap Prod.snd = a ++ [s.currentThread])
    (hnext : s.nextProc s.currentProcess = none)
    (ht : s₁.threads s₁.switchProcess.currentProcess = some t) :
    if g.exited = some s.currentThread ∧ a = [] then t = idle
    else some t = (a ++ [s.currentThread]).head? := by
  have hnd := h.lists.nodup_order
  have horder' := order_schedule h
  rw [horder] at hnd horder'
  have herase : (a ++ [s.currentThread]).erase s.currentThread = a := by
    have hnot : s.currentThread ∉ a :=
      fun hmem => (List.nodup_append.1 hnd).2.2 _ hmem _ (by simp) rfl
    rw [List.erase_append_right _ hnot]
    simp
  cases hh : s₁.headProc with
  | none =>
    have hprocs := hv.lists.procs.head?
    rw [hh] at hprocs
    have hq : g.schedule.queue = [] := by simpa using hprocs.symm
    have hsw : s₁.switchProcess.currentProcess = s₁.idleProc := by
      simp [switchProcess, hh, call]
    rw [hsw, hv.apart.threads] at ht
    rw [hq, List.flatMap_nil] at horder'
    cases hex : g.exited with
    | none => simp [hex] at horder'
    | some u =>
      obtain ⟨rfl, -⟩ := h.exited u hex
      simp only [hex, herase] at horder'
      rw [if_pos ⟨rfl, horder'.symm⟩]
      exact (Option.some.inj ht).symm
  | some r =>
    have hsw : s₁.switchProcess.currentProcess = r := by
      simp [switchProcess, hh, call, hv.currentProcess, hv.proc_link, hnext]
    rw [hsw, ← hv.lists.head?_order hh, horder'] at ht
    cases hex : g.exited with
    | none =>
      simp only [hex] at ht
      simp [ht]
    | some u =>
      obtain ⟨rfl, -⟩ := h.exited u hex
      simp only [hex, herase] at ht
      cases a with
      | nil => cases ht
      | cons b a => simpa using ht.symm

/-- **`schedule`** goes on to the thread whose turn it is. -/
theorem schedule_succeeds (h : s.Accounts g idle) (ctx : CpuContext) (regions : ℕ → List ℕ) :
    ∃ s' ctx', s.schedule ctx regions = some (s', ctx') ∧ s'.Accounts g.schedule idle ∧
      s.Succeeds s' := by
  obtain ⟨s₁, hv, hsched⟩ := schedule_eq h ctx regions
  obtain ⟨s', hadv, hacc, ⟨r, hrun, hcp, hct, -⟩, -, -⟩ :=
    advance_eq hv.lists hv.apart hv.successors hv.alive
  obtain ⟨cp, ct, cs, hrun', -, hway⟩ := nextRunnable_eq hv.lists hv.apart hv.successors
  obtain rfl := Option.some.inj (hrun'.symm.trans hrun)
  simp only at hcp hct
  subst hcp hct
  rw [hv.currentThread, hv.thread_link] at hway
  refine ⟨s', _, hsched s' hadv, hacc, fun hidle => ?_, fun hne => ?_⟩
  · have hcur : s.currentThread = idle := by
      rcases h.current with ⟨-, hct⟩ | ⟨e, he, hcp, -⟩
      · exact hct
      · exact absurd (hidle ▸ hcp ▸ List.mem_map_of_mem he) h.apart.notMem
    simp only [hcur, h.apart.nextThread] at hway
    obtain ⟨hcp, hth, -⟩ := hway
    exact hv.next_idle h hidle (hcp ▸ hth)
  · obtain ⟨⟨p, ts⟩, he, hcp, hct⟩ := h.current.resolve_left fun hc => hne hc.1
    have hdead := h.dead _ he _ hct
    have hnd := h.lists.nodup_order
    obtain ⟨a, b, horder, hb⟩ := h.lists.order_split he hct
    rw [horder] at hnd
    rw [h.lists.order_eq, horder]
    refine ⟨by simp, ?_⟩
    cases hn : s.nextThread s.currentThread with
    | some u =>
      simp only [hn] at hway hb
      obtain ⟨c, rfl⟩ := hb
      rw [if_neg fun h => append_ne_singleton a c _ u h.2, hway.2.1, next_of_append hnd]
    | none =>
      simp only [hn] at hway hb
      obtain ⟨hcp', hth, -⟩ := hway
      rw [hcp'] at hth
      cases hnp : s.nextProc p with
      | some r =>
        simp only [hnp] at hb
        obtain ⟨hrp, u, c, hu, rfl⟩ := hb
        have hlink : s₁.nextProc s₁.currentProcess = some r := by
          rw [hv.currentProcess, hv.proc_link, hcp, hnp]
        -- the process behind the current one is still there, so the queue is not empty
        have hmem : r ∈ g.schedule.queue.map Prod.fst := hv.successors.proc r hlink
        have hsw : s₁.switchProcess.currentProcess = r := by
          cases hh : s₁.headProc with
          | none =>
            have hprocs := hv.lists.procs.head?
            rw [hh] at hprocs
            simp [List.head?_eq_none_iff.1 hprocs.symm] at hmem
          | some h' => simp [switchProcess, hh, call, hlink]
        rw [hsw, hv.threads r (by rw [hcp]; exact hrp), hu] at hth
        rw [if_neg fun h => append_ne_singleton a c _ u h.2, next_of_append hnd,
          Option.some.inj hth]
      | none =>
        simp only [hnp] at hb
        subst hb
        have hlast := hv.next_last h horder (by rw [hcp]; exact hnp) hth
        by_cases hc : g.exited = some s.currentThread ∧ a = []
        · rw [if_pos hc] at hlast
          rw [if_pos ⟨hdead.2 hc.1, by simp [hc.2]⟩, h.apart.threads, hlast]
        · rw [if_neg hc] at hlast
          rw [if_neg fun h => hc ⟨hdead.1 h.1, by simpa using h.2⟩]
          exact Option.some.inj (hlast.trans (next_of_concat hnd (by simp)).symm)

/-! ### A whole round -/

/-- The threads that a series of `schedule` calls dispatches. -/
def dispatches (s : Sched) : List (CpuContext × (ℕ → List ℕ)) → Option (List ℕ)
  | [] => some []
  | c :: cs => (s.schedule c.1 c.2).bind fun r =>
    (dispatches r.1 cs).map fun ts => r.1.currentThread :: ts

/-- The threads in the order in which their turns come. -/
def Turns (s : Sched) (l : List ℕ) : Prop :=
  l ~r s.order ∧ ((s.currentProcess = s.idleProc ∧ l = s.order) ∨
    (s.currentProcess ≠ s.idleProc ∧ ∃ r, l = r ++ [s.currentThread]))

theorem exists_turns (h : s.Accounts g idle) : ∃ l, s.Turns l := by
  by_cases hcp : s.currentProcess = s.idleProc
  · exact ⟨s.order, List.IsRotated.refl _, Or.inl ⟨hcp, rfl⟩⟩
  · obtain ⟨e, he, -, hct⟩ := h.current.resolve_left fun hc => hcp hc.1
    have hmem : s.currentThread ∈ s.order := by
      rw [h.lists.order_eq]
      exact List.mem_flatMap.2 ⟨e, he, hct⟩
    obtain ⟨a, b, hab⟩ := List.append_of_mem hmem
    refine ⟨b ++ (a ++ [s.currentThread]), ?_, Or.inr ⟨hcp, b ++ a, by simp⟩⟩
    have : s.order = (a ++ [s.currentThread]) ++ b := by simp [hab]
    rw [this]
    exact List.isRotated_append

/-- When nobody has exited, a `schedule` dispatches the thread whose turn it is. -/
theorem Turns.schedule (h : s.Accounts g idle) (hex : g.exited = none) {x : ℕ}
    (hl : s.Turns (x :: l)) (ctx : CpuContext) (regions : ℕ → List ℕ) :
    ∃ s' ctx', s.schedule ctx regions = some (s', ctx') ∧ s'.Accounts g idle ∧
      s'.currentThread = x ∧ s'.Turns (l ++ [x]) := by
  obtain ⟨s', ctx', hs', hacc, hsucc⟩ := schedule_succeeds h ctx regions
  obtain ⟨hrot, hturn⟩ := hl
  have hg : g.schedule = g := by
    obtain ⟨q, ex⟩ := g
    cases hex
    rfl
  rw [hg] at hacc
  have horder : s'.order = s.order := hacc.lists.order_eq.trans h.lists.order_eq.symm
  have hnd : s.order.Nodup := h.lists.order_eq ▸ h.lists.nodup_order
  have hx : s'.currentThread = x := by
    rcases hturn with ⟨hcp, hl⟩ | ⟨hcp, r, hl⟩
    · have := hsucc.idle hcp
      rw [← hl] at this
      exact Option.some.inj this
    · obtain ⟨hmem, hnext⟩ := hsucc.queued hcp
      obtain ⟨e, he, -, hct⟩ := h.current.resolve_left fun hc => hcp hc.1
      have halive : s.status s.currentThread ≠ .dead := by
        rw [Ne, h.dead e he _ hct, hex]
        nofun
      rw [if_neg fun hc => halive hc.1, List.isRotated_next_eq hrot.symm hnd hmem] at hnext
      have hconcat := next_of_concat (hl ▸ (hrot.nodup_iff.2 hnd)) (show _ ∈ r ++ _ by simp)
      have hhead : (r ++ [s.currentThread]).head? = some x := by
        rw [← hl]
        rfl
      simp only [hl] at hnext
      rw [hnext]
      exact Option.some.inj (hconcat.trans hhead)
  have hmem : x ∈ s'.order := horder ▸ hrot.mem_iff.1 List.mem_cons_self
  refine ⟨s', ctx', hs', hacc, hx, ?_, Or.inr ⟨fun hidle => ?_, l, by rw [hx]⟩⟩
  · rw [horder]
    exact (@List.isRotated_append _ [x] l).symm.trans hrot
  · -- the idle thread is not in the order
    rcases hacc.current with ⟨-, hct⟩ | ⟨e, he, hcp, -⟩
    · rw [hacc.lists.order_eq, ← hx, hct] at hmem
      obtain ⟨e, he, hmem⟩ := List.mem_flatMap.1 hmem
      exact hacc.apart.thread_notMem e he hmem
    · exact hacc.apart.notMem (hidle ▸ hcp ▸ List.mem_map_of_mem he)

/-- A series of `schedule` calls dispatches the threads in turn. -/
theorem Turns.dispatches_eq (h : s.Accounts g idle) (hex : g.exited = none) (hl : s.Turns l)
    {cs : List (CpuContext × (ℕ → List ℕ))} (hcs : cs.length ≤ l.length) :
    s.dispatches cs = some (l.take cs.length) := by
  induction cs generalizing s l with
  | nil => rfl
  | cons c cs ih =>
    cases l with
    | nil => simp at hcs
    | cons x l =>
      obtain ⟨s', ctx', hs', hacc, hx, hturns⟩ := hl.schedule h hex c.1 c.2
      have hlen : cs.length ≤ l.length := by simpa using hcs
      have hrest := ih hacc hturns (by simp; omega)
      rw [List.take_append_of_le_length hlen] at hrest
      rw [dispatches, hs', Option.bind_some, hrest, Option.map_some, hx]
      rfl

/-- **Round robin.**  In every run from `sched_init`, every `schedule` dispatches the thread whose
turn it is; and from every state in which `n` threads are queued and the current one has not
exited, `n` calls in a row dispatch every thread exactly once. -/
theorem round_robin (s₀ : Sched) (h₀ : s₀.headProc = none)
    (wrapper p t pml4t idleMain stack : ℕ) :
    ∃ s, s₀.schedInit wrapper p t pml4t idleMain stack = some s ∧
      ∀ os, Run.Along (step wrapper) (Valid t) (s, ⟨[], none⟩) os →
        Run.Along (step wrapper) (fun x o => ∀ ctx regions, o = .schedule ctx regions →
            ∃ x', step wrapper x o = some x' ∧ x.1.Succeeds x'.1) (s, ⟨[], none⟩) os ∧
          Run.Always (step wrapper) (fun x => x.1.status x.1.currentThread ≠ .dead →
            ∀ cs : List (CpuContext × (ℕ → List ℕ)), cs.length = x.1.order.length →
              x.1.order.Nodup ∧ ∃ ts, x.1.dispatches cs = some ts ∧ ts.Perm x.1.order)
            (s, ⟨[], none⟩) os := by
  obtain ⟨s, hs, hacc⟩ := accounts_schedInit s₀ h₀ wrapper p t pml4t idleMain stack
  have hstep : ∀ (x : Sched × Ledger) (o : Op) (x' : Sched × Ledger), x.1.Accounts x.2 t →
      Valid t x o → step wrapper x o = some x' → x'.1.Accounts x'.2 t := by
    intro x o x' hx hv hstep
    obtain ⟨x'', hstep', hx'⟩ := step_accounts wrapper x o hx hv
    obtain rfl := Option.some.inj (hstep'.symm.trans hstep)
    exact hx'
  refine ⟨s, hs, fun os hv => ⟨?_, ?_⟩⟩
  · refine Run.Along.of_inv (I := fun x => x.1.Accounts x.2 t) (fun x o hx hv => ?_) hacc hv
    refine ⟨fun ctx regions ho => ?_, fun x' => hstep x o x' hx hv⟩
    subst ho
    obtain ⟨s', ctx', hs', -, hsucc⟩ := schedule_succeeds hx ctx regions
    exact ⟨(s', x.2.schedule), by rw [step, hs', Option.map_some], hsucc⟩
  · refine Run.Always.of_inv (I := fun x => x.1.Accounts x.2 t) (fun x hx halive cs hcs => ?_)
      hstep hacc hv
    have hex : x.2.exited = none := by
      cases hex : x.2.exited with
      | none => rfl
      | some u =>
        obtain ⟨rfl, hne⟩ := hx.exited u hex
        obtain ⟨e, he, -, hct⟩ := hx.current.resolve_left fun hc => hne hc.1
        exact absurd ((hx.dead e he _ hct).2 hex) halive
    obtain ⟨l, hl⟩ := exists_turns hx
    have hlen : cs.length = l.length := hcs.trans hl.1.perm.length_eq.symm
    refine ⟨hx.lists.order_eq ▸ hx.lists.nodup_order, l, ?_, hl.1.perm⟩
    rw [hl.dispatches_eq hx hex hlen.le, hlen, List.take_length]

/-- Three threads in two processes; then one of them exits. -/
theorem round_robin_exit : ∃ s, blank.schedInit 9 0x100 0x200 0x7000 5 0x3000 = some s ∧
    Run.Along (step 9) (fun x o => ∀ ctx regions, o = .schedule ctx regions →
        ∃ x', step 9 x o = some x' ∧ x.1.Succeeds x'.1) (s, ⟨[], none⟩)
      [.createProc 0x300 0x400 0x8000 ⟨5, 0, false⟩ 0x6000,
        .createProc 0x600 0x700 0xa000 ⟨5, 0, true⟩ 0xb000,
        .createThread 0x300 0x500 ⟨5, 0, false⟩ 0x9000, .schedule {} fun _ => [],
        .schedule {} fun _ => [], .exit, .schedule {} fun _ => [], .schedule {} fun _ => []] := by
  obtain ⟨s, hs, hrun⟩ := round_robin blank rfl 9 0x100 0x200 0x7000 5 0x3000
  refine ⟨s, hs, (hrun _ ?_).1⟩
  cases hs
  decide +kernel

end Sched

end TitanOS
