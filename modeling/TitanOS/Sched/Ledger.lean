import TitanOS.Lib.Run
import TitanOS.Sched.Model

/-!
# The scheduler keeps every thread and process

The ledger says what the lists of the scheduler are for: which processes have been created and
still have threads, most recent first, and for each of them the threads created in it and not yet
reaped, in creation order.  It knows nothing of pointers; a schedule removes the thread that has
exited since the last one and, with it, a process that has no thread left.

`Accounts s g` relates the pointer structure to the ledger, and `lists_kept` says that every run
of the scheduler keeps the two in step and that every call returns.
-/

namespace TitanOS

open Linked

/-- The processes with their threads, and the thread that has exited and is not yet reaped. -/
structure Ledger where
  queue : List (ℕ × List ℕ)
  exited : Option ℕ
  deriving DecidableEq, Repr

namespace Ledger

/-- The processes on the queue. -/
def procs (g : Ledger) : List ℕ := g.queue.map Prod.fst

def createProc (g : Ledger) (p t : ℕ) : Ledger := { g with queue := (p, [t]) :: g.queue }

def createThread (g : Ledger) (p t : ℕ) : Ledger :=
  { g with queue := g.queue.map fun e => if e.1 = p then (e.1, e.2 ++ [t]) else e }

def exit (g : Ledger) (t : ℕ) : Ledger := { g with exited := some t }

/-- Remove the thread `t`, and the process that is left without threads. -/
def reap (q : List (ℕ × List ℕ)) (t : ℕ) : List (ℕ × List ℕ) :=
  (q.map fun e => (e.1, e.2.erase t)).filter fun e => e.2 ≠ []

def schedule (g : Ledger) : Ledger where
  queue := match g.exited with
    | none => g.queue
    | some t => reap g.queue t
  exited := none

/-- Reaping a thread changes the entry of its process only. -/
theorem reap_append {q₁ q₂ : List (ℕ × List ℕ)} {p t : ℕ} {ts : List ℕ}
    (h₁ : ∀ e ∈ q₁, e.2 ≠ [] ∧ t ∉ e.2) (h₂ : ∀ e ∈ q₂, e.2 ≠ [] ∧ t ∉ e.2) :
    reap (q₁ ++ (p, ts) :: q₂) t =
      q₁ ++ (if ts.erase t = [] then [] else [(p, ts.erase t)]) ++ q₂ := by
  have hsame : ∀ q : List (ℕ × List ℕ), (∀ e ∈ q, e.2 ≠ [] ∧ t ∉ e.2) → reap q t = q := by
    intro q hq
    have hmap : q.map (fun e => (e.1, e.2.erase t)) = q := by
      refine (List.map_congr_left fun e he => ?_).trans (List.map_id _)
      rw [List.erase_of_not_mem (hq e he).2]
      rfl
    rw [reap, hmap, List.filter_eq_self]
    intro e he
    simpa using (hq e he).1
  have hone : reap [(p, ts)] t = if ts.erase t = [] then [] else [(p, ts.erase t)] := by
    by_cases h : ts.erase t = [] <;> simp [reap, h]
  have happ : ∀ a b, reap (a ++ b) t = reap a t ++ reap b t := by
    intro a b
    simp [reap]
  rw [← List.singleton_append, happ, happ, hsame q₁ h₁, hsame q₂ h₂, hone, List.append_assoc]

end Ledger

namespace Sched

open Function (update)

/-- The lists of the scheduler are those of the queue. -/
structure Lists (s : Sched) (q : List (ℕ × List ℕ)) : Prop where
  procs : Path s.nextProc s.headProc (q.map Prod.fst)
  threads : ∀ e ∈ q, Path s.nextThread (s.threads e.1) e.2
  nonempty : ∀ e ∈ q, e.2 ≠ []
  parent : ∀ e ∈ q, ∀ t ∈ e.2, s.parent t = e.1
  procs_le : q.length ≤ s.created
  threads_le : ∀ e ∈ q, e.2.length ≤ s.created

/-- The idle process with its one thread `t` is apart from the queue. -/
structure Idle (s : Sched) (q : List (ℕ × List ℕ)) (t : ℕ) : Prop where
  threads : s.threads s.idleProc = some t
  nextThread : s.nextThread t = none
  nextProc : s.nextProc s.idleProc = none
  notMem : s.idleProc ∉ q.map Prod.fst
  thread_notMem : ∀ e ∈ q, t ∉ e.2
  alive : s.status t ≠ .dead

/-- The current thread is the idle one, or a thread of the current process, which is queued. -/
def Current (s : Sched) (q : List (ℕ × List ℕ)) (idle : ℕ) : Prop :=
  (s.currentProcess = s.idleProc ∧ s.currentThread = idle) ∨
    ∃ e ∈ q, s.currentProcess = e.1 ∧ s.currentThread ∈ e.2

/-- The pointer structure agrees with the ledger. -/
structure Accounts (s : Sched) (g : Ledger) (idle : ℕ) : Prop where
  lists : s.Lists g.queue
  apart : s.Idle g.queue idle
  current : s.Current g.queue idle
  dead : ∀ e ∈ g.queue, ∀ t ∈ e.2, s.status t = .dead ↔ g.exited = some t
  exited : ∀ t ∈ g.exited, t = s.currentThread ∧ s.currentProcess ≠ s.idleProc

variable {s s' : Sched} {g : Ledger} {q q₁ q₂ : List (ℕ × List ℕ)} {e e' : ℕ × List ℕ}
  {idle p t : ℕ} {ts l : List ℕ}

/-- A thread belongs to one process. -/
theorem Lists.eq_of_mem (h : s.Lists q) (he : e ∈ q) (he' : e' ∈ q) (ht : t ∈ e.2)
    (ht' : t ∈ e'.2) : e = e' := by
  have hfst : e.1 = e'.1 := (h.parent e he t ht).symm.trans (h.parent e' he' t ht')
  have hsnd : Path s.nextThread (s.threads e.1) e'.2 := by
    rw [hfst]
    exact h.threads e' he'
  exact Prod.ext hfst ((h.threads e he).unique hsnd)

/-! ### Creating threads and processes -/

theorem createThread_eq {d w stack : ℕ} {en : Entry}
    (h : Path s.nextThread (s.threads p) (l ++ [d])) (ht : t ∉ l ++ [d])
    (hlen : (l ++ [d]).length ≤ s.created) :
    s.createThread w p t en stack =
      some ({ s with
        nextThread := update (update s.nextThread t none) d (some t)
        created := s.created + 1 }.fillThread w p t en stack) := by
  have hpath : Path (update s.nextThread t none) (s.threads p) (l ++ [d]) := h.update_of_notMem ht
  obtain ⟨c, r, hcr⟩ : ∃ c r, l ++ [d] = c :: r := by
    cases l with
    | nil => exact ⟨d, [], rfl⟩
    | cons c l => exact ⟨c, l ++ [d], rfl⟩
  rw [hcr] at hpath
  obtain ⟨hc, hr⟩ := hpath
  have hlast : scanList (fun _ _ => false) c r = (d, none) := by
    rcases scanList_cases (fun _ _ => false) c r with ⟨l₁, d', hl, -, hs⟩ | ⟨_, _, _, _, _, _, hf, _⟩
    · rw [← hcr] at hl
      rw [hs, (List.append_inj' hl rfl).2 |> List.singleton_inj.1]
    · cases hf
  have hscan : scan (update s.nextThread t none) (fun _ _ => false) (s.created + 1 + 1) c =
      some (scanList (fun _ _ => false) c r) := by
    have : r.length + 1 = (l ++ [d]).length := by rw [hcr]; rfl
    exact scan_eq hr (by omega)
  simp only [createThread, hc, fuel, hscan, hlast, Option.map_some]

/-- The address `a` belongs to no live process or thread. -/
structure Fresh (s : Sched) (q : List (ℕ × List ℕ)) (idle a : ℕ) : Prop where
  ne_idleProc : a ≠ s.idleProc
  ne_idle : a ≠ idle
  notMem : a ∉ q.map Prod.fst
  thread_notMem : ∀ e ∈ q, a ∉ e.2

theorem Fresh.ne_currentThread (hf : s.Fresh q idle t) (hc : s.Current q idle) :
    t ≠ s.currentThread := by
  rcases hc with ⟨-, hc⟩ | ⟨e, he, -, hc⟩
  · rw [hc]
    exact hf.ne_idle
  · rintro rfl
    exact hf.thread_notMem e he hc

/-- The entries of the queue once `t` has been created in the process of `e`. -/
theorem mem_createThread (hl : s.Lists g.queue) (he : e ∈ g.queue)
    (he' : e' ∈ (g.createThread e.1 t).queue) :
    e' = (e.1, e.2 ++ [t]) ∨ (e' ∈ g.queue ∧ e'.1 ≠ e.1) := by
  obtain ⟨e₁, he₁, rfl⟩ := List.mem_map.1 he'
  by_cases hee : e₁.1 = e.1
  · have : e₁ = e := Prod.ext hee ((hl.threads e₁ he₁).unique (hee ▸ hl.threads e he))
    exact Or.inl (by simp [this])
  · exact Or.inr (by simpa [hee] using he₁)

/-- A thread queued after `create_proc` is the new one or was queued before. -/
theorem queued_createProc (he : e ∈ (g.createProc p t).queue) {a : ℕ} (ha : a ∈ e.2) :
    a = t ∨ ∃ e' ∈ g.queue, a ∈ e'.2 := by
  rcases List.mem_cons.1 he with rfl | he
  · exact Or.inl (by simpa using ha)
  · exact Or.inr ⟨e, he, ha⟩

/-- A thread queued after `create_thread` is the new one or was queued before. -/
theorem queued_createThread (hl : s.Lists g.queue) (he : e ∈ g.queue)
    (he' : e' ∈ (g.createThread e.1 t).queue) {a : ℕ} (ha : a ∈ e'.2) :
    a = t ∨ ∃ e' ∈ g.queue, a ∈ e'.2 := by
  rcases mem_createThread hl he he' with rfl | ⟨he₁, -⟩
  · rcases List.mem_append.1 ha with ha | ha
    · exact Or.inr ⟨e, he, ha⟩
    · exact Or.inl (by simpa using ha)
  · exact Or.inr ⟨e', he₁, ha⟩

theorem map_fst_createThread (g : Ledger) (p t : ℕ) :
    (g.createThread p t).queue.map Prod.fst = g.queue.map Prod.fst := by
  simp only [Ledger.createThread, List.map_map]
  refine List.map_congr_left fun e _ => ?_
  by_cases hee : e.1 = p <;> simp [hee]

/-- The lists once the last thread `d` of the process of `e` leads to the new thread `t`. -/
theorem lists_createThread (hl : s.Lists g.queue) (he : e ∈ g.queue)
    (ht : ∀ e ∈ g.queue, t ∉ e.2) {d : ℕ} (hd : e.2 = l ++ [d])
    (hprocs : s'.nextProc = s.nextProc ∧ s'.headProc = s.headProc ∧ s'.threads = s.threads)
    (hlink : s'.nextThread d = some t) (hself : s'.nextThread t = none)
    (hnext : ∀ a, a ≠ t → a ≠ d → s'.nextThread a = s.nextThread a)
    (hparent : s'.parent = update s.parent t e.1) (hcreated : s'.created = s.created + 1) :
    s'.Lists (g.createThread e.1 t).queue := by
  obtain ⟨hnp, hhp, hth⟩ := hprocs
  have hde : d ∈ e.2 := by simp [hd]
  constructor
  · rw [map_fst_createThread, hnp, hhp]
    exact hl.procs
  · intro e' he'
    rw [hth]
    rcases mem_createThread hl he he' with rfl | ⟨he₁, hne⟩
    · have hpath := hl.threads e he
      have hnd := hpath.nodup
      simp only [hd] at hpath hnd ⊢
      refine hpath.snoc hlink hself fun b hb => hnext b ?_ ?_
      · rintro rfl
        exact ht e he (by simp [hd, hb])
      · rintro rfl
        exact (List.nodup_append.1 hnd).2.2 b hb b (by simp) rfl
    · refine (hl.threads e' he₁).congr fun a ha => hnext a ?_ ?_
      · rintro rfl
        exact ht e' he₁ ha
      · rintro rfl
        exact hne (congrArg Prod.fst (hl.eq_of_mem he₁ he ha hde))
  · intro e' he'
    rcases mem_createThread hl he he' with rfl | ⟨he₁, -⟩
    · simp
    · exact hl.nonempty e' he₁
  · intro e' he' a ha
    rw [hparent]
    by_cases hat : a = t
    · subst hat
      rw [Function.update_self]
      rcases mem_createThread hl he he' with rfl | ⟨he₁, -⟩
      · rfl
      · exact absurd ha (ht e' he₁)
    · rw [Function.update_of_ne hat]
      rcases mem_createThread hl he he' with rfl | ⟨he₁, -⟩
      · exact hl.parent e he a (by simpa [hat] using ha)
      · exact hl.parent e' he₁ a ha
  · have := hl.procs_le
    simp only [Ledger.createThread, List.length_map]
    omega
  · intro e' he'
    rcases mem_createThread hl he he' with rfl | ⟨he₁, -⟩
    · have := hl.threads_le e he
      simp
      omega
    · have := hl.threads_le e' he₁
      omega

/-- A new thread is appended to the list of its process. -/
theorem accounts_createThread {w stack : ℕ} {en : Entry} (h : s.Accounts g idle)
    (hp : p ∈ g.procs) (hf : s.Fresh g.queue idle t) :
    ∃ s', s.createThread w p t en stack = some s' ∧ s'.Accounts (g.createThread p t) idle := by
  obtain ⟨hl, hi, hc, hd, hx⟩ := h
  have htc := hf.ne_currentThread hc
  obtain ⟨e, he, rfl⟩ := List.mem_map.1 hp
  obtain ⟨l, d, hlast⟩ : ∃ l d, e.2 = l ++ [d] :=
    ⟨_, _, (List.dropLast_concat_getLast (hl.nonempty e he)).symm⟩
  have hde : d ∈ e.2 := by simp [hlast]
  have hdt : d ≠ t := fun h => hf.thread_notMem e he (h ▸ hde)
  have hother : ∀ a, a ≠ t → a ≠ d →
      update (update (update s.nextThread t none) d (some t)) t none a = s.nextThread a := by
    intro a ha had
    rw [Function.update_of_ne ha, Function.update_of_ne had, Function.update_of_ne ha]
  refine ⟨_, createThread_eq (hlast ▸ hl.threads e he) (hlast ▸ hf.thread_notMem e he)
    (hlast ▸ hl.threads_le e he), ?_, ?_, ?_, ?_, ?_⟩
  · refine lists_createThread hl he hf.thread_notMem hlast ⟨rfl, rfl, rfl⟩ ?_
      (Function.update_self ..) hother rfl rfl
    simp only [fillThread, Function.update_of_ne hdt, Function.update_self]
  · have hid : idle ≠ d := fun h => hi.thread_notMem e he (h ▸ hde)
    refine ⟨hi.threads, (hother idle hf.ne_idle.symm hid).trans hi.nextThread, hi.nextProc, ?_,
      fun e' he' => ?_, ?_⟩
    · rw [map_fst_createThread]
      exact hi.notMem
    · rcases mem_createThread hl he he' with rfl | ⟨he₁, -⟩
      · simpa [hf.ne_idle.symm] using hi.thread_notMem e he
      · exact hi.thread_notMem e' he₁
    · simpa only [fillThread, Function.update_of_ne hf.ne_idle.symm] using hi.alive
  · rcases hc with hc | ⟨e', he', hc⟩
    · exact Or.inl hc
    · refine Or.inr ⟨_, List.mem_map_of_mem he', ?_⟩
      by_cases hee : e'.1 = e.1
      · simp only [hee, if_true]
        exact ⟨hc.1.trans hee, List.mem_append_left _ hc.2⟩
      · rw [if_neg hee]
        exact hc
  · intro e' he' a ha
    simp only [fillThread]
    by_cases hat : a = t
    · subst hat
      rw [Function.update_self]
      exact ⟨nofun, fun hex => absurd (hx a hex).1 htc⟩
    · rw [Function.update_of_ne hat]
      rcases mem_createThread hl he he' with rfl | ⟨he₁, -⟩
      · exact hd e he a (by simpa [hat] using ha)
      · exact hd e' he₁ a ha
  · exact hx

/-- The fields that `create_proc` leaves behind. -/
theorem createProc_eq {w pml4 stack : ℕ} {en : Entry} {b : Bool} :
    ∃ s', s.createProc w p t pml4 en b stack = some s' ∧
      s'.threads = update s.threads p (some t) ∧
      s'.nextThread = update s.nextThread t none ∧ s'.parent = update s.parent t p ∧
      s'.status = update s.status t .ready ∧ s'.created = s.created + 2 ∧
      s'.idleProc = s.idleProc ∧ s'.currentThread = s.currentThread ∧
      s'.currentProcess = s.currentProcess ∧
      s'.headProc = (if b then some p else s.headProc) ∧
      s'.nextProc = update s.nextProc p (if b then s.headProc else none) ∧
      s'.calls = s.calls ++ [if en.isUser then .allocUserStack p else .allocKernelStack] := by
  cases b <;>
    exact ⟨_, by simp [createProc, createThread]; rfl, by simp [fillThread, call]⟩

/-- A new process with one thread is put in front of the queue. -/
theorem accounts_createProc {w pml4 stack : ℕ} {en : Entry} (h : s.Accounts g idle)
    (hp : s.Fresh g.queue idle p) (ht : s.Fresh g.queue idle t) :
    ∃ s', s.createProc w p t pml4 en true stack = some s' ∧
      s'.Accounts (g.createProc p t) idle := by
  obtain ⟨hl, hi, hc, hd, hx⟩ := h
  have htc := ht.ne_currentThread hc
  obtain ⟨s', hs', hth, hnt, hpa, hst, hcr, hip, hct, hcp, hhp, hnp, -⟩ :=
    @createProc_eq s p t w pml4 stack en true
  have hne : ∀ e ∈ g.queue, e.1 ≠ p := fun e he h => hp.notMem (h ▸ List.mem_map_of_mem he)
  have hold : ∀ e ∈ g.queue, ∀ a ∈ e.2, a ≠ t := fun e he a ha h => ht.thread_notMem e he (h ▸ ha)
  refine ⟨s', hs', ⟨?_, ?_, ?_, ?_, ?_, ?_⟩, ⟨?_, ?_, ?_, ?_, ?_, ?_⟩, ?_, ?_, ?_⟩
  · rw [hnp, hhp]
    refine ⟨rfl, ?_⟩
    simp only [Function.update_self, if_true]
    exact hl.procs.update_of_notMem hp.notMem
  · intro e he
    rw [hnt, hth]
    rcases List.mem_cons.1 he with rfl | he
    · simp
    · rw [Function.update_of_ne (hne e he)]
      exact (hl.threads e he).update_of_notMem (ht.thread_notMem e he)
  · intro e he
    rcases List.mem_cons.1 he with rfl | he
    · simp
    · exact hl.nonempty e he
  · intro e he a ha
    rw [hpa]
    rcases List.mem_cons.1 he with rfl | he
    · simp at ha
      simp [ha]
    · rw [Function.update_of_ne (hold e he a ha)]
      exact hl.parent e he a ha
  · have := hl.procs_le
    simp [Ledger.createProc]
    omega
  · intro e he
    rcases List.mem_cons.1 he with rfl | he
    · simp
      omega
    · have := hl.threads_le e he
      omega
  · rw [hth, hip, Function.update_of_ne hp.ne_idleProc.symm]
    exact hi.threads
  · rw [hnt, Function.update_of_ne ht.ne_idle.symm]
    exact hi.nextThread
  · rw [hnp, hip, Function.update_of_ne hp.ne_idleProc.symm]
    exact hi.nextProc
  · rw [hip]
    simpa [Ledger.createProc, hp.ne_idleProc.symm] using hi.notMem
  · intro e he
    rcases List.mem_cons.1 he with rfl | he
    · simpa using ht.ne_idle.symm
    · exact hi.thread_notMem e he
  · rw [hst, Function.update_of_ne ht.ne_idle.symm]
    exact hi.alive
  · rw [Current, hcp, hip, hct]
    rcases hc with hc | ⟨e, he, hc⟩
    · exact Or.inl hc
    · exact Or.inr ⟨e, List.mem_cons_of_mem _ he, hc⟩
  · intro e he a ha
    rw [hst]
    rcases List.mem_cons.1 he with rfl | he
    · obtain rfl : a = t := by simpa using ha
      rw [Function.update_self]
      exact ⟨nofun, fun hex => absurd (hx a hex).1 htc⟩
    · rw [Function.update_of_ne (hold e he a ha)]
      exact hd e he a ha
  · intro a ha
    rw [hct, hcp, hip]
    exact hx a ha

/-- The current thread exits. -/
theorem accounts_exit (h : s.Accounts g idle) (hne : s.currentProcess ≠ s.idleProc) :
    s.exit.Accounts (g.exit s.currentThread) idle := by
  obtain ⟨hl, hi, hc, hd, hx⟩ := h
  obtain ⟨e, he, -, hce⟩ := hc.resolve_left fun hc => hne hc.1
  refine ⟨⟨hl.procs, hl.threads, hl.nonempty, hl.parent, hl.procs_le, hl.threads_le⟩,
    ⟨hi.threads, hi.nextThread, hi.nextProc, hi.notMem, hi.thread_notMem, ?_⟩, hc, ?_, ?_⟩
  · have : idle ≠ s.currentThread := fun h => hi.thread_notMem e he (h ▸ hce)
    simpa only [exit, Function.update_of_ne this] using hi.alive
  · intro e' he' a ha
    by_cases hac : a = s.currentThread
    · simp [exit, Ledger.exit, hac]
    · have hex : g.exited ≠ some a := fun hex => hac (hx a hex).1
      simp only [exit, Ledger.exit, Function.update_of_ne hac, hd e' he' a ha, hex,
        Option.some.injEq, Ne.symm hac]
  · intro a ha
    cases ha
    exact ⟨rfl, hne⟩

/-! ### Reaping -/

/-- What reaping a thread leaves alone: the freed objects keep their own links. -/
structure Reaped (s s' : Sched) (p t : ℕ) : Prop where
  status : s'.status = s.status
  idleProc : s'.idleProc = s.idleProc
  currentProcess : s'.currentProcess = s.currentProcess
  currentThread : s'.currentThread = s.currentThread
  thread_link : s'.nextThread t = s.nextThread t
  proc_link : s'.nextProc p = s.nextProc p
  threads : ∀ a, a ≠ p → s'.threads a = s.threads a
  created : s'.created = s.created
  parent : s'.parent = s.parent

theorem foldl_call (bases : List ℕ) (s : Sched) :
    bases.foldl (fun s base => s.call (.vmmFree base)) s =
      { s with calls := s.calls ++ bases.map .vmmFree } := by
  induction bases generalizing s with
  | nil => simp
  | cons b bases ih =>
    rw [List.foldl_cons, ih]
    simp [call]

/-- `reap_process` on a process without threads unlinks it. -/
theorem reapProcess_eq {reap : Sched → ℕ → Option Sched} {regions : ℕ → List ℕ}
    (hpath : Path s.nextProc s.headProc l) (hp : p ∈ l) (hlen : l.length ≤ s.created)
    (hth : s.threads p = none) :
    ∃ head next' cs, reapProcess reap regions s p =
        some { s with headProc := head, nextProc := next', calls := s.calls ++ cs } ∧
      Path next' head (l.erase p) ∧ next' p = s.nextProc p ∧ ∀ y ∉ l, next' y = s.nextProc y := by
  obtain ⟨head, next', hrem, hpath', hself, hother⟩ :=
    @remove_eq _ _ _ _ _ _ s.fuel hpath hp (by rw [fuel]; omega)
  refine ⟨head, next', (regions p).map .vmmFree ++ [.switchVmSpace s.idleProc] ++
    [.vmmHashmapRemove (s.pml4t p)], ?_, hpath', hself, hother⟩
  rw [reapProcess, hrem, Option.bind_some]
  simp only [hth, fuel, reapThreads, Option.map_some]
  rw [foldl_call]
  simp only [call, List.append_assoc]

/-- A thread of one process is on the list of no other one. -/
theorem Lists.others (hl : s.Lists (q₁ ++ (p, ts) :: q₂)) (ht : t ∈ ts) :
    ∀ e ∈ q₁ ++ q₂, e.1 ≠ p ∧ e.2 ≠ [] ∧ t ∉ e.2 := by
  have hnd := hl.procs.nodup
  simp only [List.map_append, List.map_cons, List.nodup_middle, List.nodup_cons] at hnd
  intro e he
  have hin : e ∈ q₁ ++ (p, ts) :: q₂ := by
    rcases List.mem_append.1 he with he | he <;> simp [he]
  have hne : e.1 ≠ p := by
    rintro rfl
    rw [← List.map_append] at hnd
    exact hnd.1 (List.mem_map_of_mem he)
  refine ⟨hne, hl.nonempty e hin, fun hte => ?_⟩
  have hself : (p, ts) ∈ q₁ ++ (p, ts) :: q₂ := by simp
  exact hne (congrArg Prod.fst (hl.eq_of_mem hin hself hte ht))

/-- The queue once `t` has been reaped: the entries of other processes stay, the entry of its own
process loses `t` or goes. -/
theorem Lists.reap_entries (hl : s.Lists q) (he : (p, ts) ∈ q) (ht : t ∈ ts) :
    (∀ e ∈ Ledger.reap q t, (e ∈ q ∧ e.1 ≠ p) ∨ (e = (p, ts.erase t) ∧ ts.erase t ≠ [])) ∧
      (Ledger.reap q t).map Prod.fst =
        if ts.erase t = [] then (q.map Prod.fst).erase p else q.map Prod.fst := by
  obtain ⟨q₁, q₂, rfl⟩ := List.append_of_mem he
  have hother := hl.others ht
  rw [@Ledger.reap_append q₁ q₂ p t ts (fun e he' => (hother e (by simp [he'])).2)
    (fun e he' => (hother e (by simp [he'])).2)]
  constructor
  · intro e he'
    have : e ∈ q₁ ++ q₂ ∨ (e = (p, ts.erase t) ∧ ts.erase t ≠ []) := by
      by_cases hem : ts.erase t = [] <;> simp [hem] at he' ⊢ <;> tauto
    refine this.imp_left fun he' => ⟨?_, (hother e he').1⟩
    rcases List.mem_append.1 he' with he' | he' <;> simp [he']
  · by_cases hem : ts.erase t = []
    · have hp₁ : p ∉ q₁.map Prod.fst := by
        intro hp
        obtain ⟨e, he', hep⟩ := List.mem_map.1 hp
        exact (hother e (by simp [he'])).1 hep
      simp [hem, List.erase_append_right _ hp₁]
    · simp [hem]

/-- The lists once `t` is unlinked from the threads of `p`, up to the list of processes. -/
theorem lists_reap (hl : s.Lists q) (he : (p, ts) ∈ q) (ht : t ∈ ts) {head : Option ℕ}
    (hpath : Path s'.nextThread head (ts.erase t))
    (hother : ∀ a ∉ ts, s'.nextThread a = s.nextThread a)
    (hth : s'.threads = update s.threads p head) (hpa : s'.parent = s.parent)
    (hcr : s'.created = s.created)
    (hprocs : Path s'.nextProc s'.headProc ((Ledger.reap q t).map Prod.fst)) :
    s'.Lists (Ledger.reap q t) := by
  have hmem := (hl.reap_entries he ht).1
  refine ⟨hprocs, fun e he' => ?_, fun e he' => ?_, fun e he' a ha => ?_, ?_, fun e he' => ?_⟩
  · rw [hth]
    rcases hmem e he' with ⟨he', hne⟩ | ⟨rfl, -⟩
    · rw [Function.update_of_ne hne]
      refine (hl.threads e he').congr fun a ha => hother a fun hats => ?_
      exact hne (congrArg Prod.fst (hl.eq_of_mem he' he ha hats))
    · rw [Function.update_self]
      exact hpath
  · rcases hmem e he' with ⟨he', -⟩ | ⟨rfl, hem⟩
    · exact hl.nonempty e he'
    · exact hem
  · rw [hpa]
    rcases hmem e he' with ⟨he', -⟩ | ⟨rfl, -⟩
    · exact hl.parent e he' a ha
    · exact hl.parent _ he a (List.mem_of_mem_erase ha)
  · rw [hcr]
    refine le_trans ?_ hl.procs_le
    exact (List.length_filter_le _ _).trans (by simp)
  · rw [hcr]
    rcases hmem e he' with ⟨he', -⟩ | ⟨rfl, -⟩
    · exact hl.threads_le e he'
    · exact List.length_erase_le.trans (hl.threads_le _ he)

/-- What `reap_thread` does to a thread of a queued process. -/
theorem reapThread_eq {regions : ℕ → List ℕ} {n : ℕ} (hl : s.Lists q) (he : (p, ts) ∈ q)
    (ht : t ∈ ts) (hid : s.idleProc ∉ q.map Prod.fst) (hidle : ∀ e ∈ q, idle ∉ e.2) :
    ∃ s', reapThread regions (n + 1) s t = some s' ∧ s'.Lists (Ledger.reap q t) ∧
      s.Reaped s' p t ∧ s'.nextProc s.idleProc = s.nextProc s.idleProc ∧
      s'.nextThread idle = s.nextThread idle ∧
      ∃ cs, s'.calls = s.calls ++ cs ∧ (ts.erase t ≠ [] → cs = [.vmmFree (s.stack t)]) := by
  have hpar : s.parent t = p := hl.parent _ he t ht
  have hlen : ts.length ≤ s.created := hl.threads_le _ he
  have hfst := (hl.reap_entries he ht).2
  obtain ⟨head, next', hrem, hpath, hself, hother⟩ :=
    @remove_eq _ _ _ _ _ _ s.fuel (hl.threads _ he) ht (Nat.lt_succ_of_le hlen)
  have hhead := hpath.head?
  by_cases hem : ts.erase t = []
  · -- the process has lost its last thread
    rw [if_pos hem] at hfst
    rw [hem] at hhead
    obtain ⟨head', nextP, cs, hproc, hpathP, hselfP, hotherP⟩ :=
      @reapProcess_eq { s.call (.vmmFree (s.stack t)) with
        threads := update s.threads p head, nextThread := next' } p _ (reapThread regions n) regions
        hl.procs (List.mem_map_of_mem he) (by rw [List.length_map]; exact hl.procs_le)
        (by simp [hhead])
    refine ⟨{ s with
      threads := update s.threads p head, nextThread := next'
      headProc := head', nextProc := nextP
      calls := s.calls ++ [.vmmFree (s.stack t)] ++ cs }, ?_, ?_, ?_, hotherP _ hid,
      hother _ (hidle _ he), _, List.append_assoc .., fun h => absurd hem h⟩
    · rw [reapThread]
      simp only [call, hpar, fuel] at hrem hproc ⊢
      rw [hrem, Option.bind_some, if_pos (by simp [hhead]), hproc]
    · exact lists_reap hl he ht hpath hother rfl rfl rfl (by rw [hfst]; exact hpathP)
    · exact ⟨rfl, rfl, rfl, rfl, hself, hselfP, fun a ha => Function.update_of_ne ha _ _, rfl, rfl⟩
  · rw [if_neg hem] at hfst
    have hsome : head ≠ none := by
      rw [hhead]
      simpa using hem
    refine ⟨{ s.call (.vmmFree (s.stack t)) with
      threads := update s.threads p head, nextThread := next' }, ?_, ?_, ?_, rfl,
      hother _ (hidle _ he), _, rfl, fun _ => rfl⟩
    · rw [reapThread]
      simp only [call, hpar, fuel] at hrem ⊢
      rw [hrem, Option.bind_some, if_neg (by simpa using hsome)]
    · exact lists_reap hl he ht hpath hother rfl rfl rfl (by rw [hfst]; exact hl.procs)
    · exact ⟨rfl, rfl, rfl, rfl, hself, rfl, fun a ha => Function.update_of_ne ha _ _, rfl, rfl⟩

/-! ### Choosing the next thread -/

/-- The links of the current thread and of the current process, freed or not, lead to live ones. -/
structure Successors (s : Sched) (q : List (ℕ × List ℕ)) : Prop where
  thread : ∀ u, s.nextThread s.currentThread = some u →
    ∃ e ∈ q, s.currentProcess = e.1 ∧ u ∈ e.2
  proc : ∀ r, s.nextProc s.currentProcess = some r → r ∈ q.map Prod.fst

theorem switchProcess_cases (hl : s.Lists q) (hs : s.Successors q) :
    (s.switchProcess.currentProcess = s.idleProc ∧ q = []) ∨
      s.switchProcess.currentProcess ∈ q.map Prod.fst := by
  have hhead := hl.procs.head?
  cases hh : s.headProc with
  | none =>
    rw [hh] at hhead
    exact Or.inl ⟨by simp [switchProcess, hh, call], by simpa using hhead.symm⟩
  | some h =>
    right
    simp only [switchProcess, hh, call]
    cases hn : s.nextProc s.currentProcess with
    | none =>
      rw [hh] at hhead
      exact List.mem_of_mem_head? hhead.symm
    | some r => exact hs.proc r hn

/-- The thread chosen next is a thread of a queued process, or the idle one if no process is
queued. -/
theorem nextRunnable_eq (hl : s.Lists q) (hi : s.Idle q idle) (hs : s.Successors q) :
    ∃ cp ct cs, s.nextRunnable =
        some { s with currentProcess := cp, currentThread := ct, calls := s.calls ++ cs } ∧
      ((cp = s.idleProc ∧ ct = idle ∧ q = []) ∨ ∃ e ∈ q, cp = e.1 ∧ ct ∈ e.2) ∧
      match s.nextThread s.currentThread with
      | some u => cp = s.currentProcess ∧ ct = u ∧ cs = []
      | none => cp = s.switchProcess.currentProcess ∧ s.threads cp = some ct ∧
        cs = [.switchVmSpace cp] := by
  cases hn : s.nextThread s.currentThread with
  | some u =>
    exact ⟨s.currentProcess, u, [], by simp [nextRunnable, hn], Or.inr (hs.thread u hn),
      rfl, rfl, rfl⟩
  | none =>
    have hcases := switchProcess_cases hl hs
    generalize hp : s.switchProcess.currentProcess = r at hcases
    have hsw : s.switchProcess =
        { s with currentProcess := r, calls := s.calls ++ [.switchVmSpace r] } := by
      rw [← hp]
      rfl
    rcases hcases with ⟨rfl, hq⟩ | hmem
    · refine ⟨s.idleProc, idle, [.switchVmSpace s.idleProc], ?_, Or.inl ⟨rfl, rfl, hq⟩, rfl,
        hi.threads, rfl⟩
      simp only [nextRunnable, hn, hsw, hi.threads, Option.map_some]
    · obtain ⟨e, he, rfl⟩ := List.mem_map.1 hmem
      obtain ⟨t, ts, hts⟩ := List.exists_cons_of_ne_nil (hl.nonempty e he)
      have hfirst : s.threads e.1 = some t := by
        rw [(hl.threads e he).head?, hts, List.head?_cons]
      refine ⟨e.1, t, [.switchVmSpace e.1], ?_, Or.inr ⟨e, he, rfl, by simp [hts]⟩, rfl, hfirst,
        rfl⟩
      simp only [nextRunnable, hn, hsw, hfirst, Option.map_some]

/-- What the end of `schedule` makes of a state in which the lists are in order and no thread is
dead: it goes on to the thread that `nextRunnable` chooses. -/
theorem advance_eq (hl : s.Lists q) (hi : s.Idle q idle) (hs : s.Successors q)
    (hd : ∀ e ∈ q, ∀ t ∈ e.2, s.status t ≠ .dead) :
    ∃ s', s.advance = some s' ∧ s'.Accounts ⟨q, none⟩ idle ∧
      (∃ r, s.nextRunnable = some r ∧ s'.currentProcess = r.currentProcess ∧
        s'.currentThread = r.currentThread ∧ s'.calls = r.calls) ∧
      s'.status = (if s.status s'.currentThread = .ready then
        update s.status s'.currentThread .running else s.status) ∧
      s'.idleProc = s.idleProc := by
  obtain ⟨cp, ct, cs, hrun, hcur, -⟩ := nextRunnable_eq hl hi hs
  -- marking the chosen thread as running revives nobody and kills nobody
  have hstatus : ∀ a, s.status a ≠ .dead →
      (if s.status ct = .ready then update s.status ct .running else s.status) a ≠ .dead := by
    intro a ha
    split
    · by_cases hac : a = ct
      · simp [hac]
      · rwa [Function.update_of_ne hac]
    · exact ha
  refine ⟨{ s with
    currentProcess := cp, currentThread := ct, calls := s.calls ++ cs
    status := if s.status ct = .ready then update s.status ct .running else s.status }, ?_,
    ⟨⟨hl.procs, hl.threads, hl.nonempty, hl.parent, hl.procs_le, hl.threads_le⟩,
    ⟨hi.threads, hi.nextThread, hi.nextProc, hi.notMem, hi.thread_notMem, hstatus _ hi.alive⟩,
    hcur.imp_left fun h => ⟨h.1, h.2.1⟩, fun e he t ht => ?_, nofun⟩,
    ⟨_, hrun, rfl, rfl, rfl⟩, rfl, rfl⟩
  · rw [advance, hrun, Option.map_some]
    by_cases h : s.status ct = .ready <;> simp [h]
  · simpa using hstatus t (hd e he t ht)

/-- Before anything is reaped, the links of the current thread and process stay inside the lists. -/
theorem successors_of_current (hl : s.Lists q) (hi : s.Idle q idle) (hc : s.Current q idle) :
    s.Successors q := by
  rcases hc with ⟨hcp, hct⟩ | ⟨e, he, hcp, hct⟩
  · refine ⟨fun u hu => ?_, fun r hr => ?_⟩
    · rw [hct, hi.nextThread] at hu
      cases hu
    · rw [hcp, hi.nextProc] at hr
      cases hr
  · refine ⟨fun u hu => ⟨e, he, hcp, ((hl.threads e he).mem_of_next hct hu).1⟩, fun r hr => ?_⟩
    rw [hcp] at hr
    exact (hl.procs.mem_of_next (List.mem_map_of_mem he) hr).1

/-- The freed thread and process still lead to the live ones that followed them. -/
theorem successors_reaped (hl : s.Lists q) (he : (p, ts) ∈ q) (ht : t ∈ ts)
    (hr : s.Reaped s' p t) (hcp : s.currentProcess = p) (hct : s.currentThread = t) :
    s'.Successors (Ledger.reap q t) := by
  refine ⟨fun u hu => ?_, fun r hn => ?_⟩
  · rw [hr.currentThread, hct, hr.thread_link] at hu
    obtain ⟨hmem, hne⟩ := (hl.threads _ he).mem_of_next ht hu
    have hu' : u ∈ ts.erase t := (List.mem_erase_of_ne hne).2 hmem
    refine ⟨(p, ts.erase t), ?_, by rw [hr.currentProcess, hcp], hu'⟩
    refine List.mem_filter.2 ⟨List.mem_map.2 ⟨_, he, rfl⟩, ?_⟩
    simpa using List.ne_nil_of_mem hu'
  · rw [hr.currentProcess, hcp, hr.proc_link] at hn
    obtain ⟨hmem, hne⟩ := hl.procs.mem_of_next (List.mem_map_of_mem he) hn
    rw [(hl.reap_entries he ht).2]
    split
    · exact (List.mem_erase_of_ne hne).2 hmem
    · exact hmem

/-- No thread but `t` was dead, so none is once `t` is reaped. -/
theorem alive_reaped (hl : s.Lists q) (he : (p, ts) ∈ q) (ht : t ∈ ts)
    (hd : ∀ e ∈ q, ∀ a ∈ e.2, s.status a = .dead → a = t) :
    ∀ e ∈ Ledger.reap q t, ∀ a ∈ e.2, s.status a ≠ .dead := by
  intro e he' a ha hdead
  rcases (hl.reap_entries he ht).1 e he' with ⟨hq, hne⟩ | ⟨rfl, -⟩
  · obtain rfl := hd e hq a ha hdead
    exact hne (congrArg Prod.fst (hl.eq_of_mem hq he ha ht))
  · obtain rfl := hd _ he a (List.mem_of_mem_erase ha) hdead
    exact (hl.threads _ he).nodup.not_mem_erase ha

theorem idle_reaped (hl : s.Lists q) (hi : s.Idle q idle) (he : (p, ts) ∈ q) (ht : t ∈ ts)
    (hr : s.Reaped s' p t) (hproc : s'.nextProc s.idleProc = s.nextProc s.idleProc)
    (hthread : s'.nextThread idle = s.nextThread idle) : s'.Idle (Ledger.reap q t) idle := by
  have hne : s.idleProc ≠ p := fun h => hi.notMem (h ▸ List.mem_map_of_mem he)
  refine ⟨?_, hthread.trans hi.nextThread, ?_, ?_, fun e he' => ?_, ?_⟩
  · rw [hr.idleProc, hr.threads _ hne]
    exact hi.threads
  · rw [hr.idleProc, hproc]
    exact hi.nextProc
  · rw [hr.idleProc, (hl.reap_entries he ht).2]
    split
    · exact fun h => hi.notMem (List.mem_of_mem_erase h)
    · exact hi.notMem
  · rcases (hl.reap_entries he ht).1 e he' with ⟨he', -⟩ | ⟨rfl, -⟩
    · exact hi.thread_notMem e he'
    · exact fun h => hi.thread_notMem _ he (List.mem_of_mem_erase h)
  · rw [hr.status]
    exact hi.alive

/-- What the first half of `schedule` leaves behind: the thread that has exited is reaped, or the
current thread is ready again.  The current thread and process keep their links. -/
structure Vacated (s s₁ : Sched) (g : Ledger) (idle : ℕ) : Prop where
  lists : s₁.Lists g.schedule.queue
  apart : s₁.Idle g.schedule.queue idle
  successors : s₁.Successors g.schedule.queue
  alive : ∀ e ∈ g.schedule.queue, ∀ a ∈ e.2, s₁.status a ≠ .dead
  idleProc : s₁.idleProc = s.idleProc
  currentProcess : s₁.currentProcess = s.currentProcess
  currentThread : s₁.currentThread = s.currentThread
  thread_link : s₁.nextThread s.currentThread = s.nextThread s.currentThread
  proc_link : s₁.nextProc s.currentProcess = s.nextProc s.currentProcess
  threads : ∀ a, a ≠ s.currentProcess → s₁.threads a = s.threads a
  status : s₁.status = if s.status s.currentThread = .dead then s.status
    else update s.status s.currentThread .ready
  calls : ∃ cs, s₁.calls = s.calls ++ cs ∧
    (s.nextThread s.currentThread ≠ none → ∀ c ∈ cs, ∃ b, c = .vmmFree b)

/-- The thread that has exited is reaped. -/
theorem vacated_dead (h : s.Accounts g idle) (hex : g.exited = some t) (regions : ℕ → List ℕ)
    (n : ℕ) : s.status s.currentThread = .dead ∧
      ∃ s₁, reapThread regions (n + 1) s s.currentThread = some s₁ ∧ s.Vacated s₁ g idle := by
  obtain ⟨hl, hi, hc, hd, hx⟩ := h
  obtain ⟨rfl, hne⟩ := hx t hex
  obtain ⟨⟨p, ts⟩, he, hcp, hct⟩ := hc.resolve_left fun hc => hne hc.1
  have hdead : s.status s.currentThread = .dead := (hd _ he _ hct).2 hex
  obtain ⟨s₁, hreap, hl₁, hr, hproc, hthread, cs, hcs, hcs'⟩ :=
    @reapThread_eq s _ idle p s.currentThread ts regions n hl he hct hi.notMem hi.thread_notMem
  have halive := alive_reaped hl he hct fun e he a ha hdead =>
    (Option.some.inj (hex.symm.trans ((hd e he a ha).1 hdead))).symm
  have hqueue : g.schedule.queue = Ledger.reap g.queue s.currentThread := by
    simp only [Ledger.schedule, hex]
  refine ⟨hdead, s₁, hreap, ?_⟩
  constructor
  · exact hqueue ▸ hl₁
  · exact hqueue ▸ idle_reaped hl hi he hct hr hproc hthread
  · exact hqueue ▸ successors_reaped hl he hct hr hcp rfl
  · rw [hqueue, hr.status]
    exact halive
  · exact hr.idleProc
  · exact hr.currentProcess
  · exact hr.currentThread
  · exact hr.thread_link
  · rw [hcp]
    exact hr.proc_link
  · rw [hcp]
    exact hr.threads
  · rw [hr.status, if_pos hdead]
  · refine ⟨cs, hcs, fun hnext => ?_⟩
    -- a thread with a successor is not the last one, so its process stays
    obtain ⟨u, hu⟩ := Option.ne_none_iff_exists'.1 hnext
    obtain ⟨hmem, hne⟩ := (hl.threads _ he).mem_of_next hct hu
    have hu' : u ∈ ts.erase s.currentThread := (List.mem_erase_of_ne hne).2 hmem
    rw [hcs' (List.ne_nil_of_mem hu')]
    simp

/-- The current thread is made ready again. -/
theorem vacated_ready (h : s.Accounts g idle) (hex : g.exited = none) :
    s.status s.currentThread ≠ .dead ∧
      s.Vacated { s with status := update s.status s.currentThread .ready } g idle := by
  obtain ⟨hl, hi, hc, hd, -⟩ := h
  have halive : ∀ e ∈ g.queue, ∀ a ∈ e.2, s.status a ≠ .dead := by
    intro e he a ha hdead
    rw [hd e he a ha, hex] at hdead
    cases hdead
  have hcur : s.status s.currentThread ≠ .dead := by
    rcases hc with ⟨-, hct⟩ | ⟨e, he, -, hct⟩
    · rw [hct]
      exact hi.alive
    · exact halive e he _ hct
  have hready : ∀ a, s.status a ≠ .dead →
      update s.status s.currentThread .ready a ≠ .dead := by
    intro a ha
    by_cases hac : a = s.currentThread
    · simp [hac]
    · rwa [Function.update_of_ne hac]
  have hqueue : g.schedule.queue = g.queue := by
    simp only [Ledger.schedule, hex]
  have hsucc := successors_of_current hl hi hc
  refine ⟨hcur, ?_⟩
  constructor
  · exact hqueue ▸ ⟨hl.procs, hl.threads, hl.nonempty, hl.parent, hl.procs_le, hl.threads_le⟩
  · exact hqueue ▸ ⟨hi.threads, hi.nextThread, hi.nextProc, hi.notMem, hi.thread_notMem,
      hready _ hi.alive⟩
  · exact hqueue ▸ ⟨hsucc.thread, hsucc.proc⟩
  · rw [hqueue]
    exact fun e he a ha => hready a (halive e he a ha)
  · rfl
  · rfl
  · rfl
  · rfl
  · rfl
  · exact fun _ _ => rfl
  · rw [if_neg hcur]
  · exact ⟨[], by simp, by simp⟩

/-- `schedule` in two halves. -/
theorem schedule_eq (h : s.Accounts g idle) (ctx : CpuContext) (regions : ℕ → List ℕ) :
    ∃ s₁, s.Vacated s₁ g idle ∧ ∀ s', s₁.advance = some s' →
      s.schedule ctx regions = some (s', s'.context s'.currentThread) := by
  -- saving the context changes nothing the lists depend on
  obtain ⟨k, hk⟩ : ∃ k, (if some s.currentThread ≠ s.threads s.idleProc then
      { s with context := update s.context s.currentThread ctx } else s) =
      { s with context := k } := by
    split
    · exact ⟨_, rfl⟩
    · exact ⟨s.context, rfl⟩
  obtain ⟨hl, hi, hc, hd, hx⟩ := h
  have hsaved : Accounts { s with context := k } g idle :=
    ⟨⟨hl.procs, hl.threads, hl.nonempty, hl.parent, hl.procs_le, hl.threads_le⟩,
      ⟨hi.threads, hi.nextThread, hi.nextProc, hi.notMem, hi.thread_notMem, hi.alive⟩, hc, hd, hx⟩
  cases hex : g.exited with
  | some t =>
    obtain ⟨hdead, s₁, hreap, hv⟩ := vacated_dead hsaved hex regions s.created
    refine ⟨s₁, ⟨hv.lists, hv.apart, hv.successors, hv.alive, hv.idleProc, hv.currentProcess,
      hv.currentThread, hv.thread_link, hv.proc_link, hv.threads, hv.status, hv.calls⟩,
      fun s' hs' => ?_⟩
    simp only [schedule, hk, fuel]
    rw [if_pos hdead, hreap, Option.bind_some, hs']
    rfl
  | none =>
    obtain ⟨hcur, hv⟩ := vacated_ready hsaved hex
    refine ⟨_, ⟨hv.lists, hv.apart, hv.successors, hv.alive, hv.idleProc, hv.currentProcess,
      hv.currentThread, hv.thread_link, hv.proc_link, hv.threads, hv.status, hv.calls⟩,
      fun s' hs' => ?_⟩
    simp only [schedule, hk, fuel]
    rw [if_neg hcur, Option.bind_some, hs']
    rfl

/-- **`schedule`** reaps the thread that has exited, if there is one, and nothing else. -/
theorem accounts_schedule (h : s.Accounts g idle) (ctx : CpuContext) (regions : ℕ → List ℕ) :
    ∃ s' ctx', s.schedule ctx regions = some (s', ctx') ∧ s'.Accounts g.schedule idle := by
  obtain ⟨s₁, hv, hsched⟩ := schedule_eq h ctx regions
  obtain ⟨s', hadv, hacc, -⟩ := advance_eq hv.lists hv.apart hv.successors hv.alive
  exact ⟨s', _, hsched s' hadv, hacc⟩

/-! ### Runs -/

/-- The calls of a run.  `create_proc` and `create_thread` get the addresses that `kmalloc` returns
and the stack that is allocated. -/
inductive Op
  | createProc (p t pml4t : ℕ) (e : Entry) (stack : ℕ)
  | createThread (p t : ℕ) (e : Entry) (stack : ℕ)
  | exit
  | schedule (context : CpuContext) (regions : ℕ → List ℕ)

/-- One call, on the scheduler and on the ledger. -/
def step (wrapper : ℕ) (x : Sched × Ledger) : Op → Option (Sched × Ledger)
  | .createProc p t pml4t e stack =>
    (x.1.createProc wrapper p t pml4t e true stack).map fun s => (s, x.2.createProc p t)
  | .createThread p t e stack =>
    (x.1.createThread wrapper p t e stack).map fun s => (s, x.2.createThread p t)
  | .exit => some (x.1.exit, x.2.exit x.1.currentThread)
  | .schedule context regions => (x.1.schedule context regions).map fun r => (r.1, x.2.schedule)

/-- New objects are at addresses of no live object, threads are created in queued processes, and
the idle thread does not exit. -/
def Valid (idle : ℕ) (x : Sched × Ledger) : Op → Prop
  | .createProc p t _ _ _ => x.1.Fresh x.2.queue idle p ∧ x.1.Fresh x.2.queue idle t ∧ p ≠ t
  | .createThread p t _ _ => p ∈ x.2.procs ∧ x.1.Fresh x.2.queue idle t
  | .exit => x.1.currentProcess ≠ x.1.idleProc
  | .schedule _ _ => True

/-- The list of processes and their lists of threads are those of the ledger, each element once,
and the dead thread is the one that has exited. -/
def Kept (x : Sched × Ledger) : Prop :=
  (Path x.1.nextProc x.1.headProc x.2.procs ∧ x.2.procs.Nodup) ∧
    (∀ e ∈ x.2.queue, e.2 ≠ [] ∧ Path x.1.nextThread (x.1.threads e.1) e.2 ∧ e.2.Nodup) ∧
    ∀ e ∈ x.2.queue, ∀ t ∈ e.2, x.1.status t = .dead ↔ x.2.exited = some t

theorem Accounts.kept (h : s.Accounts g idle) : Kept (s, g) :=
  ⟨⟨h.lists.procs, h.lists.procs.nodup⟩, fun e he => ⟨h.lists.nonempty e he, h.lists.threads e he,
    (h.lists.threads e he).nodup⟩, h.dead⟩

/-- One call returns and keeps the scheduler and the ledger in step. -/
theorem step_accounts (wrapper : ℕ) (x : Sched × Ledger) (o : Op) (h : x.1.Accounts x.2 idle)
    (hv : Valid idle x o) :
    ∃ x', step wrapper x o = some x' ∧ x'.1.Accounts x'.2 idle := by
  cases o with
  | createProc p t pml4t e stack =>
    obtain ⟨s', hs', h'⟩ := accounts_createProc h hv.1 hv.2.1
    exact ⟨_, by rw [step, hs', Option.map_some], h'⟩
  | createThread p t e stack =>
    obtain ⟨s', hs', h'⟩ := accounts_createThread h hv.1 hv.2
    exact ⟨_, by rw [step, hs', Option.map_some], h'⟩
  | exit => exact ⟨_, rfl, accounts_exit h hv⟩
  | schedule context regions =>
    obtain ⟨s', ctx', hs', h'⟩ := accounts_schedule h context regions
    exact ⟨_, by rw [step, hs', Option.map_some], h'⟩

/-- After `sched_init` the queue is empty and the idle thread is current. -/
theorem accounts_schedInit (s₀ : Sched) (h₀ : s₀.headProc = none)
    (wrapper p t pml4t idleMain stack : ℕ) :
    ∃ s, s₀.schedInit wrapper p t pml4t idleMain stack = some s ∧ s.Accounts ⟨[], none⟩ t := by
  obtain ⟨s', hs', hth, hnt, hpa, hst, hcr, -, -, -, hhp, hnp, -⟩ :=
    @createProc_eq s₀ p t wrapper pml4t stack ⟨idleMain, 0, false⟩ false
  refine ⟨_, by rw [schedInit, hs', Option.map_some], ?_⟩
  refine ⟨⟨by simpa [hhp] using h₀, by simp, by simp, by simp, by simp, by simp⟩,
    ⟨by simp [hth], by simp [hnt], by simp [hnp], by simp, by simp, by simp [hst]⟩,
    Or.inl ⟨rfl, rfl⟩, by simp, by simp⟩

/-- **Threads and processes are conserved.**  In every run from `sched_init` every call returns,
and in every state the lists are those of the ledger. -/
theorem lists_kept (s₀ : Sched) (h₀ : s₀.headProc = none)
    (wrapper p t pml4t idleMain stack : ℕ) :
    ∃ s, s₀.schedInit wrapper p t pml4t idleMain stack = some s ∧
      ∀ os, Run.Along (step wrapper) (Valid t) (s, ⟨[], none⟩) os →
        Run.Always (step wrapper) Kept (s, ⟨[], none⟩) os ∧
          Run.Along (step wrapper) (fun x o => (step wrapper x o).isSome = true)
            (s, ⟨[], none⟩) os := by
  obtain ⟨s, hs, hacc⟩ := accounts_schedInit s₀ h₀ wrapper p t pml4t idleMain stack
  refine ⟨s, hs, fun os hv => ⟨?_, ?_⟩⟩
  · refine Run.Always.of_inv (I := fun x => x.1.Accounts x.2 t) (fun x hx => hx.kept)
      (fun x o x' hx hv hstep => ?_) hacc hv
    obtain ⟨x'', hstep', hx'⟩ := step_accounts wrapper x o hx hv
    rw [hstep] at hstep'
    cases hstep'
    exact hx'
  · refine Run.Along.of_inv (I := fun x => x.1.Accounts x.2 t) (fun x o hx hv => ?_) hacc hv
    obtain ⟨x'', hstep', hx'⟩ := step_accounts wrapper x o hx hv
    refine ⟨by rw [hstep']; rfl, fun x' hstep => ?_⟩
    rw [hstep] at hstep'
    cases hstep'
    exact hx'

instance (s : Sched) (q : List (ℕ × List ℕ)) (idle a : ℕ) : Decidable (s.Fresh q idle a) :=
  decidable_of_iff (a ≠ s.idleProc ∧ a ≠ idle ∧ a ∉ q.map Prod.fst ∧ ∀ e ∈ q, a ∉ e.2)
    ⟨fun ⟨h₁, h₂, h₃, h₄⟩ => ⟨h₁, h₂, h₃, h₄⟩, fun ⟨h₁, h₂, h₃, h₄⟩ => ⟨h₁, h₂, h₃, h₄⟩⟩

instance (idle : ℕ) (x : Sched × Ledger) : ∀ o, Decidable (Valid idle x o)
  | .createProc p t _ _ _ =>
    inferInstanceAs (Decidable (x.1.Fresh x.2.queue idle p ∧ x.1.Fresh x.2.queue idle t ∧ p ≠ t))
  | .createThread p t _ _ =>
    inferInstanceAs (Decidable (p ∈ x.2.procs ∧ x.1.Fresh x.2.queue idle t))
  | .exit => inferInstanceAs (Decidable (x.1.currentProcess ≠ x.1.idleProc))
  | .schedule _ _ => .isTrue trivial

/-- The scheduler before `sched_init`, on a heap full of zeros. -/
def blank : Sched :=
  ⟨fun _ => none, fun _ => 0, fun _ => none, fun _ => 0, fun _ => {}, fun _ => 0, fun _ => .ready,
    fun _ => none, none, 0, 0, 0, 0, []⟩

/-- Two processes; the second thread of one of them exits, then its first one, which takes the
process with it, and the address of the process is used again. -/
theorem lists_kept_reuse : ∃ s, blank.schedInit 9 0x100 0x200 0x7000 5 0x3000 = some s ∧
    Run.Always (step 9) Kept (s, ⟨[], none⟩)
      [.createProc 0x300 0x400 0x8000 ⟨5, 0, false⟩ 0x6000, .createThread 0x300 0x500 ⟨5, 0, false⟩ 0x9000,
        .createProc 0x600 0x700 0xa000 ⟨5, 0, true⟩ 0xb000, .schedule {} fun _ => [],
        .schedule {} fun _ => [], .schedule {} fun _ => [], .exit, .schedule {} fun _ => [],
        .schedule {} fun _ => [], .exit, .schedule {} fun _ => [0xb000],
        .createProc 0x300 0x500 0x8000 ⟨5, 0, false⟩ 0x6000] := by
  obtain ⟨s, hs, hrun⟩ := lists_kept blank rfl 9 0x100 0x200 0x7000 5 0x3000
  refine ⟨s, hs, (hrun _ ?_).1⟩
  cases hs
  decide +kernel

end Sched

end TitanOS
