import TitanOS.Lib.Linked

/-!
# The scheduler (`scheduler.c`)

Processes and threads are objects of the kernel heap, named by their addresses; the fields of all
of them are kept in one map per field.  `kfree` only clears the flag of the heap block, so freeing
an object leaves its fields readable, and `schedule` does read them; a map keeps them until the
address is used again.  The addresses that `kmalloc` returns and the stacks that are allocated are
arguments of the operations that ask for them.

The calls made into the virtual memory manager are recorded in `calls`.  `reap_process` walks the
regions of the address space it tears down up to the kernel text; which regions these are is the
argument `regions`.

Loops over a list take fuel.  `created` counts the objects created so far and bounds every list,
so `fuel` is enough for each of them; running off a list is a null dereference, answered by `none`.
Identifiers (`pid`, `tid`), names and resource tables are written and never read here, and are
left out.
-/

namespace TitanOS

open Linked

/-- `status_t`. -/
inductive Status
  | ready
  | running
  | dead
  deriving DecidableEq, Repr

/-- `cpu_context_t`. -/
structure CpuContext where
  (rax rbx rcx rdx rdi rsi rbp r8 r9 r10 r11 r12 r13 r14 r15 vec errorCode : ℕ := 0)
  (rip cs flags rsp ss : ℕ := 0)
  deriving DecidableEq, Repr

/-- The calls into the virtual memory manager. -/
inductive VmCall
  | allocKernelStack
  | allocUserStack (p : ℕ)
  | vmmFree (base : ℕ)
  | switchVmSpace (p : ℕ)
  | vmmHashmapRemove (pml4t : ℕ)
  deriving DecidableEq, Repr

/-- The fields of `process_t` and `thread_t` objects and the globals of the scheduler. -/
structure Sched where
  threads : ℕ → Option ℕ
  pml4t : ℕ → ℕ
  nextProc : ℕ → Option ℕ
  parent : ℕ → ℕ
  context : ℕ → CpuContext
  stack : ℕ → ℕ
  status : ℕ → Status
  nextThread : ℕ → Option ℕ
  headProc : Option ℕ
  idleProc : ℕ
  currentProcess : ℕ
  currentThread : ℕ
  created : ℕ
  calls : List VmCall

namespace Sched

open Function (update)

/-- No list is longer than this. -/
def fuel (s : Sched) : ℕ := s.created + 1

/-- Record a call into the virtual memory manager. -/
def call (s : Sched) (c : VmCall) : Sched := { s with calls := s.calls ++ [c] }

/-- What a caller of `create_thread` passes on: the code to run, its argument, and whether the
thread runs in user mode. -/
structure Entry where
  func : ℕ
  arg : ℕ
  isUser : Bool
  deriving DecidableEq, Repr

/-- The context a thread starts with; `wrapper` is the address of `kernel_thread_wrapper`. -/
def newContext (wrapper : ℕ) (e : Entry) (stack : ℕ) : CpuContext where
  rdi := e.func
  rsi := e.arg
  rip := wrapper
  cs := if e.isUser then 0x1b else 0x8
  flags := 0x202
  rsp := (stack + 0x2000 - 0x8) % 2 ^ 64
  ss := if e.isUser then 0x23 else 0x10

/-- The end of `create_thread`: the fields of the new thread once it has a stack. -/
def fillThread (s : Sched) (wrapper p t : ℕ) (e : Entry) (stack : ℕ) : Sched :=
  { s.call (if e.isUser then .allocUserStack p else .allocKernelStack) with
    status := update s.status t .ready
    nextThread := update s.nextThread t none
    stack := update s.stack t stack
    parent := update s.parent t p
    context := update s.context t (newContext wrapper e stack) }

/-- `create_thread`, with the new thread at `t`. -/
def createThread (s : Sched) (wrapper p t : ℕ) (e : Entry) (stack : ℕ) : Option Sched :=
  let s := { s with nextThread := update s.nextThread t none, created := s.created + 1 }
  match s.threads p with
  | some c =>
    -- `for (; scan->next != NULL; scan = scan->next);`
    (scan s.nextThread (fun _ _ => false) s.fuel c).map fun d =>
      { s with nextThread := update s.nextThread d.1 (some t) }.fillThread wrapper p t e stack
  | none =>
    some ({ s with threads := update s.threads p (some t) }.fillThread wrapper p t e stack)

/-- `create_proc`, with the new process at `p` and its first thread at `t`. -/
def createProc (s : Sched) (wrapper p t pml4t : ℕ) (e : Entry) (addToQueue : Bool) (stack : ℕ) :
    Option Sched :=
  let s := { s with
    threads := update s.threads p none
    nextProc := update s.nextProc p none
    pml4t := update s.pml4t p pml4t
    created := s.created + 1 }
  (s.createThread wrapper p t e stack).map fun s =>
    if addToQueue then
      { s with nextProc := update s.nextProc p s.headProc, headProc := some p }
    else s

/-- `sched_init`. -/
def schedInit (s : Sched) (wrapper p t pml4t idleMain stack : ℕ) : Option Sched :=
  (s.createProc wrapper p t pml4t ⟨idleMain, 0, false⟩ false stack).map fun s =>
    { s with idleProc := p, currentProcess := p, currentThread := t }

/-- `switch_process`. -/
def switchProcess (s : Sched) : Sched :=
  let p := match s.headProc with
    | some h => (s.nextProc s.currentProcess).getD h
    | none => s.idleProc
  { s with currentProcess := p }.call (.switchVmSpace p)

/-- The loop of `reap_process` over the threads that are left. -/
def reapThreads (reapThread : Sched → ℕ → Option Sched) : ℕ → Sched → Option ℕ → Option Sched
  | 0, _, _ => none
  | _ + 1, s, none => some s
  | n + 1, s, some t =>
    let nxt := s.nextThread t
    (reapThread s t).bind fun s => reapThreads reapThread n s nxt

/-- `reap_process`; `reapThread` is the function it calls back. -/
def reapProcess (reapThread : Sched → ℕ → Option Sched) (regions : ℕ → List ℕ) (s : Sched)
    (p : ℕ) : Option Sched :=
  (remove s.nextProc s.fuel s.headProc p).bind fun r =>
    let s := { s with headProc := r.1, nextProc := r.2 }
    (reapThreads reapThread s.fuel s (s.threads p)).map fun s =>
      let s := (regions p).foldl (fun s base => s.call (.vmmFree base)) s
      (s.call (.switchVmSpace s.idleProc)).call (.vmmHashmapRemove (s.pml4t p))

/-- `reap_thread`, at most `n` calls deep. -/
def reapThread (regions : ℕ → List ℕ) : ℕ → Sched → ℕ → Option Sched
  | 0, _, _ => none
  | n + 1, s, t =>
    let s := s.call (.vmmFree (s.stack t))
    let p := s.parent t
    (remove s.nextThread s.fuel (s.threads p) t).bind fun r =>
      let s := { s with threads := update s.threads p r.1, nextThread := r.2 }
      if s.threads p = none then reapProcess (reapThread regions n) regions s p else some s

/-- Switch to the thread behind the current one, or to the first thread of the next process. -/
def nextRunnable (s : Sched) : Option Sched :=
  match s.nextThread s.currentThread with
  | some t => some { s with currentThread := t }
  | none =>
    let s := s.switchProcess
    (s.threads s.currentProcess).map fun t => { s with currentThread := t }

/-- The end of `schedule`: choose the next thread and mark it as running. -/
def advance (s : Sched) : Option Sched :=
  s.nextRunnable.map fun s =>
    if s.status s.currentThread = .ready then
      { s with status := update s.status s.currentThread .running }
    else s

/-- `schedule`, with the context that is returned. -/
def schedule (s : Sched) (context : CpuContext) (regions : ℕ → List ℕ) :
    Option (Sched × CpuContext) :=
  let s := if some s.currentThread ≠ s.threads s.idleProc then
      { s with context := update s.context s.currentThread context } else s
  let prev := s.currentThread
  let reaped := if s.status prev = .dead then reapThread regions s.fuel s prev
    else some { s with status := update s.status prev .ready }
  (reaped.bind advance).map fun s => (s, s.context s.currentThread)

/-- What a thread does when it ends: `current_thread->status = DEAD`. -/
def exit (s : Sched) : Sched := { s with status := update s.status s.currentThread .dead }

end Sched

end TitanOS
