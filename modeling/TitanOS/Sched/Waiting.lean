import TitanOS.Sched.Dispatch

/-!
# How long a thread waits (`scheduler.c`)

`schedule` goes round the threads, but the round changes under way: `create_proc` puts a process in
front of the list, `create_thread` a thread behind those of its process, and a thread that has exited
is taken out.  `Waits` counts the turns that come before that of a thread.  A new thread gets in front
of it at most once, and everything else brings it nearer.
-/

namespace TitanOS

open Linked

/-! ### Lists that go round -/

section Rotations

variable {α : Type*} {a b l pre suf : List α} {u x c : α}

/-- A list that goes round, cut somewhere. -/
theorem isRotated_iff_append {l l' : List α} : l ~r l' ↔ ∃ a b, l = a ++ b ∧ l' = b ++ a := by
  constructor
  · intro h
    obtain ⟨n, hn, rfl⟩ := List.isRotated_iff_mod.1 h
    exact ⟨l.take n, l.drop n, (List.take_append_drop n l).symm, List.rotate_eq_drop_append_take hn⟩
  · rintro ⟨a, b, rfl, rfl⟩
    exact List.isRotated_append

/-- An element is put into a list that goes round, not behind its last element. -/
theorem exists_insert (h : l ~r (a ++ b)) (hne : l ≠ []) (x : α) :
    ∃ l₁ l₂, l = l₁ ++ l₂ ∧ l₂ ≠ [] ∧ (l₁ ++ x :: l₂) ~r (a ++ x :: b) := by
  obtain ⟨d, e, rfl, hed⟩ := isRotated_iff_append.1 h
  rcases List.append_eq_append_iff.1 hed with ⟨m, rfl, rfl⟩ | ⟨m, rfl, rfl⟩
  · -- the place is in `e`, and so before `d` or at the end
    cases m with
    | nil =>
      simp only [List.append_nil, List.nil_append] at *
      exact ⟨[], d ++ a, rfl, hne, isRotated_iff_append.2 ⟨x :: d, a, rfl, rfl⟩⟩
    | cons y m =>
      refine ⟨d ++ a, y :: m, by simp, by simp, isRotated_iff_append.2 ⟨d, a ++ x :: y :: m, ?_, ?_⟩⟩
        <;> simp
  · by_cases hbe : b ++ e = []
    · obtain ⟨rfl, rfl⟩ := List.append_eq_nil_iff.1 hbe
      simp only [List.append_nil, List.nil_append] at *
      exact ⟨[], m, rfl, hne, isRotated_iff_append.2 ⟨[x], m, rfl, rfl⟩⟩
    · refine ⟨m, b ++ e, by simp, hbe, isRotated_iff_append.2 ⟨m ++ x :: b, e, ?_, ?_⟩⟩ <;> simp

/-- The last element of a list that goes round is taken out. -/
theorem isRotated_erase [DecidableEq α] {o : List α} (h : (l ++ [c]) ~r o) (hnd : o.Nodup) :
    l ~r o.erase c := by
  obtain ⟨d, e, hde, rfl⟩ := isRotated_iff_append.1 h
  rcases List.eq_nil_or_concat' e with rfl | ⟨e', y, rfl⟩
  · simp only [List.append_nil, List.nil_append] at *
    subst hde
    have hc : c ∉ l := fun hmem => (List.nodup_append.1 hnd).2.2 _ hmem _ (by simp) rfl
    rw [List.erase_append_right _ hc]
    simp [List.IsRotated.refl]
  · rw [← List.append_assoc] at hde
    obtain ⟨rfl, hcy⟩ := List.append_inj' hde rfl
    obtain rfl := List.singleton_inj.1 hcy
    have hc : c ∉ e' := by
      intro hmem
      rw [List.append_assoc] at hnd
      exact (List.nodup_append.1 hnd).2.2 _ hmem _ (by simp) rfl
    rw [List.append_assoc, List.erase_append_right _ hc]
    simpa using (isRotated_iff_append.2 ⟨d, e', rfl, rfl⟩ : (d ++ e') ~r (e' ++ d))

/-- A new element comes before `u` or behind it. -/
theorem exists_split_insert (h : a ++ b = pre ++ u :: suf) (x : α) :
    ∃ pre' suf', a ++ x :: b = pre' ++ u :: suf' ∧ pre'.length ≤ pre.length + 1 := by
  rcases List.append_eq_append_iff.1 h with ⟨m, rfl, rfl⟩ | ⟨m, rfl, hm⟩
  · exact ⟨a ++ x :: m, suf, by simp, by simp [Nat.add_assoc]⟩
  · cases m with
    | nil => exact ⟨pre ++ [x], suf, by simp [hm], by simp⟩
    | cons y m =>
      obtain ⟨rfl, rfl⟩ := List.cons.inj hm
      exact ⟨pre, m ++ x :: b, by simp, by omega⟩

end Rotations

namespace Sched

variable {s s' : Sched} {g g' : Ledger} {idle p t u n : ℕ} {l : List ℕ}

/-- At most `n` turns come before that of `u`. -/
def Waits (s : Sched) (u n : ℕ) : Prop :=
  ∃ pre suf, s.Turns (pre ++ u :: suf) ∧ pre.length ≤ n

theorem Accounts.currentProcess_ne (h : s.Accounts g idle) (hmem : s.currentThread ∈ s.order) :
    s.currentProcess ≠ s.idleProc := by
  intro hidle
  rcases h.current with ⟨-, hct⟩ | ⟨e, he, hcp, -⟩
  · rw [h.lists.order_eq, hct] at hmem
    obtain ⟨e, he, hmem⟩ := List.mem_flatMap.1 hmem
    exact h.apart.thread_notMem e he hmem
  · exact h.apart.notMem (hidle ▸ hcp ▸ List.mem_map_of_mem he)

/-- Every queued thread gets its turn within one round. -/
theorem exists_waits (h : s.Accounts g idle) (hu : u ∈ s.order) :
    ∃ n, s.Waits u n ∧ n + 1 ≤ s.order.length := by
  obtain ⟨l, hl⟩ := exists_turns h
  obtain ⟨pre, suf, rfl⟩ := List.append_of_mem (hl.1.mem_iff.2 hu)
  have hlen := hl.1.perm.length_eq
  simp only [List.length_append, List.length_cons] at hlen
  exact ⟨pre.length, ⟨pre, suf, hl, le_rfl⟩, by omega⟩

/-! ### Steps -/

/-- Another thread comes into the order. -/
theorem Waits.insert {a b : List ℕ} {cs : List VmCall} (h : s.Waits u n) (hc : s.Created s' t cs)
    (ho : s.order = a ++ b) (ho' : s'.order = a ++ t :: b) : s'.Waits u (n + 1) := by
  obtain ⟨pre, suf, ⟨hrot, hturn⟩, hn⟩ := h
  rcases hturn with ⟨hcp, hl⟩ | ⟨hcp, r, hl⟩
  · rw [ho] at hl
    obtain ⟨pre', suf', hsplit, hlen⟩ := exists_split_insert hl.symm t
    refine ⟨pre', suf', ⟨?_, Or.inl ⟨?_, ?_⟩⟩, by omega⟩
    · rw [ho', hsplit]
    · rw [hc.currentProcess, hc.idleProc, hcp]
    · rw [ho', hsplit]
  · rw [ho] at hrot
    obtain ⟨l₁, l₂, hl₁₂, hne, hrot'⟩ := exists_insert hrot (by simp) t
    obtain ⟨pre', suf', hsplit, hlen⟩ := exists_split_insert hl₁₂.symm t
    refine ⟨pre', suf', ⟨?_, Or.inr ⟨?_, ?_⟩⟩, by omega⟩
    · rw [ho', ← hsplit]
      exact hrot'
    · rwa [hc.currentProcess, hc.idleProc]
    · -- the current thread stays the last one
      rcases List.eq_nil_or_concat' l₂ with rfl | ⟨l₃, y, rfl⟩
      · exact absurd rfl hne
      · rw [hl, ← List.append_assoc] at hl₁₂
        obtain ⟨-, hy⟩ := List.append_inj' hl₁₂ rfl
        rw [hc.currentThread, ← hsplit, ← List.singleton_inj.1 hy]
        exact ⟨l₁ ++ t :: l₃, by simp⟩

/-- The order with a new thread behind those of its process. -/
theorem Lists.order_createThread (hl : s.Lists g.queue) (hp : p ∈ g.procs) (t : ℕ) :
    ∃ a b, g.queue.flatMap Prod.snd = a ++ b ∧
      (g.createThread p t).queue.flatMap Prod.snd = a ++ t :: b := by
  obtain ⟨⟨p, ts⟩, he, rfl⟩ := List.mem_map.1 hp
  obtain ⟨q₁, q₂, hq⟩ := List.append_of_mem he
  have hnd : (q₁.map Prod.fst ++ p :: q₂.map Prod.fst).Nodup := by
    have := hl.procs.nodup
    rwa [hq, List.map_append, List.map_cons] at this
  have hsame : ∀ q : List (ℕ × List ℕ), p ∉ q.map Prod.fst →
      q.map (fun e => if e.1 = p then (e.1, e.2 ++ [t]) else e) = q := by
    intro q hq
    refine (List.map_congr_left fun e he => ?_).trans (List.map_id _)
    exact if_neg fun (h : e.1 = p) => hq (h ▸ List.mem_map_of_mem he)
  have h₁ : p ∉ q₁.map Prod.fst := fun h => (List.nodup_append.1 hnd).2.2 _ h _ (by simp) rfl
  have h₂ : p ∉ q₂.map Prod.fst := (List.nodup_cons.1 (List.nodup_append.1 hnd).2.1).1
  refine ⟨q₁.flatMap Prod.snd ++ ts, q₂.flatMap Prod.snd, by simp [hq], ?_⟩
  simp only [Ledger.createThread, hq, List.map_append, List.map_cons, hsame q₁ h₁, hsame q₂ h₂]
  simp

/-- A `schedule` after the current thread has exited. -/
theorem Turns.schedule_exited (h : s.Accounts g idle) {c x : ℕ} (hex : g.exited = some c)
    (hl : s.Turns (x :: l ++ [c])) (ctx : CpuContext) (regions : ℕ → List ℕ) :
    ∃ s' ctx', s.schedule ctx regions = some (s', ctx') ∧ s'.Accounts g.schedule idle ∧
      s'.currentThread = x ∧ s'.Turns (l ++ [x]) := by
  obtain ⟨rfl, hcp⟩ := h.exited c hex
  obtain ⟨s', ctx', hs', hacc, hsucc⟩ := schedule_succeeds h ctx regions
  have hrot := hl.1
  have hnd : s.order.Nodup := h.lists.order_eq ▸ h.lists.nodup_order
  have horder : s'.order = s.order.erase s.currentThread := by
    have := order_schedule h
    simp only [hex] at this
    rw [hacc.lists.order_eq, this, h.lists.order_eq]
  obtain ⟨hmem, hnext⟩ := hsucc.queued hcp
  have hlong : s.order ≠ [s.currentThread] := by
    intro hone
    have := hrot.perm.length_eq
    rw [hone] at this
    simp at this
  have hx : s'.currentThread = x := by
    have hconcat := next_of_concat (hrot.nodup_iff.2 hnd) (show _ ∈ x :: l ++ _ by simp)
    rw [if_neg fun hc => hlong hc.2, List.isRotated_next_eq hrot.symm hnd hmem] at hnext
    rw [hnext]
    exact Option.some.inj hconcat
  have hrot' : (l ++ [x]) ~r s'.order := by
    rw [horder]
    exact (@List.isRotated_append _ l [x]).trans (isRotated_erase hrot hnd)
  refine ⟨s', ctx', hs', hacc, hx, hrot', Or.inr ⟨hacc.currentProcess_ne ?_, l, by rw [hx]⟩⟩
  rw [hx]
  exact hrot'.mem_iff.1 (by simp)

/-- A `schedule` runs the thread or brings its turn nearer. -/
theorem Waits.schedule (h : s.Accounts g idle) (hw : s.Waits u n) (hne : u ≠ s.currentThread)
    {ctx ctx' : CpuContext} {regions : ℕ → List ℕ} (hs : s.schedule ctx regions = some (s', ctx')) :
    s'.currentThread = u ∨ ∃ m, n = m + 1 ∧ s'.Waits u m := by
  obtain ⟨pre, suf, hl, hn⟩ := hw
  cases hex : g.exited with
  | none =>
    cases pre with
    | nil =>
      obtain ⟨s₁, _, hs₁, -, hx, -⟩ := hl.schedule h hex ctx regions
      cases hs.symm.trans hs₁
      exact Or.inl hx
    | cons x pre =>
      obtain ⟨s₁, _, hs₁, -, -, hl'⟩ := hl.schedule h hex ctx regions
      cases hs.symm.trans hs₁
      rw [List.length_cons] at hn
      exact Or.inr ⟨n - 1, by omega, pre, suf ++ [x], by simpa using hl', by omega⟩
  | some c =>
    obtain ⟨rfl, hcp⟩ := h.exited c hex
    obtain ⟨r, hr⟩ := (hl.2.resolve_left fun h => hcp h.1).2
    -- the thread that has exited is the last one, and `u` is another one
    obtain ⟨suf', rfl⟩ : ∃ suf', suf = suf' ++ [s.currentThread] := by
      rcases List.eq_nil_or_concat' suf with rfl | ⟨suf', y, rfl⟩
      · obtain ⟨-, hy⟩ := List.append_inj' hr rfl
        exact absurd (List.singleton_inj.1 hy) hne
      · rw [← List.cons_append, ← List.append_assoc] at hr
        obtain ⟨-, hy⟩ := List.append_inj' hr rfl
        exact ⟨suf', by rw [List.singleton_inj.1 hy]⟩
    cases pre with
    | nil =>
      obtain ⟨s₁, _, hs₁, -, hx, -⟩ := Turns.schedule_exited h hex hl ctx regions
      cases hs.symm.trans hs₁
      exact Or.inl hx
    | cons x pre =>
      have hl₁ : s.Turns (x :: (pre ++ u :: suf') ++ [s.currentThread]) := by simpa using hl
      obtain ⟨s₁, _, hs₁, -, -, hl'⟩ := Turns.schedule_exited h hex hl₁ ctx regions
      cases hs.symm.trans hs₁
      rw [List.length_cons] at hn
      exact Or.inr ⟨n - 1, by omega, pre, suf' ++ [x], by simpa using hl', by omega⟩

/-! ### Runs -/

/-- The call is `schedule`. -/
def Op.isSchedule : Op → Bool
  | .schedule _ _ => true
  | _ => false

/-- The call makes a thread. -/
def Op.isCreate : Op → Bool
  | .createProc .. => true
  | .createThread .. => true
  | _ => false

/-- The call does not dispatch `u`. -/
def PassesOver (wrapper u : ℕ) (x : Sched × Ledger) (o : Op) : Prop :=
  o.isSchedule = true → ∀ x', step wrapper x o = some x' → x'.1.currentThread ≠ u

/-- While `u` is passed over, its turn comes nearer. -/
theorem Waits.step {wrapper : ℕ} {x x' : Sched × Ledger} {o : Op} (h : x.1.Accounts x.2 idle)
    (hw : x.1.Waits u n) (hne : u ≠ x.1.currentThread) (hv : Valid idle x o)
    (ho : PassesOver wrapper u x o) (hs : Sched.step wrapper x o = some x') :
    x'.1.Accounts x'.2 idle ∧ u ≠ x'.1.currentThread ∧
      ∃ m, x'.1.Waits u m ∧ m + o.isSchedule.toNat ≤ n + o.isCreate.toNat := by
  have hacc : x'.1.Accounts x'.2 idle := by
    obtain ⟨x'', hs', h'⟩ := step_accounts wrapper x o h hv
    rwa [Option.some.inj (hs.symm.trans hs')]
  refine ⟨hacc, ?_⟩
  cases o with
  | createProc p t pml4t e stack =>
    obtain ⟨s', hs', rfl⟩ := Option.map_eq_some_iff.1 hs
    have hc := created_createProc hs'
    have horder : s'.order = [] ++ t :: x.1.order := by
      rw [hacc.lists.order_eq, h.lists.order_eq]
      rfl
    exact ⟨by rwa [hc.currentThread], n + 1, hw.insert hc rfl horder, le_rfl⟩
  | createThread p t e stack =>
    obtain ⟨s', hs', rfl⟩ := Option.map_eq_some_iff.1 hs
    have hc := created_createThread hs'
    obtain ⟨a, b, hab, hab'⟩ := h.lists.order_createThread hv.1 t
    exact ⟨by rwa [hc.currentThread], n + 1, hw.insert hc (h.lists.order_eq.trans hab)
      (hacc.lists.order_eq.trans hab'), le_rfl⟩
  | exit =>
    obtain rfl := Option.some.inj hs
    obtain ⟨pre, suf, hl, hn⟩ := hw
    have horder : x.1.exit.order = x.1.order :=
      hacc.lists.order_eq.trans h.lists.order_eq.symm
    exact ⟨hne, n, ⟨pre, suf, ⟨by rw [horder]; exact hl.1, by rw [horder]; exact hl.2⟩, hn⟩, le_rfl⟩
  | schedule ctx regions =>
    have hu := ho rfl x' hs
    obtain ⟨⟨s', ctx'⟩, hs', rfl⟩ := Option.map_eq_some_iff.1 hs
    obtain ⟨m, rfl, hw'⟩ := (Waits.schedule h hw hne hs').resolve_left hu
    exact ⟨Ne.symm hu, m, hw', le_rfl⟩

/-- **The run lemma.** -/
theorem Waits.run {wrapper : ℕ} {x : Sched × Ledger} {os : List Op} (h : x.1.Accounts x.2 idle)
    (hw : x.1.Waits u n) (hne : u ≠ x.1.currentThread)
    (hv : Run.Along (Sched.step wrapper) (Valid idle) x os)
    (ho : Run.Along (Sched.step wrapper) (PassesOver wrapper u) x os) :
    os.countP Op.isSchedule ≤ n + os.countP Op.isCreate := by
  induction os generalizing x n with
  | nil => simp
  | cons o os ih =>
    obtain ⟨x', hs, -⟩ := step_accounts wrapper x o h hv.1
    obtain ⟨hacc, hne', m, hw', hm⟩ := hw.step h hne hv.1 ho.1 hs
    have hrest := ih hacc hw' hne' (hv.2 x' hs) (ho.2 x' hs)
    have hcount : ∀ f : Op → Bool, (o :: os).countP f = os.countP f + (f o).toNat := by
      intro f
      cases hf : f o <;> simp [hf]
    rw [hcount, hcount]
    omega

/-- **No thread waits for ever.**  From every state that a run from `sched_init` reaches, a queued
thread that does not run is passed over by fewer calls of `schedule` than there are threads then and
threads made since, whatever else happens in between. -/
theorem bounded_waiting (s₀ : Sched) (h₀ : s₀.headProc = none)
    (wrapper p t pml4t idleMain stack : ℕ) :
    ∃ s, s₀.schedInit wrapper p t pml4t idleMain stack = some s ∧
      ∀ os x, Run.Along (step wrapper) (Valid t) (s, ⟨[], none⟩) os →
        os.foldlM (step wrapper) (s, ⟨[], none⟩) = some x →
        ∀ u ∈ x.1.order, u ≠ x.1.currentThread → ∀ os', Run.Along (step wrapper) (Valid t) x os' →
          Run.Along (step wrapper) (PassesOver wrapper u) x os' →
          os'.countP Op.isSchedule < x.1.order.length + os'.countP Op.isCreate := by
  obtain ⟨s, hs, hacc⟩ := accounts_schedInit s₀ h₀ wrapper p t pml4t idleMain stack
  refine ⟨s, hs, fun os x hv hx u hu hne os' hv' ho => ?_⟩
  have hall : Run.Always (step wrapper) (fun x => x.1.Accounts x.2 t) (s, ⟨[], none⟩) (os ++ []) := by
    rw [List.append_nil]
    refine Run.Always.of_inv (I := fun x => x.1.Accounts x.2 t) (fun _ => id)
      (fun x o x' hx hv hstep => ?_) hacc hv
    obtain ⟨x'', hstep', hx'⟩ := step_accounts wrapper x o hx hv
    rwa [Option.some.inj (hstep.symm.trans hstep')]
  have h : x.1.Accounts x.2 t := hall.append hx
  obtain ⟨n, hw, hn⟩ := exists_waits h hu
  have := hw.run h hne hv' ho
  omega

instance (wrapper u : ℕ) (x : Sched × Ledger) (o : Op) : Decidable (PassesOver wrapper u x o) :=
  match h : step wrapper x o with
  | none => .isTrue fun _ x' hx' => by simp [h] at hx'
  | some y => decidable_of_iff (o.isSchedule = true → y.1.currentThread ≠ u) (by simp [PassesOver, h])

/-- Two threads; the one at `0x400` is passed over once, while a third one is made. -/
theorem bounded_waiting_two : ∃ s x, blank.schedInit 9 0x100 0x200 0x7000 5 0x3000 = some s ∧
    [.createProc 0x300 0x400 0x8000 ⟨5, 0, false⟩ 0x6000,
      .createProc 0x600 0x700 0xa000 ⟨5, 0, true⟩ 0xb000].foldlM (step 9) (s, ⟨[], none⟩) = some x ∧
    [Op.schedule {} fun _ => [], .createThread 0x600 0x500 ⟨5, 0, false⟩ 0x9000].countP
      Op.isSchedule < x.1.order.length + [Op.schedule {} fun _ => [],
        .createThread 0x600 0x500 ⟨5, 0, false⟩ 0x9000].countP Op.isCreate := by
  obtain ⟨s, hs, hrun⟩ := bounded_waiting blank rfl 9 0x100 0x200 0x7000 5 0x3000
  cases hs
  refine ⟨_, Option.get _ ?_, rfl, (Option.some_get ?_).symm,
    hrun _ _ ?_ (Option.some_get ?_).symm 0x400 ?_ ?_ _ ?_ ?_⟩ <;> decide +kernel

end Sched

end TitanOS
