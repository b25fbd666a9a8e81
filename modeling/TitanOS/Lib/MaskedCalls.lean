import TitanOS.Lib.CriticalSections

/-!
# Critical sections on one processor

The threads of `CriticalSections` share one processor.  Between two steps an interrupt may hand it to
another thread, unless the current thread makes a call with interrupts off: then the processor stays
with it until the call is over.

Such a call never gets a lock that another thread holds (`Stuck`), since the holder does not run any
more.  `canFinish_iff` says that nothing else can go wrong: from every other state all calls can still
be finished.  `exists_stuck_iff` says which threads can get there.
-/

namespace Critical

open Function (update)

/-- All threads, and the one that the processor runs. -/
structure Cpu (ι κ τ β σ : Type*) where
  sys : System ι κ τ β σ
  current : ι

/-- A step of the current thread, or an interrupt that hands the processor to another one. -/
inductive Event (ι : Type*)
  | tick
  | switch (t : ι)

/-- The call that a thread is in. -/
def Place.call {κ τ : Type*} : Place κ τ → Option κ
  | .outside _ => none
  | .waiting c _ => some c
  | .inside c _ _ => some c

variable {ι κ τ β σ : Type*} [DecidableEq ι] (L : Lock β) (S : Sections κ τ σ) (masked : κ → Bool)

/-- Interrupts are off while the thread is in its call. -/
def Place.off (p : Place κ τ) : Bool := p.call.any masked

/-- One event; an interrupt waits while interrupts are off. -/
def Cpu.step (m : Cpu ι κ τ β σ) : Event ι → Cpu ι κ τ β σ
  | .tick => { m with sys := Critical.step L S m.sys m.current }
  | .switch t => if (m.sys.place m.current).off masked then m else { m with current := t }

/-- Events one after the other. -/
def Cpu.run (m : Cpu ι κ τ β σ) (es : List (Event ι)) : Cpu ι κ τ β σ :=
  es.foldl (Cpu.step L S masked) m

/-- The current thread waits with interrupts off for a lock that is held. -/
def Cpu.Stuck (m : Cpu ι κ τ β σ) : Prop :=
  L.held m.sys.lock = true ∧
    ∃ c todo, m.sys.place m.current = .waiting c todo ∧ masked c = true

/-- Whichever threads are asked for, all their calls can be finished together. -/
def Cpu.CanFinish (m : Cpu ι κ τ β σ) : Prop :=
  ∀ ts : List ι, ∃ es, ∀ t ∈ ts, ((m.run L S masked es).sys.place t).calls = []

/-- The calls `done` are over, and only the current thread has interrupts off. -/
structure Cpu.Sound (x₀ : σ) (calls : ι → List κ) (m : Cpu ι κ τ β σ) (done : List (ι × κ)) :
    Prop where
  orderly : Orderly L S x₀ calls m.sys done
  off : ∀ t, t ≠ m.current → (m.sys.place t).off masked = false

variable {L S masked} {x₀ : σ} {calls : ι → List κ} {m : Cpu ι κ τ β σ} {done : List (ι × κ)}
  {t u : ι}

@[simp] theorem Cpu.run_nil : m.run L S masked [] = m := rfl

@[simp] theorem Cpu.run_cons (e : Event ι) (es : List (Event ι)) :
    m.run L S masked (e :: es) = (m.step L S masked e).run L S masked es := rfl

theorem Cpu.run_append (es fs : List (Event ι)) :
    m.run L S masked (es ++ fs) = (m.run L S masked es).run L S masked fs :=
  List.foldl_append

/-- A step moves no other thread. -/
theorem step_place_of_ne {s : System ι κ τ β σ} (h : u ≠ t) :
    (Critical.step L S s t).place u = s.place u := by
  unfold Critical.step
  cases s.place t with
  | outside todo =>
    cases todo with
    | nil => rfl
    | cons c todo => exact Function.update_of_ne h _ _
  | waiting c todo =>
    dsimp only
    split_ifs
    · rfl
    · exact Function.update_of_ne h _ _
  | inside c l todo =>
    dsimp only
    cases S.step l s.shared with
    | none => exact Function.update_of_ne h _ _
    | some r => exact Function.update_of_ne h _ _

theorem Cpu.Sound.step (h : m.Sound L S masked x₀ calls done) (e : Event ι) :
    ∃ more, (m.step L S masked e).Sound L S masked x₀ calls (done ++ more) := by
  cases e with
  | tick =>
    obtain ⟨more, horderly⟩ := h.orderly.step m.current
    refine ⟨more, horderly, fun t ht => ?_⟩
    have hplace : (m.step L S masked .tick).sys.place t = m.sys.place t := step_place_of_ne ht
    rw [hplace]
    exact h.off t ht
  | switch t =>
    refine ⟨[], ?_⟩
    rw [List.append_nil, Cpu.step]
    split_ifs with hoff
    · exact h
    · refine ⟨h.orderly, fun u hu => ?_⟩
      by_cases hcur : u = m.current
      · rw [hcur]
        exact eq_false_of_ne_true hoff
      · exact h.off u hcur

/-- **Every run is sound.** -/
theorem Cpu.Sound.run (h : m.Sound L S masked x₀ calls done) (es : List (Event ι)) :
    ∃ more, (m.run L S masked es).Sound L S masked x₀ calls (done ++ more) := by
  induction es generalizing m done with
  | nil => exact ⟨[], by simpa using h⟩
  | cons e es ih =>
    obtain ⟨more, h'⟩ := h.step e
    obtain ⟨more', h''⟩ := ih h'
    exact ⟨more ++ more', by simpa [List.append_assoc] using h''⟩

theorem Cpu.sound_initial {b : β} (hb : L.held b = false) (t : ι) :
    Cpu.Sound L S masked x₀ calls ⟨initial b x₀ calls, t⟩ [] :=
  ⟨orderly_initial hb, fun _ _ => rfl⟩

/-! ### A lock that is never released -/

/-- **Nothing happens any more**, whatever interrupts arrive. -/
theorem Cpu.Stuck.run (h : m.Stuck L masked) (es : List (Event ι)) :
    (m.run L S masked es).Stuck L masked ∧
      (m.run L S masked es).sys.shared = m.sys.shared ∧
      (m.run L S masked es).sys.place = m.sys.place := by
  induction es generalizing m with
  | nil => exact ⟨h, rfl, rfl⟩
  | cons e es ih =>
    obtain ⟨hheld, c, todo, hp, hc⟩ := h
    cases e with
    | tick =>
      have hstep : m.step L S masked .tick =
          { m with sys := { m.sys with lock := (L.testAndSet m.sys.lock).1 } } := by
        simp [Cpu.step, Critical.step, hp, L.testAndSet_snd, hheld]
      rw [Cpu.run_cons, hstep]
      exact ih ⟨L.held_testAndSet _, c, todo, hp, hc⟩
    | switch t =>
      have hoff : (m.sys.place m.current).off masked = true := by
        simp [hp, Place.off, Place.call, hc]
      rw [Cpu.run_cons, Cpu.step, if_pos hoff]
      exact ih ⟨hheld, c, todo, hp, hc⟩

theorem Cpu.Stuck.not_canFinish (h : m.Stuck L masked) : ¬ m.CanFinish L S masked := by
  intro hfin
  obtain ⟨es, hes⟩ := hfin [m.current]
  obtain ⟨-, -, hrun⟩ := h.run (S := S) es
  obtain ⟨-, c, todo, hp, -⟩ := h
  have hnil := hes m.current List.mem_cons_self
  rw [hrun, hp] at hnil
  cases hnil

/-! ### Finishing all calls -/

/-- Thread `t` runs on its own up to a place from which the lock is free. -/
structure Cpu.Finishes (m m' : Cpu ι κ τ β σ) (L : Lock β) (todo : List κ) : Prop where
  free : L.held m'.sys.lock = false
  current : m'.current = m.current
  place : m'.sys.place m.current = .outside todo
  others : ∀ u, u ≠ m.current → m'.sys.place u = m.sys.place u

/-- A tick is a step of the current thread. -/
theorem Cpu.step_tick : m.step L S masked .tick = ⟨Critical.step L S m.sys m.current, m.current⟩ :=
  rfl

theorem Cpu.Finishes.cons {m' : Cpu ι κ τ β σ} {todo : List κ}
    (h : (m.step L S masked .tick).Finishes m' L todo) : m.Finishes m' L todo :=
  ⟨h.free, h.current, h.place, fun u hu => (h.others u hu).trans (step_place_of_ne hu)⟩

/-- One after the other. -/
theorem Cpu.Finishes.append {es fs : List (Event ι)} {todo rest : List κ}
    (h : m.Finishes (m.run L S masked es) L todo)
    (h' : (m.run L S masked es).Finishes ((m.run L S masked es).run L S masked fs) L rest) :
    m.Finishes (m.run L S masked (es ++ fs)) L rest := by
  rw [Cpu.run_append]
  refine ⟨h'.free, h'.current.trans h.current, ?_, fun u hu => ?_⟩
  · rw [← h.current]
    exact h'.place
  · rw [h'.others u (by rwa [h.current]), h.others u hu]

variable (L S masked) in
/-- The section of the current thread is finished. -/
theorem Cpu.exists_finish_inside {c : κ} {l : τ} {todo : List κ}
    (hp : m.sys.place m.current = .inside c l todo) :
    ∃ es, m.Finishes (m.run L S masked es) L todo := by
  induction hn : S.left l using Nat.strong_induction_on generalizing m l with
  | h n ih =>
    cases hs : S.step l m.sys.shared with
    | none =>
      have hstep : Critical.step L S m.sys m.current = ⟨L.release m.sys.lock, m.sys.shared,
          update m.sys.place m.current (.outside todo)⟩ := by
        simp [Critical.step, hp, hs]
      refine ⟨[.tick], ?_, rfl, ?_, fun u hu => step_place_of_ne hu⟩
      · rw [Cpu.run_cons, Cpu.run_nil, Cpu.step_tick, hstep]
        exact L.held_release _
      · rw [Cpu.run_cons, Cpu.run_nil, Cpu.step_tick, hstep]
        exact Function.update_self _ _ _
    | some r =>
      have hstep : Critical.step L S m.sys m.current = ⟨m.sys.lock, r.2,
          update m.sys.place m.current (.inside c r.1 todo)⟩ := by
        simp [Critical.step, hp, hs]
      have hp' : (m.step L S masked .tick).sys.place m.current = .inside c r.1 todo := by
        rw [Cpu.step_tick, hstep]
        exact Function.update_self _ _ _
      obtain ⟨es, hes⟩ := ih (S.left r.1) (hn ▸ S.left_lt hs) hp' rfl
      exact ⟨.tick :: es, hes.cons⟩

variable (L S masked) in
/-- A call that waits for a free lock is finished. -/
theorem Cpu.exists_finish_waiting {c : κ} {todo : List κ} (hfree : L.held m.sys.lock = false)
    (hp : m.sys.place m.current = .waiting c todo) :
    ∃ es, m.Finishes (m.run L S masked es) L todo := by
  have hp' : (m.step L S masked .tick).sys.place m.current = .inside c (S.start c) todo := by
    simp [Cpu.step, Critical.step, hp, L.testAndSet_snd, hfree]
  obtain ⟨es, hes⟩ := Cpu.exists_finish_inside L S masked hp'
  exact ⟨.tick :: es, hes.cons⟩

variable (L S masked) in
/-- All calls that the current thread has not begun are finished. -/
theorem Cpu.exists_finish_outside {todo : List κ} (hfree : L.held m.sys.lock = false)
    (hp : m.sys.place m.current = .outside todo) (rest : List κ) (hrest : rest <:+ todo) :
    ∃ es, m.Finishes (m.run L S masked es) L rest := by
  induction todo generalizing m with
  | nil =>
    obtain rfl := List.suffix_nil.1 hrest
    exact ⟨[], hfree, rfl, hp, fun _ _ => rfl⟩
  | cons c todo ih =>
    rcases List.suffix_cons_iff.1 hrest with rfl | hrest
    · exact ⟨[], hfree, rfl, hp, fun _ _ => rfl⟩
    · have hstep : Critical.step L S m.sys m.current =
          { m.sys with place := update m.sys.place m.current (.waiting c todo) } := by
        simp [Critical.step, hp]
      have hfree' : L.held (m.step L S masked .tick).sys.lock = false := by
        rw [Cpu.step_tick, hstep]
        exact hfree
      have hp' : (m.step L S masked .tick).sys.place m.current = .waiting c todo := by
        rw [Cpu.step_tick, hstep]
        exact Function.update_self _ _ _
      obtain ⟨es, hes⟩ := Cpu.exists_finish_waiting L S masked hfree' hp'
      obtain ⟨fs, hfs⟩ := @ih ((m.step L S masked .tick).run L S masked es) hes.free
        (by rw [hes.current]; exact hes.place) hrest
      exact ⟨.tick :: (es ++ fs), (hes.append hfs).cons⟩

/-- The lock is free and an interrupt would be served. -/
structure Cpu.Rests (m : Cpu ι κ τ β σ) (L : Lock β) (masked : κ → Bool) : Prop where
  free : L.held m.sys.lock = false
  on : (m.sys.place m.current).off masked = false

omit [DecidableEq ι] in
theorem Cpu.Finishes.rests {m' : Cpu ι κ τ β σ} {todo : List κ} (h : m.Finishes m' L todo) :
    m'.Rests L masked :=
  ⟨h.free, by rw [h.current, h.place]; rfl⟩

/-- Unless the processor is stuck, the lock becomes free. -/
theorem Cpu.Sound.exists_rests (h : m.Sound L S masked x₀ calls done) (hs : ¬ m.Stuck L masked) :
    ∃ es, (m.run L S masked es).Rests L masked := by
  cases h.orderly.stage with
  | free lock apart _ =>
    cases hp : m.sys.place m.current with
    | outside todo => exact ⟨[], lock, by rw [Cpu.run_nil, hp]; rfl⟩
    | waiting c todo =>
      obtain ⟨es, hes⟩ := Cpu.exists_finish_waiting L S masked lock hp
      exact ⟨es, hes.rests⟩
    | inside c l todo => exact absurd (by rw [hp]; trivial) (apart m.current)
  | taken t c l todo x lock place apart _ _ =>
    by_cases ht : m.current = t
    · obtain ⟨es, hes⟩ := Cpu.exists_finish_inside L S masked
        (by rw [ht]; exact place)
      exact ⟨es, hes.rests⟩
    · -- the current thread does not hold the lock, so the processor can be handed to the holder
      have hon : ¬ (m.sys.place m.current).off masked = true := by
        intro hoff
        cases hp : m.sys.place m.current with
        | outside todo' => rw [hp] at hoff; cases hoff
        | waiting c' todo' => exact hs ⟨lock, c', todo', hp, by rw [hp] at hoff; exact hoff⟩
        | inside c' l' todo' => exact apart m.current ht (by rw [hp]; trivial)
      have hp : (m.step L S masked (.switch t)).sys.place
          (m.step L S masked (.switch t)).current = .inside c l todo := by
        rw [Cpu.step, if_neg hon]
        exact place
      obtain ⟨es, hes⟩ := Cpu.exists_finish_inside L S masked hp
      exact ⟨.switch t :: es, hes.rests⟩

/-- From such a state the calls of any thread are finished, and no other thread moves. -/
theorem Cpu.Sound.exists_finish (h : m.Sound L S masked x₀ calls done)
    (hr : m.Rests L masked) (t : ι) : ∃ es, (m.run L S masked es).Rests L masked ∧
      ((m.run L S masked es).sys.place t).calls = [] ∧
      ∀ u, u ≠ t → (m.run L S masked es).sys.place u = m.sys.place u := by
  have hswitch : m.step L S masked (.switch t) = { m with current := t } := by
    rw [Cpu.step, if_neg (by rw [hr.on]; exact Bool.false_ne_true)]
  have hends : ∀ {es : List (Event ι)},
      Cpu.Finishes { m with current := t } (({ m with current := t } : Cpu ι κ τ β σ).run L S masked es)
        L [] → (m.run L S masked (.switch t :: es)).Rests L masked ∧
      ((m.run L S masked (.switch t :: es)).sys.place t).calls = [] ∧
      ∀ u, u ≠ t → (m.run L S masked (.switch t :: es)).sys.place u = m.sys.place u := by
    intro es hes
    rw [Cpu.run_cons, hswitch]
    exact ⟨hes.rests, by rw [hes.place]; rfl, hes.others⟩
  cases hp : m.sys.place t with
  | outside todo =>
    obtain ⟨es, hes⟩ := Cpu.exists_finish_outside L S masked
      (m := { m with current := t }) hr.free hp [] (List.nil_suffix)
    exact ⟨_, hends hes⟩
  | waiting c todo =>
    obtain ⟨es, hes⟩ := Cpu.exists_finish_waiting L S masked
      (m := { m with current := t }) hr.free hp
    have hp' := hes.place
    rw [← hes.current] at hp'
    obtain ⟨fs, hfs⟩ := Cpu.exists_finish_outside L S masked hes.free hp' []
      List.nil_suffix
    exact ⟨_, hends (hes.append hfs)⟩
  | inside c l todo =>
    cases h.orderly.stage with
    | free _ apart _ => exact absurd (by rw [hp]; trivial) (apart t)
    | taken _ _ _ _ _ lock => rw [hr.free] at lock; cases lock

/-- **What is not stuck can finish.** -/
theorem Cpu.Sound.canFinish_iff (h : m.Sound L S masked x₀ calls done) :
    m.CanFinish L S masked ↔ ¬ m.Stuck L masked := by
  refine ⟨fun hfin hs => hs.not_canFinish hfin, fun hs => ?_⟩
  have hall : ∀ ts : List ι, ∃ es, (m.run L S masked es).Rests L masked ∧
      ∀ t ∈ ts, ((m.run L S masked es).sys.place t).calls = [] := by
    intro ts
    induction ts with
    | nil =>
      obtain ⟨es, hes⟩ := h.exists_rests hs
      exact ⟨es, hes, nofun⟩
    | cons t ts ih =>
      obtain ⟨es, hrest, hes⟩ := ih
      obtain ⟨_, h'⟩ := h.run es
      obtain ⟨fs, hrest', ht, hothers⟩ := h'.exists_finish hrest t
      refine ⟨es ++ fs, ?_⟩
      rw [Cpu.run_append]
      refine ⟨hrest', fun u hu => ?_⟩
      by_cases hut : u = t
      · rw [hut]
        exact ht
      · rw [hothers u hut]
        exact hes u ((List.mem_cons.1 hu).resolve_left hut)
  intro ts
  obtain ⟨es, -, hes⟩ := hall ts
  exact ⟨es, hes⟩

/-! ### Who can get stuck -/

/-- A thread is taken on to one of its calls, and no other thread moves. -/
theorem Cpu.Rests.exists_advance (h : m.Rests L masked) {todo rest : List κ}
    (hp : m.sys.place t = .outside todo) (hrest : rest <:+ todo) :
    ∃ es, (m.run L S masked es).Rests L masked ∧ (m.run L S masked es).current = t ∧
      (m.run L S masked es).sys.place t = .outside rest ∧
      ∀ u, u ≠ t → (m.run L S masked es).sys.place u = m.sys.place u := by
  obtain ⟨es, hes⟩ := Cpu.exists_finish_outside L S masked (m := { m with current := t }) h.free hp
    rest hrest
  refine ⟨.switch t :: es, ?_⟩
  rw [Cpu.run_cons, Cpu.step, if_neg (by rw [h.on]; exact Bool.false_ne_true)]
  exact ⟨hes.rests, hes.current, hes.place, hes.others⟩

/-- A thread is interrupted inside, and another one gets stuck. -/
theorem Cpu.Rests.exists_stuck (h : m.Rests L masked) (hcur : m.current = t) (hne : t ≠ u)
    {c c' : κ} {todo todo' : List κ} (hp : m.sys.place t = .outside (c :: todo))
    (hc : masked c = false) (hp' : m.sys.place u = .outside (c' :: todo'))
    (hc' : masked c' = true) : ∃ es, (m.run L S masked es).Stuck L masked := by
  refine ⟨[.tick, .tick, .switch u, .tick], ?_⟩
  subst hcur
  have hne' : u ≠ m.current := hne.symm
  have hfirst : m.step L S masked .tick =
      ⟨⟨m.sys.lock, m.sys.shared, update m.sys.place m.current (.waiting c todo)⟩, m.current⟩ := by
    simp [Cpu.step, Critical.step, hp]
  have hsecond : (m.step L S masked .tick).step L S masked .tick =
      ⟨⟨(L.testAndSet m.sys.lock).1, m.sys.shared,
        update m.sys.place m.current (.inside c (S.start c) todo)⟩, m.current⟩ := by
    rw [hfirst]
    simp [Cpu.step, Critical.step, L.testAndSet_snd, h.free]
  rw [Cpu.run_cons, Cpu.run_cons, hsecond]
  refine ⟨?_, c', todo', ?_, hc'⟩
  · simp [Cpu.step, Critical.step, Place.off, Place.call, hc, hne', hp', L.held_testAndSet]
  · simp [Cpu.step, Critical.step, Place.off, Place.call, hc, hne', hp']

/-- **The threads can get stuck** if and only if one of them makes a call with interrupts on and
another one with interrupts off. -/
theorem Cpu.exists_stuck_iff {b : β} (hb : L.held b = false) (t₀ : ι) :
    (∃ es, (Cpu.run L S masked ⟨initial b x₀ calls, t₀⟩ es).Stuck L masked) ↔
      ∃ t u, t ≠ u ∧ (∃ c ∈ calls t, masked c = false) ∧ ∃ c ∈ calls u, masked c = true := by
  constructor
  · rintro ⟨es, hes⟩
    have hinit : Cpu.Sound L S masked x₀ calls ⟨initial b x₀ calls, t₀⟩ [] := Cpu.sound_initial hb t₀
    obtain ⟨done, h⟩ := hinit.run es
    obtain ⟨hheld, c, todo, hp, hc⟩ := hes
    cases h.orderly.stage with
    | free lock => rw [hheld] at lock; cases lock
    | taken t c' l todo' x _ place apart _ _ =>
      have hne : t ≠ (Cpu.run L S masked ⟨initial b x₀ calls, t₀⟩ es).current := by
        rintro rfl
        rw [hp] at place
        cases place
      have hon := h.off t hne
      rw [place] at hon
      have ht := h.orderly.each t
      have hu := h.orderly.each (Cpu.run L S masked ⟨initial b x₀ calls, t₀⟩ es).current
      rw [place] at ht
      rw [hp] at hu
      exact ⟨t, _, hne, ⟨c', by rw [← ht]; simp [Place.calls], hon⟩,
        c, by rw [← hu]; simp [Place.calls], hc⟩
  · rintro ⟨t, u, hne, ⟨c, hct, hc⟩, c', hcu, hc'⟩
    obtain ⟨as, todo, hcalls⟩ := List.append_of_mem hct
    obtain ⟨as', todo', hcalls'⟩ := List.append_of_mem hcu
    have hsuf : (c :: todo) <:+ calls t := ⟨as, hcalls.symm⟩
    have hsuf' : (c' :: todo') <:+ calls u := ⟨as', hcalls'.symm⟩
    have hrest : (⟨initial b x₀ calls, t₀⟩ : Cpu ι κ τ β σ).Rests L masked := ⟨hb, rfl⟩
    obtain ⟨es, hrest₁, -, hpu, hothers⟩ := hrest.exists_advance (S := S) (t := u) rfl hsuf'
    obtain ⟨fs, hrest₂, hcur, hpt, hothers'⟩ := hrest₁.exists_advance (S := S) (t := t)
      (hothers t hne) hsuf
    obtain ⟨gs, hgs⟩ := hrest₂.exists_stuck (S := S) hcur hne hpt hc
      ((hothers' u hne.symm).trans hpu) hc'
    refine ⟨es ++ (fs ++ gs), ?_⟩
    rw [Cpu.run_append, Cpu.run_append]
    exact hgs

end Critical
