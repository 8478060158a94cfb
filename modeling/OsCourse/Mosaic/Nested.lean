import OsCourse.Mosaic.Log
import OsCourse.Mosaic.Dump

/-!
# What a recorded step does

A step resumes one thread of its system.  If that thread yields a fork, a whole second
system runs before the step is over, and further ones within it.  `Stepped` says all
that is left of this in the first system: the thread that a fork delivers has run, and
its heap is a new one.  No heap that was there before has changed, except that of the
thread resumed.

The induction is on the bound for nested forks.  Its invariant is that a system uses
no heap that is older than itself (`Within`).
-/

namespace OsCourse.Mosaic

open Recorded

variable {V G H L S : Type} [DecidableEq V] [PyValue V]

/-! ## Descriptions -/

/-- A context that has run. -/
def Context.Started (c : Context G) : Prop := ∀ g, c ≠ .fresh g

/-- The global variables are those of the thread that is resumed. -/
def Event.Isolated (e : Event V G) : Prop := e.globalHeap = e.thread.heap ∧ e.globalOs = e.os

/-- The event of a thread that a system resumes, after the action `a` with the result
`res`. -/
def Event.of (id : Nat) (a : Action V G (Thread G)) (res : V) (sys : System V G (Thread G))
    (th : Thread G) : Event V G where
  os := id
  action := a
  tid := sys.current
  thread := th
  count := sys.threads.length
  value := res
  globalOs := id
  globalHeap := th.heap

/-- How a step leaves the system, where `lo` and `hi` are the numbers of heaps before
and after it. -/
inductive Ends (app : App V G H L S) (lo hi : Nat) (s : System V G (Thread G)) :
    System V G (Thread G) → Prop where
  | returned :
      Ends app lo hi s
        { s.setContext .finished with choices := some (s.setContext .finished).sched }
  | called (g : G) (hcall : app.call g ≠ .fork) :
      Ends app lo hi s
        { s.setContext (.suspended g) with
          choices := some ((s.setContext (.suspended g)).handler Dict.empty (app.call g)) }
  | overridden (g : G) : Ends app lo hi s { s.setContext (.suspended g) with choices := none }
  | forked (g : G) (th : Thread G) (hstarted : th.context.Started) (hlo : lo ≤ th.heap)
      (hhi : th.heap < hi) :
      Ends app lo hi s
        { s.setContext (.suspended g) with choices := some (oneChoice "fork" (.fork th)) }

/-- What a fork delivers: nothing, or a thread that has run and has a new heap. -/
structure Delivered (w : World H) (r : World H × Option (Choices V G (Thread G))) : Prop where
  world : Extends w.nextHeap w r.1
  choices : r.2 = none ∨ ∃ th : Thread G, r.2 = some (oneChoice "fork" (.fork th)) ∧
    th.context.Started ∧ w.nextHeap ≤ th.heap ∧ th.heap < r.1.nextHeap

/-- What a step does that resumes the thread of `e`. -/
structure Stepped (app : App V G H L S) (w : World H) (sys : System V G (Thread G))
    (e : Event V G) (r : World H × OperatingSystem V G) : Prop where
  next_le : w.nextHeap ≤ r.1.nextHeap
  heap_eq : ∀ a < w.nextHeap, a ≠ e.thread.heap → r.1.heaps a = w.heaps a
  ends : Ends app w.nextHeap r.1.nextHeap sys r.2.sys

/-- A fork that delivers what it should. -/
def Forks (fork : List Bool → World H → OperatingSystem V G →
    Recorded Fault (Event V G) (World H × Option (Choices V G (Thread G)))) : Prop :=
  ∀ stack w os, Emits Event.Isolated (Delivered w) (fork stack w os)

/-! ## One step -/

section Step

variable {app : App V G H L S} (send : Behavior V G H)
  {fork : List Bool → World H → OperatingSystem V G →
    Recorded Fault (Event V G) (World H × Option (Choices V G (Thread G)))}
  (hfork : Forks fork) (stack : List Bool)

include hfork

variable {os : OperatingSystem V G}

theorem concludeRecorded_emits {w₀ : World H} {e : Event V G} (r : Resume G H) :
    Emits Event.Isolated (Stepped app w₀ os.sys e) (concludeRecorded app fork stack
      { w₀ with os := e.os, heap := e.thread.heap } os r) := by
  have hwrote (h : H) : ∀ a < w₀.nextHeap, a ≠ e.thread.heap →
      Function.update w₀.heaps e.thread.heap h a = w₀.heaps a := fun a _ hne =>
    Function.update_of_ne hne h w₀.heaps
  cases r with
  | raises => exact .lift fun _ ha => by cases ha
  | returns h => exact .pure ⟨le_rfl, hwrote h, .returned⟩
  | yields g h =>
      simp only [concludeRecorded]
      cases hcall : app.call g with
      | fork =>
          refine (hfork _ _ _).bind fun r hdel => .pure ⟨hdel.world.next_le, ?_, ?_⟩
          · exact fun a ha hne => (hdel.world.heap_eq a ha).trans (hwrote h a ha hne)
          · rcases hdel.choices with hnone | ⟨th, hsome, hstarted, hlo, hhi⟩
            · rw [hnone]
              exact .overridden g
            · rw [hsome]
              exact .forked g th hstarted hlo hhi
      | _ =>
          refine .pure ⟨le_rfl, hwrote h, ?_⟩
          simp only
          rw [← hcall]
          exact .called g (by simp [hcall])

omit hfork in
theorem stepRecorded_error {choice : Label} {err : Fault}
    (hadv : os.sys.advance (fun _ => id) choice = .error err) (w : World H) (flag : Bool)
    (past : List (Event V G)) :
    stepRecorded app send fork stack w os choice flag past = (past, .error err) := by
  have hprep : prepare w os choice = .error err := by
    rw [prepare_eq, hadv]
    rfl
  rw [stepRecorded, hprep]
  rfl

/-- A step resumes one thread, with the global variables of that thread. -/
theorem stepRecorded_resumes {choice : Label} {a : Action V G (Thread G)} {res : V}
    {sys : System V G (Thread G)} {th : Thread G}
    (hadv : os.sys.advance (fun _ => id) choice = .ok (a, res, sys, th)) (w : World H) (flag : Bool)
    (past : List (Event V G)) :
    ∃ nested, (stepRecorded app send fork stack w os choice flag past).1 =
        past ++ Event.of os.id a res sys th :: nested ∧
      (∀ e ∈ nested, e.Isolated) ∧
      ∀ r, (stepRecorded app send fork stack w os choice flag past).2 = .ok r →
        Stepped app w sys (Event.of os.id a res sys th) r := by
  have hprep : prepare w os choice = .ok ({ w with os := os.id, heap := th.heap },
      ⟨os.id, sys, os.trace ++ [choice]⟩, a, res, th) := by
    rw [prepare_eq, hadv]
    rfl
  have hrest : Emits Event.Isolated (Stepped app w sys (Event.of os.id a res sys th))
      (lift (resume { app with send := send (past ++ [Event.of os.id a res sys th]) }
        (w.heaps th.heap) res th.context) >>=
        concludeRecorded app fork (flag :: stack) { w with os := os.id, heap := th.heap }
          ⟨os.id, sys, os.trace ++ [choice]⟩) := by
    refine (Emits.lift fun _ _ => trivial).bind fun r _ => ?_
    exact concludeRecorded_emits (e := Event.of os.id a res sys th) hfork (flag :: stack) r
  obtain ⟨nested, hlog, hnested, hpost⟩ := hrest (past ++ [Event.of os.id a res sys th])
  rw [stepRecorded, lift_bind_ok hprep]
  exact ⟨nested, hlog.trans (by rw [List.append_assoc]; rfl), hnested, hpost⟩

theorem stepRecorded_emits (w : World H) (os : OperatingSystem V G) (choice : Label) (flag : Bool) :
    Emits Event.Isolated
      (fun r => ∃ a res sys th, os.sys.advance (fun _ => id) choice = .ok (a, res, sys, th) ∧
        Stepped app w sys (Event.of os.id a res sys th) r)
      (stepRecorded app send fork stack w os choice flag) := by
  intro past
  cases hadv : os.sys.advance (fun _ => id) choice with
  | error err =>
      rw [stepRecorded_error send stack hadv]
      exact ⟨[], (List.append_nil past).symm, by simp, fun _ h => by cases h⟩
  | ok x =>
      obtain ⟨a, res, sys, th⟩ := x
      obtain ⟨nested, hlog, hnested, hpost⟩ :=
        stepRecorded_resumes send hfork stack hadv w flag past
      refine ⟨_, hlog, fun e he => ?_, fun r hr => ⟨a, res, sys, th, rfl, hpost r hr⟩⟩
      rcases List.mem_cons.mp he with rfl | he
      · exact ⟨rfl, rfl⟩
      · exact hnested e he

end Step

/-! ## Heaps of nested systems -/

/-- All heaps of the system, and those of threads that a fork has delivered, lie
between the addresses `lo` and `hi`. -/
structure Within (lo hi : Nat) (s : System V G (Thread G)) : Prop where
  threads : ∀ th ∈ s.threads, lo ≤ th.heap ∧ th.heap < hi
  clones : ∀ choice th, s.lookup choice = .ok (.fork th) → lo ≤ th.heap ∧ th.heap < hi

section Within

variable {app : App V G H L S} {lo hi : Nat} {s : System V G (Thread G)} {choice : Label}
  {s' : System V G (Thread G)} {th : Thread G}

omit [DecidableEq V] [PyValue V] in
theorem lookup_of_choices {cs : Choices V G (Thread G)} (hcs : s.choices = some cs)
    {a : Action V G (Thread G)} : s.lookup choice = .ok a ↔ cs.get? choice = some a := by
  simp only [System.lookup, hcs]
  cases cs.get? choice <;> simp

omit [DecidableEq V] [PyValue V] in
theorem Within.create (w : World H) :
    Within w.nextHeap (w.nextHeap + 1) (create app w).2.sys where
  threads := by
    intro th hth
    obtain rfl := List.mem_singleton.mp hth
    exact ⟨le_rfl, Nat.lt_succ_self _⟩
  clones := by
    intro choice th h
    cases (get?_oneChoice.mp ((lookup_of_choices rfl).mp h)).2

omit [DecidableEq V] [PyValue V] in
theorem Within.mono (h : Within lo hi s) {hi' : Nat} (hle : hi ≤ hi') : Within lo hi' s where
  threads := fun th hth => ⟨(h.threads th hth).1, (h.threads th hth).2.trans_le hle⟩
  clones := fun c th hc => ⟨(h.clones c th hc).1, (h.clones c th hc).2.trans_le hle⟩

omit [DecidableEq V] in
/-- The threads after the action of a choice. -/
theorem Within.advance (h : Within lo hi s) {a : Action V G (Thread G)} {res : V}
    (hadv : s.advance (fun _ => id) choice = .ok (a, res, s', th)) :
    ∀ x ∈ s'.threads, lo ≤ x.heap ∧ x.heap < hi := by
  obtain ⟨parent, -, hlook, hact, -⟩ := advance_ok hadv
  rcases threads_act hact with hsame | ⟨child, y, -, hy, hth⟩ | ⟨clone, rfl, hth⟩
  · rw [hsame, threads_switchTo]
    exact h.threads
  · intro x hx
    rw [hth, threads_switchTo, List.mem_append, List.mem_singleton] at hx
    rcases hx with hx | rfl
    · exact h.threads x hx
    · have hmem := mem_of_thread hy
      rw [threads_switchTo] at hmem
      exact h.threads y hmem
  · intro x hx
    rw [hth, threads_switchTo, List.mem_append, List.mem_singleton] at hx
    rcases hx with hx | rfl
    · exact h.threads x hx
    · exact h.clones choice _ hlook

theorem Ends.heaps_eq (h : Ends app lo hi s s') :
    s'.threads.map Thread.heap = s.threads.map Thread.heap := by
  cases h <;> exact heaps_setContext s _

/-- A step changes no heap of a thread. -/
theorem Ends.heap_mem (h : Ends app lo hi s s') (hth : th ∈ s'.threads) :
    ∃ x ∈ s.threads, x.heap = th.heap := by
  have hmem : th.heap ∈ s'.threads.map Thread.heap := List.mem_map_of_mem hth
  rwa [h.heaps_eq, List.mem_map] at hmem

/-- The thread of a fork that is offered after a step was delivered in this step. -/
theorem Ends.clone (h : Ends app lo hi s s') {clone : Thread G}
    (hlook : s'.lookup choice = .ok (.fork clone)) :
    clone.context.Started ∧ lo ≤ clone.heap ∧ clone.heap < hi := by
  cases h with
  | returned => exact absurd ((lookup_of_choices rfl).mp hlook) sched_noFork
  | called g hcall => exact absurd ((lookup_of_choices rfl).mp hlook) (handler_noFork hcall)
  | overridden g => cases hlook
  | forked g th hstarted hlo hhi =>
      cases (get?_oneChoice.mp ((lookup_of_choices rfl).mp hlook)).2
      exact ⟨hstarted, hlo, hhi⟩

theorem Ends.within {n : Nat} (hs : ∀ th ∈ s.threads, lo ≤ th.heap ∧ th.heap < hi) (hlo : lo ≤ n)
    (h : Ends app n hi s s') :
    Within lo hi s' where
  threads := fun th hth => by
    obtain ⟨x, hx, heq⟩ := h.heap_mem hth
    exact heq ▸ hs x hx
  clones := fun choice clone hlook => by
    obtain ⟨-, hnew, hlt⟩ := h.clone hlook
    exact ⟨hlo.trans hnew, hlt⟩

/-- After a step the current thread has run. -/
theorem Ends.started {n : Nat} (hth : s.thread s.current = .ok th) (h : Ends app n hi s s') :
    ∃ th', s'.thread s'.current = .ok th' ∧ th'.context.Started := by
  cases h with
  | returned => exact ⟨_, thread_setContext hth _, by simp [Context.Started]⟩
  | called | overridden | forked => exact ⟨_, thread_setContext hth _, by simp [Context.Started]⟩

end Within

section Nested

variable {app : App V G H L S} {send : Behavior V G H}
  {fork : List Bool → World H → OperatingSystem V G →
    Recorded Fault (Event V G) (World H × Option (Choices V G (Thread G)))}

/-- A system that uses no heap below `lo` does not change them. -/
theorem Stepped.within {lo : Nat} {w : World H} {os : OperatingSystem V G} {choice : Label}
    {a : Action V G (Thread G)} {res : V} {sys : System V G (Thread G)} {th : Thread G}
    {r : World H × OperatingSystem V G} (h : Within lo w.nextHeap os.sys) (hlo : lo ≤ w.nextHeap)
    (hadv : os.sys.advance (fun _ => id) choice = .ok (a, res, sys, th))
    (hstep : Stepped app w sys (Event.of os.id a res sys th) r) :
    Within lo r.1.nextHeap r.2.sys ∧ Extends lo w r.1 := by
  have hthreads := h.advance hadv
  have hrun : th ∈ sys.threads := mem_of_thread (advance_ok hadv).choose_spec.2.2.2
  refine ⟨hstep.ends.within (fun x hx => ?_) hlo, fun i hi => ?_, hstep.next_le⟩
  · exact ⟨(hthreads x hx).1, (hthreads x hx).2.trans_le hstep.next_le⟩
  · exact hstep.heap_eq i (hi.trans_le hlo) (hi.trans_le (hthreads th hrun).1).ne

theorem replayRecorded_emits (hfork : Forks fork) (stack : List Bool)
    {lo : Nat} (trace : List Label) {w : World H} {os : OperatingSystem V G}
    (h : Within lo w.nextHeap os.sys) (hlo : lo ≤ w.nextHeap) :
    Emits Event.Isolated (fun r => Within lo r.1.nextHeap r.2.sys ∧ Extends lo w r.1)
      (replayRecorded app send fork stack trace w os) := by
  induction trace generalizing w os with
  | nil => exact .pure ⟨h, fun _ _ => rfl, le_rfl⟩
  | cons c trace ih =>
      refine (stepRecorded_emits send hfork stack w os c false).bind fun r hr => ?_
      obtain ⟨a, res, sys, th, hadv, hstep⟩ := hr
      obtain ⟨hwithin, hext⟩ := hstep.within h hlo hadv
      refine (ih hwithin (hlo.trans hext.next_le)).mono fun r' hr' => ⟨hr'.1, ?_⟩
      exact hext.trans le_rfl hr'.2

/-- A fork delivers a thread that has run, with a new heap, and changes no heap that
was there before. -/
theorem sysForkRecorded_forks (fuel : Nat) : Forks (sysForkRecorded app send fuel) := by
  induction fuel with
  | zero =>
      intro stack w os
      refine .lift fun r hr => ?_
      split at hr
      · cases hr
      · cases hr
        exact ⟨⟨fun _ _ => rfl, le_rfl⟩, .inl rfl⟩
  | succ fuel ih =>
      intro stack w os
      simp only [sysForkRecorded]
      split
      · -- The clone uses no heap below the first one that it creates.
        have hcreate : Extends w.nextHeap w (create app w).1 := extends_create app w
        refine (replayRecorded_emits ih stack os.trace.dropLast (Within.create w)
          (Nat.le_succ w.nextHeap)).bind fun r₁ hr₁ => ?_
        obtain ⟨w₁, clone⟩ := r₁
        obtain ⟨hwithin, hext⟩ := hr₁
        cases os.trace.getLast? with
        | none => exact .lift fun _ h => by cases h
        | some last =>
            refine (stepRecorded_emits send ih stack w₁ clone last true).bind fun r₂ hr₂ => ?_
            obtain ⟨a, res, sys, th, hadv, hstep⟩ := hr₂
            have hnext := hcreate.next_le.trans hext.next_le
            obtain ⟨hwithin₂, hext₂⟩ := hstep.within hwithin hnext hadv
            obtain ⟨x, hx, hstarted⟩ := hstep.ends.started (advance_ok hadv).choose_spec.2.2.2
            refine (Emits.lift fun y hy => (Except.ok.inj (hx.symm.trans hy))).bind fun y hy => ?_
            obtain ⟨hlo, hhi⟩ := hwithin₂.threads x (mem_of_thread hx)
            refine .pure ⟨hcreate.trans le_rfl (hext.trans le_rfl hext₂), .inr ⟨y, rfl, ?_⟩⟩
            exact hy ▸ ⟨hstarted, hlo, hhi⟩
      · exact .pure ⟨⟨fun _ _ => rfl, le_rfl⟩, .inl rfl⟩

end Nested

/-! ## Reachable systems -/

section Reach

variable (app : App V G H L S) (send : Behavior V G H)

/-- The systems that steps lead to, with the world and with the resumptions of their
own threads.  Nested systems are among them, since the steps around them, the flag and
the record are arbitrary.  Between two steps other systems may run. -/
inductive Reach : World H → OperatingSystem V G → List (Event V G) → Prop where
  | create (w : World H) : Reach (create app w).1 (create app w).2 []
  | wait {w w' os own} (h : Reach w os own) (hw : w.nextHeap ≤ w'.nextHeap) : Reach w' os own
  | step {w os own fuel stack choice flag past e nested w' os'} (h : Reach w os own)
      (hstep : stepRecorded app send (sysForkRecorded app send fuel) stack w os choice flag past =
        (past ++ e :: nested, .ok (w', os'))) :
      Reach w' os' (own ++ [e])

variable {app send}

section
variable {fuel : Nat} {stack : List Bool} {w : World H} {os : OperatingSystem V G} {choice : Label}
  {flag : Bool} {past log : List (Event V G)} {r : World H × OperatingSystem V G}

/-- What a step does that succeeds. -/
theorem stepRecorded_ok
    (h : stepRecorded app send (sysForkRecorded app send fuel) stack w os choice flag past =
      (log, .ok r)) :
    ∃ a res sys th nested, os.sys.advance (fun _ => id) choice = .ok (a, res, sys, th) ∧
      log = past ++ Event.of os.id a res sys th :: nested ∧
      Stepped app w sys (Event.of os.id a res sys th) r := by
  cases hadv : os.sys.advance (fun _ => id) choice with
  | error err =>
      rw [stepRecorded_error send stack hadv] at h
      cases (Prod.mk.inj h).2
  | ok x =>
      obtain ⟨a, res, sys, th⟩ := x
      obtain ⟨nested, hlog, -, hpost⟩ :=
        stepRecorded_resumes send (sysForkRecorded_forks fuel) stack hadv w flag past
      rw [h] at hlog hpost
      exact ⟨a, res, sys, th, nested, rfl, hlog, hpost r rfl⟩

/-- The event of a step that succeeds is that of the thread resumed. -/
theorem stepped_of_step {e : Event V G} {nested : List (Event V G)}
    (h : stepRecorded app send (sysForkRecorded app send fuel) stack w os choice flag past =
      (past ++ e :: nested, .ok r)) :
    ∃ a res sys th, os.sys.advance (fun _ => id) choice = .ok (a, res, sys, th) ∧
      e = Event.of os.id a res sys th ∧ Stepped app w sys e r := by
  obtain ⟨a, res, sys, th, nested', hadv, hlog, hstep⟩ := stepRecorded_ok h
  obtain rfl : e = Event.of os.id a res sys th := (List.cons.inj (List.append_cancel_left hlog)).1
  exact ⟨a, res, sys, th, hadv, rfl, hstep⟩

end

/-- A replay leads from a system that is reached to another. -/
theorem Reach.replay {fuel : Nat} {stack : List Bool} {trace : List Label} {w w' : World H}
    {os os' : OperatingSystem V G} {own past log : List (Event V G)} (h : Reach app send w os own)
    (hrun : replayRecorded app send (sysForkRecorded app send fuel) stack trace w os past =
      (log, .ok (w', os'))) :
    ∃ own', Reach app send w' os' own' := by
  induction trace generalizing w os own past with
  | nil =>
      cases hrun
      exact ⟨own, h⟩
  | cons c trace ih =>
      rw [replayRecorded, bind_apply] at hrun
      split at hrun
      · cases (Prod.mk.inj hrun).2
      next mid r hstep =>
        obtain ⟨a, res, sys, th, nested, -, rfl, -⟩ := stepRecorded_ok hstep
        exact ih (h.step hstep) hrun

end Reach

end OsCourse.Mosaic
