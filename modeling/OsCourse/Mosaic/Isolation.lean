import OsCourse.Mosaic.Resume

/-!
# Isolation of heaps

All systems share the global variables `heap` and `os`, and a fork runs other systems
in the middle of a step.  Yet whenever a generator is resumed they are the heap of its
thread and the system that resumes it, and a step changes no other heap that was there
before it.

Threads keep their heaps.  A spawn shares the heap of the current thread and a fork
brings a new one, so the child of a fork has another heap than its parent, and what
one of them writes the other does not see.  Threads share a heap when they descend
from the same founder by spawns only (`HeapsApart`).
-/

namespace OsCourse.Mosaic

variable {V G H L S : Type}

/-! ## Heaps of threads -/

/-- The address of the heap of a thread. -/
def System.heapOf (s : System V G (Thread G)) (tid : Nat) : Option Nat :=
  (s.threads.map Thread.heap)[tid]?

/-- The thread that a fork delivers has another heap than all threads of the system. -/
def CloneApart (s : System V G (Thread G)) : Prop :=
  ∀ choice clone, s.lookup choice = .ok (.fork clone) → ∀ th ∈ s.threads, th.heap ≠ clone.heap

/-- The child of a fork has another heap than its parent. -/
def ChildrenApart (s : System V G (Thread G)) (own : List (Event V G)) : Prop :=
  ∀ f ∈ own, ∀ c, f.Forks c → ∃ p q, s.heapOf f.tid = some p ∧ s.heapOf c = some q ∧ p ≠ q

section Heaps

variable {s s' : System V G (Thread G)} {tid : Nat} {p : Nat} {choice : Label}
  {a : Action V G (Thread G)} {res : V} {th : Thread G}

theorem heapOf_eq_some :
    s.heapOf tid = some p ↔ ∃ th, s.thread tid = .ok th ∧ th.heap = p := by
  simp only [System.heapOf, List.getElem?_map, Option.map_eq_some_iff, thread_eq_ok]

theorem heapOf_grow {new : List (Thread G)} (h : s'.threads = s.threads ++ new)
    (hp : s.heapOf tid = some p) : s'.heapOf tid = some p := by
  obtain ⟨th, hth, rfl⟩ := heapOf_eq_some.mp hp
  exact heapOf_eq_some.mpr ⟨th, thread_append h hth, rfl⟩

variable [DecidableEq V] [PyValue V] {app : App V G H L S} {lo hi : Nat}

/-- A new clone has a new heap. -/
theorem Ends.cloneApart (hlo : ∀ th ∈ s.threads, th.heap < lo) (h : Ends app lo hi s s') :
    CloneApart s' := by
  intro choice clone hlook th hth
  obtain ⟨x, hx, heq⟩ := h.heap_mem hth
  exact heq ▸ ((hlo x hx).trans_le (h.clone hlook).2.1).ne

omit [DecidableEq V] in
/-- The actions that make threads. -/
theorem threads_advance (h : s.advance (fun _ => id) choice = .ok (a, res, s', th)) :
    (s'.threads = s.threads ∧ (∀ child, a ≠ .spawn child) ∧ ∀ clone, a ≠ .fork clone) ∨
    (∃ child, a = .spawn child ∧ s'.current = s.current ∧
      s'.threads = s.threads ++ [⟨.fresh child, th.heap⟩]) ∨
    ∃ clone, a = .fork clone ∧ s'.current = s.current ∧ s'.threads = s.threads ++ [clone] ∧
      s.lookup choice = .ok (.fork clone) := by
  obtain ⟨parent, hp, hlook, hact, hth⟩ := advance_ok h
  have hcur : (s.switchTo s.current).2.current = s.current := by
    rw [System.switchTo]
    split <;> rfl
  have hthreads := threads_switchTo s s.current
  cases a with
  | spawn child =>
      have hsame := thread_act (by simp) (thread_switchTo hp) hact
      obtain rfl := Except.ok.inj (hth.symm.trans hsame)
      obtain ⟨x, hx, hact⟩ := bind_ok hact
      obtain rfl := Except.ok.inj (hx.symm.trans (thread_switchTo hp))
      cases hact
      exact .inr (.inl ⟨child, rfl, hcur, by simp [hthreads]⟩)
  | fork clone =>
      cases hact
      exact .inr (.inr ⟨clone, rfl, hcur, by simp [hthreads], hlook⟩)
  | _ =>
      rcases threads_act hact with hsame | ⟨_, _, heq, -⟩ | ⟨_, heq, -⟩
      · exact .inl ⟨hsame.trans hthreads, by simp, by simp⟩
      · cases heq
      · cases heq

omit [DecidableEq V] in
theorem advance_grow (h : s.advance (fun _ => id) choice = .ok (a, res, s', th)) :
    ∃ new, s'.threads = s.threads ++ new := by
  obtain ⟨parent, -, -, hact, -⟩ := advance_ok h
  rw [← threads_switchTo s s.current]
  exact threads_grow hact

omit [DecidableEq V] in
/-- A thread that is resumed has the heap that it had before. -/
theorem heapOf_resumed (h : s.advance (fun _ => id) choice = .ok (a, res, s', th))
    (hp : s.heapOf s'.current = some p) : th.heap = p := by
  obtain ⟨new, hgrow⟩ := advance_grow h
  have hth := heapOf_eq_some.mpr ⟨th, (advance_ok h).choose_spec.2.2.2, rfl⟩
  exact Option.some.inj (hth.symm.trans (heapOf_grow hgrow hp))

omit [DecidableEq V] in
theorem childrenApart_advance {own : List (Event V G)} (hc : CloneApart s)
    (ho : ChildrenApart s own) (h : s.advance (fun _ => id) choice = .ok (a, res, s', th))
    (n : Nat) :
    ChildrenApart s' (own ++ [Event.of n a res s' th]) := by
  obtain ⟨new, hgrow⟩ := advance_grow h
  intro f hf c hforks
  rcases List.mem_append.mp hf with hf | hf
  · obtain ⟨p, q, hp, hq, hne⟩ := ho f hf c hforks
    exact ⟨p, q, heapOf_grow hgrow hp, heapOf_grow hgrow hq, hne⟩
  · rw [List.mem_singleton.mp hf] at hforks ⊢
    obtain ⟨⟨clone', haction⟩, hcount⟩ := hforks
    have hth := (advance_ok h).choose_spec.2.2.2
    rcases threads_advance h with ⟨-, -, hno⟩ | ⟨child, rfl, -⟩ | ⟨clone, rfl, hcur, hnew, hlook⟩
    · exact absurd haction (hno clone')
    · cases haction
    · have hlen : c = s.threads.length := by simpa [Event.of, hnew] using hcount.symm
      obtain ⟨x, hx, -⟩ := advance_ok h
      refine ⟨th.heap, clone.heap, heapOf_eq_some.mpr ⟨th, hth, rfl⟩, ?_, ?_⟩
      · refine heapOf_eq_some.mpr ⟨clone, ?_, rfl⟩
        rw [thread_eq_ok, hnew, hlen, List.getElem?_concat_length]
      · have hsame : x = th := Except.ok.inj ((thread_append hnew hx).symm.trans (hcur ▸ hth))
        exact hsame ▸ hc choice clone hlook x (mem_of_thread hx)

end Heaps

/-! ## Families -/

/-- The founders of the threads, one more after an event that makes a thread.  A thread
that is spawned belongs to the family of its parent, and the child of a fork founds
one. -/
def Event.found (fs : List Nat) (e : Event V G) : List Nat :=
  match e.action with
  | .spawn _ => fs ++ [fs.getD e.tid 0]
  | .fork _ => fs ++ [fs.length]
  | _ => fs

/-- The founders of the threads after the resumptions in `own`. -/
def founders (own : List (Event V G)) : List Nat := own.foldl Event.found [0]

theorem founders_append (own : List (Event V G)) (e : Event V G) :
    founders (own ++ [e]) = e.found (founders own) := by
  simp [founders]

/-- Families have one heap each. -/
structure Families (fs heaps : List Nat) : Prop where
  older : ∀ x ∈ fs, x < fs.length
  heap : ∃ f : Nat → Nat, heaps = fs.map f ∧ ∀ x ∈ fs, ∀ y ∈ fs, f x = f y → x = y

namespace Families

variable {fs heaps : List Nat}

/-- A thread in the family of the thread `i`. -/
theorem spawn (h : Families fs heaps) {i p : Nat} (hp : heaps[i]? = some p) :
    Families (fs ++ [fs.getD i 0]) (heaps ++ [p]) := by
  obtain ⟨f, rfl, hinj⟩ := h.heap
  rw [List.getElem?_map, Option.map_eq_some_iff] at hp
  obtain ⟨x, hx, rfl⟩ := hp
  have hmem := List.mem_of_getElem? hx
  have hget : fs.getD i 0 = x := by rw [List.getD_eq_getElem?_getD, hx, Option.getD_some]
  have hsame (y : Nat) (hy : y ∈ fs ++ [x]) : y ∈ fs :=
    (List.mem_append.mp hy).elim (fun hy => hy) fun hy => List.mem_singleton.mp hy ▸ hmem
  rw [hget]
  refine ⟨fun y hy => ?_, f, by simp, fun y hy z hz => hinj y (hsame y hy) z (hsame z hz)⟩
  rw [List.length_append]
  exact (h.older y (hsame y hy)).trans_le (Nat.le_add_right _ _)

/-- A thread with a heap of its own. -/
theorem fork (h : Families fs heaps) {p : Nat} (hp : p ∉ heaps) :
    Families (fs ++ [fs.length]) (heaps ++ [p]) := by
  obtain ⟨f, rfl, hinj⟩ := h.heap
  have hold (x : Nat) (hx : x ∈ fs) : Function.update f fs.length p x = f x :=
    Function.update_of_ne (h.older x hx).ne _ _
  have hnew (x : Nat) (hx : x ∈ fs) : f x ≠ p := fun heq => hp (heq ▸ List.mem_map_of_mem hx)
  refine ⟨fun x hx => ?_, Function.update f fs.length p, ?_, fun x hx y hy => ?_⟩
  · rw [List.length_append, List.length_singleton]
    rcases List.mem_append.mp hx with hx | hx
    · exact (h.older x hx).trans (Nat.lt_succ_self _)
    · exact List.mem_singleton.mp hx ▸ Nat.lt_succ_self _
  · rw [List.map_append, List.map_congr_left hold, List.map_singleton, Function.update_self]
  · rw [List.mem_append, List.mem_singleton] at hx hy
    rcases hx with hx | rfl <;> rcases hy with hy | rfl
    · rw [hold x hx, hold y hy]
      exact hinj x hx y hy
    · rw [hold x hx, Function.update_self]
      exact fun heq => absurd heq (hnew x hx)
    · rw [hold y hy, Function.update_self]
      exact fun heq => absurd heq.symm (hnew y hy)
    · exact fun _ => rfl

end Families

section Run

variable [DecidableEq V] [PyValue V] {s s' : System V G (Thread G)} {own : List (Event V G)}

omit [DecidableEq V] in
theorem families_advance {choice : Label} {a : Action V G (Thread G)} {res : V} {th : Thread G}
    (hc : CloneApart s) (hf : Families (founders own) (s.threads.map Thread.heap))
    (h : s.advance (fun _ => id) choice = .ok (a, res, s', th)) (n : Nat) :
    Families (founders (own ++ [Event.of n a res s' th])) (s'.threads.map Thread.heap) := by
  rw [founders_append]
  rcases threads_advance h with ⟨hsame, hspawn, hfork⟩ | ⟨child, rfl, hcur, hnew⟩ |
    ⟨clone, rfl, -, hnew, hlook⟩
  · have hfound : (Event.of n a res s' th).found (founders own) = founders own := by
      unfold Event.found
      split
      next heq => exact absurd heq (hspawn _)
      next heq => exact absurd heq (hfork _)
      · rfl
    rw [hsame, hfound]
    exact hf
  · obtain ⟨x, hx, -⟩ := advance_ok h
    have hp : s.heapOf s'.current = some x.heap := heapOf_eq_some.mpr ⟨x, hcur ▸ hx, rfl⟩
    rw [hnew, List.map_append, heapOf_resumed h hp]
    exact hf.spawn hp
  · rw [hnew, List.map_append]
    refine hf.fork fun hmem => ?_
    obtain ⟨x, hx, heq⟩ := List.mem_map.mp hmem
    exact hc choice clone hlook x hx heq

/-! ## Runs -/

variable {app : App V G H L S} {send : Behavior V G H} {w : World H} {os : OperatingSystem V G}

/-- The heaps of a system, after the resumptions in `own`. -/
structure HeapsApart (w : World H) (s : System V G (Thread G)) (own : List (Event V G)) :
    Prop where
  within : Within 0 w.nextHeap s
  clone : CloneApart s
  children : ChildrenApart s own
  families : Families (founders own) (s.threads.map Thread.heap)

omit [DecidableEq V] [PyValue V] in
theorem heapsApart_create (w : World H) :
    HeapsApart (create app w).1 (create app w).2.sys ([] : List (Event V G)) where
  within := ⟨fun th hth => ⟨Nat.zero_le _, ((Within.create w).threads th hth).2⟩,
    fun c th h => ⟨Nat.zero_le _, ((Within.create w).clones c th h).2⟩⟩
  clone := fun c th h => by cases (get?_oneChoice.mp ((lookup_of_choices rfl).mp h)).2
  children := by simp [ChildrenApart]
  families := ⟨by simp [founders], fun _ => w.nextHeap, rfl, by simp [founders]⟩

theorem HeapsApart.step {choice : Label} {a : Action V G (Thread G)} {res : V}
    {sys : System V G (Thread G)} {th : Thread G} {r : World H × OperatingSystem V G}
    (h : HeapsApart w os.sys own)
    (hadv : os.sys.advance (fun _ => id) choice = .ok (a, res, sys, th))
    (hstep : Stepped app w sys (Event.of os.id a res sys th) r) :
    HeapsApart r.1 r.2.sys (own ++ [Event.of os.id a res sys th]) where
  within := (hstep.within h.within (Nat.zero_le _) hadv).1
  clone := hstep.ends.cloneApart fun x hx => (h.within.advance hadv x hx).2
  children := by
    have hchildren := childrenApart_advance h.clone h.children hadv os.id
    unfold ChildrenApart System.heapOf at hchildren ⊢
    rwa [hstep.ends.heaps_eq]
  families := by
    rw [hstep.ends.heaps_eq]
    exact families_advance h.clone h.families hadv os.id

theorem Reach.heapsApart (h : Reach app send w os own) : HeapsApart w os.sys own := by
  induction h with
  | create w => exact heapsApart_create w
  | wait _ hw ih => exact { ih with within := ih.within.mono hw }
  | step _ hstep ih =>
      obtain ⟨a, res, sys, th, hadv, rfl, hstepped⟩ := stepped_of_step hstep
      exact ih.step hadv hstepped

/-- What a step does to heaps. -/
structure Isolates (w : World H) (os : OperatingSystem V G) (own past : List (Event V G))
    (out : List (Event V G) × Except Fault (World H × OperatingSystem V G)) : Prop where
  /-- Whenever a thread is resumed, by the system or by one nested in it, the global
  variables are its heap and the system that resumes it. -/
  globals : ∃ new, out.1 = past ++ new ∧
    ∀ e ∈ new, e.globalHeap = e.thread.heap ∧ e.globalOs = e.os
  /-- Of the heaps before the step only that of the thread resumed can change.  In
  particular neither the parent nor the child of a fork sees what the other writes. -/
  writes : ∀ w' os', out.2 = .ok (w', os') → ∃ e nested, out.1 = past ++ e :: nested ∧
    e.os = os.id ∧
    (∀ addr < w.nextHeap, addr ≠ e.thread.heap → w'.heaps addr = w.heaps addr) ∧
    ∀ f ∈ own, ∀ c, f.Forks c → ∃ p q, os.sys.heapOf f.tid = some p ∧ os.sys.heapOf c = some q ∧
      p ≠ q ∧ (e.tid = f.tid → w'.heaps q = w.heaps q) ∧ (e.tid = c → w'.heaps p = w.heaps p)

/-- In every state that is reached, a step isolates heaps. -/
theorem step_isolates_heaps (h : Reach app send w os own) (fuel : Nat) (stack : List Bool)
    (choice : Label) (flag : Bool) (past : List (Event V G)) :
    Isolates w os own past
      (stepRecorded app send (sysForkRecorded app send fuel) stack w os choice flag past) := by
  obtain ⟨new, hlog, hnew, -⟩ := @stepRecorded_emits V G H L S _ _ app send _
    (sysForkRecorded_forks fuel) stack w os choice flag past
  refine ⟨⟨new, hlog, hnew⟩, fun w' os' hok => ?_⟩
  obtain ⟨a, res, sys, th, nested, hadv, hlog', hstep⟩ := stepRecorded_ok (Prod.ext rfl hok)
  refine ⟨_, nested, hlog', rfl, hstep.heap_eq, fun f hf c hforks => ?_⟩
  obtain ⟨p, q, hp, hq, hne⟩ := h.heapsApart.children f hf c hforks
  have hbelow {tid addr : Nat} (haddr : os.sys.heapOf tid = some addr) : addr < w.nextHeap := by
    obtain ⟨x, hx, rfl⟩ := heapOf_eq_some.mp haddr
    exact (h.heapsApart.within.threads x (mem_of_thread hx)).2
  refine ⟨p, q, hp, hq, hne, fun (htid : sys.current = f.tid) => ?_,
    fun (htid : sys.current = c) => ?_⟩
  · have hth : th.heap = p := heapOf_resumed hadv (htid ▸ hp)
    exact hstep.heap_eq q (hbelow hq) fun heq => hne (hth.symm.trans heq.symm)
  · have hth : th.heap = q := heapOf_resumed hadv (htid ▸ hq)
    exact hstep.heap_eq p (hbelow hp) fun heq => hne (heq.trans hth)

end Run

/-- The step after the fork of the application. -/
theorem step_isolates_heaps_forkOnce :
    ∃ w os own, Reach forkOnce (fun _ => forkOnce.send) w os own ∧ (∃ f ∈ own, f.Forks 1) ∧
      Isolates w os own [] (stepRecorded forkOnce (fun _ => forkOnce.send)
        (sysForkRecorded forkOnce (fun _ => forkOnce.send) 2) [] w os (.str "t2") false []) := by
  obtain ⟨w, os, own, hreach, -, hwait⟩ := forkOnce_reach
  exact ⟨w, os, own, hreach, hwait.1, step_isolates_heaps hreach 2 [] _ false []⟩

end OsCourse.Mosaic
