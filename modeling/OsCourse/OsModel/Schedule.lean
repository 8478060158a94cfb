import OsCourse.OsModel.Os
import Mathlib.Logic.Hydra
import Mathlib.Tactic

/-!
# Every schedule runs every process to its end

What a process does on its own is the relation `Steps`: the events of a process
that was created as `q`, up to a state in which it waits for a value.  `Terminates`
says that a process and all that it spawns come to an end and make no other
system calls, whatever bits they read.

The invariant `Scheduled` splits the log of a run among the processes: each one
that is alive has made the steps the log has of it and waits for the value that
the system holds for it, and each one that is not alive has exited.  A round
replaces one process by what is left of it and what it spawns, which is a step of
`Relation.CutExpand`, so the loop ends.
-/

namespace OsCourse.OsModel

variable {Q : Type}

/-! ## Processes on their own -/

/-- A process in the state `q`, resumed with the value `r`, does `e` and waits in
the state `q'` to be resumed with `r'`. -/
inductive Step (send : Send Q) : Q → Option Bit → Event Q → Q → Option Bit → Prop where
  | read {q r q'} (bit : Bit) (h : send q r = .yields .read q') :
      Step send q r (.read bit) q' (some bit)
  | write {q r s q'} (h : send q r = .yields (.write s) q') : Step send q r (.write s) q' none
  | spawn {q r c q'} (h : send q r = .yields (.spawn c) q') : Step send q r (.spawn c) q' none

/-- A process created as `q` has done `es` and waits in the state `q'` to be resumed
with `r'`. -/
inductive Steps (send : Send Q) (q : Q) : List (Event Q) → Q → Option Bit → Prop where
  | start : Steps send q [] q none
  | step {es q' r' e q'' r''} (h : Steps send q es q' r') (he : Step send q' r' e q'' r'') :
      Steps send q (es ++ [e]) q'' r''

/-- A process created as `q` has done `es` from its start to its end. -/
def Completes (send : Send Q) (q : Q) (es : List (Event Q)) : Prop :=
  ∃ es' q' r', es = es' ++ [.exit] ∧ Steps send q es' q' r' ∧ send q' r' = .stop

/-- The process and all those it spawns come to an end, and make no call but the
three that the system has. -/
inductive Terminates (send : Send Q) : Q → Option Bit → Prop where
  | stop {q r} (h : send q r = .stop) : Terminates send q r
  | read {q r q'} (h : send q r = .yields .read q')
      (next : ∀ bit, Terminates send q' (some bit)) : Terminates send q r
  | write {q r s q'} (h : send q r = .yields (.write s) q') (next : Terminates send q' none) :
      Terminates send q r
  | spawn {q r c q'} (h : send q r = .yields (.spawn c) q') (next : Terminates send q' none)
      (child : Terminates send c none) : Terminates send q r

section
variable {send : Send Q} {q q' next : Q} {r r' : Option Bit} {e : Event Q}

theorem Step.not_stop (hs : Step send q r e q' r') : send q r ≠ .stop := by
  cases hs <;> simp_all

theorem Step.of_read (h : send q r = .yields .read next) (hs : Step send q r e q' r') :
    ∃ bit, e = .read bit ∧ q' = next ∧ r' = some bit := by
  cases hs <;> simp_all

theorem Step.of_write {s : String} (h : send q r = .yields (.write s) next)
    (hs : Step send q r e q' r') : e = .write s ∧ q' = next ∧ r' = none := by
  cases hs <;> simp_all

theorem Step.of_spawn {c : Q} (h : send q r = .yields (.spawn c) next)
    (hs : Step send q r e q' r') : e = .spawn c ∧ q' = next ∧ r' = none := by
  cases hs <;> simp_all

end

/-- The text an event writes. -/
def Event.text : Event Q → String
  | .write s => s
  | _ => ""

/-- The process an event creates, if it creates one. -/
def Event.spawned : Event Q → List Q
  | .spawn c => [c]
  | _ => []

/-- What the log has of the process `id`. -/
def eventsOf (id : Nat) (log : List (Nat × Event Q)) : List (Event Q) :=
  (log.filter fun x => x.1 == id).map Prod.snd

/-- The processes of a run in the order of their creation. -/
def processes (main : Q) (log : List (Nat × Event Q)) : List Q :=
  main :: log.flatMap fun x => x.2.spawned

/-- All that the log writes, in its order. -/
def written (log : List (Nat × Event Q)) : String :=
  String.join (log.map fun x => x.2.text)

/-- At most one process is created at once. -/
theorem Event.spawned_eq {e : Event Q} {c : Q} (h : c ∈ e.spawned) : e.spawned = [c] := by
  cases e <;> simp_all [Event.spawned]

section
variable (id : Nat) (log : List (Nat × Event Q)) (x : Nat × Event Q)

theorem eventsOf_concat :
    eventsOf id (log ++ [x]) = eventsOf id log ++ if x.1 = id then [x.2] else [] := by
  by_cases h : x.1 = id <;> simp [eventsOf, List.filter_append, h]

theorem eventsOf_own (e : Event Q) : eventsOf id (log ++ [(id, e)]) = eventsOf id log ++ [e] := by
  rw [eventsOf_concat, if_pos rfl]

theorem eventsOf_other {id' : Nat} (h : id ≠ id') (e : Event Q) :
    eventsOf id (log ++ [(id', e)]) = eventsOf id log := by
  rw [eventsOf_concat, if_neg h.symm, List.append_nil]

/-- Nothing is logged of a process that is not there yet. -/
theorem eventsOf_unknown {log : List (Nat × Event Q)} (h : ∀ x ∈ log, x.1 < id) :
    eventsOf id log = [] := by
  have hnone : log.filter (fun x => x.1 == id) = [] :=
    List.filter_eq_nil_iff.mpr fun x hx heq => (h x hx).ne (by simpa using heq)
  rw [eventsOf, hnone, List.map_nil]

theorem processes_concat (main : Q) :
    processes main (log ++ [x]) = processes main log ++ x.2.spawned := by
  simp [processes]

theorem written_concat : written (log ++ [x]) = written log ++ x.2.text := by
  simp [written, String.join]

end

/-! ## The measure -/

/-- The process `x` is what is left of `y` after a step, or was spawned by it. -/
def Below (send : Send Q) (x y : Q × Option Bit) : Prop :=
  ∃ e q' r', Step send y.1 y.2 e q' r' ∧ (x = (q', r') ∨ ∃ c ∈ e.spawned, x = (c, none))

/-- `Below` on processes that terminate. -/
def Smaller (send : Send Q) (x y : Q × Option Bit) : Prop :=
  Below send x y ∧ Terminates send y.1 y.2

section
variable {send : Send Q} {q q' : Q} {r r' : Option Bit} {e : Event Q}

/-- What a step leaves of a process that terminates, and what it spawns, does too. -/
theorem Terminates.step (h : Terminates send q r) (hs : Step send q r e q' r') :
    Terminates send q' r' ∧ ∀ c ∈ e.spawned, Terminates send c none := by
  cases h with
  | stop h => exact absurd h hs.not_stop
  | read h next =>
      obtain ⟨bit, rfl, rfl, rfl⟩ := hs.of_read h
      exact ⟨next bit, by simp [Event.spawned]⟩
  | write h next =>
      obtain ⟨rfl, rfl, rfl⟩ := hs.of_write h
      exact ⟨next, by simp [Event.spawned]⟩
  | spawn h next child =>
      obtain ⟨rfl, rfl, rfl⟩ := hs.of_spawn h
      exact ⟨next, by simpa [Event.spawned] using child⟩

theorem Terminates.acc (h : Terminates send q r) : Acc (Smaller send) (q, r) := by
  induction h with
  | stop h =>
      refine ⟨_, ?_⟩
      rintro x ⟨⟨e, q', r', hs, -⟩, -⟩
      exact absurd h hs.not_stop
  | read h _ ih =>
      refine ⟨_, ?_⟩
      rintro x ⟨⟨e, q', r', hs, hx⟩, -⟩
      obtain ⟨bit, rfl, rfl, rfl⟩ := hs.of_read h
      obtain rfl : x = _ := by simpa [Event.spawned] using hx
      exact ih bit
  | write h _ ih =>
      refine ⟨_, ?_⟩
      rintro x ⟨⟨e, q', r', hs, hx⟩, -⟩
      obtain ⟨rfl, rfl, rfl⟩ := hs.of_write h
      obtain rfl : x = _ := by simpa [Event.spawned] using hx
      exact ih
  | spawn h _ _ ih ihc =>
      refine ⟨_, ?_⟩
      rintro x ⟨⟨e, q', r', hs, hx⟩, -⟩
      obtain ⟨rfl, rfl, rfl⟩ := hs.of_spawn h
      obtain rfl | rfl : x = _ ∨ x = _ := by simpa [Event.spawned] using hx
      · exact ih
      · exact ihc

end

instance (send : Send Q) : Std.Irrefl (Smaller send) where
  irrefl x h := by
    have hacc : Acc (Smaller send) x := h.2.acc
    induction hacc with
    | intro x _ ih => exact ih x h h

/-- What the processes of a list have left to do. -/
def load (procs : List (Process Q)) : Multiset (Q × Option Bit) :=
  procs.map fun p => (p.func, p.retval)

theorem load_append (l m : List (Process Q)) : load (l ++ m) = load l + load m := by
  simp [load]

theorem load_cons (p : Process Q) (l : List (Process Q)) :
    load (p :: l) = {(p.func, p.retval)} + load l := rfl

theorem acc_load {send : Send Q} {procs : List (Process Q)}
    (h : ∀ p ∈ procs, Terminates send p.func p.retval) :
    Acc (Relation.CutExpand (Smaller send)) (load procs) := by
  refine Relation.acc_of_singleton fun x hx => ?_
  obtain ⟨p, hp, rfl⟩ : ∃ p ∈ procs, (p.func, p.retval) = x := by simpa [load] using hx
  exact (h p hp).acc.cutExpand

/-! ## Rounds -/

/-- The system after a process `p` between `before` and `behind` has done `e`. -/
def OS.after (os : OS Q) (before behind : List (Process Q)) (p : Process Q)
    (e : Event Q) : OS Q where
  procs := before ++ p :: behind ++ e.spawned.map fun c => ⟨os.created, c, none⟩
  buffer := os.buffer ++ e.text
  created := os.created + e.spawned.length

section
variable {send : Send Q} {os : OS Q} {before behind : List (Process Q)} {p : Process Q} {bit : Bit}

/-- A draw picks one of the processes. -/
theorem OS.choice_ok (h : os.procs ≠ []) (draw : Draw) :
    ∃ before p behind, os.procs = before ++ p :: behind ∧
      os.choice draw = .ok (before.length, p) := by
  have hlt : draw.proc % os.procs.length < os.procs.length :=
    Nat.mod_lt _ (List.length_pos_iff.mpr h)
  let i := draw.proc % os.procs.length
  refine ⟨os.procs.take i, os.procs[i], os.procs.drop (i + 1), ?_, ?_⟩
  · rw [← List.drop_eq_getElem_cons hlt, List.take_append_drop]
  · simp [OS.choice, i, List.getElem?_eq_getElem hlt, Nat.min_eq_left hlt.le]

/-- The round of a process that stops. -/
theorem OS.round_stop (hprocs : os.procs = before ++ p :: behind)
    (hid : p.id ∉ before.map Process.id) (hstop : send p.func p.retval = .stop) :
    os.round send before.length p bit = .ok { os with procs := before ++ behind } := by
  have herase : os.procs.eraseP (fun x => x.id == p.id) = before ++ behind := by
    have hne : ∀ x ∈ before, ¬ (x.id == p.id) = true := by
      intro x hx heq
      exact hid (List.mem_map.mpr ⟨x, hx, by simpa using heq⟩)
    rw [hprocs, List.eraseP_append_right _ hne]
    simp
  simp only [OS.round, Process.step, hstop, herase]

/-- The round of a process that makes a step. -/
theorem OS.round_step {e : Event Q} {q' : Q} {r' : Option Bit}
    (hprocs : os.procs = before ++ p :: behind) (hs : Step send p.func p.retval e q' r')
    (hbit : ∀ b, e = .read b → b = bit) :
    os.round send before.length p bit = .ok (os.after before behind ⟨p.id, q', r'⟩ e) ∧
      p.event send bit = e := by
  cases hs with
  | read b h =>
      obtain rfl := hbit b rfl
      simp [OS.round, Process.step, Process.event, h, OS.after, hprocs, Event.spawned, Event.text]
  | write h | spawn h =>
      simp [OS.round, Process.step, Process.event, h, OS.after, hprocs, Event.spawned, Event.text]

/-- A process that terminates stops or makes a step, and reads the bit drawn. -/
theorem Terminates.stop_or_step {q : Q} {r : Option Bit} (h : Terminates send q r) (bit : Bit) :
    send q r = .stop ∨
      ∃ e q' r', Step send q r e q' r' ∧ ∀ b, e = .read b → b = bit := by
  cases h with
  | stop h => exact .inl h
  | read h => exact .inr ⟨_, _, _, .read bit h, by simp⟩
  | write h => exact .inr ⟨_, _, _, .write h, by simp⟩
  | spawn h => exact .inr ⟨_, _, _, .spawn h, by simp⟩

end

/-! ## The invariant -/

/-- The state of a run from `main`: how the log and the processes fit together. -/
structure Scheduled (send : Send Q) (random : Nat → Draw) (main : Q) (s : Logged Q) : Prop where
  /-- The log has an entry for each round, with the bit drawn in it. -/
  rounds : s.log.length = s.rounds
  bits : ∀ k id b, s.log[k]? = some (id, .read b) → b = (random k).bit
  buffer : s.os.buffer = written s.log
  created : s.os.created = (processes main s.log).length
  ids : (s.os.procs.map Process.id).Nodup
  known : ∀ x ∈ s.log, x.1 < s.os.created
  terminates : ∀ p ∈ s.os.procs, Terminates send p.func p.retval
  /-- A process that is alive is where the log has led it. -/
  alive : ∀ p ∈ s.os.procs, ∃ q, (processes main s.log)[p.id]? = some q ∧
    Steps send q (eventsOf p.id s.log) p.func p.retval
  /-- A process that is not alive has exited. -/
  gone : ∀ id q, (processes main s.log)[id]? = some q → id ∉ s.os.procs.map Process.id →
    Completes send q (eventsOf id s.log)

theorem scheduled_init {send : Send Q} {main : Q} (h : Terminates send main none)
    (random : Nat → Draw) : Scheduled send random main ⟨OS.init main, 0, []⟩ where
  rounds := rfl
  bits := by simp
  buffer := rfl
  created := rfl
  ids := by simp [OS.init]
  known := by simp
  terminates := by simpa [OS.init] using h
  alive := by simpa [OS.init, processes, eventsOf] using Steps.start
  gone := by
    intro id q hq hid
    have hpos : id ≠ 0 := by simpa [OS.init] using hid
    simp [processes, hpos] at hq

section
variable {send : Send Q} {random : Nat → Draw} {main : Q} {s : Logged Q}
  {before behind : List (Process Q)} {p : Process Q}

theorem getElem?_append_some {α : Type} {l m : List α} {i : Nat} {a : α} (h : l[i]? = some a) :
    (l ++ m)[i]? = some a := by
  rw [List.getElem?_append_left (List.getElem?_eq_some_iff.mp h).1, h]

variable {x : Process Q} {id : Nat} {e : Event Q}

theorem mem_split :
    x ∈ before ++ p :: behind ↔ x = p ∨ x ∈ before ++ behind := by
  simp only [List.mem_append, List.mem_cons]
  tauto

/-- The processes around `p` have other numbers. -/
theorem ids_split (h : ((before ++ p :: behind).map Process.id).Nodup) :
    p.id ∉ (before ++ behind).map Process.id ∧ ((before ++ behind).map Process.id).Nodup := by
  have hperm : (before ++ p :: behind).Perm (p :: (before ++ behind)) := List.perm_middle
  exact List.nodup_cons.mp ((hperm.map Process.id).nodup_iff.mp h)

/-- The number of a process that is alive is below the number of the next one. -/
theorem Scheduled.id_lt (hI : Scheduled send random main s) (hp : p ∈ s.os.procs) :
    p.id < s.os.created := by
  obtain ⟨q, hq, -⟩ := hI.alive p hp
  rw [hI.created]
  exact (List.getElem?_eq_some_iff.mp hq).1

/-- The log of a round more has a bit in it only if it was drawn in its round. -/
theorem Scheduled.bits_concat (hI : Scheduled send random main s)
    (he : ∀ b, e = .read b → b = (random s.rounds).bit) :
    ∀ k id' b, (s.log ++ [(id, e)])[k]? = some (id', .read b) → b = (random k).bit := by
  intro k id' b hk
  rw [List.getElem?_append] at hk
  split at hk
  · exact hI.bits k id' b hk
  · have hlen : k = s.log.length := by
      have := (List.getElem?_eq_some_iff.mp hk).1
      simp at this
      omega
    subst hlen
    rw [hI.rounds]
    exact he b (by simpa using congrArg (Option.map Prod.snd) hk)

/-- The processes after a step: what is left of `p`, the others, and what `p` spawned. -/
theorem OS.mem_after {os : OS Q} (hx : x ∈ (os.after before behind p e).procs) :
    x = p ∨ x ∈ before ++ behind ∨ ∃ c, e.spawned = [c] ∧ x = ⟨os.created, c, none⟩ := by
  rcases List.mem_append.mp hx with hx | hx
  · exact (mem_split.mp hx).imp_right .inl
  · obtain ⟨c, hc, rfl⟩ := List.mem_map.mp hx
    exact .inr (.inr ⟨c, e.spawned_eq hc, rfl⟩)

theorem OS.ids_after {os : OS Q} (hprocs : os.procs = before ++ p :: behind) (e : Event Q) (q' : Q)
    (r' : Option Bit) : (os.after before behind ⟨p.id, q', r'⟩ e).procs.map Process.id =
      os.procs.map Process.id ++ e.spawned.map fun _ => os.created := by
  simp [OS.after, hprocs, Function.comp_def]

theorem Scheduled.known_concat (hI : Scheduled send random main s) (hp : p ∈ s.os.procs)
    (e : Event Q) : ∀ x ∈ s.log ++ [(p.id, e)], x.1 < s.os.created := by
  intro x hx
  rcases List.mem_append.mp hx with hx | hx
  · exact hI.known x hx
  · rw [List.mem_singleton.mp hx]
    exact hI.id_lt hp

/-- The processes around `p` stay where they are in its round. -/
theorem Scheduled.alive_concat (hI : Scheduled send random main s)
    (hprocs : s.os.procs = before ++ p :: behind) (e : Event Q) (hx : x ∈ before ++ behind) :
    ∃ q, (processes main (s.log ++ [(p.id, e)]))[x.id]? = some q ∧
      Steps send q (eventsOf x.id (s.log ++ [(p.id, e)])) x.func x.retval := by
  have hne : x.id ≠ p.id := fun heq =>
    (ids_split (hprocs ▸ hI.ids)).1 (heq ▸ List.mem_map_of_mem hx)
  obtain ⟨q, hq, hsteps⟩ := hI.alive x (hprocs ▸ mem_split.mpr (.inr hx))
  rw [processes_concat, eventsOf_other _ _ hne]
  exact ⟨q, getElem?_append_some hq, hsteps⟩

/-- A process that was gone before the round of `p` is not concerned by it. -/
theorem Scheduled.gone_concat (hI : Scheduled send random main s) (hp : p ∈ s.os.procs)
    (e : Event Q) {q : Q} (hq : (processes main s.log)[id]? = some q)
    (hid : id ∉ s.os.procs.map Process.id) :
    Completes send q (eventsOf id (s.log ++ [(p.id, e)])) := by
  have hne : id ≠ p.id := fun heq => hid (heq ▸ List.mem_map_of_mem hp)
  rw [eventsOf_other _ _ hne]
  exact hI.gone id q hq hid

/-- The numbers stay apart: a process spawned takes one that nothing has had. -/
theorem Scheduled.ids_spawned (hI : Scheduled send random main s) (e : Event Q) :
    (s.os.procs.map Process.id ++ e.spawned.map fun _ => s.os.created).Nodup := by
  refine List.nodup_append.mpr ⟨hI.ids, ?_, ?_⟩
  · cases e <;> simp [Event.spawned]
  · intro i hi j hj
    obtain ⟨x, hx, rfl⟩ := List.mem_map.mp hi
    obtain ⟨c, -, rfl⟩ := List.mem_map.mp hj
    exact (hI.id_lt hx).ne

/-- The number of a process spawned in this round is one of the numbers given in it. -/
theorem Scheduled.spawned_id (hI : Scheduled send random main s) {q : Q}
    (hge : (processes main s.log).length ≤ id)
    (hq : e.spawned[id - (processes main s.log).length]? = some q) :
    id ∈ e.spawned.map fun _ => s.os.created := by
  have hlt := (List.getElem?_eq_some_iff.mp hq).1
  rw [e.spawned_eq (List.mem_of_getElem? hq), List.length_singleton] at hlt
  refine List.mem_map.mpr ⟨q, List.mem_of_getElem? hq, ?_⟩
  rw [hI.created]
  omega

/-- The round of a process that stops keeps the invariant. -/
theorem Scheduled.stop (hI : Scheduled send random main s)
    (hprocs : s.os.procs = before ++ p :: behind) (hstop : send p.func p.retval = .stop) :
    Scheduled send random main
      ⟨{ s.os with procs := before ++ behind }, s.rounds + 1, s.log ++ [(p.id, .exit)]⟩ := by
  have hp : p ∈ s.os.procs := by simp [hprocs]
  have hproc : processes main (s.log ++ [(p.id, .exit)]) = processes main s.log := by
    rw [processes_concat]
    exact List.append_nil _
  constructor
  · simp [hI.rounds]
  · exact hI.bits_concat (by simp)
  · rw [written_concat, ← hI.buffer]
    simp [Event.text]
  · rw [hproc]
    exact hI.created
  · exact (ids_split (hprocs ▸ hI.ids)).2
  · exact hI.known_concat hp _
  · exact fun x hx => hI.terminates x (hprocs ▸ mem_split.mpr (.inr hx))
  · exact fun x hx => hI.alive_concat hprocs _ hx
  · intro id q hq hid
    rw [hproc] at hq
    by_cases hne : id = p.id
    · -- The process that stops has made all the steps the log has of it.
      subst hne
      obtain ⟨q', hq', hsteps⟩ := hI.alive p hp
      obtain rfl : q' = q := Option.some.inj (hq'.symm.trans hq)
      exact ⟨_, _, _, eventsOf_own .., hsteps, hstop⟩
    · refine hI.gone_concat hp _ hq fun hmem => hid ?_
      obtain ⟨x, hx, rfl⟩ := List.mem_map.mp hmem
      rw [hprocs] at hx
      rcases mem_split.mp hx with rfl | hx
      · exact absurd rfl hne
      · exact List.mem_map_of_mem hx

/-- The round of a process that makes a step keeps the invariant. -/
theorem Scheduled.step (hI : Scheduled send random main s)
    (hprocs : s.os.procs = before ++ p :: behind) {q' : Q} {r' : Option Bit}
    (hs : Step send p.func p.retval e q' r') (hbit : ∀ b, e = .read b → b = (random s.rounds).bit) :
    Scheduled send random main
      ⟨s.os.after before behind ⟨p.id, q', r'⟩ e, s.rounds + 1, s.log ++ [(p.id, e)]⟩ := by
  have hp : p ∈ s.os.procs := by simp [hprocs]
  obtain ⟨hterm, hchild⟩ := (hI.terminates p hp).step hs
  have hknown := hI.known_concat hp e
  constructor
  · simp [hI.rounds]
  · exact hI.bits_concat hbit
  · rw [written_concat, ← hI.buffer]
    rfl
  · rw [processes_concat, List.length_append, ← hI.created]
    rfl
  · rw [OS.ids_after hprocs]
    exact hI.ids_spawned e
  · exact fun x hx => (hknown x hx).trans_le (Nat.le_add_right _ _)
  · intro x hx
    rcases OS.mem_after hx with rfl | hx | ⟨c, hc, rfl⟩
    · exact hterm
    · exact hI.terminates x (hprocs ▸ mem_split.mpr (.inr hx))
    · exact hchild c (by simp [hc])
  · intro x hx
    rcases OS.mem_after hx with rfl | hx | ⟨c, hc, rfl⟩
    · obtain ⟨q, hq, hsteps⟩ := hI.alive p hp
      rw [processes_concat, eventsOf_own]
      exact ⟨q, getElem?_append_some hq, hsteps.step hs⟩
    · exact hI.alive_concat hprocs e hx
    · -- A new process has no entry in the log yet.
      rw [processes_concat, eventsOf_unknown _ hknown]
      exact ⟨c, by simp [hI.created, hc], .start⟩
  · intro id q hq hid
    rw [OS.ids_after hprocs, List.mem_append, not_or] at hid
    rw [processes_concat, List.getElem?_append] at hq
    split at hq
    · exact hI.gone_concat hp e hq hid.1
    · exact absurd (hI.spawned_id (by omega) hq) hid.2

/-- A round replaces one process by what is left of it and what it spawned. -/
theorem load_step (hprocs : s.os.procs = before ++ p :: behind) {q' : Q} {r' : Option Bit}
    (hterm : Terminates send p.func p.retval) (hs : Step send p.func p.retval e q' r') :
    Relation.CutExpand (Smaller send) (load (s.os.after before behind ⟨p.id, q', r'⟩ e).procs)
      (load s.os.procs) := by
  refine ⟨{(q', r')} + load (e.spawned.map fun c => ⟨s.os.created, c, none⟩),
    (p.func, p.retval), ?_, ?_⟩
  · intro x hx
    refine ⟨⟨e, q', r', hs, ?_⟩, hterm⟩
    simpa [load, eq_comm] using hx
  · simp only [OS.after, hprocs, load_append, load_cons]
    abel

theorem load_stop (hprocs : s.os.procs = before ++ p :: behind) :
    Relation.CutExpand (Smaller send) (load (before ++ behind)) (load s.os.procs) := by
  refine ⟨0, (p.func, p.retval), by simp, ?_⟩
  simp only [hprocs, load_append, load_cons]
  abel

/-- A round keeps the invariant and leaves less to do. -/
theorem Scheduled.round (hI : Scheduled send random main s)
    (hg : (logged send random).guard s = true) :
    ∃ t, (logged send random).body s = .ok t ∧ Scheduled send random main t ∧
      Relation.CutExpand (Smaller send) (load t.os.procs) (load s.os.procs) := by
  have hne : s.os.procs ≠ [] := by simpa [logged] using hg
  obtain ⟨before, p, behind, hprocs, hchoice⟩ := s.os.choice_ok hne (random s.rounds)
  have hterm : Terminates send p.func p.retval := hI.terminates p (by simp [hprocs])
  rcases hterm.stop_or_step (random s.rounds).bit with hstop | ⟨e, q', r', hs, hbit⟩
  · have hfresh : p.id ∉ before.map Process.id := fun hmem =>
      (ids_split (hprocs ▸ hI.ids)).1 (by simp_all)
    have hevent : p.event send (random s.rounds).bit = .exit := by simp [Process.event, hstop]
    refine ⟨_, ?_, hI.stop hprocs hstop, load_stop hprocs⟩
    simp only [logged, hchoice, bind, Except.bind, OS.round_stop hprocs hfresh hstop, hevent]
    rfl
  · obtain ⟨hround, hevent⟩ := OS.round_step hprocs hs hbit
    refine ⟨_, ?_, hI.step hprocs hs hbit, load_step hprocs hterm hs⟩
    simp only [logged, hchoice, bind, Except.bind, hround, hevent]
    rfl

end

/-! ## Runs -/

/-- For a terminating `main`, any order of the processes and any bits, `run` returns,
and its log says what happened.  The buffer is all that the log writes, in its
order; every process that was created has done, from its start to its exit, what the
log has of it; nothing else is logged; and each bit delivered is the one drawn in the
round of its `read`. -/
theorem run_completes (send : Send Q) (random : Nat → Draw) (main : Q)
    (hmain : Terminates send main none) :
    ∃ buffer log, (∃ enough, ∀ fuel, enough ≤ fuel →
        run send random fuel main = some (.ok buffer) ∧
        runLog send random fuel main = some (.ok log)) ∧
      (∀ fuel, run send random fuel main = none ∨ run send random fuel main = some (.ok buffer)) ∧
      buffer = written log ∧
      (∀ id q, (processes main log)[id]? = some q → Completes send q (eventsOf id log)) ∧
      (∀ x ∈ log, x.1 < (processes main log).length) ∧
      ∀ k id b, log[k]? = some (id, .read b) → b = (random k).bit := by
  have hacc : Acc (Relation.CutExpand (Smaller send)) (load (OS.init main).procs) :=
    acc_load (by simpa [OS.init] using hmain)
  obtain ⟨t, hpath, hend, hI⟩ := Loop.exists_path_of_acc (L := logged send random)
    (fun t => load t.os.procs) (fun s hI hg => hI.round hg) (scheduled_init hmain random) hacc
  have hempty : t.os.procs = [] := by simpa [logged] using hend
  obtain ⟨enough, hrun⟩ := hpath.run_eq hend
  refine ⟨t.os.buffer, t.log, ⟨enough, fun fuel hfuel => ⟨?_, ?_⟩⟩, fun fuel => ?_,
    hI.buffer, ?_, ?_, hI.bits⟩
  · rw [run, run_eq_logged send random fuel ⟨OS.init main, 0, []⟩, hrun fuel hfuel]
    rfl
  · rw [runLog, hrun fuel hfuel]
    rfl
  · rw [run, run_eq_logged send random fuel ⟨OS.init main, 0, []⟩]
    rcases hpath.run_cases hend fuel with h | h <;> simp [h, Except.map]
  · exact fun id q hq => hI.gone id q hq (by simp [hempty])
  · exact hI.created ▸ hI.known

/-! ## A program of the course -/

/-- The generators of `proc.py`: `main` by the number of processes it has spawned,
and `Process` by its name and the writes it has left. -/
inductive ProcPy where
  | main (spawned : Nat)
  | process (name : String) (left : Nat)

/-- `proc.py`. -/
def procPy : Send ProcPy
  | .main 0, _ => .yields (.spawn (.process "A" 5)) (.main 1)
  | .main 1, _ => .yields (.spawn (.process "B" 5)) (.main 2)
  | .main _, _ => .stop
  | .process name (left + 1), _ => .yields (.write name) (.process name left)
  | .process _ 0, _ => .stop

theorem process_terminates (name : String) (left : Nat) :
    Terminates procPy (.process name left) none := by
  induction left with
  | zero => exact .stop rfl
  | succ left ih => exact .write rfl ih

theorem main_terminates : Terminates procPy (.main 0) none :=
  .spawn rfl (.spawn rfl (.stop rfl) (process_terminates "B" 5)) (process_terminates "A" 5)

/-- `proc.py`, when the process drawn is always the first one. -/
theorem run_completes_procPy :
    Terminates procPy (.main 0) none ∧
    ∃ buffer log, (∃ enough, ∀ fuel, enough ≤ fuel →
        run procPy (fun _ => ⟨0, 0⟩) fuel (.main 0) = some (.ok buffer) ∧
        runLog procPy (fun _ => ⟨0, 0⟩) fuel (.main 0) = some (.ok log)) ∧
      (∀ fuel, run procPy (fun _ => ⟨0, 0⟩) fuel (.main 0) = none ∨
        run procPy (fun _ => ⟨0, 0⟩) fuel (.main 0) = some (.ok buffer)) ∧
      buffer = written log ∧
      (∀ id q, (processes (.main 0) log)[id]? = some q → Completes procPy q (eventsOf id log)) ∧
      (∀ x ∈ log, x.1 < (processes (ProcPy.main 0) log).length) ∧
      ∀ (k id : Nat) (b : Bit), log[k]? = some (id, .read b) → b = 0 :=
  ⟨main_terminates, run_completes procPy (fun _ => ⟨0, 0⟩) (.main 0) main_terminates⟩

end OsCourse.OsModel
