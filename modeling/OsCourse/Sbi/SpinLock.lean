import OsCourse.Lib.Bits
import OsCourse.Lib.Fair
import OsCourse.Lib.FifoLock
import Mathlib.Data.BitVec

/-!
# The ticket lock of the firmware

The harts of a machine share a `spinlock_t`.  `spin_lock` draws a ticket with one
`amoadd.w` and spins until `owner` is its ticket, `spin_trylock` draws one with `lr.w`
and `sc.w` if nobody has one, and `spin_unlock` increments `owner` with a load and a
store.  Each access of a hart to the lock is one step, and the instructions between two
accesses belong to the step of the access before them.  `sc.w` fails if the lock was
written since `lr.w`, and it may fail for no reason.

Tickets are numbers of 16 bits.  For at most 65536 harts the lock refines a lock that
serves in order (`Shows.step`): one hart holds it at a time, and a hart that waits for it
gets it.
-/

namespace OsCourse.Sbi.SpinLock

/-! ## The lock as a word -/

/-- `spinlock_t`. -/
structure Spinlock where
  owner : BitVec 16
  next : BitVec 16
  deriving DecidableEq, Repr

namespace Spinlock

/-- `__SPIN_LOCK_UNLOCKED`. -/
def unlocked : Spinlock := ⟨0, 0⟩

/-- The word that the instructions access, in little-endian order. -/
def word (l : Spinlock) : BitVec 32 := l.next ++ l.owner

def ofWord (w : BitVec 32) : Spinlock := ⟨w.extractLsb' 0 16, w.extractLsb' 16 16⟩

/-- The register after `lw`, `lr.w` or `amoadd.w`. -/
def load (l : Spinlock) : BitVec 64 := l.word.signExtend 64

end Spinlock

/-- `1u << TICKET_SHIFT`. -/
def inc : BitVec 64 := 1 <<< 16

/-- `mask` of `spin_lock`. -/
def lockMask : BitVec 64 := 0xffff

/-- `mask` of `spin_trylock`. -/
def trylockMask : BitVec 64 := 0xffff <<< 16

section Words

variable (l : Spinlock)

theorem ofWord_word : Spinlock.ofWord l.word = l := by
  rw [Spinlock.ofWord, Spinlock.word, BitVec.extractLsb'_append_eq_right,
    BitVec.extractLsb'_append_eq_left]

theorem toNat_word : l.word.toNat = 65536 * l.next.toNat + l.owner.toNat := by
  rw [Spinlock.word, BitVec.toNat_append, Nat.shiftLeft_eq, mul_comm]
  exact (Nat.two_pow_add_eq_or_of_lt l.owner.isLt l.next.toNat).symm

theorem word_add_inc : l.word + inc.setWidth 32 = (⟨l.owner, l.next + 1⟩ : Spinlock).word := by
  apply BitVec.eq_of_toNat_eq
  rw [BitVec.toNat_add, toNat_word, toNat_word]
  simp [inc]
  omega

theorem getLsbD_load {i : Nat} (hi : i < 32) : l.load.getLsbD i = l.word.getLsbD i := by
  rw [Spinlock.load, BitVec.getLsbD_signExtend, if_pos hi, decide_eq_true (by omega), Bool.true_and]

theorem setWidth_load : l.load.setWidth 32 = l.word := by
  apply BitVec.eq_of_getLsbD_eq
  intro i hi
  rw [BitVec.getLsbD_setWidth, getLsbD_load l hi, decide_eq_true hi, Bool.true_and]

/-- A half of the lock, in a register. -/
theorem extract_load {k : Nat} (h : k ≤ 16) :
    (l.load >>> k) &&& lockMask = (l.word.extractLsb' k 16).setWidth 64 := by
  apply BitVec.eq_of_toNat_eq
  have hmask := Bits.toNat_shiftRight_and l.load k (m := 16) (by decide)
  have hfield : l.load.extractLsb' k 16 = l.word.extractLsb' k 16 := by
    apply BitVec.eq_of_getLsbD_eq
    intro i hi
    rw [BitVec.getLsbD_extractLsb', BitVec.getLsbD_extractLsb', getLsbD_load l (by omega)]
  rw [hfield] at hmask
  rw [BitVec.toNat_setWidth_of_le (by decide)]
  exact hmask

theorem load_owner : l.load &&& lockMask = l.owner.setWidth 64 := by
  rw [← BitVec.ushiftRight_zero l.load, extract_load l (by decide), Spinlock.word,
    BitVec.extractLsb'_append_eq_right]

theorem load_next : (l.load >>> 16) &&& lockMask = l.next.setWidth 64 := by
  rw [extract_load l (by decide), Spinlock.word, BitVec.extractLsb'_append_eq_left]

theorem load_ne_zero (h : l.owner ≠ l.next) : l.load.setWidth 32 ≠ 0 := by
  intro h0
  rw [setWidth_load] at h0
  have hzero := congrArg BitVec.toNat h0
  rw [toNat_word] at hzero
  apply h
  apply BitVec.eq_of_toNat_eq
  simp only [BitVec.ofNat_eq_ofNat, BitVec.toNat_ofNat] at hzero
  omega

theorem load_add_inc : (l.load + inc).setWidth 32 = l.word + inc.setWidth 32 := by
  rw [BitVec.setWidth_add _ _ (by decide), setWidth_load]

theorem and_shiftLeft (x m : BitVec 64) : x &&& (m <<< 16) = ((x >>> 16) &&& m) <<< 16 := by
  ext i hi
  by_cases h : i < 16
  · simp [h]
  · simp [h, show 16 + (i - 16) = i by omega, BitVec.getLsbD_eq_getElem hi]

theorem load_free :
    l.load &&& trylockMask = (l.load <<< 16) &&& trylockMask ↔ l.owner = l.next := by
  have hmask : trylockMask = lockMask <<< 16 := rfl
  rw [hmask, and_shiftLeft, load_next, ← BitVec.shiftLeft_and_distrib, load_owner]
  constructor
  · intro h
    have hnat := congrArg BitVec.toNat h
    simp only [BitVec.toNat_shiftLeft, BitVec.toNat_setWidth, Nat.shiftLeft_eq] at hnat
    apply BitVec.eq_of_toNat_eq
    omega
  · intro h
    rw [h]

end Words

/-! ## The harts -/

/-- Before which access to the lock a hart is. -/
inductive Pc where
  | outside
  /-- `spin_lock` at `amoadd.w`. -/
  | lockAmo
  /-- `spin_lock` at `lw`, with its ticket. -/
  | lockLoad (tmp1 : BitVec 64)
  /-- It has taken the lock. -/
  | held
  /-- `spin_unlock` has read `owner`. -/
  | unlockStore (owner : BitVec 16)
  /-- `spin_trylock` at `lr.w`. -/
  | tryLoad
  /-- `spin_trylock` at `sc.w`. -/
  | tryStore (l0 : BitVec 64)
  deriving DecidableEq, Repr

inductive Call where
  | spinLock
  | spinTrylock
  deriving DecidableEq, Repr

/-- One step of the machine. -/
structure Turn (τ : Type) where
  /-- The hart that takes the step. -/
  hart : τ
  /-- What it calls if it is outside, or nothing if it stays there. -/
  call : Option Call
  /-- Whether a `sc.w` fails for no reason. -/
  spurious : Bool

structure State (τ : Type) where
  lock : Spinlock
  pc : τ → Pc
  /-- The harts whose reservation is valid. -/
  reserved : τ → Bool

/-- The first instructions of a call. -/
def entry : Option Call → Pc
  | none => .outside
  | some .spinLock => .lockAmo
  | some .spinTrylock => .tryLoad

/-- `spin_lock` at its label 1. -/
def lockTest (tmp1 l0 : BitVec 64) : Pc :=
  let tmp2 := l0 &&& lockMask
  if tmp1 = tmp2 then .held else .lockLoad tmp1

/-- The end of `spin_trylock`. -/
def trylockReturn (l0 : BitVec 64) : Pc := if l0.setWidth 32 = 0 then .held else .outside

namespace State

variable {τ : Type} [DecidableEq τ]

def init : State τ := ⟨.unlocked, fun _ => .outside, fun _ => false⟩

def goto (s : State τ) (t : τ) (pc : Pc) : State τ := { s with pc := Function.update s.pc t pc }

/-- A write to the lock ends all reservations. -/
def write (s : State τ) (lock : Spinlock) : State τ :=
  { s with lock := lock, reserved := fun _ => false }

def reserve (s : State τ) (t : τ) (valid : Bool) : State τ :=
  { s with reserved := Function.update s.reserved t valid }

def step (s : State τ) (e : Turn τ) : State τ :=
  match s.pc e.hart with
  | .outside => s.goto e.hart (entry e.call)
  | .lockAmo =>
      let l0 := s.lock.load
      let tmp1 := (l0 >>> 16) &&& lockMask
      (s.write (.ofWord (s.lock.word + inc.setWidth 32))).goto e.hart (lockTest tmp1 l0)
  | .lockLoad tmp1 => s.goto e.hart (lockTest tmp1 s.lock.load)
  | .held => s.goto e.hart (.unlockStore s.lock.owner)
  | .unlockStore owner => (s.write { s.lock with owner := owner + 1 }).goto e.hart .outside
  | .tryLoad =>
      let l0 := s.lock.load
      let tmp2 := (l0 <<< 16) &&& trylockMask
      let tmp1 := l0 &&& trylockMask
      if tmp1 ≠ tmp2 then s.goto e.hart (trylockReturn l0)
      else (s.reserve e.hart true).goto e.hart (.tryStore (l0 + inc))
  | .tryStore l0 =>
      if s.reserved e.hart = true ∧ e.spurious = false then
        (s.write (.ofWord (l0.setWidth 32))).goto e.hart (trylockReturn 0)
      else (s.reserve e.hart false).goto e.hart .tryLoad

def run (s : State τ) (turns : List (Turn τ)) : State τ := turns.foldl step s

end State

section Steps

variable {τ : Type} [DecidableEq τ] {s : State τ} {e : Turn τ}

@[simp] theorem pc_goto (s : State τ) (t : τ) (p : Pc) : (s.goto t p).pc t = p :=
  Function.update_self _ _ _

theorem pc_goto_of_ne (s : State τ) {t u : τ} (h : u ≠ t) (p : Pc) : (s.goto t p).pc u = s.pc u :=
  Function.update_of_ne h _ _

theorem pc_step_of_ne {u : τ} (h : u ≠ e.hart) : (s.step e).pc u = s.pc u := by
  rw [State.step]
  split
  all_goals try dsimp only
  all_goals try split
  all_goals exact pc_goto_of_ne _ h _

theorem ofWord_inc (l : Spinlock) : Spinlock.ofWord (l.word + inc.setWidth 32) =
    ⟨l.owner, l.next + 1⟩ := by
  rw [word_add_inc, ofWord_word]

theorem step_lockAmo (h : s.pc e.hart = .lockAmo) :
    s.step e = (s.write ⟨s.lock.owner, s.lock.next + 1⟩).goto e.hart
      (if s.lock.owner = s.lock.next then .held else .lockLoad (s.lock.next.setWidth 64)) := by
  have htest : s.lock.next.setWidth 64 = s.lock.owner.setWidth 64 ↔ s.lock.owner = s.lock.next := by
    rw [eq_comm, ← BitVec.toNat_inj, BitVec.toNat_setWidth_of_le (by decide),
      BitVec.toNat_setWidth_of_le (by decide), BitVec.toNat_inj]
  rw [State.step, h]
  dsimp only
  rw [ofWord_inc, load_next, lockTest, load_owner]
  simp only [htest]

theorem step_tryLoad_free (h : s.pc e.hart = .tryLoad) (hfree : s.lock.owner = s.lock.next) :
    s.step e = (s.reserve e.hart true).goto e.hart (.tryStore (s.lock.load + inc)) := by
  rw [State.step, h]
  exact if_neg (not_not.mpr ((load_free s.lock).mpr hfree))

/-- `spin_trylock` returns a word that is not 0 if the lock is taken. -/
theorem step_tryLoad_taken (h : s.pc e.hart = .tryLoad) (hfree : s.lock.owner ≠ s.lock.next) :
    s.step e = s.goto e.hart .outside := by
  rw [State.step, h]
  dsimp only
  rw [if_pos (mt (load_free s.lock).mp hfree), trylockReturn, if_neg (load_ne_zero s.lock hfree)]

theorem step_tryStore_done (h : s.pc e.hart = .tryStore (s.lock.load + inc))
    (hsc : s.reserved e.hart = true ∧ e.spurious = false) :
    s.step e = (s.write ⟨s.lock.owner, s.lock.next + 1⟩).goto e.hart .held := by
  rw [State.step, h]
  dsimp only
  rw [if_pos hsc, load_add_inc, ofWord_inc]
  rfl

end Steps

/-! ## What the harts do with the lock -/

/-- The hart has a ticket. -/
def Pc.queued : Pc → Bool
  | .lockLoad _ | .held | .unlockStore _ => true
  | _ => false

/-- The hart has the lock. -/
def Pc.holds : Pc → Bool
  | .held | .unlockStore _ => true
  | _ => false

section Refinement

variable {τ : Type}

/-- Where a hart is in the queue. -/
def Placed (lock : Spinlock) (reserved : Bool) (a : FifoLock.State τ) (t : τ) : Pc → Prop
  | .outside | .lockAmo | .tryLoad => t ∉ a.queue
  | .lockLoad tmp1 => ∃ i, a.queue[i]? = some t ∧
      tmp1 = (lock.owner + BitVec.ofNat 16 i).setWidth 64 ∧ (i = 0 → a.entered = false)
  | .held => a.entered = true ∧ a.queue.head? = some t
  | .unlockStore owner => a.entered = true ∧ a.queue.head? = some t ∧ owner = lock.owner
  | .tryStore l0 => t ∉ a.queue ∧ (reserved = true → a.queue = [] ∧ l0 = lock.load + inc)

/-- The harts form the queue `a`. -/
structure Shows (s : State τ) (a : FifoLock.State τ) : Prop where
  nodup : a.queue.Nodup
  entered : a.entered = true → a.queue ≠ []
  next : s.lock.next = s.lock.owner + BitVec.ofNat 16 a.queue.length
  placed : ∀ t, Placed s.lock (s.reserved t) a t (s.pc t)

theorem shows_init : Shows (State.init : State τ) .init :=
  ⟨List.nodup_nil, fun h => absurd h Bool.false_ne_true, rfl, fun _ => List.not_mem_nil⟩

variable {s : State τ} {a : FifoLock.State τ} {t u : τ} {p : Pc}

/-! ## The others -/

section Others

variable {lock : Spinlock} {r b : Bool} {q : List τ}

theorem placed_arrive (h : Placed lock r ⟨q, b⟩ u p) (hu : u ≠ t) (next : BitVec 16) :
    Placed ⟨lock.owner, next⟩ false ⟨q ++ [t], b⟩ u p := by
  have hmem : u ∉ q → u ∉ q ++ [t] := by simp [hu]
  have hhead : q.head? = some u → (q ++ [t]).head? = some u := by
    intro hq
    rw [List.head?_append, hq]
    rfl
  cases p with
  | outside | lockAmo | tryLoad => exact hmem h
  | lockLoad tmp1 =>
      obtain ⟨i, hi, htmp, hfirst⟩ := h
      have hlt : i < q.length := (List.getElem?_eq_some_iff.mp hi).1
      exact ⟨i, (List.getElem?_append_left hlt).trans hi, htmp, hfirst⟩
  | held => exact ⟨h.1, hhead h.2⟩
  | unlockStore owner => exact ⟨h.1, hhead h.2.1, h.2.2⟩
  | tryStore l0 => exact ⟨hmem h.1, fun hr => absurd hr Bool.false_ne_true⟩

theorem placed_enter (h : Placed lock r ⟨t :: q, false⟩ u p) (hu : u ≠ t) :
    Placed lock r ⟨t :: q, true⟩ u p := by
  cases p with
  | outside | lockAmo | tryLoad | tryStore => exact h
  | lockLoad tmp1 =>
      obtain ⟨i, hi, htmp, -⟩ := h
      refine ⟨i, hi, htmp, ?_⟩
      rintro rfl
      cases hi
      exact absurd rfl hu
  | held => exact absurd h.1 Bool.false_ne_true
  | unlockStore owner => exact absurd h.1 Bool.false_ne_true

theorem placed_leave (h : Placed lock r ⟨t :: q, b⟩ u p) (hu : u ≠ t) :
    Placed ⟨lock.owner + 1, lock.next⟩ false ⟨q, false⟩ u p := by
  have hmem : u ∉ t :: q → u ∉ q := fun h hq => h (List.mem_cons_of_mem t hq)
  have hhead : (t :: q).head? ≠ some u := fun h => hu (Option.some.inj h).symm
  cases p with
  | outside | lockAmo | tryLoad => exact hmem h
  | lockLoad tmp1 =>
      obtain ⟨i, hi, htmp, -⟩ := h
      cases i with
      | zero => exact absurd hi hhead
      | succ i =>
          refine ⟨i, hi, ?_, fun _ => rfl⟩
          rw [htmp, add_assoc, BitVec.ofNat_add, add_comm (BitVec.ofNat 16 i)]
          rfl
  | held => exact absurd h.2 hhead
  | unlockStore owner => exact absurd h.2.1 hhead
  | tryStore l0 => exact ⟨hmem h.1, fun hr => absurd hr Bool.false_ne_true⟩

end Others

theorem ofNat_eq_zero {n : Nat} (h : n < 2 ^ 16) : BitVec.ofNat 16 n = 0 ↔ n = 0 := by
  rw [← BitVec.toNat_inj, BitVec.toNat_ofNat, Nat.mod_eq_of_lt h]
  rfl

/-- A ticket is served if and only if it is that of the first hart. -/
theorem ticket_eq_owner {owner : BitVec 16} {n : Nat} (h : n < 2 ^ 16) :
    (owner + BitVec.ofNat 16 n).setWidth 64 = owner.setWidth 64 ↔ n = 0 := by
  rw [← ofNat_eq_zero h]
  constructor
  · intro heq
    have hnat := congrArg BitVec.toNat heq
    rw [BitVec.toNat_setWidth_of_le (by decide), BitVec.toNat_setWidth_of_le (by decide)] at hnat
    exact add_eq_left.mp (BitVec.eq_of_toNat_eq hnat)
  · intro hzero
    rw [hzero, add_zero]

/-! ## Consequences -/

theorem Shows.holder (h : Shows s a) (ht : (s.pc t).holds = true) :
    a.entered = true ∧ a.queue.head? = some t := by
  have hplaced := h.placed t
  cases hpc : s.pc t <;> rw [hpc] at ht hplaced
  case held => exact hplaced
  case unlockStore => exact ⟨hplaced.1, hplaced.2.1⟩
  all_goals cases ht

theorem Shows.exclusive (h : Shows s a) (ht : (s.pc t).holds = true)
    (hu : (s.pc u).holds = true) : t = u :=
  Option.some.inj ((h.holder ht).2.symm.trans (h.holder hu).2)

/-- The harts that wait are those that spin. -/
theorem Shows.mem_waiting (h : Shows s a) :
    t ∈ a.waiting ↔ ∃ tmp1, s.pc t = .lockLoad tmp1 := by
  obtain ⟨q, b⟩ := a
  have hplaced := h.placed t
  constructor
  · intro ht
    have hmem : t ∈ q := by
      cases b
      · exact ht
      · exact List.mem_of_mem_tail ht
    have hfirst : b = true → q.head? ≠ some t := by
      rintro rfl hhead
      cases q with
      | nil => cases hhead
      | cons x q =>
          cases hhead
          exact (List.nodup_cons.mp h.nodup).1 ht
    cases hpc : s.pc t <;> rw [hpc] at hplaced
    case lockLoad tmp1 => exact ⟨tmp1, rfl⟩
    case held => exact absurd hplaced.2 (hfirst hplaced.1)
    case unlockStore => exact absurd hplaced.2.1 (hfirst hplaced.1)
    case tryStore => exact absurd hmem hplaced.1
    all_goals exact absurd hmem hplaced
  · rintro ⟨tmp1, hpc⟩
    rw [hpc] at hplaced
    obtain ⟨i, hi, -, hfirst⟩ := hplaced
    cases b with
    | false => exact List.mem_of_getElem? hi
    | true =>
        cases i with
        | zero => exact absurd (hfirst rfl).symm Bool.false_ne_true
        | succ i =>
            cases q with
            | nil => cases hi
            | cons x q => exact List.mem_of_getElem? (l := q) hi

section

variable [Fintype τ] (hcard : Fintype.card τ ≤ 2 ^ 16)

include hcard

/-- For a hart without a ticket, the two counters are the same only if there is no ticket. -/
theorem Shows.free_iff (h : Shows s a) (ht : t ∉ a.queue) :
    s.lock.owner = s.lock.next ↔ a.queue = [] := by
  have hlt : a.queue.length < 2 ^ 16 := (FifoLock.length_lt_card h.nodup ht).trans_le hcard
  rw [h.next, left_eq_add, ← List.length_eq_zero_iff]
  exact ofNat_eq_zero hlt

end

/-! ## Refinement -/

variable [DecidableEq τ]

/-- What the lock sees when a hart goes on. -/
def moved (t : τ) (old new : Pc) : List (FifoLock.Event τ) :=
  (if !old.queued && new.queued then [.arrive t] else []) ++
    (if !old.holds && new.holds then [.enter t] else []) ++
    (if old.queued && !new.queued then [.leave t] else [])

/-- What a turn is for a lock that serves in order. -/
def State.events (s : State τ) (e : Turn τ) : List (FifoLock.Event τ) :=
  moved e.hart (s.pc e.hart) ((s.step e).pc e.hart)

theorem step_of_goto {s' : State τ} {e : Turn τ} {q : Pc} (hpc : s.pc e.hart = q)
    (hstep : s.step e = s'.goto e.hart p)
    (h : ∃ a', FifoLock.Run a (moved e.hart q p) a' ∧ Shows (s'.goto e.hart p) a') :
    ∃ a', FifoLock.Run a (s.events e) a' ∧ Shows (s.step e) a' := by
  rwa [State.events, hstep, pc_goto, hpc]

/-- What the turns of a run are, one after the other. -/
def State.history (s : State τ) : List (Turn τ) → List (FifoLock.Event τ)
  | [] => []
  | e :: turns => s.events e ++ (s.step e).history turns

/-- A hart goes on, and the others stay. -/
theorem shows_goto (hnodup : a.queue.Nodup) (hentered : a.entered = true → a.queue ≠ [])
    (hnext : s.lock.next = s.lock.owner + BitVec.ofNat 16 a.queue.length)
    (ht : Placed s.lock (s.reserved t) a t p)
    (hothers : ∀ u, u ≠ t → Placed s.lock (s.reserved u) a u (s.pc u)) : Shows (s.goto t p) a := by
  refine ⟨hnodup, hentered, hnext, fun u => ?_⟩
  dsimp only [State.goto]
  by_cases hu : u = t
  · subst hu
    rw [Function.update_self]
    exact ht
  · rw [Function.update_of_ne hu]
    exact hothers u hu

theorem Shows.goto (h : Shows s a) (ht : Placed s.lock (s.reserved t) a t p) :
    Shows (s.goto t p) a :=
  shows_goto h.nodup h.entered h.next ht fun u _ => h.placed u

theorem Shows.reserve (h : Shows s a) {r : Bool} (ht : Placed s.lock r a t p) :
    Shows ((s.reserve t r).goto t p) a := by
  refine shows_goto h.nodup h.entered h.next ?_ fun u hu => ?_
  · simpa only [State.reserve, Function.update_self] using ht
  · simpa only [State.reserve, Function.update_of_ne hu] using h.placed u

/-- The hart that has the lock leaves. -/
theorem Shows.leave {owner : BitVec 16} (h : Shows s a) (ht : s.pc t = .unlockStore owner) :
    ∃ a', FifoLock.Run a [.leave t] a' ∧
      Shows ((s.write ⟨owner + 1, s.lock.next⟩).goto t .outside) a' := by
  have hplaced := h.placed t
  rw [ht] at hplaced
  obtain ⟨q, b⟩ := a
  obtain ⟨rfl, hhead, rfl⟩ := hplaced
  cases q with
  | nil => cases hhead
  | cons x q =>
      cases hhead
      obtain ⟨hmem, hnodup⟩ := List.nodup_cons.mp h.nodup
      refine ⟨⟨q, false⟩, .cons .leave .nil, ?_⟩
      refine shows_goto hnodup (by simp) ?_ hmem fun u hu => placed_leave (h.placed u) hu
      have hnext := h.next
      rw [List.length_cons, BitVec.ofNat_add, add_comm (BitVec.ofNat 16 q.length), ← add_assoc]
        at hnext
      exact hnext

section Bounded

variable [Fintype τ] (hcard : Fintype.card τ ≤ 2 ^ 16)

include hcard

/-- A hart draws a ticket. -/
theorem Shows.draw (h : Shows s a) (ht : t ∉ a.queue) :
    ∃ a', FifoLock.Run a ([.arrive t] ++ if s.lock.owner = s.lock.next then [.enter t] else []) a' ∧
      Shows ((s.write ⟨s.lock.owner, s.lock.next + 1⟩).goto t (if s.lock.owner = s.lock.next
        then .held else .lockLoad (s.lock.next.setWidth 64))) a' := by
  obtain ⟨q, b⟩ := a
  have harrive : FifoLock.Step ⟨q, b⟩ (.arrive t) ⟨q ++ [t], b⟩ := .arrive ht
  have hnext : s.lock.next + 1 = s.lock.owner + BitVec.ofNat 16 (q ++ [t]).length := by
    rw [h.next, List.length_append, BitVec.ofNat_add, add_assoc]
    rfl
  have hfree := h.free_iff hcard ht
  split
  · next heq =>
    obtain rfl : q = [] := hfree.mp heq
    obtain rfl : b = false := by
      cases b with
      | false => rfl
      | true => exact absurd rfl (h.entered rfl)
    refine ⟨⟨[t], true⟩, .cons harrive (.cons .enter .nil), ?_⟩
    refine shows_goto (by simp) (by simp) hnext ⟨rfl, rfl⟩ fun u hu => ?_
    exact placed_enter (placed_arrive (h.placed u) hu _) hu
  · next hne =>
    refine ⟨⟨q ++ [t], b⟩, .cons harrive .nil, ?_⟩
    refine shows_goto (harrive.nodup h.nodup) (by simp) hnext ⟨q.length, by simp, ?_, ?_⟩
      fun u hu => placed_arrive (h.placed u) hu _
    · rw [h.next]
      rfl
    · intro hzero
      exact absurd (hfree.mpr (List.length_eq_zero_iff.mp hzero)) hne

/-- The hart that is first enters. -/
theorem Shows.spin {tmp1 : BitVec 64} (h : Shows s a) (ht : s.pc t = .lockLoad tmp1) :
    ∃ a', FifoLock.Run a (if tmp1 = s.lock.owner.setWidth 64 then [.enter t] else []) a' ∧
      Shows (s.goto t (lockTest tmp1 s.lock.load)) a' := by
  have hplaced := h.placed t
  rw [ht] at hplaced
  obtain ⟨i, hi, htmp, hfirst⟩ := hplaced
  have hlt : i < 2 ^ 16 := by
    have hlen := (List.getElem?_eq_some_iff.mp hi).1
    have hle := h.nodup.length_le_card
    omega
  have hserved : (s.lock.owner + BitVec.ofNat 16 i).setWidth 64 = s.lock.owner.setWidth 64 ↔
      i = 0 := ticket_eq_owner hlt
  rw [← htmp] at hserved
  rw [lockTest, load_owner]
  split
  · next heq =>
    obtain rfl : i = 0 := hserved.mp heq
    obtain ⟨q, b⟩ := a
    obtain rfl : b = false := hfirst rfl
    cases q with
    | nil => cases hi
    | cons x q =>
        cases hi
        refine ⟨⟨t :: q, true⟩, .cons .enter .nil, ?_⟩
        refine shows_goto h.nodup (by simp) h.next ⟨rfl, rfl⟩ fun u hu => ?_
        exact placed_enter (h.placed u) hu
  · exact ⟨a, .nil, h.goto ⟨i, hi, htmp, hfirst⟩⟩

/-- Every turn is as the lock that serves in order has it. -/
theorem Shows.step (h : Shows s a) (e : Turn τ) :
    ∃ a', FifoLock.Run a (s.events e) a' ∧ Shows (s.step e) a' := by
  have ht := h.placed e.hart
  cases hpc : s.pc e.hart with
  | outside =>
      rw [hpc] at ht
      have hstep : s.step e = s.goto e.hart (entry e.call) := by rw [State.step, hpc]
      refine step_of_goto hpc hstep ⟨a, ?_, ?_⟩
      · rcases e.call with - | - | - <;> exact .nil
      · exact h.goto (by rcases e.call with - | - | - <;> exact ht)
  | lockAmo =>
      rw [hpc] at ht
      obtain ⟨a', hrun, hshows⟩ := h.draw hcard ht
      refine step_of_goto hpc (step_lockAmo hpc) ⟨a', ?_, hshows⟩
      by_cases heq : s.lock.owner = s.lock.next
      · rw [if_pos heq] at hrun ⊢
        exact hrun
      · rw [if_neg heq] at hrun ⊢
        exact hrun
  | lockLoad tmp1 =>
      obtain ⟨a', hrun, hshows⟩ := h.spin hcard hpc
      refine step_of_goto hpc (by rw [State.step, hpc]) ⟨a', ?_, hshows⟩
      rw [lockTest, load_owner]
      split at hrun
      · next heq =>
        rw [if_pos heq]
        exact hrun
      · next hne =>
        rw [if_neg hne]
        exact hrun
  | held =>
      rw [hpc] at ht
      refine step_of_goto hpc (by rw [State.step, hpc]) ⟨a, .nil, ?_⟩
      exact h.goto ⟨ht.1, ht.2, rfl⟩
  | unlockStore owner =>
      refine step_of_goto hpc (by rw [State.step, hpc]) ?_
      exact h.leave hpc
  | tryLoad =>
      rw [hpc] at ht
      by_cases hfree : s.lock.owner = s.lock.next
      · have hempty := (h.free_iff hcard ht).mp hfree
        exact step_of_goto hpc (step_tryLoad_free hpc hfree)
          ⟨a, .nil, h.reserve ⟨ht, fun _ => ⟨hempty, rfl⟩⟩⟩
      · exact step_of_goto hpc (step_tryLoad_taken hpc hfree) ⟨a, .nil, h.goto ht⟩
  | tryStore l0 =>
      rw [hpc] at ht
      by_cases hsc : s.reserved e.hart = true ∧ e.spurious = false
      · obtain ⟨hempty, rfl⟩ := ht.2 hsc.1
        obtain ⟨a', hrun, hshows⟩ := h.draw hcard ht.1
        have hfree := (h.free_iff hcard ht.1).mpr hempty
        rw [if_pos hfree] at hrun hshows
        exact step_of_goto hpc (step_tryStore_done hpc hsc) ⟨a', hrun, hshows⟩
      · have hstep : s.step e = (s.reserve e.hart false).goto e.hart .tryLoad := by
          rw [State.step, hpc]
          exact if_neg hsc
        exact step_of_goto hpc hstep ⟨a, .nil, h.reserve ht.1⟩

/-- What the lock sees in a run. -/
theorem Shows.run (h : Shows s a) (turns : List (Turn τ)) :
    ∃ a', FifoLock.Run a (s.history turns) a' ∧ Shows (s.run turns) a' := by
  induction turns generalizing s a with
  | nil => exact ⟨a, .nil, h⟩
  | cons e turns ih =>
      obtain ⟨b, hstep, hb⟩ := h.step hcard e
      obtain ⟨c, hrun, hc⟩ := ih hb
      exact ⟨c, hstep.append hrun, hc⟩

end Bounded

/-! ## Too many harts -/

/-- The harts draw tickets, one after the other. -/
def drawAll (ts : List τ) : List (Turn τ) :=
  ts.flatMap fun t => [⟨t, some .spinLock, false⟩, ⟨t, some .spinLock, false⟩]

theorem run_draw (ht : s.pc t = .outside) :
    s.run (drawAll [t]) = (s.write ⟨s.lock.owner, s.lock.next + 1⟩).goto t
      (if s.lock.owner = s.lock.next then .held else .lockLoad (s.lock.next.setWidth 64)) := by
  have hcall : s.step ⟨t, some .spinLock, false⟩ = s.goto t .lockAmo := by
    rw [State.step, ht]
    rfl
  change (s.step ⟨t, some .spinLock, false⟩).step ⟨t, some .spinLock, false⟩ = _
  rw [hcall, step_lockAmo (pc_goto s t _)]
  simp only [State.goto, State.write, Function.update_idem]
  rfl

theorem run_drawAll {ts : List τ} (hnodup : ts.Nodup) (hts : ∀ t ∈ ts, s.pc t = .outside) :
    (s.run (drawAll ts)).lock = ⟨s.lock.owner, s.lock.next + BitVec.ofNat 16 ts.length⟩ ∧
      ∀ u ∉ ts, (s.run (drawAll ts)).pc u = s.pc u := by
  induction ts generalizing s with
  | nil => exact ⟨by simp [State.run, drawAll], fun u _ => rfl⟩
  | cons t ts ih =>
      obtain ⟨ht, hnodup⟩ := List.nodup_cons.mp hnodup
      have hrun : s.run (drawAll (t :: ts)) = (s.run (drawAll [t])).run (drawAll ts) := rfl
      rw [hrun, run_draw (hts t List.mem_cons_self)]
      have hother (u : τ) (hu : u ≠ t) (l : Spinlock) (p : Pc) :
          ((s.write l).goto t p).pc u = s.pc u := pc_goto_of_ne _ hu p
      have hout : ∀ u ∈ ts, u ≠ t := fun u hu heq => ht (heq ▸ hu)
      obtain ⟨hlock, hpc⟩ := ih hnodup fun u hu =>
        (hother u (hout u hu) _ _).trans (hts u (List.mem_cons_of_mem t hu))
      refine ⟨?_, ?_⟩
      · rw [hlock, List.length_cons, BitVec.ofNat_add, add_comm (BitVec.ofNat 16 ts.length)]
        simp only [State.goto, State.write, add_assoc]
        rfl
      · intro u hu
        rw [List.mem_cons, not_or] at hu
        rw [hpc u hu.2, hother u hu.1]

omit [DecidableEq τ] in
/-- One more than 65536 threads, in a list. -/
theorem exists_crowd [Fintype τ] (hcard : 2 ^ 16 < Fintype.card τ) :
    ∃ (t u : τ) (mid : List τ), (t :: (mid ++ [u])).Nodup ∧ mid.length = 2 ^ 16 - 1 := by
  have hlen : 2 ^ 16 < (Finset.univ : Finset τ).toList.length := by
    rwa [Finset.length_toList, Finset.card_univ]
  have hnodup := (Finset.univ : Finset τ).nodup_toList
  cases hl : (Finset.univ : Finset τ).toList with
  | nil =>
      rw [hl] at hlen
      cases hlen
  | cons t rest =>
      rw [hl] at hlen hnodup
      have htake : (rest.take (2 ^ 16)).length = 2 ^ 16 := by
        rw [List.length_take]
        rw [List.length_cons] at hlen
        omega
      have hne : rest.take (2 ^ 16) ≠ [] := List.ne_nil_of_length_pos (by rw [htake]; decide)
      refine ⟨t, (rest.take (2 ^ 16)).getLast hne, (rest.take (2 ^ 16)).dropLast, ?_, ?_⟩
      · rw [List.dropLast_append_getLast]
        exact hnodup.sublist ((List.take_sublist _ _).cons_cons t)
      · rw [List.length_dropLast, htake]

/-- The last hart draws the ticket of the first, which has the lock. -/
theorem exists_two_holders [Fintype τ] (hcard : 2 ^ 16 < Fintype.card τ) :
    ∃ (turns : List (Turn τ)) (t u : τ), t ≠ u ∧
      ((State.init.run turns).pc t).holds = true ∧ ((State.init.run turns).pc u).holds = true := by
  obtain ⟨t, u, mid, hnodup, hlen⟩ := exists_crowd hcard
  obtain ⟨ht, hnodup⟩ := List.nodup_cons.mp hnodup
  obtain ⟨hmid, -, hu⟩ := List.nodup_append.mp hnodup
  rw [List.mem_append, List.mem_singleton, not_or] at ht
  have hu' : u ∉ mid := fun h => hu u h u List.mem_cons_self rfl
  have hfirst : (State.init : State τ).run (drawAll [t]) =
      (State.init.write ⟨0, 1⟩).goto t .held := run_draw rfl
  have hout : ∀ v, v ≠ t → ((State.init.write ⟨0, 1⟩).goto t .held : State τ).pc v = .outside :=
    fun v hv => pc_goto_of_ne _ hv _
  obtain ⟨hlock, hpc⟩ := run_drawAll (s := (State.init.write ⟨0, 1⟩).goto t .held) hmid
    fun v hv => hout v fun h => ht.1 (h ▸ hv)
  rw [hlen] at hlock
  have hwrap : (0 : BitVec 16) = 1 + BitVec.ofNat 16 (2 ^ 16 - 1) := by decide
  have hlast := run_draw ((hpc u hu').trans (hout u (Ne.symm ht.2)))
  rw [if_pos (by rw [hlock]; exact hwrap)] at hlast
  refine ⟨drawAll [t] ++ drawAll mid ++ drawAll [u], t, u, ht.2, ?_⟩
  have hrun : State.init.run (drawAll [t] ++ drawAll mid ++ drawAll [u]) =
      ((State.init.run (drawAll [t])).run (drawAll mid)).run (drawAll [u]) := by
    simp only [State.run, List.foldl_append]
  rw [hrun, hfirst, hlast]
  refine ⟨?_, ?_⟩
  · have hheld := (hpc t ht.1).trans (pc_goto _ t .held)
    rw [pc_goto_of_ne _ ht.2]
    exact congrArg Pc.holds hheld
  · rw [pc_goto]
    rfl

/-! ## Fair machines -/

/-- The hart `u` is first, and `t` is at `i`. -/
def Ahead (t u : τ) (i : Nat) (s : State τ) : Prop :=
  ∃ a, Shows s a ∧ a.queue.head? = some u ∧ a.queue[i]? = some t

def Spins (t : τ) (s : State τ) : Prop := ∃ tmp1, s.pc t = .lockLoad tmp1

omit [DecidableEq τ] in
theorem thread_moved {t : τ} {old new : Pc} {e : FifoLock.Event τ} (h : e ∈ moved t old new) :
    e.thread = t := by
  rw [moved, List.mem_append, List.mem_append] at h
  rcases h with (h | h) | h <;> split at h <;> cases h <;> first | rfl | contradiction

omit [DecidableEq τ] in
theorem Ahead.first (h : Ahead t u 0 s) : u = t := by
  obtain ⟨a, -, hu, ht⟩ := h
  rw [List.head?_eq_getElem?] at hu
  exact Option.some.inj (hu.symm.trans ht)

omit [DecidableEq τ] in
/-- The first hart spins, has the lock or gives it back. -/
theorem Ahead.phase {i : Nat} (h : Ahead t u i s) :
    Spins u s ∨ s.pc u = .held ∨ ∃ owner, s.pc u = .unlockStore owner := by
  obtain ⟨a, hs, hu, -⟩ := h
  have hmem : u ∈ a.queue := List.mem_of_mem_head? hu
  have hplaced := hs.placed u
  cases hpc : s.pc u <;> rw [hpc] at hplaced
  case lockLoad tmp1 => exact .inl ⟨tmp1, hpc⟩
  case held => exact .inr (.inl rfl)
  case unlockStore owner => exact .inr (.inr ⟨owner, rfl⟩)
  case tryStore => exact absurd hmem hplaced.1
  all_goals exact absurd hmem hplaced

/-- A hart that has drawn a ticket has the lock or spins. -/
theorem Shows.drawn {s' : State τ} {c : Prop} [Decidable c] {tmp1 : BitVec 64} (h : Shows s a)
    (hs : s = s'.goto t (if c then .held else .lockLoad tmp1)) :
    s.pc t = .held ∨ ∃ u i, Ahead t u i s ∧ Spins t s := by
  have hpc : s.pc t = if c then .held else .lockLoad tmp1 := by rw [hs, pc_goto]
  split at hpc
  · exact .inl hpc
  · have hplaced := h.placed t
    rw [hpc] at hplaced
    obtain ⟨i, hi, -⟩ := hplaced
    have hne : a.queue ≠ [] := List.ne_nil_of_mem (List.mem_of_getElem? hi)
    exact .inr ⟨a.queue.head hne, i, ⟨a, h, List.head?_eq_some_head hne, hi⟩, tmp1, hpc⟩

section Fairly

variable [Fintype τ] (hcard : Fintype.card τ ≤ 2 ^ 16) {i : Nat} {e : Turn τ}

include hcard

theorem Ahead.others (h : Ahead t u i s) (he : e.hart ≠ u) : Ahead t u i (s.step e) := by
  obtain ⟨a, hs, hu, ht⟩ := h
  obtain ⟨a', hrun, hs'⟩ := hs.step hcard e
  obtain ⟨r, hr⟩ := hrun.others hu fun ev hev => by rwa [thread_moved hev]
  refine ⟨a', hs', ?_, ?_⟩
  · rw [← hr, List.head?_append, hu]
    rfl
  · rw [← hr, List.getElem?_append_left (List.getElem?_eq_some_iff.mp ht).1, ht]

/-- The first hart takes the lock at its next turn. -/
theorem Ahead.spin (h : Ahead t u i s) (hu : Spins u s) (he : e.hart = u) :
    Ahead t u i (s.step e) ∧ (s.step e).pc u = .held := by
  obtain ⟨a, hs, hfirst, ht⟩ := h
  obtain ⟨tmp1, hpc⟩ := hu
  have hserved : tmp1 = s.lock.owner.setWidth 64 := by
    have hplaced := hs.placed u
    rw [hpc] at hplaced
    obtain ⟨j, hj, htmp, -⟩ := hplaced
    obtain rfl : j = 0 := by
      rw [List.head?_eq_getElem?] at hfirst
      have hlt := (List.getElem?_eq_some_iff.mp hj).1
      exact (List.getElem?_inj hlt hs.nodup).mp (hj.trans hfirst.symm)
    rw [htmp]
    exact congrArg _ (add_zero _)
  obtain ⟨a', hrun, hs'⟩ := hs.spin hcard hpc
  rw [if_pos hserved] at hrun
  have hstep : s.step e = s.goto u (lockTest tmp1 s.lock.load) := by
    rw [State.step, he, hpc]
  rw [hstep, pc_goto]
  refine ⟨⟨a', hs', ?_, ?_⟩, ?_⟩
  · rw [hrun.enter, hfirst]
  · rw [hrun.enter, ht]
  · rw [lockTest, load_owner]
    exact if_pos hserved

omit [Fintype τ] hcard in
theorem Ahead.held (h : Ahead t u i s) (hu : s.pc u = .held) (he : e.hart = u) :
    Ahead t u i (s.step e) ∧ ∃ owner, (s.step e).pc u = .unlockStore owner := by
  obtain ⟨a, hs, hfirst, ht⟩ := h
  have hstep : s.step e = s.goto u (.unlockStore s.lock.owner) := by
    rw [State.step, he, hu]
  have hplaced := hs.placed u
  rw [hu] at hplaced
  rw [hstep, pc_goto]
  exact ⟨⟨a, hs.goto ⟨hplaced.1, hplaced.2, rfl⟩, hfirst, ht⟩, _, rfl⟩

omit [Fintype τ] hcard in
theorem Ahead.leave (h : Ahead t u (i + 1) s) (hu : ∃ owner, s.pc u = .unlockStore owner)
    (he : e.hart = u) : ∃ v, Ahead t v i (s.step e) ∧ Spins v (s.step e) := by
  obtain ⟨a, hs, hfirst, ht⟩ := h
  obtain ⟨owner, hpc⟩ := hu
  obtain ⟨⟨q, b⟩, hrun, hs'⟩ := hs.leave hpc
  obtain ⟨hqueue, hb⟩ := hrun.leave
  have hstep : s.step e = (s.write ⟨owner + 1, s.lock.next⟩).goto u .outside := by
    rw [State.step, he, hpc]
  rw [hqueue, List.getElem?_cons_succ] at ht
  rw [hstep]
  cases q with
  | nil => cases ht
  | cons v q =>
      refine ⟨v, ⟨_, hs', rfl, ht⟩, hs'.mem_waiting.mp ?_⟩
      obtain rfl : b = false := hb
      exact List.mem_cons_self

variable {turns : Nat → Turn τ} (hfair : Fairness.Fair Turn.hart turns)

include hfair

/-- The first hart leaves, and the next one is first. -/
theorem Ahead.next (t u : τ) (i : Nat) :
    Fairness.LeadsTo State.step s turns (Ahead t u (i + 1))
      (fun s => ∃ v, Ahead t v i s ∧ Spins v s) := by
  have hpc {s : State τ} {e : Turn τ} (he : e.hart ≠ u) : (s.step e).pc u = s.pc u :=
    pc_step_of_ne (Ne.symm he)
  have henter : Fairness.LeadsTo State.step s turns (fun s => Ahead t u (i + 1) s ∧ Spins u s)
      (fun s => Ahead t u (i + 1) s ∧ s.pc u = .held) := by
    refine hfair.ensures u ?_ fun s e h he => h.1.spin hcard h.2 he
    rintro s e ⟨h, tmp1, hu⟩ he
    exact ⟨h.others hcard he, tmp1, (hpc he).trans hu⟩
  have hunlock : Fairness.LeadsTo State.step s turns
      (fun s => Ahead t u (i + 1) s ∧ s.pc u = .held)
      (fun s => Ahead t u (i + 1) s ∧ ∃ owner, s.pc u = .unlockStore owner) := by
    refine hfair.ensures u ?_ fun s e h he => h.1.held h.2 he
    rintro s e ⟨h, hu⟩ he
    exact ⟨h.others hcard he, (hpc he).trans hu⟩
  have hleave : Fairness.LeadsTo State.step s turns
      (fun s => Ahead t u (i + 1) s ∧ ∃ owner, s.pc u = .unlockStore owner)
      (fun s => ∃ v, Ahead t v i s ∧ Spins v s) := by
    refine hfair.ensures u ?_ fun s e h he => h.1.leave h.2 he
    rintro s e ⟨h, owner, hu⟩ he
    exact ⟨h.others hcard he, owner, (hpc he).trans hu⟩
  intro n h
  rcases h.phase with hu | hu | hu
  · exact ((henter.trans hunlock).trans hleave) n ⟨h, hu⟩
  · exact (hunlock.trans hleave) n ⟨h, hu⟩
  · exact hleave n ⟨h, hu⟩

/-- The harts before `t` leave one after the other, and `t` takes the lock. -/
theorem Ahead.held_of_spins (t : τ) (i : Nat) :
    Fairness.LeadsTo State.step s turns (fun s => ∃ v, Ahead t v i s ∧ Spins v s)
      (fun s => s.pc t = .held) := by
  induction i with
  | zero =>
      have hfirst : Fairness.LeadsTo State.step s turns (fun s => Ahead t t 0 s ∧ Spins t s)
          (fun s => s.pc t = .held) := by
        refine hfair.ensures t ?_ fun s e h he => (h.1.spin hcard h.2 he).2
        rintro s e ⟨h, tmp1, ht⟩ he
        exact ⟨h.others hcard he, tmp1, (pc_step_of_ne (Ne.symm he)).trans ht⟩
      rintro n ⟨v, h, hv⟩
      obtain rfl : v = t := h.first
      exact hfirst n ⟨h, hv⟩
  | succ i ih =>
      rintro n ⟨v, h, -⟩
      exact ((Ahead.next hcard hfair t v i).trans ih) n h

end Fairly

/-! ## The lock -/

/-- One hart has the lock at a time if and only if there are enough tickets for the harts. -/
theorem spinLock_exclusive_iff [Fintype τ] :
    (∀ (turns : List (Turn τ)) (t u : τ), ((State.init.run turns).pc t).holds = true →
      ((State.init.run turns).pc u).holds = true → t = u) ↔ Fintype.card τ ≤ 2 ^ 16 := by
  constructor
  · intro h
    by_contra hcard
    obtain ⟨turns, t, u, hne, ht, hu⟩ := exists_two_holders (Nat.lt_of_not_le hcard)
    exact hne (h turns t u ht hu)
  · intro hcard turns t u ht hu
    obtain ⟨a, -, hs⟩ := shows_init.run hcard turns
    exact hs.exclusive ht hu

/-- The harts take the lock in the order in which they have drawn their tickets.  Those that
have not taken it yet are those that spin. -/
theorem spinLock_fifo [Fintype τ] (hcard : Fintype.card τ ≤ 2 ^ 16) (turns : List (Turn τ)) :
    ∃ waiting : List τ,
      (State.init.history turns).filterMap FifoLock.Event.arrives =
        (State.init.history turns).filterMap FifoLock.Event.enters ++ waiting ∧
      ∀ t, t ∈ waiting ↔ Spins t (State.init.run turns) := by
  obtain ⟨a, hrun, hs⟩ := shows_init.run hcard turns
  exact ⟨a.waiting, hrun.fifo fun h => absurd h Bool.false_ne_true, fun t => hs.mem_waiting⟩

theorem spinLock_fifo_two : ∃ waiting : List (Fin 2),
    [0, 1] = [0] ++ waiting ∧
      ∀ t, t ∈ waiting ↔ Spins t (State.init.run (drawAll [(0 : Fin 2), 1])) :=
  spinLock_fifo (by decide) (drawAll [(0 : Fin 2), 1])

/-- A hart that calls `spin_lock` takes the lock, if every hart has turns again and again. -/
theorem spinLock_eventually [Fintype τ] (hcard : Fintype.card τ ≤ 2 ^ 16) {turns : Nat → Turn τ}
    (hfair : Fairness.Fair Turn.hart turns) {n : Nat} {t : τ}
    (ht : (Fairness.trace State.step .init turns n).pc t = .lockAmo) :
    ∃ m, n ≤ m ∧ (Fairness.trace State.step .init turns m).pc t = .held := by
  have hdraw : Fairness.LeadsTo State.step .init turns
      (fun s => (∃ a, Shows s a) ∧ s.pc t = .lockAmo)
      (fun s => s.pc t = .held ∨ ∃ u i, Ahead t u i s ∧ Spins t s) := by
    refine hfair.ensures t ?_ ?_
    · rintro s e ⟨⟨a, hs⟩, hpc⟩ he
      obtain ⟨a', -, hs'⟩ := hs.step hcard e
      exact ⟨⟨a', hs'⟩, (pc_step_of_ne (Ne.symm he)).trans hpc⟩
    · rintro s e ⟨⟨a, hs⟩, hpc⟩ rfl
      obtain ⟨a', -, hs'⟩ := hs.step hcard e
      exact hs'.drawn (step_lockAmo hpc)
  obtain ⟨a, hs⟩ : ∃ a, Shows (Fairness.trace State.step .init turns n) a := by
    refine Fairness.trace_induction (P := fun s => ∃ a, Shows s a) ⟨_, shows_init⟩ ?_ n
    rintro s e ⟨a, hs⟩
    obtain ⟨a', -, hs'⟩ := hs.step hcard e
    exact ⟨a', hs'⟩
  obtain ⟨m, hm, hheld | ⟨u, i, h, hspins⟩⟩ := hdraw n ⟨⟨a, hs⟩, ht⟩
  · exact ⟨m, hm, hheld⟩
  · have hnext : ∃ k, m ≤ k ∧ (Fairness.trace State.step .init turns k).pc t = .held := by
      cases i with
      | zero =>
          obtain rfl : u = t := h.first
          exact Ahead.held_of_spins hcard hfair u 0 m ⟨u, h, hspins⟩
      | succ i =>
          exact ((Ahead.next hcard hfair t u i).trans (Ahead.held_of_spins hcard hfair t i)) m h
    obtain ⟨k, hk, hheld⟩ := hnext
    exact ⟨k, hm.trans hk, hheld⟩

/-- Two harts that take turns and call `spin_lock` once. -/
def alternate (n : Nat) : Turn (Fin 2) :=
  ⟨Fin.ofNat 2 n, if n < 2 then some .spinLock else none, false⟩

theorem spinLock_eventually_alternate :
    ∃ m, 2 ≤ m ∧ (Fairness.trace State.step .init alternate m).pc 1 = .held := by
  have hfair : Fairness.Fair Turn.hart alternate := by
    intro t n
    refine ⟨2 * n + t, by omega, ?_⟩
    ext
    simp only [alternate, Fin.val_ofNat]
    omega
  exact spinLock_eventually (by decide) hfair (by decide)

end Refinement

end OsCourse.Sbi.SpinLock
