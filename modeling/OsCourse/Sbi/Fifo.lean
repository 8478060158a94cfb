import OsCourse.Lib.Ring
import OsCourse.Lib.Except

/-!
# The queues of the firmware

`sbi_fifo.c`.  A `struct sbi_fifo` has entries of one size in memory that its owner has
allocated, and `avail` of them are in use from the entry `tail` on.  The model is over an
arbitrary type of entries, so that the copies of an entry are assignments, and an access
behind the last entry is a fault.  All functions run with `qlock` held from the first
access to the last.

A queue with at least one entry behaves as a list of bounded length in every sequence of
calls, and it has no fault (`sbiFifo_refines`).  A queue without entries is full and empty
at the same time, and a forced `sbi_fifo_enqueue` writes outside of it.
-/

namespace OsCourse.Sbi.Fifo

/-! ## Codes -/

def sbiEinval : Int := -3
def sbiEnospc : Int := -1003
def sbiEnoent : Int := -1006

def sbiFifoSkip : Int := 0
def sbiFifoUpdated : Int := 1
def sbiFifoUnchanged : Int := 2

inductive Fault where
  | outOfBounds
  deriving DecidableEq, Repr

/-! ## The functions -/

/-- `struct sbi_fifo`.  The numbers are `u16`. -/
structure SbiFifo (α : Type) where
  queue : Nat → α
  numEntries : Nat
  avail : Nat
  tail : Nat

variable {α : Type}

/-- `sbi_fifo_init`, where `zero` is an entry of zero bytes. -/
def sbiFifoInit (zero : α) (entries : Nat) : SbiFifo α := ⟨fun _ => zero, entries, 0, 0⟩

def isFull (fifo : SbiFifo α) : Bool := fifo.avail = fifo.numEntries

def isEmpty (fifo : SbiFifo α) : Bool := fifo.avail = 0

/-- `__sbi_fifo_enqueue`. -/
def enqueue (fifo : SbiFifo α) (data : α) : Except Fault (SbiFifo α) :=
  let head := fifo.tail + fifo.avail
  let head := if head ≥ fifo.numEntries then head - fifo.numEntries else head
  if head < fifo.numEntries then
    .ok { fifo with
      queue := Function.update fifo.queue head data
      avail := (fifo.avail + 1) % 2 ^ 16 }
  else .error .outOfBounds

/-- The end of `__sbi_fifo_dequeue`, after its copy of the entry. -/
def skipDataCopy (fifo : SbiFifo α) : SbiFifo α :=
  let tail := (fifo.tail + 1) % 2 ^ 16
  { fifo with
    avail := (fifo.avail + (2 ^ 16 - 1)) % 2 ^ 16
    tail := if tail ≥ fifo.numEntries then 0 else tail }

@[simp] theorem numEntries_skipDataCopy (fifo : SbiFifo α) :
    (skipDataCopy fifo).numEntries = fifo.numEntries := by
  cases fifo
  rfl

@[simp] theorem queue_skipDataCopy (fifo : SbiFifo α) :
    (skipDataCopy fifo).queue = fifo.queue := by
  cases fifo
  rfl

/-- `__sbi_fifo_dequeue` with a place for the entry. -/
def dequeue (fifo : SbiFifo α) : Except Fault (α × SbiFifo α) :=
  if fifo.tail < fifo.numEntries then .ok (fifo.queue fifo.tail, skipDataCopy fifo)
  else .error .outOfBounds

/-- `sbi_fifo_enqueue`. -/
def sbiFifoEnqueue (fifo : SbiFifo α) (data : Option α) (force : Bool) :
    Except Fault (Int × SbiFifo α) :=
  match data with
  | none => .ok (sbiEinval, fifo)
  | some data =>
      if isFull fifo then
        if !force then .ok (sbiEnospc, fifo)
        else do
          let fifo ← enqueue (skipDataCopy fifo) data
          .ok (0, fifo)
      else do
        let fifo ← enqueue fifo data
        .ok (0, fifo)

/-- `sbi_fifo_dequeue`, where `data` says whether there is a place for the entry. -/
def sbiFifoDequeue (fifo : SbiFifo α) (data : Bool) : Except Fault (Int × Option α × SbiFifo α) :=
  if !data then .ok (sbiEinval, none, fifo)
  else if isEmpty fifo then .ok (sbiEnoent, none, fifo)
  else do
    let (entry, fifo) ← dequeue fifo
    .ok (0, some entry, fifo)

/-- `__sbi_fifo_reset`. -/
def sbiFifoReset (zero : α) (fifo : SbiFifo α) : SbiFifo α :=
  { fifo with
    avail := 0
    tail := 0
    queue := fun i => if i < fifo.numEntries then zero else fifo.queue i }

/-- An entry is overwritten. -/
def SbiFifo.set (fifo : SbiFifo α) (index : Nat) (entry : α) : SbiFifo α :=
  { fifo with queue := Function.update fifo.queue index entry }

/-- The loop of `sbi_fifo_inplace_update`, from `i` on with `n` rounds to go. -/
def inplaceLoop (fptr : α → α → Int × α) (input : α) :
    Nat → Nat → Int → SbiFifo α → Except Fault (Int × SbiFifo α)
  | 0, _, ret, fifo => .ok (ret, fifo)
  | n + 1, i, _, fifo =>
      let index := fifo.tail + i
      let index := if index ≥ fifo.numEntries then index - fifo.numEntries else index
      if index < fifo.numEntries then
        let (ret, entry) := fptr input (fifo.queue index)
        let fifo := fifo.set index entry
        if ret = sbiFifoSkip ∨ ret = sbiFifoUpdated then .ok (ret, fifo)
        else inplaceLoop fptr input n (i + 1) ret fifo
      else .error .outOfBounds

/-- `sbi_fifo_inplace_update`. -/
def sbiFifoInplaceUpdate (fptr : α → α → Int × α) (fifo : SbiFifo α) (input : Option α) :
    Except Fault (Int × SbiFifo α) :=
  match input with
  | none => .ok (sbiFifoUnchanged, fifo)
  | some input =>
      if isEmpty fifo then .ok (sbiFifoUnchanged, fifo)
      else inplaceLoop fptr input fifo.avail 0 sbiFifoUnchanged fifo

/-! ## The list of the entries -/

/-- The calls of the owner. -/
inductive Op (α : Type) where
  | enqueue (data : Option α) (force : Bool)
  | dequeue (data : Bool)
  | inplaceUpdate (fptr : α → α → Int × α) (input : Option α)
  | reset
  | avail
  | isFull
  | isEmpty

/-- What a call returns, and the entry that it has copied. -/
structure Result (α : Type) where
  code : Int
  entry : Option α
  deriving DecidableEq, Repr

variable (zero : α)

def Op.call (fifo : SbiFifo α) : Op α → Except Fault (Result α × SbiFifo α)
  | .enqueue data force => do
      let (code, fifo) ← sbiFifoEnqueue fifo data force
      .ok (⟨code, none⟩, fifo)
  | .dequeue data => do
      let (code, entry, fifo) ← sbiFifoDequeue fifo data
      .ok (⟨code, entry⟩, fifo)
  | .inplaceUpdate fptr input => do
      let (code, fifo) ← sbiFifoInplaceUpdate fptr fifo input
      .ok (⟨code, none⟩, fifo)
  | .reset => .ok (⟨1, none⟩, sbiFifoReset zero fifo)
  | .avail => .ok (⟨fifo.avail, none⟩, fifo)
  | .isFull => .ok (⟨if Fifo.isFull fifo then 1 else 0, none⟩, fifo)
  | .isEmpty => .ok (⟨if Fifo.isEmpty fifo then 1 else 0, none⟩, fifo)

def run : List (Op α) → SbiFifo α → Except Fault (List (Result α) × SbiFifo α)
  | [], fifo => .ok ([], fifo)
  | op :: ops, fifo => do
      let (r, fifo) ← op.call zero fifo
      let (rs, fifo) ← run ops fifo
      .ok (r :: rs, fifo)

/-- The entries are visited in order, up to the first that is updated or makes the new
one superfluous. -/
def visit (fptr : α → α → Int × α) (input : α) : Int → List α → Int × List α
  | ret, [] => (ret, [])
  | _, x :: q =>
      let (ret, x) := fptr input x
      if ret = sbiFifoSkip ∨ ret = sbiFifoUpdated then (ret, x :: q)
      else
        let (ret, q) := visit fptr input ret q
        (ret, x :: q)

/-- What a call does to a list of at most `n` entries. -/
def Op.spec (n : Nat) (q : List α) : Op α → Result α × List α
  | .enqueue none _ => (⟨sbiEinval, none⟩, q)
  | .enqueue (some x) force =>
      if q.length < n then (⟨0, none⟩, q ++ [x])
      else if force then (⟨0, none⟩, q.tail ++ [x])
      else (⟨sbiEnospc, none⟩, q)
  | .dequeue false => (⟨sbiEinval, none⟩, q)
  | .dequeue true =>
      match q with
      | [] => (⟨sbiEnoent, none⟩, [])
      | x :: q => (⟨0, some x⟩, q)
  | .inplaceUpdate _ none => (⟨sbiFifoUnchanged, none⟩, q)
  | .inplaceUpdate fptr (some input) =>
      let (code, q) := visit fptr input sbiFifoUnchanged q
      (⟨code, none⟩, q)
  | .reset => (⟨1, none⟩, [])
  | .avail => (⟨q.length, none⟩, q)
  | .isFull => (⟨if q.length = n then 1 else 0, none⟩, q)
  | .isEmpty => (⟨if q = [] then 1 else 0, none⟩, q)

def specRun (n : Nat) : List (Op α) → List α → List (Result α) × List α
  | [], q => ([], q)
  | op :: ops, q =>
      let (r, q) := op.spec n q
      let (rs, q) := specRun n ops q
      (r :: rs, q)

/-! ## Refinement -/

/-- The entries in use, from the oldest on. -/
def SbiFifo.entries (fifo : SbiFifo α) : List α :=
  Ring.contents fifo.queue fifo.numEntries fifo.tail fifo.avail

/-- The queue has the entries `q`. -/
structure Represents (n : Nat) (fifo : SbiFifo α) (q : List α) : Prop where
  numEntries : fifo.numEntries = n
  tail : fifo.tail < n
  avail : fifo.avail ≤ n
  contents : Ring.contents fifo.queue n fifo.tail fifo.avail = q

namespace Represents

variable {n : Nat} {fifo : SbiFifo α} {q : List α} {x : α} {fptr : α → α → Int × α} {zero : α}

theorem length (h : Represents n fifo q) : fifo.avail = q.length := by
  rw [← h.contents, Ring.length_contents]

theorem entries (h : Represents n fifo q) : fifo.entries = q := by
  rw [SbiFifo.entries, h.numEntries, h.contents]

theorem length_le (h : Represents n fifo q) : q.length ≤ n := h.length ▸ h.avail

theorem isFull_iff (h : Represents n fifo q) : isFull fifo = true ↔ q.length = n := by
  rw [isFull, decide_eq_true_iff, h.length, h.numEntries]

theorem isEmpty_iff (h : Represents n fifo q) : isEmpty fifo = true ↔ q = [] := by
  rw [isEmpty, decide_eq_true_iff, h.length, List.length_eq_zero_iff]

/-- The index that the functions compute is the cell of the ring. -/
theorem slot_lt (h : Represents n fifo q) {i : Nat} (hi : i ≤ n) :
    Ring.slot fifo.numEntries fifo.tail i < fifo.numEntries := by
  rw [h.numEntries]
  exact Ring.slot_lt h.tail hi

theorem enqueue (h : Represents n fifo q) (hn : n < 2 ^ 16) (hq : q.length < n) (x : α) :
    ∃ fifo', Fifo.enqueue fifo x = .ok fifo' ∧ Represents n fifo' (q ++ [x]) := by
  have havail : fifo.avail < n := h.length.trans_lt hq
  refine ⟨_, if_pos (h.slot_lt havail.le), h.numEntries, h.tail, ?_, ?_⟩
  · dsimp only
    omega
  · rw [← h.contents, ← Ring.contents_push havail]
    dsimp only
    rw [Nat.mod_eq_of_lt (by omega), ← h.numEntries]
    rfl

theorem skip (h : Represents n fifo (x :: q)) (hn : n < 2 ^ 16) :
    Represents n (skipDataCopy fifo) q := by
  have hlen : fifo.avail = q.length + 1 := h.length
  have htail := h.tail
  have hle := h.avail
  have havail : (skipDataCopy fifo).avail = q.length := by
    simp only [skipDataCopy]
    omega
  have hslot : (skipDataCopy fifo).tail = Ring.slot n fifo.tail 1 := by
    have hmod : (fifo.tail + 1) % 2 ^ 16 = fifo.tail + 1 := Nat.mod_eq_of_lt (by omega)
    unfold skipDataCopy Ring.slot
    dsimp only
    rw [hmod, h.numEntries]
    split <;> omega
  have hnum : (skipDataCopy fifo).numEntries = n :=
    (numEntries_skipDataCopy fifo).trans h.numEntries
  have hqueue : (skipDataCopy fifo).queue = fifo.queue := queue_skipDataCopy fifo
  have hcontents := h.contents
  rw [hlen, Ring.contents_pop htail (by omega)] at hcontents
  generalize skipDataCopy fifo = fifo' at havail hslot hnum hqueue ⊢
  refine ⟨hnum, ?_, by omega, ?_⟩
  · rw [hslot]
    exact Ring.slot_lt htail (by omega)
  · rw [havail, hslot, hqueue]
    exact (List.cons.inj hcontents).2

theorem dequeue (h : Represents n fifo (x :: q)) :
    Fifo.dequeue fifo = .ok (x, skipDataCopy fifo) := by
  have hcontents := h.contents
  have hle := h.avail
  rw [h.length, List.length_cons] at hcontents hle
  rw [Ring.contents_pop h.tail hle] at hcontents
  rw [Fifo.dequeue, if_pos (by rw [h.numEntries]; exact h.tail), (List.cons.inj hcontents).1]

/-- The loop visits the entries `rest` after the entries `done`. -/
theorem inplaceLoop {input : α} {done rest : List α} (h : Represents n fifo (done ++ rest))
    (ret : Int) :
    ∃ fifo', Fifo.inplaceLoop fptr input rest.length done.length ret fifo =
        .ok ((visit fptr input ret rest).1, fifo') ∧
      Represents n fifo' (done ++ (visit fptr input ret rest).2) := by
  induction rest generalizing fifo done ret with
  | nil => exact ⟨fifo, rfl, h⟩
  | cons x rest ih =>
      have hlen : fifo.avail = done.length + (rest.length + 1) := by
        rw [h.length, List.length_append, List.length_cons]
      have hle := h.avail
      have hcell : fifo.queue (Ring.slot fifo.numEntries fifo.tail done.length) = x := by
        have hget : (done ++ x :: rest)[done.length]? =
            some (fifo.queue (Ring.slot n fifo.tail done.length)) := by
          rw [← h.contents]
          exact Ring.getElem?_contents (by omega)
        rw [List.getElem?_append_right le_rfl, Nat.sub_self] at hget
        rw [h.numEntries]
        exact (Option.some.inj hget).symm
      have hset (y : α) : Represents n
          (fifo.set (Ring.slot fifo.numEntries fifo.tail done.length) y) (done ++ y :: rest) := by
        refine ⟨h.numEntries, h.tail, hle, ?_⟩
        dsimp only [SbiFifo.set]
        rw [h.numEntries, Ring.contents_update (by omega) hle, h.contents,
          List.set_append_right _ _ le_rfl, Nat.sub_self, List.set_cons_zero]
      have hstep : Fifo.inplaceLoop fptr input (rest.length + 1) done.length ret fifo =
          (if (fptr input x).1 = sbiFifoSkip ∨ (fptr input x).1 = sbiFifoUpdated then
            .ok ((fptr input x).1,
              fifo.set (Ring.slot fifo.numEntries fifo.tail done.length) (fptr input x).2)
          else Fifo.inplaceLoop fptr input rest.length (done.length + 1) (fptr input x).1
            (fifo.set (Ring.slot fifo.numEntries fifo.tail done.length) (fptr input x).2)) := by
        rw [← hcell]
        exact if_pos (h.slot_lt (by omega))
      rw [List.length_cons, hstep, visit]
      dsimp only
      split
      · exact ⟨_, rfl, hset _⟩
      · have hnext := hset (fptr input x).2
        rw [List.append_cons] at hnext
        obtain ⟨fifo', hloop, hrep⟩ := ih hnext (fptr input x).1
        rw [List.length_append, List.length_singleton] at hloop
        refine ⟨fifo', hloop, ?_⟩
        rwa [← List.append_cons] at hrep

theorem isEmpty_cons (h : Represents n fifo (x :: q)) : isEmpty fifo = false :=
  Bool.eq_false_iff.mpr (mt h.isEmpty_iff.mp (List.cons_ne_nil x q))

theorem sbiFifoEnqueue (h : Represents n fifo q) (hn : n < 2 ^ 16) (x : α) (force : Bool) :
    ∃ fifo', Fifo.sbiFifoEnqueue fifo (some x) force =
        .ok (if q.length < n ∨ force = true then 0 else sbiEnospc, fifo') ∧
      Represents n fifo'
        (if q.length < n then q ++ [x] else if force then q.tail ++ [x] else q) := by
  have hle := h.length_le
  by_cases hlt : q.length < n
  · obtain ⟨fifo', henq, hrep⟩ := h.enqueue hn hlt x
    have hfull : isFull fifo = false := Bool.eq_false_iff.mpr (mt h.isFull_iff.mp hlt.ne)
    simp only [Fifo.sbiFifoEnqueue, hfull, henq, hlt, true_or, if_true]
    exact ⟨fifo', rfl, hrep⟩
  · have hfull : isFull fifo = true := h.isFull_iff.mpr (by omega)
    simp only [Fifo.sbiFifoEnqueue, hfull, hlt, false_or, if_false]
    cases force with
    | false => exact ⟨fifo, rfl, h⟩
    | true =>
        -- the oldest entry makes place for the new one
        cases q with
        | nil => exact absurd (Nat.zero_lt_of_lt h.tail) hlt
        | cons y q =>
            obtain ⟨fifo', henq, hrep⟩ := (h.skip hn).enqueue hn hle x
            exact ⟨fifo', by rw [henq]; rfl, hrep⟩

theorem call_enqueue (h : Represents n fifo q) (hn : n < 2 ^ 16) (x : α) (force : Bool) :
    ∃ fifo', (Op.enqueue (some x) force).call zero fifo =
        .ok (((Op.enqueue (some x) force).spec n q).1, fifo') ∧
      Represents n fifo' ((Op.enqueue (some x) force).spec n q).2 := by
  obtain ⟨fifo', hok, hrep⟩ := h.sbiFifoEnqueue hn x force
  refine ⟨fifo', ?_⟩
  rw [Op.call, hok, Op.spec]
  by_cases hlt : q.length < n
  · simp only [hlt, true_or, if_true] at hrep ⊢
    exact ⟨rfl, hrep⟩
  · simp only [hlt, false_or, if_false] at hrep ⊢
    cases force <;> exact ⟨rfl, hrep⟩

theorem sbiFifoDequeue (h : Represents n fifo q) (hn : n < 2 ^ 16) :
    ∃ fifo', Fifo.sbiFifoDequeue fifo true =
        .ok (if q = [] then sbiEnoent else 0, q.head?, fifo') ∧ Represents n fifo' q.tail := by
  cases q with
  | nil =>
      simp only [Fifo.sbiFifoDequeue, h.isEmpty_iff.mpr rfl]
      exact ⟨fifo, rfl, h⟩
  | cons x q =>
      simp only [Fifo.sbiFifoDequeue, h.isEmpty_cons, h.dequeue]
      exact ⟨skipDataCopy fifo, rfl, h.skip hn⟩

theorem call_dequeue (h : Represents n fifo q) (hn : n < 2 ^ 16) :
    ∃ fifo', (Op.dequeue true).call zero fifo =
        .ok (((Op.dequeue true).spec n q).1, fifo') ∧
      Represents n fifo' ((Op.dequeue true).spec n q).2 := by
  obtain ⟨fifo', hok, hrep⟩ := h.sbiFifoDequeue hn
  refine ⟨fifo', ?_, ?_⟩
  · rw [Op.call, hok]
    cases q <;> rfl
  · cases q <;> exact hrep

theorem sbiFifoInplaceUpdate (h : Represents n fifo q) (input : α) :
    ∃ fifo', Fifo.sbiFifoInplaceUpdate fptr fifo (some input) =
        .ok ((visit fptr input sbiFifoUnchanged q).1, fifo') ∧
      Represents n fifo' (visit fptr input sbiFifoUnchanged q).2 := by
  cases q with
  | nil =>
      simp only [Fifo.sbiFifoInplaceUpdate, h.isEmpty_iff.mpr rfl]
      exact ⟨fifo, rfl, h⟩
  | cons x q =>
      obtain ⟨fifo', hloop, hrep⟩ : ∃ fifo', Fifo.inplaceLoop fptr input (x :: q).length 0
            sbiFifoUnchanged fifo = .ok ((visit fptr input sbiFifoUnchanged (x :: q)).1, fifo') ∧
          Represents n fifo' (visit fptr input sbiFifoUnchanged (x :: q)).2 :=
        Represents.inplaceLoop (List.nil_append (x :: q) ▸ h) sbiFifoUnchanged
      simp only [Fifo.sbiFifoInplaceUpdate, h.isEmpty_cons, h.length]
      exact ⟨fifo', hloop, hrep⟩

theorem call_inplaceUpdate (h : Represents n fifo q) (input : α) :
    ∃ fifo', (Op.inplaceUpdate fptr (some input)).call zero fifo =
        .ok (((Op.inplaceUpdate fptr (some input)).spec n q).1, fifo') ∧
      Represents n fifo' ((Op.inplaceUpdate fptr (some input)).spec n q).2 := by
  obtain ⟨fifo', hok, hrep⟩ : ∃ fifo', Fifo.sbiFifoInplaceUpdate fptr fifo (some input) =
        .ok ((visit fptr input sbiFifoUnchanged q).1, fifo') ∧
      Represents n fifo' (visit fptr input sbiFifoUnchanged q).2 :=
    h.sbiFifoInplaceUpdate input
  refine ⟨fifo', ?_, hrep⟩
  simp only [Op.call, hok]
  rfl

/-- Every call does to the queue what it does to the list. -/
theorem call (h : Represents n fifo q) (hn : n < 2 ^ 16) (op : Op α) :
    ∃ fifo', op.call zero fifo = .ok ((op.spec n q).1, fifo') ∧
      Represents n fifo' (op.spec n q).2 := by
  cases op with
  | enqueue data force =>
      cases data with
      | none => exact ⟨fifo, rfl, h⟩
      | some x => exact h.call_enqueue hn x force
  | dequeue data =>
      cases data with
      | false => exact ⟨fifo, rfl, h⟩
      | true => exact h.call_dequeue hn
  | inplaceUpdate fptr input =>
      cases input with
      | none => exact ⟨fifo, rfl, h⟩
      | some input => exact h.call_inplaceUpdate input
  | reset => exact ⟨sbiFifoReset zero fifo, rfl, h.numEntries, Nat.zero_lt_of_lt h.tail,
      Nat.zero_le n, Ring.contents_zero⟩
  | avail => exact ⟨fifo, by simp only [Op.call, Op.spec, h.length], h⟩
  | isFull => exact ⟨fifo, by simp only [Op.call, Op.spec, h.isFull_iff], h⟩
  | isEmpty => exact ⟨fifo, by simp only [Op.call, Op.spec, h.isEmpty_iff], h⟩

theorem run (h : Represents n fifo q) (hn : n < 2 ^ 16) (ops : List (Op α)) :
    ∃ fifo', Fifo.run zero ops fifo = .ok ((specRun n ops q).1, fifo') ∧
      Represents n fifo' (specRun n ops q).2 := by
  induction ops generalizing fifo q with
  | nil => exact ⟨fifo, rfl, h⟩
  | cons op ops ih =>
      obtain ⟨fifo₁, hcall, hrep⟩ : ∃ fifo', op.call zero fifo =
          .ok ((op.spec n q).1, fifo') ∧ Represents n fifo' (op.spec n q).2 :=
        h.call hn op
      obtain ⟨fifo₂, hrun, hrep'⟩ := ih hrep
      refine ⟨fifo₂, ?_, hrep'⟩
      rw [Fifo.run, hcall]
      change (do let (rs, fifo) ← Fifo.run zero ops fifo₁; _) = _
      rw [hrun]
      rfl

end Represents

theorem represents_init {n : Nat} (hn : 0 < n) : Represents n (sbiFifoInit zero n) [] :=
  ⟨rfl, hn, Nat.zero_le n, Ring.contents_zero⟩

/-- A queue with entries is a list of at most that many, for every sequence of calls. -/
theorem sbiFifo_refines {n : Nat} (hn : 0 < n) (hlt : n < 2 ^ 16) (ops : List (Op α)) :
    ∃ fifo, run zero ops (sbiFifoInit zero n) = .ok ((specRun n ops []).1, fifo) ∧
      Ring.contents fifo.queue n fifo.tail fifo.avail = (specRun n ops []).2 := by
  obtain ⟨fifo, hrun, hrep⟩ := (represents_init zero hn).run hlt ops
  exact ⟨fifo, hrun, hrep.contents⟩

/-- The new entry takes the place of the oldest one, and the callback doubles the first entry
that is greater than its input. -/
theorem sbiFifo_refines_forced : ∃ fifo,
    run 0 [.enqueue (some 5) false, .enqueue (some 7) false, .enqueue (some 9) true,
        .inplaceUpdate (fun a x => if a < x then (sbiFifoUpdated, 2 * x) else (sbiFifoUnchanged, x))
          (some 8), .dequeue true]
      (sbiFifoInit (0 : Int) 2) =
        .ok ([⟨0, none⟩, ⟨0, none⟩, ⟨0, none⟩, ⟨1, none⟩, ⟨0, some 7⟩], fifo) ∧
      Ring.contents fifo.queue 2 fifo.tail fifo.avail = [18] :=
  sbiFifo_refines 0 (by decide) (by decide) _

/-- A queue without entries is full, and a forced `sbi_fifo_enqueue` writes outside of it. -/
example (x : α) : sbiFifoEnqueue (sbiFifoInit zero 0) (some x) true = .error .outOfBounds := rfl

end OsCourse.Sbi.Fifo
