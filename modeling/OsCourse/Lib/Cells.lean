import Mathlib

/-!
# Programs over memory cells

A memory is a function from addresses to cells.  A cell is outside of every
allocation, or allocated and not yet written, or holds a value.  A program over such
a memory fails when it loads from a cell without a value or stores to one outside, or
when a product of `int`s overflows.

`Wp x Q m` is the weakest precondition for total correctness: from `m` the program
`x` ends without a fault, in a state with `Q`.  There is one rule for each way to put
programs together, and no proof about a program has to unfold the monad.

What a program leaves alone is said with `Changes S m m'`: all cells outside of `S`
are as they were, and nothing is deallocated.  `wp_each` is the rule for a loop whose
rounds write to their own cells: what each round establishes holds at the end, if it
depends on cells that later rounds do not touch.  `wp_fill` and `wp_vectors` are the
cases of an array that is filled one cell at a time, and one vector at a time.
-/

namespace OsCourse.Cells

variable {F α β : Type}

/-! ## Memory -/

/-- A memory cell. -/
inductive Cell (F : Type) where
  /-- Not allocated. -/
  | outside
  /-- Allocated, but not written. -/
  | uninit
  /-- With a value. -/
  | value (v : F)

/-- What goes wrong. -/
inductive Fault where
  /-- The address is not allocated. -/
  | outside (a : Int)
  /-- A load before the first store. -/
  | uninit (a : Int)
  /-- A product that is no `int`. -/
  | overflow
deriving DecidableEq

/-- The cells by address. -/
abbrev Memory (F : Type) := Nat → Cell F

/-- The memory after an allocation of `size` cells at address 0. -/
def fresh (size : Nat) : Memory F := fun a => if a < size then .uninit else .outside

/-- The value of the cell at an address. -/
def Cell.get (a : Nat) : Cell F → Except Fault F
  | .value v => .ok v
  | .uninit => .error (.uninit a)
  | .outside => .error (.outside a)

/-- The value at an address, which may be the result of a subtraction. -/
def Memory.get (m : Memory F) : Int → Except Fault F
  | .ofNat a => (m a).get a
  | .negSucc a => .error (.outside (.negSucc a))

/-- Programs over one memory. -/
abbrev Program (F α : Type) := StateT (Memory F) (Except Fault) α

/-- A load. -/
def load (a : Nat) : Program F F := fun m => (m.get a).map fun v => (v, m)

/-- A load from a memory that the program does not write to. -/
def loadFrom {G : Type} (p : Memory G) (a : Int) : Program F G :=
  fun m => (p.get a).map fun v => (v, m)

/-- A store. -/
def store (a : Nat) (v : F) : Program F Unit := fun m =>
  match m a with
  | .outside => .error (.outside a)
  | _ => .ok ((), Function.update m a (.value v))

/-- The largest `int`. -/
def intMax : Nat := 2 ^ 31 - 1

/-- The product of `p` and the factors, from left to right, has no overflow. -/
def fitsFrom : Nat → List Nat → Bool
  | _, [] => true
  | p, x :: xs => p * x ≤ intMax && fitsFrom (p * x) xs

/-- A product of `int`s has no overflow. -/
def Fits (factors : List Nat) : Prop := fitsFrom 1 factors = true

instance (factors : List Nat) : Decidable (Fits factors) := inferInstanceAs (Decidable (_ = true))

/-- The product of some factors. -/
def product : List Nat → Nat
  | [] => 1
  | x :: xs => xs.foldl (· * ·) x

/-- Products of `int`s that are computed. -/
def ints (products : List (List Nat)) : Program F Unit := fun m =>
  if ∀ factors ∈ products, Fits factors then .ok ((), m) else .error .overflow

/-- `for (i = 0; i < n; i++)`, with a variable that the rounds pass on. -/
def loop (n : Nat) (body : Nat → α → Program F α) (a : α) : Program F α :=
  (List.range n).foldlM (fun a i => body i a) a

/-- `for (i = 0; i < n; i++)`. -/
def each (n : Nat) (body : Nat → Program F Unit) : Program F Unit :=
  loop n (fun i _ => body i) ()

/-- A loop without effects. -/
def fold (n : Nat) (f : Nat → α → α) (a : α) : α := (List.range n).foldl (fun a i => f i a) a

@[simp] theorem fold_zero (f : Nat → α → α) (a : α) : fold 0 f a = a := rfl

theorem fold_succ (n : Nat) (f : Nat → α → α) (a : α) : fold (n + 1) f a = f n (fold n f a) := by
  rw [fold, List.range_succ, List.foldl_append]
  rfl

variable {n k p s i j c l : Nat} {S : Set Nat} {m m' : Memory F} {body : Nat → Program F Unit}
  {f : Nat → Nat → Nat → F}

/-- Only the rounds that are made matter. -/
theorem fold_congr {f g : Nat → α → α} (h : ∀ i < n, ∀ a, f i a = g i a) (a : α) :
    fold n f a = fold n g a := by
  induction n with
  | zero => rfl
  | succ n ih =>
      rw [fold_succ, fold_succ, ih fun i hi => h i (by omega), h n (Nat.lt_succ_self n)]

/-! ## Weakest preconditions -/

/-- From `m` the program ends without a fault, in a state with `Q`. -/
def Wp (x : Program F α) (Q : α → Memory F → Prop) (m : Memory F) : Prop :=
  ∃ a m', x m = .ok (a, m') ∧ Q a m'

section Rules

variable {Q : α → Memory F → Prop} {m : Memory F}

theorem Wp.mono {x : Program F α} {R : α → Memory F → Prop} (h : Wp x Q m)
    (hQR : ∀ a m', Q a m' → R a m') : Wp x R m := by
  obtain ⟨a, m', hx, hQ⟩ := h
  exact ⟨a, m', hx, hQR a m' hQ⟩

variable {a : α} {v : F}

theorem wp_pure (h : Q a m) : Wp (pure a) Q m := ⟨a, m, rfl, h⟩

theorem wp_bind {x : Program F β} {f : β → Program F α}
    (h : Wp x (fun b m' => Wp (f b) Q m') m) : Wp (x >>= f) Q m := by
  obtain ⟨b, m', hx, a, m'', hf, hQ⟩ := h
  refine ⟨a, m'', ?_, hQ⟩
  have hbind : (x >>= f) m = (x m >>= fun y => f y.1 y.2) := rfl
  rw [hbind, hx]
  exact hf

theorem get_of_value {a : Nat} (h : m a = .value v) : m.get a = .ok v :=
  congrArg (Cell.get a) h

theorem wp_loadFrom {G : Type} {p : Memory G} {a : Int} {v : G} {Q : G → Memory F → Prop}
    (hv : p.get a = .ok v) (h : Q v m) : Wp (loadFrom p a) Q m := by
  refine ⟨v, m, ?_, h⟩
  rw [loadFrom, hv]
  rfl

theorem wp_load {a : Nat} {Q : F → Memory F → Prop} (hv : m a = .value v) (h : Q v m) :
    Wp (load a) Q m := by
  refine ⟨v, m, ?_, h⟩
  rw [load, get_of_value hv]
  rfl

theorem wp_store {a : Nat} {Q : Unit → Memory F → Prop} (ha : m a ≠ .outside)
    (h : Q () (Function.update m a (.value v))) : Wp (store a v) Q m := by
  refine ⟨(), Function.update m a (.value v), ?_, h⟩
  unfold store
  cases hc : m a with
  | outside => exact absurd hc ha
  | uninit => rfl
  | value w => rfl

theorem wp_ints {products : List (List Nat)} {Q : Unit → Memory F → Prop}
    (hfits : ∀ factors ∈ products, Fits factors) (h : Q () m) : Wp (ints products) Q m :=
  ⟨(), m, if_pos hfits, h⟩

/-- A loop, by an invariant. -/
theorem wp_loop {n : Nat} {body : Nat → α → Program F α} (I : Nat → α → Memory F → Prop)
    (hinit : I 0 a m) (hstep : ∀ i < n, ∀ b m', I i b m' → Wp (body i b) (I (i + 1)) m') :
    Wp (loop n body a) (I n) m := by
  induction n with
  | zero => exact wp_pure hinit
  | succ n ih =>
      have hlast : loop (n + 1) body a = (loop n body a >>= fun b => body n b) := by
        unfold loop
        rw [List.range_succ, List.foldlM_append]
        simp
      rw [hlast]
      have hfront := ih fun i hi => hstep i (Nat.lt_succ_of_lt hi)
      exact wp_bind (hfront.mono fun b m' h => hstep n (Nat.lt_succ_self n) b m' h)

/-- A loop whose rounds only compute. -/
theorem wp_loop_fold {n : Nat} {body : Nat → α → Program F α} {f : Nat → α → α}
    (hbody : ∀ i < n, ∀ b (R : α → Memory F → Prop), R (f i b) m → Wp (body i b) R m)
    (h : Q (fold n f a) m) : Wp (loop n body a) Q m := by
  have hloop : Wp (loop n body a) (fun b m' => b = fold n f a ∧ m' = m) m := by
    refine wp_loop (fun i b m' => b = fold i f a ∧ m' = m) ⟨rfl, rfl⟩ ?_
    rintro i hi b m' ⟨rfl, rfl⟩
    exact hbody i hi _ _ ⟨(fold_succ i f a).symm, rfl⟩
  refine hloop.mono ?_
  rintro b m' ⟨rfl, rfl⟩
  exact h

end Rules

/-! ## Products of machine integers -/

section Fits

variable {p q x y : Nat} {l r : List Nat}

theorem fitsFrom_mono (hp : p ≤ q) (h : List.Forall₂ (· ≤ ·) l r) (hq : fitsFrom q r = true) :
    fitsFrom p l = true := by
  induction h generalizing p q with
  | nil => rfl
  | cons hxy _ ih =>
      simp only [fitsFrom, Bool.and_eq_true, decide_eq_true_eq] at hq ⊢
      have hle := Nat.mul_le_mul hp hxy
      exact ⟨hle.trans hq.1, ih hle hq.2⟩

/-- Smaller factors have no overflow either. -/
theorem Fits.mono (hy : Fits r) (h : List.Forall₂ (· ≤ ·) l r) : Fits l :=
  fitsFrom_mono le_rfl h hy

/-- The first factor may be left out. -/
theorem Fits.tail (h : Fits (x :: l)) (hx : 0 < x) : Fits l := by
  rw [Fits, fitsFrom, Bool.and_eq_true, Nat.one_mul] at h
  exact fitsFrom_mono hx (List.forall₂_refl l) h.2

theorem fitsFrom_append : fitsFrom p (l ++ r) = true ↔
    fitsFrom p l = true ∧ fitsFrom (l.foldl (· * ·) p) r = true := by
  induction l generalizing p with
  | nil => simp [fitsFrom]
  | cons x l ih => simp [fitsFrom, ih, and_assoc]

/-- The first factors have no overflow. -/
theorem Fits.take (h : Fits (l ++ r)) : Fits l := (fitsFrom_append.mp h).1

/-- Two factors may be multiplied first. -/
theorem Fits.join (h : Fits (l ++ x :: y :: r)) : Fits (l ++ x * y :: r) := by
  rw [Fits, fitsFrom_append] at h ⊢
  simp only [fitsFrom, Bool.and_eq_true, Nat.mul_assoc] at h ⊢
  exact ⟨h.1, h.2.2⟩

/-- A factor may be split, if the second part is not 0. -/
theorem Fits.split (h : Fits (l ++ x * y :: r)) (hy : 0 < y) : Fits (l ++ x :: y :: r) := by
  rw [Fits, fitsFrom_append] at h ⊢
  simp only [fitsFrom, Bool.and_eq_true, decide_eq_true_eq, Nat.mul_assoc] at h ⊢
  refine ⟨h.1, le_trans ?_ h.2.1, h.2⟩
  exact Nat.mul_le_mul_left _ (Nat.le_mul_of_pos_right x hy)

theorem Fits.swap (h : Fits [x, y]) (hx : 0 < x) : Fits [y, x] := by
  simp only [Fits, fitsFrom, Nat.one_mul, Bool.and_true, Bool.and_eq_true, decide_eq_true_eq] at h ⊢
  rw [Nat.mul_comm y x]
  exact ⟨(Nat.le_mul_of_pos_left y hx).trans h.2, h.2⟩

theorem Fits.le (h : Fits [x]) : x ≤ intMax := by
  simpa [Fits, fitsFrom] using h

end Fits

/-! ## What a program leaves alone -/

/-- From `m` to `m'` only cells in `S` have changed, and none is deallocated. -/
structure Changes (S : Set Nat) (m m' : Memory F) : Prop where
  keep : ∀ a, a ∉ S → m' a = m a
  alloc : ∀ a, m a ≠ .outside → m' a ≠ .outside

section Changes

variable {S S' : Set Nat} {m m' m'' : Memory F}

theorem Changes.refl (S : Set Nat) (m : Memory F) : Changes S m m :=
  ⟨fun _ _ => rfl, fun _ h => h⟩

theorem Changes.mono (h : Changes S m m') (hS : S ⊆ S') : Changes S' m m' :=
  ⟨fun a ha => h.keep a fun hmem => ha (hS hmem), h.alloc⟩

theorem Changes.trans (h : Changes S m m') (h' : Changes S m' m'') : Changes S m m'' :=
  ⟨fun a ha => (h'.keep a ha).trans (h.keep a ha), fun a ha => h'.alloc a (h.alloc a ha)⟩

theorem changes_update {a : Nat} (ha : a ∈ S) (v : F) :
    Changes S m (Function.update m a (.value v)) := by
  constructor
  · intro b hb
    have hne : b ≠ a := ne_of_mem_of_not_mem ha hb |>.symm
    exact Function.update_of_ne hne _ _
  · intro b hb
    rcases eq_or_ne b a with rfl | hne
    · rw [Function.update_self]
      intro h
      cases h
    · rwa [Function.update_of_ne hne]

/-- All cells of `S` are allocated. -/
def Allocated (S : Set Nat) (m : Memory F) : Prop := ∀ a ∈ S, m a ≠ .outside

theorem Allocated.changes (h : Allocated S m) (hm : Changes S' m m') : Allocated S m' :=
  fun a ha => hm.alloc a (h a ha)

theorem Allocated.mono (h : Allocated S m) (hS : S' ⊆ S) : Allocated S' m :=
  fun a ha => h a (hS ha)

end Changes

/-- A property of memories that only the cells in `D` decide. -/
def DependsOn (D : Set Nat) (Q : Memory F → Prop) : Prop :=
  ∀ m m' : Memory F, (∀ a ∈ D, m' a = m a) → Q m → Q m'

/-- What depends on cells that are left alone is kept. -/
theorem DependsOn.keep {D : Set Nat} {Q : Memory F → Prop} (hQ : DependsOn D Q)
    (hm : Changes S m m') (hD : Disjoint D S) (h : Q m) : Q m' :=
  hQ m m' (fun a ha => hm.keep a (Set.disjoint_left.mp hD ha)) h

/-! ## Loops that write -/

/-- A loop whose round `i` writes to `R i` and establishes `Q i`, which depends on cells
that later rounds do not write to. -/
theorem wp_each {R D : Nat → Set Nat} {Q : Nat → Memory F → Prop} (hR : ∀ i < n, R i ⊆ S)
    (hQ : ∀ i < n, DependsOn (D i) (Q i)) (hD : ∀ i j, i < j → j < n → Disjoint (D i) (R j))
    (hbody : ∀ i < n, ∀ m', Changes S m m' →
      Wp (body i) (fun _ m'' => Q i m'' ∧ Changes (R i) m' m'') m') :
    Wp (each n body) (fun _ m' => (∀ i < n, Q i m') ∧ Changes S m m') m := by
  refine wp_loop (fun k _ m' => (∀ i < k, Q i m') ∧ Changes S m m')
    ⟨fun i hi => absurd hi (Nat.not_lt_zero i), Changes.refl S m⟩ ?_
  rintro j hj - m' ⟨hdone, hm'⟩
  refine (hbody j hj m' hm').mono ?_
  rintro - m'' ⟨hQj, hm''⟩
  refine ⟨fun i hi => ?_, hm'.trans (hm''.mono (hR j hj))⟩
  rcases Nat.lt_succ_iff_lt_or_eq.mp hi with hlt | rfl
  · exact (hQ i (hlt.trans hj)).keep hm'' (hD i j hlt hj) (hdone i hlt)
  · exact hQj

/-- Two nested loops of this kind. -/
theorem wp_each_each {body : Nat → Nat → Program F Unit} {R D : Nat → Nat → Set Nat}
    {Q : Nat → Nat → Memory F → Prop} (hR : ∀ i < n, ∀ j < k, R i j ⊆ S)
    (hQ : ∀ i < n, ∀ j < k, DependsOn (D i j) (Q i j))
    (hD : ∀ i < n, ∀ j < k, ∀ i' < n, ∀ j' < k, i < i' ∨ i = i' ∧ j < j' →
      Disjoint (D i j) (R i' j')) (hbody : ∀ i < n, ∀ j < k, ∀ m', Changes S m m' →
      Wp (body i j) (fun _ m'' => Q i j m'' ∧ Changes (R i j) m' m'') m') :
    Wp (each n fun i => each k fun j => body i j)
      (fun _ m' => (∀ i < n, ∀ j < k, Q i j m') ∧ Changes S m m') m := by
  have hrow : ∀ i < n, ∀ m', Changes S m m' →
      Wp (each k fun j => body i j)
        (fun _ m'' => (∀ j < k, Q i j m'') ∧ Changes {a | ∃ j < k, a ∈ R i j} m' m'') m' := by
    intro i hi m' hm'
    refine wp_each (fun j hj a ha => ⟨j, hj, ha⟩) (hQ i hi)
      (fun j j' hlt hj' => hD i hi j (hlt.trans hj') i hi j' hj' (.inr ⟨rfl, hlt⟩)) ?_
    intro j hj m'' hm''
    have hS : {a | ∃ j < k, a ∈ R i j} ⊆ S := by
      rintro a ⟨j, hj, ha⟩
      exact hR i hi j hj ha
    exact hbody i hi j hj m'' (hm'.trans (hm''.mono hS))
  refine wp_each (D := fun i => {a | ∃ j < k, a ∈ D i j}) ?_ ?_ ?_ hrow
  · rintro i hi a ⟨j, hj, ha⟩
    exact hR i hi j hj ha
  · intro i hi m₁ m₂ hsame hm₁ j hj
    exact hQ i hi j hj m₁ m₂ (fun a ha => hsame a ⟨j, hj, ha⟩) (hm₁ j hj)
  · intro i i' hlt hi'
    refine Set.disjoint_left.mpr ?_
    rintro a ⟨j, hj, ha⟩ ⟨j', hj', ha'⟩
    exact Set.disjoint_left.mp (hD i (hlt.trans hi') j hj i' hi' j' hj' (.inl hlt)) ha ha'

/-! ## Arrays -/

/-- The cells of an array. -/
def array (p n : Nat) : Set Nat := Set.Ico p (p + n)

theorem mem_array {a : Nat} : a ∈ array p n ↔ p ≤ a ∧ a < p + n := Set.mem_Ico

/-- An array with values. -/
def Holds (p n : Nat) (f : Nat → F) (m : Memory F) : Prop := ∀ i < n, m (p + i) = .value (f i)

theorem dependsOn_holds (p n : Nat) (f : Nat → F) : DependsOn (array p n) (Holds p n f) := by
  intro m m' hsame h i hi
  rw [hsame (p + i) (mem_array.mpr (by omega)), h i hi]

/-- A loop that fills an array. -/
theorem Holds.succ {f : Nat → F} (h : Holds p n f m) :
    Holds p (n + 1) f (Function.update m (p + n) (.value (f n))) := by
  intro j hj
  rcases Nat.lt_succ_iff_lt_or_eq.mp hj with hlt | rfl
  · rw [Function.update_of_ne (by omega), h j hlt]
  · rw [Function.update_self]

theorem wp_fill {f : Nat → F}
    (hbody : ∀ i < n, ∀ m', Changes (array p n) m m' → (∀ j < i, m' (p + j) = .value (f j)) →
      (∀ j, i ≤ j → m' (p + j) = m (p + j)) →
      Wp (body i) (fun _ m'' => m'' = Function.update m' (p + i) (.value (f i))) m') :
    Wp (each n body) (fun _ m' => Holds p n f m' ∧ Changes (array p n) m m') m := by
  refine (wp_loop (fun k _ m' => Holds p k f m' ∧ Changes (array p n) m m' ∧
    ∀ j, k ≤ j → m' (p + j) = m (p + j)) ?_ ?_).mono ?_
  · exact ⟨fun i hi => absurd hi (Nat.not_lt_zero i), Changes.refl _ m, fun _ _ => rfl⟩
  · rintro i hi - m' ⟨hdone, hm', hrest⟩
    refine (hbody i hi m' hm' hdone hrest).mono ?_
    rintro - m'' rfl
    refine ⟨hdone.succ, hm'.trans (changes_update (mem_array.mpr (by omega)) _), fun j hj => ?_⟩
    rw [Function.update_of_ne (by omega), hrest j (by omega)]
  · rintro - m' ⟨hdone, hm', -⟩
    exact ⟨hdone, hm'⟩

/-- An array in pieces of length `s`. -/
theorem holds_pieces {f : Nat → Nat → F} (h : ∀ i < n, Holds (p + i * s) s (f i) m) :
    Holds p (n * s) (fun c => f (c / s) (c % s)) m := by
  intro c hc
  have hpos : 0 < s := Nat.pos_of_mul_pos_left (Nat.zero_lt_of_lt hc)
  have hcell := h (c / s) ((Nat.div_lt_iff_lt_mul hpos).mpr hc) (c % s) (Nat.mod_lt c hpos)
  rwa [Nat.add_assoc, Nat.div_add_mod'] at hcell

theorem piece_subset (hi : i < n) : array (p + i * s) s ⊆ array p (n * s) := by
  have hle : (i + 1) * s ≤ n * s := Nat.mul_le_mul_right s hi
  rw [Nat.succ_mul] at hle
  intro a ha
  rw [mem_array] at ha ⊢
  omega

/-- A loop that fills an array piece by piece, and may use the cells in `X`. -/
theorem wp_pieces {X : Set Nat} {f : Nat → Nat → F} (hX : Disjoint (array p (n * s)) X)
    (hbody : ∀ i < n, ∀ m', Changes (array p (n * s) ∪ X) m m' →
      Wp (body i) (fun _ m'' => Holds (p + i * s) s (f i) m'' ∧
        Changes (array (p + i * s) s ∪ X) m' m'') m') :
    Wp (each n body) (fun _ m' => Holds p (n * s) (fun c => f (c / s) (c % s)) m' ∧
      Changes (array p (n * s) ∪ X) m m') m := by
  refine (wp_each (fun i hi => Set.union_subset_union_left X (piece_subset hi))
    (fun i _ => dependsOn_holds _ _ _) ?_ hbody).mono ?_
  · intro i j hlt hj
    have hle : (i + 1) * s ≤ j * s := Nat.mul_le_mul_right s hlt
    rw [Nat.succ_mul] at hle
    refine Set.disjoint_union_right.mpr ⟨Set.disjoint_left.mpr fun a ha ha' => ?_,
      hX.mono_left (piece_subset (hlt.trans hj))⟩
    rw [mem_array] at ha ha'
    omega
  · rintro - m' ⟨hall, hm'⟩
    exact ⟨holds_pieces hall, hm'⟩

/-- An array of `n` times `k` vectors of length `c`, with values. -/
def Holds₃ (p n k c : Nat) (f : Nat → Nat → Nat → F) (m : Memory F) : Prop :=
  ∀ i < n, ∀ j < k, Holds (p + (i * k * c + j * c)) c (f i j) m

theorem row_le (c : Nat) (hi : i < n) (hj : j < k) :
    i * k * c + j * c + c ≤ n * k * c := by
  calc i * k * c + j * c + c = (i * k + (j + 1)) * c := by ring
    _ ≤ (i * k + k) * c := Nat.mul_le_mul_right c (Nat.add_le_add_left hj _)
    _ = (i + 1) * k * c := by ring
    _ ≤ n * k * c := Nat.mul_le_mul_right c (Nat.mul_le_mul_right k hi)

/-- The products in the offset of a vector, and the number of the vector. -/
theorem Fits.row (h : Fits [n, k, c]) (hi : i < n) (hj : j < k) :
    Fits [i, k, c] ∧ Fits [j, c] ∧ Fits [i * k + j] := by
  have hn : 0 < n := Nat.zero_lt_of_lt hi
  refine ⟨h.mono ?_, (h.tail hn).mono ?_, ?_⟩
  · exact .cons hi.le (List.forall₂_refl [k, c])
  · exact .cons hj.le (List.forall₂_refl [c])
  · have hle := row_le 1 hi hj
    have hmax : n * k ≤ intMax := (Fits.join (l := []) (r := [c]) h).take (l := [n * k]) |>.le
    simp only [Fits, fitsFrom, Nat.one_mul, Bool.and_true, decide_eq_true_eq]
    omega


theorem row_le_row {i' j' : Nat} (c : Nat) (hj : j < k) (h : i < i' ∨ i = i' ∧ j < j') :
    i * k * c + j * c + c ≤ i' * k * c + j' * c := by
  rcases h with hlt | ⟨rfl, hlt⟩
  · exact (row_le c hlt hj).trans (Nat.le_add_right _ _)
  · have hle : (j + 1) * c ≤ j' * c := Nat.mul_le_mul_right c hlt
    rw [Nat.succ_mul] at hle
    omega

theorem row_subset (hi : i < n) (hj : j < k) :
    array (p + (i * k * c + j * c)) c ⊆ array p (n * k * c) := by
  intro a ha
  have hle := row_le c hi hj
  rw [mem_array] at ha ⊢
  omega

theorem row_disjoint {i' j' : Nat} (hj : j < k) (h : i < i' ∨ i = i' ∧ j < j') :
    Disjoint (array (p + (i * k * c + j * c)) c) (array (p + (i' * k * c + j' * c)) c) := by
  have hle := row_le_row c hj h
  refine Set.disjoint_left.mpr fun a ha ha' => ?_
  rw [mem_array] at ha ha'
  omega

theorem dependsOn_holds₃ (p n k c : Nat) (f : Nat → Nat → Nat → F) :
    DependsOn (array p (n * k * c)) (Holds₃ p n k c f) := by
  intro m m' hsame h i hi j hj
  exact dependsOn_holds _ _ _ m m' (fun a ha => hsame a (row_subset hi hj ha)) (h i hi j hj)

theorem add_div_of_lt {q : Nat} (hl : l < c) : (q * c + l) / c = q := by
  rw [Nat.add_comm, Nat.add_mul_div_right _ _ (Nat.zero_lt_of_lt hl), Nat.div_eq_of_lt hl,
    Nat.zero_add]

/-- The vectors of an array as one array. -/
theorem Holds₃.flat (h : Holds₃ p n k c f m) :
    Holds p (n * k * c) (fun a => f (a / c / k) (a / c % k) (a % c)) m := by
  refine holds_pieces (f := fun q => f (q / k) (q % k)) fun q hq => ?_
  have hpos : 0 < k := Nat.pos_of_mul_pos_left (Nat.zero_lt_of_lt hq)
  have hvec := h (q / k) ((Nat.div_lt_iff_lt_mul hpos).mpr hq) (q % k) (Nat.mod_lt q hpos)
  rwa [← Nat.add_mul, Nat.div_add_mod'] at hvec

/-- One array as vectors. -/
theorem Holds.vectors (h : Holds p (n * k * c) (fun a => f (a / c / k) (a / c % k) (a % c)) m) :
    Holds₃ p n k c f m := by
  intro i hi j hj l hl
  have hle := row_le c hi hj
  have hcell := h (i * k * c + j * c + l) (by omega)
  rw [← Nat.add_mul] at hcell
  simp only [add_div_of_lt hl, add_div_of_lt hj, Nat.mul_add_mod_of_lt hl,
    Nat.mul_add_mod_of_lt hj] at hcell
  rwa [Nat.add_mul, ← Nat.add_assoc] at hcell

/-- A value of an array that does not change. -/
theorem Holds₃.load (h : Holds₃ p n k c f m) (hm : Changes S m m')
    (hS : Disjoint (array p (n * k * c)) S) (hi : i < n) (hj : j < k) (hl : l < c) :
    m' (p + (i * k * c + j * c) + l) = .value (f i j l) :=
  (dependsOn_holds₃ p n k c f).keep hm hS h i hi j hj l hl

/-- A cell of an allocated array stays allocated. -/
theorem Allocated.row (h : Allocated (array p (n * k * c)) m) (hm : Changes S m m') (hi : i < n)
    (hj : j < k) (hl : l < c) : m' (p + (i * k * c + j * c) + l) ≠ .outside :=
  hm.alloc _ (h _ (row_subset hi hj (mem_array.mpr ⟨Nat.le_add_right _ _, by omega⟩)))

/-- Nested loops that fill an array vector by vector, and may use the cells in `X`. -/
theorem wp_vectors {X : Set Nat} {body : Nat → Nat → Program F Unit}
    (hX : Disjoint (array p (n * k * c)) X)
    (hbody : ∀ i < n, ∀ j < k, ∀ m', Changes (array p (n * k * c) ∪ X) m m' →
      Wp (body i j) (fun _ m'' => Holds (p + (i * k * c + j * c)) c (f i j) m'' ∧
        Changes (array (p + (i * k * c + j * c)) c ∪ X) m' m'') m') :
    Wp (each n fun i => each k fun j => body i j)
      (fun _ m' => Holds₃ p n k c f m' ∧ Changes (array p (n * k * c) ∪ X) m m') m := by
  refine wp_each_each (fun i hi j hj => Set.union_subset_union_left X (row_subset hi hj))
    (fun i hi j hj => dependsOn_holds _ _ _) ?_ hbody
  intro i hi j hj i' hi' j' hj' hlt
  rw [Set.disjoint_union_right]
  exact ⟨row_disjoint hj hlt, hX.mono_left (row_subset hi hj)⟩

/-- Nested loops that fill an array vector by vector. -/
theorem wp_vectors_only {body : Nat → Nat → Program F Unit}
    (hbody : ∀ i < n, ∀ j < k, ∀ m', Changes (array p (n * k * c)) m m' →
      Wp (body i j) (fun _ m'' => Holds (p + (i * k * c + j * c)) c (f i j) m'' ∧
        Changes (array (p + (i * k * c + j * c)) c) m' m'') m') :
    Wp (each n fun i => each k fun j => body i j)
      (fun _ m' => Holds₃ p n k c f m' ∧ Changes (array p (n * k * c)) m m') m := by
  rw [← Set.union_empty (array p (n * k * c))]
  refine wp_vectors (Set.disjoint_empty _) fun i hi j hj m' hm' => ?_
  rw [Set.union_empty] at hm' ⊢
  exact hbody i hi j hj m' hm'

/-! ## Arrays side by side -/

/-- Where the array of `x` starts, when arrays of the given sizes are placed one after
the other from `a` on. -/
def place {K : Type} [DecidableEq K] (size : K → Nat) : List K → Nat → K → Nat
  | [], a, _ => a
  | k :: ks, a, x => if x = k then a else place size ks (a + size k) x

section Place

variable {K : Type} [DecidableEq K] (size : K → Nat)

theorem le_place (ks : List K) (a : Nat) (x : K) : a ≤ place size ks a x := by
  induction ks generalizing a with
  | nil => exact le_rfl
  | cons k ks ih =>
      rw [place]
      split
      · exact le_rfl
      · exact (Nat.le_add_right _ _).trans (ih _)

theorem place_le {ks : List K} {x : K} (hx : x ∈ ks) (a : Nat) :
    place size ks a x + size x ≤ a + (ks.map size).sum := by
  induction ks generalizing a with
  | nil => cases hx
  | cons k ks ih =>
      rw [place, List.map_cons, List.sum_cons]
      split
      next h =>
        subst h
        omega
      next h =>
        have := ih ((List.mem_cons.mp hx).resolve_left h) (a + size k)
        omega

theorem place_disjoint {ks : List K} {x y : K} (hx : x ∈ ks) (hy : y ∈ ks) (hne : x ≠ y) (a : Nat) :
    Disjoint (array (place size ks a x) (size x)) (array (place size ks a y) (size y)) := by
  induction ks generalizing a with
  | nil => cases hx
  | cons k ks ih =>
      -- the first array is before all others
      have hfirst : ∀ z : K, Disjoint (array a (size k))
          (array (place size ks (a + size k) z) (size z)) := by
        intro z
        have hle : a + size k ≤ place size ks (a + size k) z := le_place size ks (a + size k) z
        refine Set.disjoint_left.mpr fun b hb hb' => ?_
        rw [mem_array] at hb hb'
        omega
      rw [place, place]
      by_cases hxk : x = k
      · subst hxk
        rw [if_pos rfl, if_neg (Ne.symm hne)]
        exact hfirst y
      · rw [if_neg hxk]
        by_cases hyk : y = k
        · subst hyk
          rw [if_pos rfl]
          exact (hfirst x).symm
        · rw [if_neg hyk]
          exact ih ((List.mem_cons.mp hx).resolve_left hxk)
            ((List.mem_cons.mp hy).resolve_left hyk) _

end Place

end OsCourse.Cells
