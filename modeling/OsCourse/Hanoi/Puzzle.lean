import OsCourse.Hanoi.Recursive

/-!
# The puzzle

The pegs hold discs, and a move takes the top disc of a peg to a peg that is empty or
has a larger disc on top.  `play` makes the moves of a list one by one and stops at one
that is not allowed.

The moves of `hanoi` are all allowed and bring the tower to its peg (`play_moves`).
The induction is on the height, for all pegs and for all discs that lie below the
tower or on the other two pegs, as long as they are larger: the largest disc of the
tower is one of those for the two smaller towers.
-/

namespace OsCourse.Hanoi

/-- The discs on the pegs, those on top first. -/
abbrev Towers (Peg : Type) := Peg → List Nat

section
variable {Peg : Type} [DecidableEq Peg]

/-- One move, if it is allowed. -/
def Move.play (m : Move Peg) (t : Towers Peg) : Option (Towers Peg) :=
  match t m.source with
  | [] => none
  | d :: ds =>
      let lifted := Function.update t m.source ds
      if ∀ e ∈ (lifted m.target).head?, d < e then
        some (Function.update lifted m.target (d :: lifted m.target))
      else none

/-- The moves of a list, if all of them are allowed. -/
def play (ms : List (Move Peg)) (t : Towers Peg) : Option (Towers Peg) :=
  ms.foldlM (fun t m => m.play t) t

theorem play_append (ms ms' : List (Move Peg)) (t : Towers Peg) :
    play (ms ++ ms') t = (play ms t).bind (play ms') :=
  List.foldlM_append

/-- A move between different pegs. -/
theorem Move.play_eq {source target : Peg} (hne : source ≠ target) {t : Towers Peg} {d : Nat}
    {ds : List Nat} (hsource : t source = d :: ds) (hlarger : ∀ e ∈ t target, d < e) :
    (Move.mk source target).play t =
      some (Function.update (Function.update t source ds) target (d :: t target)) := by
  have htarget : Function.update t source ds target = t target :=
    Function.update_of_ne hne.symm _ _
  simp only [Move.play, hsource, htarget]
  exact if_pos fun e he => hlarger e (List.mem_of_mem_head? he)

/-- Discs that are smaller than others. -/
def Smaller (ds es : List Nat) : Prop := ∀ d ∈ ds, ∀ e ∈ es, d < e

instance (ds es : List Nat) : Decidable (Smaller ds es) :=
  inferInstanceAs (Decidable (∀ d ∈ ds, ∀ e ∈ es, d < e))

/-- The moves bring a tower from its peg to another one. -/
theorem play_moves (n : Nat) {source target via : Peg} (hst : source ≠ target)
    (hsv : source ≠ via) (htv : target ≠ via) (t : Towers Peg) {discs rest : List Nat}
    (hlength : discs.length = n) (horder : discs.Pairwise (· < ·))
    (hsource : t source = discs ++ rest) (hrest : Smaller discs rest)
    (htarget : Smaller discs (t target)) (hvia : Smaller discs (t via)) :
    play (moves n source target via) t =
      some (Function.update (Function.update t source rest) target (discs ++ t target)) := by
  induction n generalizing source target via t discs rest with
  | zero =>
      obtain rfl := List.length_eq_zero_iff.mp hlength
      have hsame : Function.update (Function.update t source rest) target (t target) = t := by
        rw [← List.nil_append rest, ← hsource, Function.update_eq_self, Function.update_eq_self]
      exact congrArg some hsame.symm
  | succ n ih =>
      obtain ⟨small, d, rfl⟩ : ∃ small d, discs = small ++ [d] := by
        rcases List.eq_nil_or_concat discs with rfl | ⟨small, d, rfl⟩
        · cases hlength
        · exact ⟨small, d, List.concat_eq_append⟩
      rw [List.length_append, List.length_singleton] at hlength
      obtain ⟨hsmall, -, hd⟩ := List.pairwise_append.mp horder
      have hsub : ∀ {es : List Nat}, Smaller (small ++ [d]) es → Smaller small es :=
        fun h a ha => h a (List.mem_append_left _ ha)
      have hlast : ∀ {es : List Nat}, Smaller (small ++ [d]) es → ∀ e ∈ es, d < e :=
        fun h => h d (List.mem_append_right _ (List.mem_singleton_self d))
      have hover : ∀ {es : List Nat}, Smaller (small ++ [d]) es → Smaller small (d :: es) := by
        intro es h a ha e he
        rcases List.mem_cons.mp he with rfl | he
        · exact hd a ha e (List.mem_singleton_self e)
        · exact hsub h a ha e he
      -- the smaller tower goes out of the way,
      let t₁ := Function.update (Function.update t source (d :: rest)) via (small ++ t via)
      have hfirst : play (moves n source via target) t = some t₁ :=
        ih hsv hst htv.symm t (Nat.succ.inj hlength) hsmall
          (by rw [hsource, List.append_assoc, List.singleton_append]) (hover hrest) (hsub hvia)
          (hsub htarget)
      -- the largest disc is moved,
      have hsource₁ : t₁ source = d :: rest := by simp [t₁, hsv]
      have htarget₁ : t₁ target = t target := by simp [t₁, htv, hst.symm]
      let t₂ := Function.update (Function.update t₁ source rest) target (d :: t₁ target)
      have hmove : play [⟨source, target⟩] t₁ = some t₂ := by
        rw [play, List.foldlM_cons, Move.play_eq hst hsource₁ (htarget₁ ▸ hlast htarget)]
        rfl
      -- and the smaller tower follows
      have hsource₂ : t₂ source = rest := by simp [t₂, hst]
      have htarget₂ : t₂ target = d :: t target := by simp [t₂, htarget₁]
      have hvia₂ : t₂ via = small ++ t via := by simp [t₂, t₁, htv.symm, hsv.symm]
      have hthird : play (moves n via target source) t₂ =
          some (Function.update (Function.update t₂ via (t via)) target (small ++ t₂ target)) :=
        ih htv.symm hsv.symm hst.symm t₂ (Nat.succ.inj hlength) hsmall hvia₂ (hsub hvia)
          (htarget₂ ▸ hover htarget) (hsource₂ ▸ hsub hrest)
      rw [moves, play_append, play_append, hfirst, Option.bind_some, hmove, Option.bind_some,
        hthird, htarget₂]
      refine congrArg some (funext fun p => ?_)
      by_cases hpt : p = target
      · simp [hpt]
      · by_cases hps : p = source
        · simp [hps, hst, hsv, hsource₂]
        · by_cases hpv : p = via
          · simp [hpv, htv.symm, hsv.symm]
          · simp [t₂, t₁, hpt, hps, hpv]

end

/-! ## The number of moves -/

section
variable {Peg : Type}

theorem length_moves (n : Nat) (source target via : Peg) :
    (moves n source target via).length + 1 = 2 ^ n := by
  induction n generalizing source target via with
  | zero => rfl
  | succ n ih =>
      have hfirst := ih source via target
      have hthird := ih via target source
      simp only [moves, List.length_append, List.length_singleton, pow_succ]
      omega

/-- The recursion of `hanoi` with a count that does not wrap around. -/
def hanoiUnbounded : Nat → Int → Peg → Peg → Peg → Option (List (Move Peg) × Int)
  | 0, _, _, _, _ => none
  | fuel + 1, n, source, target, via =>
      if n = 1 then
        some ([⟨source, target⟩], 1)
      else do
        let (out₁, c1) ← hanoiUnbounded fuel (n - 1) source via target
        let (out₂, _) ← hanoiUnbounded fuel 1 source target via
        let (out₃, c2) ← hanoiUnbounded fuel (n - 1) via target source
        return (out₁ ++ out₂ ++ out₃, c1 + c2 + 1)

/-- The two differ in the count only, which is an `int` in the program. -/
theorem hanoi_eq_unbounded (fuel : Nat) (n : Int) (source target via : Peg) :
    hanoi fuel n source target via =
      (hanoiUnbounded fuel n source target via).map fun r => (r.1, BitVec.ofInt 32 r.2) := by
  induction fuel generalizing n source target via with
  | zero => rfl
  | succ fuel ih =>
      rw [hanoi, hanoiUnbounded]
      split
      · rfl
      · rw [ih, ih, ih]
        cases hanoiUnbounded fuel (n - 1) source via target with
        | none => rfl
        | some r₁ =>
            cases hanoiUnbounded fuel 1 source target via with
            | none => rfl
            | some r₂ =>
                cases hanoiUnbounded fuel (n - 1) via target source with
                | none => rfl
                | some r₃ =>
                    simp [BitVec.ofInt_add]

theorem hanoiUnbounded_eq (n fuel : Nat) (h : n + 1 ≤ fuel) (source target via : Peg) :
    hanoiUnbounded fuel (n + 1 : Nat) source target via =
      some (moves (n + 1) source target via, 2 ^ (n + 1) - 1) := by
  induction n generalizing fuel source target via with
  | zero =>
      obtain ⟨fuel, rfl⟩ : ∃ k, fuel = k + 1 := ⟨fuel - 1, by omega⟩
      simp [hanoiUnbounded]
  | succ n ih =>
      obtain ⟨fuel, rfl⟩ : ∃ k, fuel = k + 2 := ⟨fuel - 2, by omega⟩
      have hne : ((n + 1 + 1 : Nat) : Int) ≠ 1 := by omega
      have hpred : ((n + 1 + 1 : Nat) : Int) - 1 = (n + 1 : Nat) := by omega
      have hone : hanoiUnbounded (fuel + 1) 1 source target via = some ([⟨source, target⟩], 1) :=
        rfl
      have hcount : (2 : Int) ^ (n + 1) - 1 + (2 ^ (n + 1) - 1) + 1 = 2 ^ (n + 1 + 1) - 1 := by ring
      rw [hanoiUnbounded, if_neg hne, hpred, ih (fuel + 1) (by omega), ih (fuel + 1) (by omega),
        hone, ← hcount]
      rfl

end

/-- The recursion solves the puzzle: its moves are all allowed, they bring the tower
from one peg to another and leave all other discs where they are, and their number is
the one that is returned. -/
theorem hanoi_solves {Peg : Type} [DecidableEq Peg] (n fuel : Nat) (hn : 1 ≤ n) (hfuel : n ≤ fuel)
    (source target via : Peg) (hst : source ≠ target) (hsv : source ≠ via) (htv : target ≠ via)
    (t : Towers Peg) (discs rest : List Nat) (hlength : discs.length = n)
    (horder : discs.Pairwise (· < ·)) (hsource : t source = discs ++ rest)
    (hrest : Smaller discs rest) (htarget : Smaller discs (t target))
    (hvia : Smaller discs (t via)) :
    ∃ ms, hanoiUnbounded fuel n source target via = some (ms, 2 ^ n - 1) ∧
      hanoi fuel n source target via = some (ms, BitVec.ofInt 32 (2 ^ n - 1)) ∧
      (ms.length : Int) = 2 ^ n - 1 ∧
      play ms t =
        some (Function.update (Function.update t source rest) target (discs ++ t target)) := by
  obtain ⟨m, rfl⟩ : ∃ m, n = m + 1 := ⟨n - 1, by omega⟩
  have hmoves := hanoiUnbounded_eq m fuel hfuel source target via
  refine ⟨moves (m + 1) source target via, hmoves, ?_, ?_, ?_⟩
  · rw [hanoi_eq_unbounded, hmoves]
    rfl
  · have hlen : ((moves (m + 1) source target via).length : Int) + 1 = 2 ^ (m + 1) := by
      exact_mod_cast length_moves (m + 1) source target via
    linarith
  · exact play_moves (m + 1) hst hsv htv t hlength horder hsource hrest htarget hvia

/-- Two discs on the first of three pegs, and larger ones below them and on another peg. -/
def twoDiscs : Towers (Fin 3)
  | 0 => [1, 2, 7]
  | 1 => [5]
  | 2 => []

theorem hanoi_solves_twoDiscs :
    ∃ ms, hanoiUnbounded 2 2 (0 : Fin 3) 1 2 = some (ms, 3) ∧ (ms.length : Int) = 3 ∧
      play ms twoDiscs =
        some (Function.update (Function.update twoDiscs 0 [7]) 1 ([1, 2] ++ twoDiscs 1)) := by
  obtain ⟨ms, hms, -, hlength, hplay⟩ := hanoi_solves 2 2 (by decide) (by decide) (0 : Fin 3) 1 2
    (by decide) (by decide) (by decide) twoDiscs [1, 2] [7] rfl (by decide) rfl (by decide)
    (by decide) (by decide)
  exact ⟨ms, hms, hlength, hplay⟩

end OsCourse.Hanoi
