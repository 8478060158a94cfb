import Mathlib.Logic.Relation
import Mathlib.Data.Finset.Card
import Mathlib.Data.Fintype.Basic
import Mathlib.Tactic

/-!
# Recursive flood fill

A depth-first fill over an arbitrary type of cells.  `flood nbrs pass` visits
the neighbours of a cell in order, marks each one that is passable and not yet
marked, and fills from it before it looks at the next one.  The marks are
shared by the whole fill: a recursive call hands its marks back to the caller.

The recursion carries fuel.  `flood_isSome` says that one more unit than there
are unmarked passable cells is enough, since every call below the first marks a
cell.  `flood_marks` says what a fill that returns has marked: the cells that
were marked before, and those a path of unmarked passable cells leads to.  With
no mark but that of the start, these are the cells a path of passable cells
leads to (`flood_reaches`).

The proof goes through `Filled`, what one call leaves behind.  It is closed
under sequencing (`Filled.trans`), so a loop over the neighbours is handled by
one induction on the list.
-/

namespace OsCourse.Flood

variable {α : Type} (nbrs : α → List α) (pass : α → Bool)

/-- Fill from a cell that is already marked.  `none` is out of fuel. -/
def flood [DecidableEq α] : Nat → α → (α → Bool) → Option (α → Bool)
  | 0, _, _ => none
  | fuel + 1, a, visited =>
      (nbrs a).foldlM (fun visited b =>
        if visited b = false ∧ pass b = true then
          flood fuel b (Function.update visited b true)
        else some visited) visited

/-- One step of a path the fill follows: to a passable neighbour that was not
marked when the fill began. -/
def Edge (visited : α → Bool) (a b : α) : Prop :=
  b ∈ nbrs a ∧ visited b = false ∧ pass b = true

/-- What a fill leaves behind that starts with the marks `v`, ends with `w`, and
looks at the cells `bs` around `a`. -/
structure Filled (a : α) (bs : List α) (v w : α → Bool) : Prop where
  /-- No mark is taken back. -/
  mono : ∀ b, v b = true → w b = true
  /-- A new mark is at the end of a path from `a`. -/
  sound : ∀ b, w b = true → v b = false → Relation.TransGen (Edge nbrs pass v) a b
  /-- A cell with a new mark has all its passable neighbours marked. -/
  closed : ∀ b, w b = true → v b = false → ∀ c ∈ nbrs b, pass c = true → w c = true
  /-- The cells looked at are marked where they are passable. -/
  covers : ∀ b ∈ bs, pass b = true → w b = true

variable {nbrs pass} {v w : α → Bool} {a b : α} {S : Finset α}

theorem Edge.mono (h : ∀ b, v b = true → w b = true) (he : Edge nbrs pass w a b) :
    Edge nbrs pass v a b := by
  obtain ⟨hmem, hw, hp⟩ := he
  refine ⟨hmem, ?_, hp⟩
  cases hv : v b with
  | false => rfl
  | true => rw [h b hv] at hw; cases hw

theorem Filled.nil (a : α) (v : α → Bool) : Filled nbrs pass a [] v v where
  mono := fun _ h => h
  sound := fun b h h' => by rw [h] at h'; cases h'
  closed := fun b h h' => by rw [h] at h'; cases h'
  covers := fun b hb => by cases hb

/-- Two stretches of the same loop, one after the other. -/
theorem Filled.trans {bs cs : List α} {u : α → Bool} (h1 : Filled nbrs pass a bs u v)
    (h2 : Filled nbrs pass a cs v w) :
    Filled nbrs pass a (bs ++ cs) u w where
  mono := fun b h => h2.mono b (h1.mono b h)
  sound := by
    intro b hw hu
    cases hv : v b with
    | true => exact h1.sound b hv hu
    | false => exact Relation.TransGen.mono (fun _ _ => Edge.mono h1.mono) _ _ (h2.sound b hw hv)
  closed := by
    intro b hw hu c hc hp
    cases hv : v b with
    | true => exact h2.mono c (h1.closed b hv hu c hc hp)
    | false => exact h2.closed b hw hv c hc hp
  covers := by
    intro b hb hp
    cases List.mem_append.mp hb with
    | inl h => exact h2.mono b (h1.covers b h hp)
    | inr h => exact h2.covers b h hp

/-- A cell that the loop skips is marked already or a wall. -/
theorem Filled.skip (h : ¬ (v b = false ∧ pass b = true)) :
    Filled nbrs pass a [b] v v where
  mono := fun _ h => h
  sound := fun b h h' => by rw [h] at h'; cases h'
  closed := fun b h h' => by rw [h] at h'; cases h'
  covers := by
    intro c hc hp
    rw [List.mem_singleton] at hc
    subst hc
    cases hv : v c with
    | true => rfl
    | false => exact absurd ⟨hv, hp⟩ h

/-- A cell that the loop marks and fills from. -/
theorem Filled.enter [DecidableEq α] (hb : b ∈ nbrs a) (hv : v b = false) (hp : pass b = true)
    (h : Filled nbrs pass b (nbrs b) (Function.update v b true) w) :
    Filled nbrs pass a [b] v w := by
  have hup : ∀ c, v c = true → Function.update v b true c = true := by
    intro c hc
    by_cases hcb : c = b
    · rw [hcb, Function.update_self]
    · rw [Function.update_of_ne hcb]; exact hc
  have hab : Edge nbrs pass v a b := ⟨hb, hv, hp⟩
  have hwb : w b = true := h.mono b (Function.update_self ..)
  refine ⟨fun c hc => h.mono c (hup c hc), ?_, ?_, ?_⟩
  · intro c hw hc
    by_cases hcb : c = b
    · rw [hcb]; exact .single hab
    · have hc' : Function.update v b true c = false := by
        rw [Function.update_of_ne hcb]; exact hc
      exact .head hab (Relation.TransGen.mono (fun _ _ => Edge.mono hup) _ _ (h.sound c hw hc'))
  · intro c hw hc d hd hpd
    by_cases hcb : c = b
    · subst hcb; exact h.covers d hd hpd
    · have hc' : Function.update v b true c = false := by
        rw [Function.update_of_ne hcb]; exact hc
      exact h.closed c hw hc' d hd hpd
  · intro c hc _
    rw [List.mem_singleton] at hc
    rw [hc]; exact hwb

/-- A path ends in an unmarked cell. -/
theorem unmarked_of_path (h : Relation.TransGen (Edge nbrs pass v) a b) : v b = false := by
  cases h with
  | single he => exact he.2.1
  | tail _ he => exact he.2.1

/-- The unmarked cells of a finite set. -/
def unmarked (S : Finset α) (v : α → Bool) : Finset α := S.filter fun b => v b = false

theorem unmarked_card_mono (h : ∀ b, v b = true → w b = true) :
    (unmarked S w).card ≤ (unmarked S v).card := by
  refine Finset.card_le_card fun b hb => ?_
  simp only [unmarked, Finset.mem_filter] at hb ⊢
  refine ⟨hb.1, ?_⟩
  cases hv : v b with
  | false => rfl
  | true => rw [h b hv] at hb; exact absurd hb.2 (by simp)

variable [DecidableEq α]

/-- A fill that returns leaves `Filled` behind. -/
theorem flood_filled : ∀ (fuel : Nat) (a : α) (v w : α → Bool),
    flood nbrs pass fuel a v = some w → Filled nbrs pass a (nbrs a) v w
  | 0, _, _, _, h => by cases h
  | fuel + 1, a, v, w, h => by
      -- the loop over the neighbours, for any part of the list
      have loop : ∀ (bs : List α) (v : α → Bool), (∀ b ∈ bs, b ∈ nbrs a) →
          bs.foldlM (fun visited b =>
            if visited b = false ∧ pass b = true then
              flood nbrs pass fuel b (Function.update visited b true)
            else some visited) v = some w → Filled nbrs pass a bs v w := by
        intro bs
        induction bs with
        | nil =>
            intro v _ h
            simp only [List.foldlM_nil, Option.pure_def, Option.some.injEq] at h
            subst h
            exact .nil a v
        | cons b bs ih =>
            intro v hbs h
            rw [List.foldlM_cons, Option.bind_eq_bind, Option.bind_eq_some_iff] at h
            obtain ⟨u, hu, hw⟩ := h
            have htail := ih u (fun c hc => hbs c (List.mem_cons_of_mem _ hc)) hw
            by_cases hb : v b = false ∧ pass b = true
            · rw [if_pos hb] at hu
              have hin := flood_filled fuel b _ u hu
              exact (Filled.enter (hbs b (List.mem_cons_self ..)) hb.1 hb.2 hin).trans htail
            · rw [if_neg hb, Option.some.injEq] at hu
              subst hu
              exact (Filled.skip hb).trans htail
      exact loop (nbrs a) v (fun _ hb => hb) h

/-- The marks of a fill that returns. -/
theorem flood_marks {fuel : Nat} (h : flood nbrs pass fuel a v = some w) (b : α) :
    w b = true ↔ v b = true ∨ Relation.TransGen (Edge nbrs pass v) a b := by
  have hf := flood_filled fuel a v w h
  constructor
  · intro hw
    cases hv : v b with
    | true => exact Or.inl rfl
    | false => exact Or.inr (hf.sound b hw hv)
  · rintro (hv | hpath)
    · exact hf.mono b hv
    · -- along the path every cell got a new mark, so its neighbours are marked
      induction hpath with
      | single he => exact hf.covers _ he.1 he.2.2
      | tail hprev he ih =>
          exact hf.closed _ ih (unmarked_of_path hprev) _ he.1 he.2.2

/-- One step of a fill with no marks: to a passable neighbour. -/
def Step (nbrs : α → List α) (pass : α → Bool) (a b : α) : Prop := b ∈ nbrs a ∧ pass b = true

/-- A fill that starts with one mark reaches what a path of passable cells leads
to.  A path that comes back to the start needs no mark of its own. -/
theorem flood_reaches {fuel : Nat}
    (h : flood nbrs pass fuel a (Function.update (fun _ => false) a true) = some w) (b : α) :
    w b = true ↔ Relation.ReflTransGen (Step nbrs pass) a b := by
  have hf := flood_filled fuel a _ w h
  constructor
  · intro hw
    rcases (flood_marks h b).mp hw with hv | hpath
    · have hba : b = a := by
        by_contra hne
        rw [Function.update_of_ne hne] at hv
        cases hv
      rw [hba]
    · exact (Relation.TransGen.mono (fun _ _ he => ⟨he.1, he.2.2⟩) _ _ hpath).to_reflTransGen
  · intro hpath
    induction hpath with
    | refl => exact hf.mono a (Function.update_self ..)
    | @tail c d _ hstep ih =>
        by_cases hca : c = a
        · exact hf.covers d (hca ▸ hstep.1) hstep.2
        · exact hf.closed c ih (Function.update_of_ne hca ..) d hstep.1 hstep.2

/-! ## Enough fuel -/

theorem unmarked_card_update (hb : b ∈ S) (hv : v b = false) :
    (unmarked S (Function.update v b true)).card < (unmarked S v).card := by
  refine Finset.card_lt_card (Finset.ssubset_iff_of_subset ?_ |>.mpr ⟨b, ?_, ?_⟩)
  · intro c hc
    simp only [unmarked, Finset.mem_filter] at hc ⊢
    by_cases hcb : c = b
    · subst hcb; exact ⟨hb, hv⟩
    · rw [Function.update_of_ne hcb] at hc; exact hc
  · simp [unmarked, hb, hv]
  · simp [unmarked]

/-- One more unit of fuel than there are unmarked cells is enough. -/
theorem flood_isSome (hS : ∀ b, pass b = true → b ∈ S) :
    ∀ (fuel : Nat) (a : α) (v : α → Bool), (unmarked S v).card < fuel →
      ∃ w, flood nbrs pass fuel a v = some w
  | 0, _, _, h => absurd h (Nat.not_lt_zero _)
  | fuel + 1, a, v, h => by
      have loop : ∀ (bs : List α) (v : α → Bool), (unmarked S v).card < fuel + 1 →
          ∃ w, bs.foldlM (fun visited b =>
            if visited b = false ∧ pass b = true then
              flood nbrs pass fuel b (Function.update visited b true)
            else some visited) v = some w := by
        intro bs
        induction bs with
        | nil => intro v _; exact ⟨v, rfl⟩
        | cons b bs ih =>
            intro v hv
            rw [List.foldlM_cons]
            by_cases hb : v b = false ∧ pass b = true
            · -- the call below starts with `b` marked, so one cell fewer is left
              have hlt := unmarked_card_update (hS b hb.2) hb.1
              obtain ⟨u, hu⟩ := flood_isSome hS fuel b (Function.update v b true) (by omega)
              have hmono := unmarked_card_mono (S := S) (flood_filled fuel b _ u hu).mono
              obtain ⟨w, hw⟩ := ih u (by omega)
              exact ⟨w, by rw [if_pos hb, hu]; exact hw⟩
            · obtain ⟨w, hw⟩ := ih v hv
              exact ⟨w, by rw [if_neg hb]; exact hw⟩
      exact loop (nbrs a) v h

end OsCourse.Flood
