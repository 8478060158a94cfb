import Mathlib.Data.Finset.Card
import Mathlib.Data.List.Nodup
import Mathlib.Tactic

/-!
# Forests of a parent function

A forest is kept the way linked nodes keep it: each node has a first child and a
next sibling.  `preorder` lists the nodes with their depths.

The second half starts from a partial function `par` to parents, over any type.
`anc par j x` is the ancestor of `x` that is `j` steps up.  A node is on level
`k` when its ancestor `k` steps up is the root.  The root is not on a cycle, so a
node is on one level at most (`level_unique`), and a level is less than the
number of nodes (`level_lt_card`).  Nodes with no path to the root, such as
those on a cycle, are on no level.

`grow kids n l` is the forest below the nodes `l` down to `n` levels.  Its nodes
are the descendants of `l` (`mem_ids_grow`), none occurs twice
(`nodup_ids_grow`), and every node stands below its parent (`respects_grow`).
When there are no more than `n` levels, every node has all its children
(`every_grow`).  Their order is that of `kids`, and another order gives the same
nodes at the same depths (`perm_preorder_grow`).
-/

namespace OsCourse

/-- A forest in first-child, next-sibling form. -/
inductive Forest (α : Type) where
  | nil
  | cons (a : α) (kids rest : Forest α)

namespace Forest

variable {α : Type}

/-- The nodes in preorder. -/
def ids : Forest α → List α
  | nil => []
  | cons a kids rest => a :: (kids.ids ++ rest.ids)

/-- The nodes in preorder with their depths, the top ones at depth `d`. -/
def preorder (d : Nat) : Forest α → List (Nat × α)
  | nil => []
  | cons a kids rest => (d, a) :: (kids.preorder (d + 1) ++ rest.preorder d)

/-- Every node stands below its parent, the top ones below `p`. -/
def Respects (par : α → Option α) : Forest α → α → Prop
  | nil, _ => True
  | cons a kids rest, p => par a = some p ∧ kids.Respects par a ∧ rest.Respects par p

/-- The nodes that are below no other. -/
def tops : Forest α → List α
  | nil => []
  | cons a _ rest => a :: rest.tops

/-- Every node and the forest of its children are as `P` says. -/
def Every (P : α → Forest α → Prop) : Forest α → Prop
  | nil => True
  | cons a kids rest => P a kids ∧ kids.Every P ∧ rest.Every P

/-- The forest of the images. -/
def map {β : Type} (f : α → β) : Forest α → Forest β
  | nil => nil
  | cons a kids rest => cons (f a) (kids.map f) (rest.map f)

theorem length_tops_le (F : Forest α) : F.tops.length ≤ F.ids.length := by
  induction F with
  | nil => exact le_rfl
  | cons a kids rest _ ihr =>
      rw [tops, ids, List.length_cons, List.length_cons, List.length_append]
      omega

variable {β : Type} {par : α → Option α}

theorem tops_map (f : α → β) (F : Forest α) : (F.map f).tops = F.tops.map f := by
  induction F with
  | nil => rfl
  | cons a kids rest _ ihr => rw [map, tops, tops, ihr, List.map_cons]

theorem preorder_map (f : α → β) (F : Forest α) (d : Nat) :
    (F.map f).preorder d = (F.preorder d).map (Prod.map id f) := by
  induction F generalizing d with
  | nil => rfl
  | cons a kids rest ihk ihr =>
      simp only [map, preorder, ihk, ihr, List.map_cons, List.map_append, Prod.map, id_eq]

theorem Every.imp {P Q : α → Forest α → Prop} {F : Forest α} (hF : F.Every P)
    (h : ∀ a ∈ F.ids, ∀ kids, P a kids → Q a kids) : F.Every Q := by
  induction F with
  | nil => exact trivial
  | cons a kids rest ihk ihr =>
      have hmem : ∀ b, b ∈ kids.ids ∨ b ∈ rest.ids → ∀ ks, P b ks → Q b ks := fun b hb =>
        h b (List.mem_cons_of_mem _ (List.mem_append.mpr hb))
      exact ⟨h a (List.mem_cons_self ..) kids hF.1, ihk hF.2.1 fun b hb => hmem b (Or.inl hb),
        ihr hF.2.2 fun b hb => hmem b (Or.inr hb)⟩

theorem Every.map {P : β → Forest β → Prop} {f : α → β} {F : Forest α}
    (hF : F.Every fun a kids => P (f a) (kids.map f)) : (F.map f).Every P := by
  induction F with
  | nil => exact trivial
  | cons a kids rest ihk ihr => exact ⟨hF.1, ihk hF.2.1, ihr hF.2.2⟩

theorem map_snd_preorder (F : Forest α) (d : Nat) : (F.preorder d).map Prod.snd = F.ids := by
  induction F generalizing d with
  | nil => rfl
  | cons a kids rest ihk ihr => simp only [preorder, ids, List.map_cons, List.map_append, ihk, ihr]

theorem le_depth (F : Forest α) (d : Nat) : ∀ x ∈ F.preorder d, d ≤ x.1 := by
  induction F generalizing d with
  | nil => intro x hx; cases hx
  | cons a kids rest ihk ihr =>
      intro x hx
      simp only [preorder, List.mem_cons, List.mem_append] at hx
      rcases hx with rfl | hk | hr
      · exact le_rfl
      · exact (Nat.le_succ d).trans (ihk (d + 1) x hk)
      · exact ihr d x hr

/-! ## The nearest line above -/

/-- The last entry of a list that has depth `d`. -/
def nearest (d : Nat) (l : List (Nat × α)) : Option (Nat × α) := l.reverse.find? fun x => x.1 = d

theorem nearest_append_of_lt {d : Nat} {l l' : List (Nat × α)} (h : ∀ x ∈ l', d < x.1) :
    nearest d (l ++ l') = nearest d l := by
  have hnone : l'.reverse.find? (fun x => x.1 = d) = none := by
    rw [List.find?_eq_none]
    intro x hx
    have := h x (List.mem_reverse.mp hx)
    simp only [decide_eq_true_eq]
    omega
  rw [nearest, nearest, List.reverse_append, List.find?_append, hnone, Option.none_or]

theorem nearest_concat (d : Nat) (l : List (Nat × α)) (a : α) :
    nearest d (l ++ [(d, a)]) = some (d, a) := by
  simp [nearest]

/-- A node and entries below it are deeper than what the node is nested in. -/
theorem nearest_append_node (d : Nat) (pre : List (Nat × α)) (x : α)
    (kids : Forest α) :
    nearest d (pre ++ (d + 1, x) :: kids.preorder (d + 1 + 1)) = nearest d pre := by
  apply nearest_append_of_lt
  intro y hy
  rcases List.mem_cons.mp hy with rfl | hy
  · exact Nat.lt_succ_self d
  · have hdepth := le_depth kids (d + 1 + 1) y hy
    omega

/-- In a preorder listing the nearest entry one level up is the parent. -/
theorem nearest_preorder (F : Forest α) : ∀ (d : Nat) (p : α)
    (pre : List (Nat × α)), F.Respects par p → nearest d pre = some (d, p) →
      ∀ s e a t, F.preorder (d + 1) = s ++ (e + 1, a) :: t →
        ∃ b, nearest e (pre ++ s) = some (e, b) ∧ par a = some b := by
  induction F with
  | nil => intro d p pre _ _ s e a t h; simp [preorder] at h
  | cons x kids rest ihk ihr =>
      intro d p pre hres hpre s e a t h
      obtain ⟨hx, hkids, hrest⟩ := hres
      rw [preorder, List.cons_eq_append_iff] at h
      rcases h with ⟨hs, hhead⟩ | ⟨s', hs, htail⟩
      · -- the first node of the forest
        subst hs
        simp only [List.cons.injEq, Prod.mk.injEq, Nat.add_right_cancel_iff] at hhead
        obtain ⟨⟨rfl, rfl⟩, _⟩ := hhead
        exact ⟨p, by rw [List.append_nil]; exact hpre, hx⟩
      · subst hs
        rw [List.append_eq_append_iff] at htail
        rcases htail with ⟨s'', hs'', hr⟩ | ⟨t', hk, ht'⟩
        · -- among the siblings that follow
          have hpre' := (nearest_append_node d pre x kids).trans hpre
          obtain ⟨b, hb, hpar⟩ := ihr d p _ hrest hpre' s'' e a t hr
          refine ⟨b, ?_, hpar⟩
          rw [hs'']
          simpa using hb
        · cases t' with
          | nil =>
              -- the first of the siblings that follow
              rw [List.append_nil] at hk
              rw [List.nil_append] at ht'
              subst hk
              have hpre' := (nearest_append_node d pre x kids).trans hpre
              obtain ⟨b, hb, hpar⟩ := ihr d p _ hrest hpre' [] e a t ht'.symm
              exact ⟨b, by rwa [List.append_nil] at hb, hpar⟩
          | cons y t' =>
              -- among the descendants of the first node
              rw [List.cons_append, List.cons.injEq] at ht'
              obtain ⟨rfl, _⟩ := ht'
              obtain ⟨b, hb, hpar⟩ := ihk (d + 1) x (pre ++ [(d + 1, x)]) hkids
                (nearest_concat _ _ _) s' e a t' hk
              exact ⟨b, by simpa using hb, hpar⟩

/-! ## Ancestors -/

/-- The ancestor `j` steps up. -/
def anc (par : α → Option α) : Nat → α → Option α
  | 0, x => some x
  | j + 1, x => (par x).bind (anc par j)

theorem anc_succ {x y z : α} {j : Nat} (h : anc par j x = some y) (hp : par y = some z) :
    anc par (j + 1) x = some z := by
  induction j generalizing x with
  | zero =>
      rw [anc, Option.some.injEq] at h
      subst h
      simp [anc, hp]
  | succ j ih =>
      rw [anc, Option.bind_eq_some_iff] at h
      obtain ⟨w, hw, hj⟩ := h
      rw [anc, hw, Option.bind_some]
      exact ih hj

theorem anc_add {x y z : α} {i j : Nat} (h : anc par i x = some y) (h' : anc par j y = some z) :
    anc par (i + j) x = some z := by
  induction i generalizing x with
  | zero =>
      rw [anc, Option.some.injEq] at h
      rw [h, Nat.zero_add]
      exact h'
  | succ i ih =>
      rw [anc, Option.bind_eq_some_iff] at h
      obtain ⟨w, hw, hi⟩ := h
      rw [Nat.succ_add, anc, hw, Option.bind_some]
      exact ih hi

theorem anc_ne_of_none {root : α} (h : par root = none) (k : Nat) :
    anc par (k + 1) root ≠ some root := by
  rw [anc, h]
  exact (Option.some_ne_none root).symm

section Levels

variable {par : α → Option α} {root : α} (hroot : ∀ k, anc par (k + 1) root ≠ some root)

include hroot

variable {x : α}

/-- A node is on one level at most. -/
theorem level_unique {i j : Nat} (hi : anc par i x = some root) (hj : anc par j x = some root) :
    i = j := by
  induction i generalizing x j with
  | zero =>
      rw [anc, Option.some.injEq] at hi
      subst hi
      cases j with
      | zero => rfl
      | succ j => exact absurd hj (hroot j)
  | succ i ih =>
      cases j with
      | zero =>
          rw [anc, Option.some.injEq] at hj
          subst hj
          exact absurd hi (hroot i)
      | succ j =>
          rw [anc, Option.bind_eq_some_iff] at hi hj
          obtain ⟨y, hy, hi⟩ := hi
          obtain ⟨y', hy', hj⟩ := hj
          rw [hy, Option.some.injEq] at hy'
          subst hy'
          rw [ih hi hj]

omit hroot in
theorem anc_split {z : α} {i j : Nat} (h : anc par (i + j) x = some z) :
    ∃ y, anc par i x = some y ∧ anc par j y = some z := by
  induction i generalizing x with
  | zero => exact ⟨x, rfl, by rwa [Nat.zero_add] at h⟩
  | succ i ih =>
      rw [Nat.succ_add, anc, Option.bind_eq_some_iff] at h
      obtain ⟨w, hw, h⟩ := h
      obtain ⟨y, hy, hz⟩ := ih h
      exact ⟨y, by rw [anc, hw]; exact hy, hz⟩

/-- A level is less than the number of nodes: on the way to the root no node
occurs twice. -/
theorem level_lt_card {S : Finset α} (hS : ∀ x, par x ≠ none → x ∈ S) (hrootS : root ∈ S) {k : Nat}
    (h : anc par k x = some root) : k < S.card := by
  have hcard : (Finset.range (k + 1)).card ≤ S.card := by
    refine Finset.card_le_card_of_injOn (fun j => (anc par j x).getD root) ?_ ?_
    · intro j hj
      have hjk : j ≤ k := by simpa [Nat.lt_succ_iff] using hj
      obtain ⟨i, rfl⟩ := Nat.exists_eq_add_of_le hjk
      obtain ⟨y, hy, hy'⟩ := anc_split h
      simp only [hy, Option.getD_some]
      cases i with
      | zero =>
          rw [anc, Option.some.injEq] at hy'
          rw [hy']
          exact hrootS
      | succ i =>
          refine hS y fun hnone => ?_
          rw [anc, hnone] at hy'
          cases hy'
    · intro i hi j hj hij
      have hik : i ≤ k := by simpa [Nat.lt_succ_iff] using hi
      have hjk : j ≤ k := by simpa [Nat.lt_succ_iff] using hj
      obtain ⟨i', hi'⟩ := Nat.exists_eq_add_of_le hik
      obtain ⟨j', hj'⟩ := Nat.exists_eq_add_of_le hjk
      obtain ⟨y, hy, hyr⟩ := anc_split (hi' ▸ h)
      obtain ⟨z, hz, hzr⟩ := anc_split (hj' ▸ h)
      simp only [hy, hz, Option.getD_some] at hij
      subst hij
      have := level_unique hroot hyr hzr
      omega
  rw [Finset.card_range] at hcard
  omega

end Levels

/-! ## The forest below a node -/

/-- The forest below the nodes `l`, down to `n` levels. -/
def grow (kids : α → List α) : Nat → List α → Forest α
  | 0, _ => nil
  | n + 1, l => l.foldr (fun a rest => cons a (grow kids n (kids a)) rest) nil

@[simp] theorem grow_nil (kids : α → List α) (n : Nat) : grow kids n [] = nil := by
  cases n <;> rfl

theorem grow_cons (kids : α → List α) (n : Nat) (a : α) (l : List α) :
    grow kids (n + 1) (a :: l) = cons a (grow kids n (kids a)) (grow kids (n + 1) l) := rfl

theorem tops_grow (kids : α → List α) (n : Nat) (l : List α) : (grow kids (n + 1) l).tops = l := by
  induction l with
  | nil => rfl
  | cons a l ih => rw [grow_cons, tops, ih]

theorem preorder_grow (kids : α → List α) (n d : Nat) (l : List α) :
    (grow kids (n + 1) l).preorder d =
      l.flatMap fun a => (d, a) :: (grow kids n (kids a)).preorder (d + 1) := by
  induction l with
  | nil => rfl
  | cons a l ih => rw [grow_cons, preorder, ih, List.flatMap_cons, List.cons_append]

/-- The order of the children does not matter for what is on which level. -/
theorem perm_preorder_grow {kids kids' : α → List α} (hkids : ∀ a, (kids a).Perm (kids' a))
    (n : Nat) {l l' : List α} (hl : l.Perm l') (d : Nat) :
    ((grow kids n l).preorder d).Perm ((grow kids' n l').preorder d) := by
  induction n generalizing l l' d with
  | zero => exact .nil
  | succ n ih =>
      rw [preorder_grow, preorder_grow]
      exact hl.flatMap fun a _ => (ih (hkids a) (d + 1)).cons _

section Grow

variable {par : α → Option α} {kids : α → List α} (hkids : ∀ a b, b ∈ kids a ↔ par b = some a)

include hkids

variable {n : Nat} {l : List α}

theorem mem_ids_grow {x : α} :
    x ∈ (grow kids n l).ids ↔ ∃ a ∈ l, ∃ j < n, anc par j x = some a := by
  induction n generalizing l with
  | zero => simp [grow, ids]
  | succ n ihn =>
      induction l with
      | nil => simp [ids]
      | cons a l ihl =>
          rw [grow_cons, ids, List.mem_cons, List.mem_append, ihn, ihl]
          constructor
          · rintro (rfl | ⟨b, hb, j, hj, hx⟩ | ⟨b, hb, j, hj, hx⟩)
            · exact ⟨x, List.mem_cons_self .., 0, Nat.succ_pos n, rfl⟩
            · exact ⟨a, List.mem_cons_self .., j + 1, Nat.succ_lt_succ hj,
                anc_succ hx ((hkids a b).mp hb)⟩
            · exact ⟨b, List.mem_cons_of_mem _ hb, j, hj, hx⟩
          · rintro ⟨b, hb, j, hj, hx⟩
            cases List.mem_cons.mp hb with
            | inr hb => exact Or.inr (Or.inr ⟨b, hb, j, hj, hx⟩)
            | inl he =>
                subst he
                cases j with
                | zero =>
                    rw [anc, Option.some.injEq] at hx
                    exact Or.inl hx
                | succ j =>
                    obtain ⟨y, hy, hyb⟩ := anc_split hx
                    rw [anc, Option.bind_eq_some_iff] at hyb
                    obtain ⟨b', hpar, hb'⟩ := hyb
                    rw [anc, Option.some.injEq] at hb'
                    subst hb'
                    exact Or.inr
                      (Or.inl ⟨y, (hkids _ _).mpr hpar, j, Nat.lt_of_succ_lt_succ hj, hy⟩)

theorem nodup_ids_grow {root : α} (hroot : ∀ k, anc par (k + 1) root ≠ some root)
    (hnodup : ∀ a, (kids a).Nodup) (hl : l.Nodup) {k : Nat}
    (hlev : ∀ a ∈ l, anc par k a = some root) :
    (grow kids n l).ids.Nodup := by
  induction n generalizing l k with
  | zero => exact List.nodup_nil
  | succ n ihn =>
      induction l with
      | nil => rw [grow_nil]; exact List.nodup_nil
      | cons a l ihl =>
          obtain ⟨hal, hl⟩ := List.nodup_cons.mp hl
          have hlevl : ∀ b ∈ l, anc par k b = some root := fun b hb =>
            hlev b (List.mem_cons_of_mem _ hb)
          have hleva := hlev a (List.mem_cons_self ..)
          have hlevk : ∀ b ∈ kids a, anc par (k + 1) b = some root := by
            intro b hb
            rw [anc, (hkids a b).mp hb]
            exact hleva
          rw [grow_cons, ids, List.nodup_cons, List.nodup_append']
          refine ⟨?_, ihn (hnodup a) hlevk, ihl hl hlevl, ?_⟩
          · rw [List.mem_append, mem_ids_grow hkids, mem_ids_grow hkids]
            rintro (⟨b, hb, j, _, hj⟩ | ⟨b, hb, j, _, hj⟩)
            · -- a node is not its own descendant
              have h1 := anc_add hj (hlevk b hb)
              have := level_unique hroot hleva h1
              omega
            · have h1 := anc_add hj (hlevl b hb)
              have h2 := level_unique hroot hleva h1
              have hj0 : j = 0 := by omega
              subst hj0
              rw [anc, Option.some.injEq] at hj
              exact hal (hj ▸ hb)
          · rw [List.disjoint_left]
            intro x hx hx'
            rw [mem_ids_grow hkids] at hx hx'
            obtain ⟨b, hb, j, _, hj⟩ := hx
            obtain ⟨c, hc, i, _, hi⟩ := hx'
            have h1 := anc_succ hj ((hkids a b).mp hb)
            have h2 := level_unique hroot (anc_add h1 hleva) (anc_add hi (hlevl c hc))
            have hij : i = j + 1 := by omega
            rw [hij, h1, Option.some.injEq] at hi
            exact hal (hi ▸ hc)

/-- With all levels, a forest has all children of its nodes. -/
theorem every_grow {root : α} {bound : Nat} (hbound : ∀ k x, anc par k x = some root → k < bound)
    {k : Nat} (hn : bound ≤ n + k) (hl : ∀ a ∈ l, anc par k a = some root) :
    (grow kids n l).tops = l ∧ (grow kids n l).Every fun a ks => ks.tops = kids a := by
  induction n generalizing k l with
  | zero =>
      cases l with
      | nil => exact ⟨rfl, trivial⟩
      | cons a l =>
          have hlt := hbound k a (hl a (List.mem_cons_self ..))
          omega
  | succ n ihn =>
      refine ⟨tops_grow kids n l, ?_⟩
      induction l with
      | nil => rw [grow_nil]; exact trivial
      | cons a l ihl =>
          have hlevel : ∀ b ∈ kids a, anc par (k + 1) b = some root := by
            intro b hb
            rw [anc, (hkids a b).mp hb]
            exact hl a (List.mem_cons_self ..)
          obtain ⟨htops, hevery⟩ := ihn (k := k + 1) (by omega) hlevel
          rw [grow_cons]
          exact ⟨htops, hevery, ihl fun b hb => hl b (List.mem_cons_of_mem _ hb)⟩

theorem respects_grow {p : α} (hl : ∀ a ∈ l, par a = some p) :
    (grow kids n l).Respects par p := by
  induction n generalizing l p with
  | zero => exact trivial
  | succ n ihn =>
      induction l with
      | nil => rw [grow_nil]; exact trivial
      | cons a l ihl =>
          rw [grow_cons]
          exact ⟨hl a (List.mem_cons_self ..), ihn fun b hb => (hkids a b).mp hb,
            ihl fun b hb => hl b (List.mem_cons_of_mem _ hb)⟩

end Grow

end Forest

end OsCourse
