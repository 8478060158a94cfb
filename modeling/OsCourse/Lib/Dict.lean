import Mathlib.Data.List.Nodup
import Mathlib.Tactic

/-!
# Dictionaries in insertion order

A dictionary is a list of entries whose keys are distinct.  Setting a key that
is present keeps its place, and a new key goes to the end.  This is the order in
which Python and JSON dictionaries are read back.

The laws are those of a finite map (`get?_set`), of the order (`keys_set`) and
of equality: two dictionaries are equal when they have the same keys in the same
order and the same values (`ext_keys`).  `group` collects values under their
keys, and `number` numbers keys in the order in which they are first seen.
-/

namespace OsCourse

/-- A finite map that remembers the order of its keys. -/
@[ext] structure Dict (κ α : Type) where
  /-- The entries, oldest key first. -/
  entries : List (κ × α)
  /-- No key occurs twice. -/
  nodup : (entries.map Prod.fst).Nodup

namespace Dict

variable {κ α β : Type} [DecidableEq κ]

/-- Write a value in a list of entries. -/
def setEntry (k : κ) (v : α) : List (κ × α) → List (κ × α)
  | [] => [(k, v)]
  | x :: l => if x.1 = k then (k, v) :: l else x :: setEntry k v l

/-- Read a value from a list of entries. -/
def getEntry (k : κ) : List (κ × α) → Option α
  | [] => none
  | x :: l => if x.1 = k then some x.2 else getEntry k l

theorem fst_setEntry (k : κ) (v : α) (l : List (κ × α)) :
    (setEntry k v l).map Prod.fst =
      if k ∈ l.map Prod.fst then l.map Prod.fst else l.map Prod.fst ++ [k] := by
  induction l with
  | nil => simp [setEntry]
  | cons x l ih =>
      rw [setEntry]
      rcases eq_or_ne x.1 k with h | h
      · simp [h]
      · rw [if_neg h, List.map_cons, ih]
        simp only [List.map_cons, List.mem_cons, h.symm, false_or]
        split <;> rfl

variable {k : κ} {v : α} {l : List (κ × α)} {d e : Dict κ α} {n i : Nat}

theorem nodup_setEntry (h : (l.map Prod.fst).Nodup) :
    ((setEntry k v l).map Prod.fst).Nodup := by
  rw [fst_setEntry]
  split
  next => exact h
  next hk => exact List.nodup_append'.mpr ⟨h, List.nodup_singleton k, by simpa using hk⟩

/-- The dictionary without entries. -/
def empty : Dict κ α := ⟨[], List.nodup_nil⟩

/-- `d[k] = v`. -/
def set (d : Dict κ α) (k : κ) (v : α) : Dict κ α :=
  ⟨setEntry k v d.entries, nodup_setEntry d.nodup⟩

/-- `d.get(k)`. -/
def get? (d : Dict κ α) (k : κ) : Option α := getEntry k d.entries

/-- The keys in order. -/
def keys (d : Dict κ α) : List κ := d.entries.map Prod.fst

/-! ## The laws of a map -/

@[simp] theorem get?_empty (k : κ) : (empty : Dict κ α).get? k = none := rfl

theorem getEntry_setEntry (k k' : κ) (v : α) (l : List (κ × α)) :
    getEntry k' (setEntry k v l) = if k = k' then some v else getEntry k' l := by
  induction l with
  | nil => rfl
  | cons x l ih =>
      rw [setEntry, getEntry]
      rcases eq_or_ne x.1 k with h | h
      · rw [if_pos h, getEntry, h]
        split <;> rfl
      · rw [if_neg h, getEntry, ih]
        rcases eq_or_ne k k' with rfl | hk
        · rw [if_pos rfl, if_pos rfl, if_neg h]
        · rw [if_neg hk, if_neg hk]

theorem get?_set (d : Dict κ α) (k k' : κ) (v : α) :
    (d.set k v).get? k' = if k = k' then some v else d.get? k' :=
  getEntry_setEntry k k' v d.entries

@[simp] theorem get?_set_self (d : Dict κ α) (k : κ) (v : α) : (d.set k v).get? k = some v := by
  rw [get?_set, if_pos rfl]

theorem get?_set_of_ne (d : Dict κ α) {k' : κ} (h : k ≠ k') (v : α) :
    (d.set k v).get? k' = d.get? k' := by
  rw [get?_set, if_neg h]

theorem getEntry_eq_some_iff (hl : (l.map Prod.fst).Nodup) :
    getEntry k l = some v ↔ (k, v) ∈ l := by
  induction l with
  | nil => simp [getEntry]
  | cons x l ih =>
      rw [List.map_cons, List.nodup_cons] at hl
      rw [getEntry, List.mem_cons]
      rcases eq_or_ne x.1 k with h | h
      · rw [if_pos h]
        constructor
        · intro hv
          cases hv
          exact Or.inl (by rw [← h])
        · rintro (hx | hx)
          · rw [← hx]
          · exact absurd (List.mem_map_of_mem (f := Prod.fst) hx) (h ▸ hl.1)
      · rw [if_neg h, ih hl.2]
        constructor
        · exact Or.inr
        · rintro (hx | hx)
          · exact absurd (by rw [← hx]) h
          · exact hx

theorem get?_eq_some_iff :
    d.get? k = some v ↔ (k, v) ∈ d.entries := getEntry_eq_some_iff d.nodup

theorem mem_keys_iff : k ∈ d.keys ↔ ∃ v, d.get? k = some v := by
  rw [keys, List.mem_map]
  constructor
  · rintro ⟨x, hx, rfl⟩
    exact ⟨x.2, get?_eq_some_iff.mpr hx⟩
  · rintro ⟨v, hv⟩
    exact ⟨(k, v), get?_eq_some_iff.mp hv, rfl⟩

/-! ## Order and equality -/

theorem keys_set (d : Dict κ α) (k : κ) (v : α) :
    (d.set k v).keys = if k ∈ d.keys then d.keys else d.keys ++ [k] := fst_setEntry k v d.entries

theorem mem_keys_set {k' : κ} :
    k' ∈ (d.set k v).keys ↔ k' = k ∨ k' ∈ d.keys := by
  rw [keys_set]
  split
  next h =>
    constructor
    · exact Or.inr
    · rintro (rfl | h')
      · exact h
      · exact h'
  next => rw [List.mem_append, List.mem_singleton, or_comm]

theorem entries_eq_of_getEntry {l' : List (κ × α)} (hl : (l.map Prod.fst).Nodup)
    (hk : l.map Prod.fst = l'.map Prod.fst) (hg : ∀ k, getEntry k l = getEntry k l') : l = l' := by
  induction l generalizing l' with
  | nil => exact (List.map_eq_nil_iff.mp hk.symm).symm
  | cons x l ih =>
      cases l' with
      | nil => cases hk
      | cons y l' =>
          rw [List.map_cons, List.map_cons, List.cons.injEq] at hk
          obtain ⟨hxy, hk⟩ := hk
          rw [List.map_cons, List.nodup_cons] at hl
          have hhead := hg x.1
          rw [getEntry, getEntry, if_pos rfl, if_pos hxy.symm, Option.some.injEq] at hhead
          have htail : l = l' := by
            refine ih hl.2 hk fun k => ?_
            have hgk := hg k
            rw [getEntry, getEntry, ← hxy] at hgk
            rcases eq_or_ne x.1 k with rfl | h
            · -- the head key does not occur in either tail
              have hnone : ∀ m : List (κ × α), m.map Prod.fst = l.map Prod.fst →
                  getEntry x.1 m = none := by
                intro m hm
                have hm' : (m.map Prod.fst).Nodup := hm ▸ hl.2
                cases hv : getEntry x.1 m with
                | none => rfl
                | some v =>
                    have hmem := List.mem_map_of_mem (f := Prod.fst)
                      ((getEntry_eq_some_iff hm').mp hv)
                    exact absurd (hm ▸ hmem) hl.1
              rw [hnone l rfl, hnone l' hk.symm]
            · rwa [if_neg h, if_neg h] at hgk
          rw [htail, Prod.ext hxy hhead]

/-- Dictionaries with the same keys in the same order and the same values are equal. -/
theorem ext_keys {d' : Dict κ α} (hk : d.keys = d'.keys) (hg : ∀ k, d.get? k = d'.get? k) :
    d = d' := by
  ext1
  exact entries_eq_of_getEntry d.nodup hk hg

/-- Writing the value a key already has changes nothing. -/
theorem set_eq_self (h : d.get? k = some v) : d.set k v = d := by
  refine ext_keys ?_ fun k' => ?_
  · rw [keys_set, if_pos (mem_keys_iff.mpr ⟨v, h⟩)]
  · rw [get?_set]
    split
    next hk => rw [← hk, h]
    next => rfl

/-! ## Deletion -/

/-- `del d[k]`, for a key that may be absent. -/
def erase (d : Dict κ α) (k : κ) : Dict κ α :=
  ⟨d.entries.filter fun x => x.1 ≠ k, d.nodup.sublist (List.filter_sublist.map Prod.fst)⟩

theorem get?_erase (d : Dict κ α) (k k' : κ) :
    (d.erase k).get? k' = if k = k' then none else d.get? k' := by
  have hmem (v : α) : (d.erase k).get? k' = some v ↔ k ≠ k' ∧ d.get? k' = some v := by
    rw [get?_eq_some_iff, get?_eq_some_iff, erase, List.mem_filter, decide_eq_true_iff]
    exact ⟨fun h => ⟨h.2.symm, h.1⟩, fun h => ⟨h.2, h.1.symm⟩⟩
  rcases eq_or_ne k k' with h | h
  · rw [if_pos h]
    exact Option.eq_none_iff_forall_ne_some.mpr fun v hv => ((hmem v).mp hv).1 h
  · rw [if_neg h]
    exact Option.ext fun v => by simp [hmem, h]

/-- `d.values()`. -/
def values (d : Dict κ α) : List α := d.entries.map Prod.snd

theorem mem_values_iff : v ∈ d.values ↔ ∃ k, d.get? k = some v := by
  simp [values, get?_eq_some_iff]

/-! ## Several writes -/

/-- Write a list of pairs, one after the other. -/
def update (d : Dict κ α) (l : List (κ × α)) : Dict κ α := l.foldl (fun d x => d.set x.1 x.2) d

/-- `dict(l)`. -/
def ofList (l : List (κ × α)) : Dict κ α := update empty l

/-- `d | e`. -/
def union (d e : Dict κ α) : Dict κ α := d.update e.entries

theorem getEntry_eq_none_iff :
    getEntry k l = none ↔ k ∉ l.map Prod.fst := by
  induction l with
  | nil => simp [getEntry]
  | cons x l ih =>
      rw [getEntry, List.map_cons, List.mem_cons, not_or]
      rcases eq_or_ne x.1 k with h | h
      · rw [if_pos h]
        exact ⟨fun hn => (Option.some_ne_none _ hn).elim, fun hn => absurd h.symm hn.1⟩
      · rw [if_neg h, ih]
        exact ⟨fun hn => ⟨h.symm, hn⟩, And.right⟩

theorem get?_update (hl : (l.map Prod.fst).Nodup) (d : Dict κ α) (k : κ) :
    (d.update l).get? k = (getEntry k l).or (d.get? k) := by
  induction l generalizing d with
  | nil => rfl
  | cons x l ih =>
      rw [List.map_cons, List.nodup_cons] at hl
      have hstep : d.update (x :: l) = (d.set x.1 x.2).update l := rfl
      rw [hstep, ih hl.2, get?_set, getEntry]
      rcases eq_or_ne x.1 k with h | h
      · subst h
        rw [if_pos rfl, if_pos rfl, getEntry_eq_none_iff.mpr hl.1]
        rfl
      · rw [if_neg h, if_neg h]

/-- A value read after several writes is one of those written or an old one. -/
theorem get?_update_some (h : (d.update l).get? k = some v) : (k, v) ∈ l ∨ d.get? k = some v := by
  induction l generalizing d with
  | nil => exact Or.inr h
  | cons x l ih =>
      rcases ih h with hl | hd
      · exact Or.inl (List.mem_cons_of_mem _ hl)
      · rw [get?_set] at hd
        split at hd
        next hx =>
          cases hd
          exact Or.inl (hx ▸ List.mem_cons_self ..)
        next => exact Or.inr hd

theorem get?_ofList_some (h : (ofList l).get? k = some v) :
    (k, v) ∈ l := by
  rcases get?_update_some h with hl | hd
  · exact hl
  · cases hd

theorem mem_keys_update :
    k ∈ (d.update l).keys ↔ k ∈ l.map Prod.fst ∨ k ∈ d.keys := by
  induction l generalizing d with
  | nil => simp [update]
  | cons x l ih =>
      have hstep : d.update (x :: l) = (d.set x.1 x.2).update l := rfl
      rw [hstep, ih, mem_keys_set, List.map_cons, List.mem_cons]
      tauto

/-- A dictionary is empty when nothing was written. -/
theorem keys_ofList_eq_nil_iff : (ofList l).keys = [] ↔ l = [] := by
  constructor
  · intro h
    cases l with
    | nil => rfl
    | cons x l =>
        have hmem : x.1 ∈ (ofList (x :: l)).keys :=
          mem_keys_update.mpr (.inl (List.mem_cons_self ..))
        rw [h] at hmem
        cases hmem
  · rintro rfl
    rfl

theorem get?_union (d e : Dict κ α) (k : κ) : (d.union e).get? k = (e.get? k).or (d.get? k) :=
  get?_update e.nodup d k

theorem setEntry_of_not_mem (h : k ∉ l.map Prod.fst) :
    setEntry k v l = l ++ [(k, v)] := by
  induction l with
  | nil => rfl
  | cons x l ih =>
      rw [List.map_cons, List.mem_cons, not_or] at h
      rw [setEntry, if_neg (fun he => h.1 he.symm), ih h.2, List.cons_append]

theorem entries_update (h : ((d.entries ++ l).map Prod.fst).Nodup) :
    (d.update l).entries = d.entries ++ l := by
  induction l generalizing d with
  | nil => rw [List.append_nil]; rfl
  | cons x l ih =>
      have hx : x.1 ∉ d.entries.map Prod.fst := by
        rw [List.map_append, List.map_cons] at h
        exact fun hm => (List.nodup_append'.mp h).2.2 hm (List.mem_cons_self ..)
      have hset : (d.set x.1 x.2).entries = d.entries ++ [x] := setEntry_of_not_mem hx
      have hstep : d.update (x :: l) = (d.set x.1 x.2).update l := rfl
      rw [hstep, ih (by rw [hset, List.append_assoc]; exact h), hset, List.append_assoc]
      rfl

/-- A list with distinct keys is the list of entries of its dictionary. -/
theorem entries_ofList (h : (l.map Prod.fst).Nodup) : (ofList l).entries = l :=
  entries_update h

theorem get?_ofList (h : (l.map Prod.fst).Nodup) (k : κ) :
    (ofList l).get? k = getEntry k l := by
  rw [get?, entries_ofList h]

/-! ## Changing the values -/

/-- The dictionary with every value changed by `f`. -/
def mapValues (f : α → β) (d : Dict κ α) : Dict κ β :=
  ⟨d.entries.map fun x => (x.1, f x.2), by rw [List.map_map]; exact d.nodup⟩

omit [DecidableEq κ] in
@[simp] theorem keys_mapValues (f : α → β) (d : Dict κ α) : (d.mapValues f).keys = d.keys := by
  rw [keys, keys, mapValues, List.map_map]
  rfl

theorem getEntry_map (f : α → β) (k : κ) (l : List (κ × α)) :
    getEntry k (l.map fun x => (x.1, f x.2)) = (getEntry k l).map f := by
  induction l with
  | nil => rfl
  | cons x l ih =>
      rw [List.map_cons, getEntry, getEntry, ih]
      split <;> rfl

@[simp] theorem get?_mapValues (f : α → β) (d : Dict κ α) (k : κ) :
    (d.mapValues f).get? k = (d.get? k).map f := getEntry_map f k d.entries

theorem setEntry_map (f : α → β) (k : κ) (v : α) (l : List (κ × α)) :
    (setEntry k v l).map (fun x => (x.1, f x.2)) =
      setEntry k (f v) (l.map fun x => (x.1, f x.2)) := by
  induction l with
  | nil => rfl
  | cons x l ih =>
      rw [setEntry, List.map_cons, setEntry]
      split
      · rfl
      · rw [List.map_cons, ih]

theorem mapValues_set (f : α → β) (d : Dict κ α) (k : κ) (v : α) :
    (d.set k v).mapValues f = (d.mapValues f).set k (f v) := by
  ext1
  exact setEntry_map f k v d.entries

theorem mapValues_update (f : α → β) (d : Dict κ α) (l : List (κ × α)) :
    (d.update l).mapValues f = (d.mapValues f).update (l.map fun x => (x.1, f x.2)) := by
  induction l generalizing d with
  | nil => rfl
  | cons x l ih =>
      have hstep : d.update (x :: l) = (d.set x.1 x.2).update l := rfl
      rw [hstep, ih, mapValues_set]
      rfl

theorem mapValues_ofList (f : α → β) (l : List (κ × α)) :
    (ofList l).mapValues f = ofList (l.map fun x => (x.1, f x.2)) := mapValues_update f empty l

omit [DecidableEq κ] in
theorem mapValues_mapValues {γ : Type} (f : α → β) (g : β → γ) (d : Dict κ α) :
    (d.mapValues f).mapValues g = d.mapValues (g ∘ f) := by
  ext1
  exact List.map_map

/-! ## Grouping -/

/-- `d[k] += [v]` on a dictionary of lists with empty default. -/
def push (d : Dict κ (List α)) (k : κ) (v : α) : Dict κ (List α) :=
  d.set k ((d.get? k).getD [] ++ [v])

/-- The values of a list of pairs, collected under their keys. -/
def group (l : List (κ × α)) : Dict κ (List α) := l.foldl (fun d x => d.push x.1 x.2) empty

theorem group_append (l l' : List (κ × α)) :
    group (l ++ l') = l'.foldl (fun d x => d.push x.1 x.2) (group l) := List.foldl_append

theorem group_concat (l : List (κ × α)) (x : κ × α) : group (l ++ [x]) = (group l).push x.1 x.2 :=
  group_append l [x]

theorem get?_group (l : List (κ × α)) (k : κ) :
    ((group l).get? k).getD [] = (l.filter fun x => x.1 = k).map Prod.snd := by
  induction l using List.reverseRecOn with
  | nil => rfl
  | append_singleton l x ih =>
      rw [group_concat, push, get?_set, List.filter_append, List.map_append, ← ih,
        List.filter_singleton]
      rcases eq_or_ne x.1 k with h | h
      · simp [h]
      · simp [h]

theorem eraseDups_concat (l : List κ) (k : κ) :
    (l ++ [k]).eraseDups = if k ∈ l then l.eraseDups else l.eraseDups ++ [k] := by
  rw [List.eraseDups_append]
  split
  next h => simp [List.removeAll, h]
  next h => simp [List.removeAll, List.eraseDups_cons, h]

/-- The keys stand in the order in which they are first seen. -/
theorem keys_group (l : List (κ × α)) : (group l).keys = (l.map Prod.fst).eraseDups := by
  induction l using List.reverseRecOn with
  | nil => rfl
  | append_singleton l x ih =>
      rw [group_concat, push, keys_set, ih, List.map_append, List.map_singleton, eraseDups_concat]
      simp only [List.mem_eraseDups]

theorem entries_eq_map_keys (d : Dict κ (List α)) :
    d.entries = d.keys.map fun k => (k, (d.get? k).getD []) := by
  rw [keys, List.map_map]
  refine (List.map_id _).symm.trans (List.map_congr_left fun x hx => ?_)
  have hget : d.get? x.1 = some x.2 := get?_eq_some_iff.mpr hx
  rw [Function.comp_apply, hget]
  rfl

/-- Every key with its values, in the order in which the keys are first seen. -/
def groups (l : List (κ × α)) : List (κ × List α) :=
  (l.map Prod.fst).eraseDups.map fun k => (k, (l.filter fun x => x.1 = k).map Prod.snd)

theorem entries_group (l : List (κ × α)) : (group l).entries = groups l := by
  rw [entries_eq_map_keys, keys_group]
  exact List.map_congr_left fun k _ => by rw [get?_group]

theorem perm_filter_of_disjoint {p q r : α → Bool} {l : List α}
    (hor : ∀ a, r a = (p a || q a)) (hdis : ∀ a, p a = true → q a = false) :
    (l.filter p ++ l.filter q).Perm (l.filter r) := by
  induction l with
  | nil => exact .nil
  | cons a l ih =>
      cases hp : p a with
      | true =>
          have hr : r a = true := by rw [hor, hp, Bool.true_or]
          rw [List.filter_cons_of_pos hp, List.filter_cons_of_neg (by rw [hdis a hp]; decide),
            List.filter_cons_of_pos hr]
          exact ih.cons a
      | false =>
          have hr : r a = q a := by rw [hor, hp, Bool.false_or]
          rw [List.filter_cons_of_neg (by rw [hp]; decide)]
          cases hq : q a with
          | true =>
              rw [List.filter_cons_of_pos hq, List.filter_cons_of_pos (hr.trans hq)]
              exact List.perm_middle.trans (ih.cons a)
          | false =>
              rw [List.filter_cons_of_neg (by rw [hq]; decide),
                List.filter_cons_of_neg (by rw [hr, hq]; decide)]
              exact ih

/-- The groups hold the values of the list, each under its key. -/
theorem perm_groups (l : List (κ × α)) :
    ((groups l).flatMap fun g => g.2.map (Prod.mk g.1)).Perm l := by
  have hgroup : ∀ k, ((l.filter fun x => x.1 = k).map Prod.snd).map (Prod.mk k) =
      l.filter fun x => x.1 = k := by
    intro k
    rw [List.map_map]
    refine (List.map_congr_left fun x hx => ?_).trans (List.map_id _)
    have hk : x.1 = k := of_decide_eq_true (List.mem_filter.mp hx).2
    rw [Function.comp_apply, ← hk, id_eq]
  have hkeys : ∀ ks : List κ, ks.Nodup →
      (ks.flatMap fun k => l.filter fun x => x.1 = k).Perm (l.filter fun x => x.1 ∈ ks) := by
    intro ks hks
    induction ks with
    | nil => simp
    | cons k ks ih =>
        obtain ⟨hk, hks⟩ := List.nodup_cons.mp hks
        rw [List.flatMap_cons]
        refine ((ih hks).append_left _).trans (perm_filter_of_disjoint (fun x => ?_) fun x hx => ?_)
        · simp [List.mem_cons]
        · rw [of_decide_eq_true hx]
          exact decide_eq_false hk
  have hall : (l.filter fun x => x.1 ∈ (l.map Prod.fst).eraseDups) = l := by
    refine List.filter_eq_self.mpr fun x hx => decide_eq_true ?_
    rw [List.mem_eraseDups]
    exact List.mem_map_of_mem hx
  rw [groups, List.flatMap_map]
  simp only [hgroup]
  have hnodup : (l.map Prod.fst).eraseDups.Nodup := keys_group l ▸ (group l).nodup
  refine (hkeys _ hnodup).trans ?_
  rw [hall]

/-- Pairs with one key have one value, so repeated keys do no harm. -/
theorem get?_ofList_map {ι : Type} {l : List ι} {key : ι → κ} {val : ι → α}
    (h : ∀ i ∈ l, ∀ j ∈ l, key i = key j → val i = val j) {i : ι} (hi : i ∈ l) :
    (ofList (l.map fun i => (key i, val i))).get? (key i) = some (val i) := by
  induction l using List.reverseRecOn with
  | nil => cases hi
  | append_singleton l j ih =>
      have hlast : j ∈ l ++ [j] := List.mem_append_right _ (List.mem_singleton_self j)
      have hset : ofList ((l ++ [j]).map fun i => (key i, val i)) =
          (ofList (l.map fun i => (key i, val i))).set (key j) (val j) := by
        rw [List.map_append, ofList, ofList, update, List.foldl_append]
        rfl
      rw [hset, get?_set]
      split
      next he => rw [h j hlast i hi he]
      next hne =>
        have hil : i ∈ l := by
          rcases List.mem_append.mp hi with hil | hij
          · exact hil
          · exact absurd (congrArg key (List.mem_singleton.mp hij).symm) hne
        exact ih
          (fun a ha b hb => h a (List.mem_append_left _ ha) b (List.mem_append_left _ hb)) hil

/-- The values are those of a function on the keys, so repeated keys do no harm. -/
theorem get?_ofList_fun (l : List κ) (f : κ → α) (k : κ) :
    (ofList (l.map fun x => (x, f x))).get? k = if k ∈ l then some (f k) else none := by
  have hget : ∀ (l : List κ) (d : Dict κ α), (d.update (l.map fun x => (x, f x))).get? k =
      if k ∈ l then some (f k) else d.get? k := by
    intro l
    induction l with
    | nil => intro d; rfl
    | cons x l ih =>
        intro d
        have hcons : d.update ((x :: l).map fun x => (x, f x)) =
            (d.set x (f x)).update (l.map fun x => (x, f x)) := rfl
        rw [hcons, ih, get?_set]
        rcases eq_or_ne x k with rfl | hne
        · simp
        · simp [hne, hne.symm]
  exact hget l empty

/-! ## Equality up to order -/

/-- The same finite map, in whatever order.  Python compares dictionaries so. -/
def Same (d e : Dict κ α) : Prop := ∀ k, d.get? k = e.get? k

theorem Same.length_eq (h : d.Same e) : d.entries.length = e.entries.length := by
  have hperm : d.keys.Perm e.keys := by
    have hmem : ∀ k, k ∈ d.keys ↔ k ∈ e.keys := fun k => by rw [mem_keys_iff, mem_keys_iff, h k]
    exact (List.perm_ext_iff_of_nodup d.nodup e.nodup).mpr hmem
  simpa [keys] using hperm.length_eq

theorem Same.set (h : d.Same e) (k : κ) (v : α) : (d.set k v).Same (e.set k v) := by
  intro k'
  rw [get?_set, get?_set, h k']

theorem Same.union {d' e' : Dict κ α} (h : d.Same d') (he : e.Same e') :
    (d.union e).Same (d'.union e') := by
  intro k
  rw [get?_union, get?_union, h k, he k]

/-! ## Numbers -/

/-- Number the keys from 1 in the order in which they are first seen. -/
def number (l : List κ) : Dict κ Nat :=
  l.foldl (fun d k => if k ∈ d.keys then d else d.set k (d.entries.length + 1)) empty

theorem number_concat (l : List κ) (k : κ) :
    number (l ++ [k]) =
      if k ∈ (number l).keys then number l
      else (number l).set k ((number l).entries.length + 1) := by
  rw [number, List.foldl_append]
  rfl

/-- The keys with a number, in the order of their numbers. -/
theorem keys_number (l : List κ) : (number l).keys = l.eraseDups := by
  induction l using List.reverseRecOn with
  | nil => rfl
  | append_singleton l k ih =>
      rw [number_concat, eraseDups_concat, ← ih]
      have hmem : k ∈ (number l).keys ↔ k ∈ l := by rw [ih, List.mem_eraseDups]
      split
      next h => rw [if_pos (hmem.mp h)]
      next h => rw [if_neg (mt hmem.mpr h), keys_set, if_neg h]

theorem mem_keys_number {l : List κ} : k ∈ (number l).keys ↔ k ∈ l := by
  rw [keys_number, List.mem_eraseDups]

/-- A key has the number of its place among the keys without repetitions. -/
theorem get?_number_of_mem {l : List κ} (hk : k ∈ l) :
    (number l).get? k = some (l.eraseDups.idxOf k + 1) := by
  induction l using List.reverseRecOn with
  | nil => cases hk
  | append_singleton l x ih =>
      rw [List.mem_append, List.mem_singleton] at hk
      rw [number_concat, eraseDups_concat]
      by_cases hx : x ∈ l
      · rw [if_pos (mem_keys_number.mpr hx), if_pos hx]
        rcases hk with hk | rfl
        · exact ih hk
        · exact ih hx
      · rw [if_neg (mt mem_keys_number.mp hx), if_neg hx, get?_set]
        have hx' : x ∉ l.eraseDups := mt List.mem_eraseDups.mp hx
        rcases eq_or_ne x k with rfl | hne
        · have hlen : (number l).entries.length = l.eraseDups.length := by
            rw [← keys_number, keys, List.length_map]
          rw [if_pos rfl, List.idxOf_append_of_notMem hx', List.idxOf_cons_self, hlen]
        · have hl : k ∈ l := hk.resolve_right hne.symm
          rw [if_neg hne, List.idxOf_append_of_mem (List.mem_eraseDups.mpr hl)]
          exact ih hl

/-- Other names for the keys leave them in their places. -/
theorem idxOf_eraseDups_map {ι : Type} [DecidableEq ι] {l : List ι} {f : ι → κ}
    (hf : ∀ i ∈ l, ∀ j ∈ l, f i = f j → i = j) {i : ι} (hi : i ∈ l) :
    (l.map f).eraseDups.idxOf (f i) = l.eraseDups.idxOf i := by
  have hmap : (l.map f).eraseDups = l.eraseDups.map f := by
    clear hi
    induction l using List.reverseRecOn with
    | nil => rfl
    | append_singleton l k ih =>
        have hlast : k ∈ l ++ [k] := List.mem_append_right _ (List.mem_singleton_self k)
        have hold : ∀ j ∈ l, j ∈ l ++ [k] := fun j hj => List.mem_append_left _ hj
        have hmem : f k ∈ l.map f ↔ k ∈ l := by
          refine ⟨fun h => ?_, List.mem_map_of_mem⟩
          obtain ⟨j, hj, he⟩ := List.mem_map.mp h
          exact hf j (hold j hj) k hlast he ▸ hj
        rw [List.map_append, List.map_singleton, eraseDups_concat, eraseDups_concat,
          ih fun i hi j hj => hf i (hold i hi) j (hold j hj)]
        simp only [hmem]
        split
        · rfl
        · rw [List.map_append, List.map_singleton]
  have hnodup : (l.map f).eraseDups.Nodup := keys_number (l.map f) ▸ (number (l.map f)).nodup
  rw [hmap] at hnodup ⊢
  have hlt : l.eraseDups.idxOf i < (l.eraseDups.map f).length := by
    rw [List.length_map]
    exact List.idxOf_lt_length_of_mem (List.mem_eraseDups.mpr hi)
  have hget : (l.eraseDups.map f)[l.eraseDups.idxOf i] = f i := by
    rw [List.getElem_map, List.getElem_idxOf]
  exact hget ▸ hnodup.idxOf_getElem _ hlt

/-- In a list over `0, ..., n - 1` the new elements come in order. -/
inductive InOrder : List Nat → Nat → Prop where
  | nil : InOrder [] 0
  | old {l : List Nat} {n i : Nat} : InOrder l n → i < n → InOrder (l ++ [i]) n
  | new {l : List Nat} {n : Nat} : InOrder l n → InOrder (l ++ [n]) (n + 1)

omit [DecidableEq κ] in
theorem InOrder.lt {l : List Nat} (h : InOrder l n) (hi : i ∈ l) : i < n := by
  induction h with
  | nil => cases hi
  | old _ hlt ih =>
      rcases List.mem_append.mp hi with hi | hi
      · exact ih hi
      · rw [List.mem_singleton.mp hi]; exact hlt
  | new _ ih =>
      rcases List.mem_append.mp hi with hi | hi
      · exact (ih hi).trans (Nat.lt_succ_self _)
      · rw [List.mem_singleton.mp hi]; exact Nat.lt_succ_self _

omit [DecidableEq κ] in
theorem InOrder.mem {l : List Nat} (h : InOrder l n) (hi : i < n) : i ∈ l := by
  induction h with
  | nil => exact absurd hi (Nat.not_lt_zero i)
  | old _ _ ih => exact List.mem_append_left _ (ih hi)
  | new _ ih =>
      rcases Nat.lt_succ_iff_lt_or_eq.mp hi with hi | rfl
      · exact List.mem_append_left _ (ih hi)
      · exact List.mem_append_right _ (List.mem_singleton_self _)

/-- Names for numbers that come in order are numbered as they are. -/
theorem entries_number {l : List Nat} (h : InOrder l n) {f : Nat → κ}
    (hf : ∀ i < n, ∀ j < n, f i = f j → i = j) :
    (number (l.map f)).entries = (List.range n).map fun i => (f i, i + 1) := by
  have hkeys : ∀ {n : Nat} {d : Dict κ Nat},
      d.entries = (List.range n).map (fun i => (f i, i + 1)) →
      d.keys = (List.range n).map f := by
    intro n d hd
    rw [keys, hd, List.map_map]
    rfl
  induction h with
  | nil => rfl
  | @old l n i hl hi ih =>
      rw [List.map_append, List.map_singleton, number_concat, if_pos, ih hf]
      rw [hkeys (ih hf)]
      exact List.mem_map_of_mem (List.mem_range.mpr hi)
  | @new l n hl ih =>
      have ih' := ih fun i hi j hj => hf i (hi.trans n.lt_succ_self) j (hj.trans n.lt_succ_self)
      have hnew : f n ∉ (number (l.map f)).keys := by
        rw [hkeys ih', List.mem_map]
        rintro ⟨i, hi, he⟩
        have hlt := List.mem_range.mp hi
        exact hlt.ne (hf i (hlt.trans n.lt_succ_self) n n.lt_succ_self he)
      rw [List.map_append, List.map_singleton, number_concat, if_neg hnew, set]
      have hlen : (number (l.map f)).entries.length = n := by simp [ih']
      simp only [hlen]
      rw [setEntry_of_not_mem hnew, ih', List.range_succ, List.map_append, List.map_singleton]

theorem get?_number {l : List Nat} (h : InOrder l n) {f : Nat → κ}
    (hf : ∀ i < n, ∀ j < n, f i = f j → i = j) (hi : i < n) :
    (number (l.map f)).get? (f i) = some (i + 1) := by
  rw [get?_eq_some_iff, entries_number h hf]
  exact List.mem_map.mpr ⟨i, List.mem_range.mpr hi, rfl⟩

end Dict

end OsCourse
