import OsCourse.Fle.Linker

/-!
# The layout of an image

The layout lists what the linker meets, each with its file and its offset:
section starts, labels, bytes and relocations.  It depends on the inputs alone:
a label takes no room, a relocation takes four bytes.

Both passes follow the layout.  After a pass the table is the table before it
with every definition of the layout entered in order (`pass_table`), and the
image has the length of the layout.  In the second pass nothing changes in the
table when every definition already has its offset there, and then each
relocation is evaluated in that one table (`pass_image`).
-/

namespace OsCourse.Fle

/-! ## Entries and places -/

/-- What a pass meets: the start of a section body or an item. -/
inductive Entry where
  /-- The start of a body of the section of this name. -/
  | start (secName : Text)
  /-- An item of a body. -/
  | item (i : Item)
deriving DecidableEq

/-- The room of an entry in the image. -/
def Entry.size : Entry → Nat
  | .item (.bytes xs) => xs.length
  | .item (.reloc _ _) => 4
  | _ => 0

/-- An entry of a file at its offset. -/
structure Placed where
  /-- The offset in the image. -/
  offset : Nat
  /-- The file. -/
  file : Text
  /-- The entry. -/
  entry : Entry
deriving DecidableEq

/-- Place entries one after the other. -/
def place : Nat → List (Text × Entry) → List Placed
  | _, [] => []
  | offset, x :: es => ⟨offset, x.1, x.2⟩ :: place (offset + x.2.size) es

/-- The room of a list of entries. -/
def totalSize (es : List (Text × Entry)) : Nat := (es.map fun x => x.2.size).sum

theorem totalSize_cons (x : Text × Entry) (es : List (Text × Entry)) :
    totalSize (x :: es) = x.2.size + totalSize es := rfl

theorem map_place (n : Nat) (es : List (Text × Entry)) :
    (place n es).map (fun p => (p.file, p.entry)) = es := by
  induction es generalizing n with
  | nil => rfl
  | cons x es ih => rw [place, List.map_cons, ih]

variable {n iter : Nat} {es : List (Text × Entry)} {p : Placed} {st st' : State} {symbols : Symbols}
  {ps : List Placed} {k : Text}

theorem mem_of_mem_place (h : p ∈ place n es) :
    (p.file, p.entry) ∈ es := by
  rw [← map_place n es]
  exact List.mem_map_of_mem h

theorem exists_place {fle : Text} {e : Entry} (h : (fle, e) ∈ es) (n : Nat) :
    ∃ offset, ⟨offset, fle, e⟩ ∈ place n es := by
  rw [← map_place n es] at h
  obtain ⟨p, hp, heq⟩ := List.mem_map.mp h
  cases heq
  exact ⟨p.offset, hp⟩

theorem place_append (n : Nat) (es es' : List (Text × Entry)) :
    place n (es ++ es') = place n es ++ place (n + totalSize es) es' := by
  induction es generalizing n with
  | nil => rfl
  | cons x es ih =>
      rw [List.cons_append, place, ih, place, List.cons_append, totalSize_cons, Nat.add_assoc]

theorem totalSize_append (es es' : List (Text × Entry)) :
    totalSize (es ++ es') = totalSize es + totalSize es' := by
  rw [totalSize, List.map_append, List.sum_append]
  rfl

/-- An entry of several blocks stands in one of them, which comes after the room of
the blocks before it. -/
theorem mem_place_flatMap {β : Type} {block : β → List (Text × Entry)} {bs : List β} :
    p ∈ place n (bs.flatMap block) ↔ ∃ pre b post, bs = pre ++ b :: post ∧
      p ∈ place (n + totalSize (pre.flatMap block)) (block b) := by
  induction bs generalizing n with
  | nil =>
      constructor
      · intro h
        cases h
      · intro h
        obtain ⟨pre, b, post, h, -⟩ := h
        cases pre <;> cases h
  | cons c bs ih =>
      rw [List.flatMap_cons, place_append, List.mem_append, ih]
      constructor
      · rintro (hc | ⟨pre, b, post, rfl, hb⟩)
        · exact ⟨[], c, bs, rfl, hc⟩
        · refine ⟨c :: pre, b, post, rfl, ?_⟩
          rw [List.flatMap_cons, totalSize_append, ← Nat.add_assoc]
          exact hb
      · rintro ⟨pre, b, post, hsplit, hb⟩
        cases pre with
        | nil =>
            cases hsplit
            exact Or.inl hb
        | cons d pre =>
            cases hsplit
            rw [List.flatMap_cons, totalSize_append, ← Nat.add_assoc] at hb
            exact Or.inr ⟨pre, b, post, rfl, hb⟩

/-- An entry stands after the room of the entries before it. -/
theorem mem_place_iff :
    p ∈ place n es ↔ ∃ pre post, es = pre ++ (p.file, p.entry) :: post ∧
      p.offset = n + totalSize pre := by
  constructor
  · intro h
    rw [← List.flatMap_singleton' es, mem_place_flatMap] at h
    obtain ⟨pre, x, post, rfl, hx⟩ := h
    rw [List.flatMap_singleton', place, place, List.mem_singleton] at hx
    subst hx
    exact ⟨pre, post, rfl, rfl⟩
  · rintro ⟨pre, post, rfl, hoff⟩
    rw [place_append, place, ← hoff]
    exact List.mem_append_right _ (List.mem_cons_self ..)

/-- The entries of one body of a section. -/
def bodyEntries (secName : Text) (body : Text × List Item) : List (Text × Entry) :=
  (body.1, .start secName) :: body.2.map fun i => (body.1, .item i)

/-- The entries of sections: group after group, and body after body in each. -/
def flatEntries (sections : List (Text × List (Text × List Item))) : List (Text × Entry) :=
  sections.flatMap fun sec => sec.2.flatMap (bodyEntries sec.1)

/-- The key under which an entry is entered in the table. -/
def Placed.key? (p : Placed) : Option Text :=
  match p.entry with
  | .start secName => some (localKey p.file (mangle secName))
  | .item (.localLabel symb) => some (localKey p.file symb)
  | .item (.globalLabel symb) => some symb
  | .item (.bytes _) => none
  | .item (.reloc _ _) => none

/-- Enter a definition in the table. -/
def Placed.enter (p : Placed) (symbols : Symbols) : Symbols :=
  match p.key? with
  | some k => symbols.set k (.int p.offset)
  | none => symbols

/-- Enter all definitions of a layout. -/
def enterAll (ps : List Placed) (symbols : Symbols) : Symbols :=
  ps.foldl (fun t p => p.enter t) symbols

/-! ## A pass as one loop -/

/-- One entry of a pass. -/
def linkEntry (iter : Nat) (st : State) (x : Text × Entry) : Except LinkError State :=
  match x.2 with
  | .start secName => .ok (st.define (localKey x.1 (mangle secName)))
  | .item i => linkItem iter x.1 st i

theorem linkBody_eq (iter : Nat) (secName : Text) (st : State) (body : Text × List Item) :
    linkBody iter secName st body = (bodyEntries secName body).foldlM (linkEntry iter) st := by
  have hstart : (bodyEntries secName body).foldlM (linkEntry iter) st =
      (body.2.map fun i => (body.1, Entry.item i)).foldlM (linkEntry iter)
        (st.define (localKey body.1 (mangle secName))) := rfl
  rw [hstart, List.foldlM_map]
  rfl

theorem linkPass_eq (iter : Nat) (sections : Sections) (symbols : Symbols) :
    linkPass iter sections symbols =
      (flatEntries sections.entries).foldlM (linkEntry iter) ⟨symbols, []⟩ :=
  foldlM_flatMap
    (fun st sec => foldlM_flatMap (fun st body => linkBody_eq iter sec.1 st body) sec.2 st)
    sections.entries ⟨symbols, []⟩

/-! ## One entry -/

theorem length_toBytes {x : Int} {bs : List UInt8} (h : toBytes x = .ok bs) : bs.length = 4 := by
  rw [toBytes] at h
  split at h
  · cases h; rfl
  · cases h

/-- What is found at an entry of the image in the second pass, where symbols are
looked up in `symbols`. -/
def Placed.Found (p : Placed) (symbols : Symbols) (image : List UInt8) : Prop :=
  match p.entry with
  | .item (.bytes xs) => (image.drop p.offset).take xs.length = xs
  | .item (.reloc sym addend) =>
      evalReloc 1 p.file symbols p.offset sym addend = .ok ((image.drop p.offset).take 4)
  | _ => True

/-- One entry enters its definition and appends its bytes. -/
theorem linkEntry_ok {x : Text × Entry} (h : linkEntry iter st x = .ok st') :
    st'.symbols = (⟨st.res.length, x.1, x.2⟩ : Placed).enter st.symbols ∧
      ∃ bs, st'.res = st.res ++ bs ∧ bs.length = x.2.size ∧
        match x.2 with
        | .item (.bytes xs) => bs = xs
        | .item (.reloc sym addend) =>
            evalReloc iter x.1 st.symbols st.res.length sym addend = .ok bs
        | _ => True := by
  obtain ⟨fle, e⟩ := x
  cases e with
  | start secName =>
      cases h
      exact ⟨rfl, [], (List.append_nil _).symm, rfl, trivial⟩
  | item i =>
      cases i with
      | globalLabel symb =>
          simp only [linkEntry, linkItem] at h
          split at h
          · cases h
          · cases h
            exact ⟨rfl, [], (List.append_nil _).symm, rfl, trivial⟩
      | localLabel symb =>
          cases h
          exact ⟨rfl, [], (List.append_nil _).symm, rfl, trivial⟩
      | bytes xs =>
          cases h
          exact ⟨rfl, xs, rfl, rfl, rfl⟩
      | reloc sym addend =>
          simp only [linkEntry, linkItem] at h
          obtain ⟨bs, hbs, h⟩ := bind_ok h
          cases h
          obtain ⟨v, -, hv⟩ := evalReloc_ok hbs
          exact ⟨rfl, bs, rfl, length_toBytes hv, hbs⟩

/-! ## A whole pass -/

/-- A pass enters the definitions of the layout in order, and the image grows by
the room of the entries. -/
theorem pass_table (h : es.foldlM (linkEntry iter) st = .ok st') :
    st'.symbols = enterAll (place st.res.length es) st.symbols ∧
      st'.res.length = st.res.length + totalSize es := by
  induction es generalizing st with
  | nil => cases h; exact ⟨rfl, rfl⟩
  | cons x es ih =>
      obtain ⟨mid, hmid, hes⟩ := foldlM_cons_ok h
      obtain ⟨hsym, bs, hres, hlen, -⟩ := linkEntry_ok hmid
      obtain ⟨hsym', hlen'⟩ := ih hes
      have hmidlen : mid.res.length = st.res.length + x.2.size := by
        rw [hres, List.length_append, hlen]
      rw [hmidlen] at hsym' hlen'
      constructor
      · rw [hsym', hsym]
        rfl
      · rw [hlen', totalSize, totalSize, List.map_cons, List.sum_cons, Nat.add_assoc]

/-- The image only grows. -/
theorem pass_extends (h : es.foldlM (linkEntry iter) st = .ok st') :
    ∃ more, st'.res = st.res ++ more := by
  induction es generalizing st with
  | nil => cases h; exact ⟨[], (List.append_nil _).symm⟩
  | cons x es ih =>
      obtain ⟨mid, hmid, hes⟩ := foldlM_cons_ok h
      obtain ⟨-, bs, hres, -⟩ := linkEntry_ok hmid
      obtain ⟨more, hmore⟩ := ih hes
      exact ⟨bs ++ more, by rw [hmore, hres, List.append_assoc]⟩

/-- Every definition of the layout has its offset in the table. -/
def Settled (ps : List Placed) (symbols : Symbols) : Prop :=
  ∀ p ∈ ps, ∀ k, p.key? = some k → symbols.get? k = some (.int p.offset)

theorem Placed.enter_of_settled (h : ∀ k, p.key? = some k → symbols.get? k = some (.int p.offset)) :
    p.enter symbols = symbols := by
  rw [Placed.enter]
  cases hk : p.key? with
  | none => rfl
  | some k => exact Dict.set_eq_self (h k hk)

theorem drop_take_append {α : Type} (a b c : List α) :
    (((a ++ b) ++ c).drop a.length).take b.length = b := by
  rw [List.append_assoc, List.drop_left, List.take_left]

/-- In the second pass over a settled table every relocation is evaluated in
that table. -/
theorem pass_image {res : List UInt8} (hset : Settled (place res.length es) symbols)
    (h : es.foldlM (linkEntry 1) ⟨symbols, res⟩ = .ok st') :
    st'.symbols = symbols ∧ ∀ p ∈ place res.length es, p.Found symbols st'.res := by
  induction es generalizing res with
  | nil =>
      cases h
      exact ⟨rfl, fun p hp => by cases hp⟩
  | cons x es ih =>
      obtain ⟨mid, hmid, hes⟩ := foldlM_cons_ok h
      obtain ⟨hsym, bs, hres, hlen, hbs⟩ := linkEntry_ok hmid
      rw [Placed.enter_of_settled (hset _ (List.mem_cons_self ..))] at hsym
      have hoff : mid.res.length = res.length + x.2.size := by
        rw [hres, List.length_append, hlen]
      have hmid' : mid = ⟨symbols, mid.res⟩ := by rw [← hsym]
      have hset' : Settled (place mid.res.length es) symbols := fun p hp =>
        hset p (List.mem_cons_of_mem _ (by rwa [hoff] at hp))
      obtain ⟨hfin, hrest⟩ := ih hset' (hmid' ▸ hes)
      refine ⟨hfin, fun p hp => ?_⟩
      cases List.mem_cons.mp hp with
      | inr hp => exact hrest p (by rw [hoff]; exact hp)
      | inl hp =>
          subst hp
          obtain ⟨more, hmore⟩ := pass_extends hes
          have hcut : (st'.res.drop res.length).take bs.length = bs := by
            rw [hmore, hres]
            exact drop_take_append ..
          obtain ⟨fle, e⟩ := x
          rw [hlen] at hcut
          cases e with
          | start secName => exact trivial
          | item i =>
              cases i with
              | globalLabel symb => exact trivial
              | localLabel symb => exact trivial
              | bytes xs => exact hcut.trans hbs
              | reloc sym addend => exact hbs.trans (congrArg Except.ok hcut.symm)

/-! ## The table after the first pass -/

/-- The offset of the last definition of a key. -/
def lastOffset (key : Text) : List Placed → Option Nat
  | [] => none
  | p :: ps => (lastOffset key ps).or (if p.key? = some key then some p.offset else none)

theorem lastOffset_eq_none : lastOffset k ps = none ↔ ∀ p ∈ ps, p.key? ≠ some k := by
  induction ps with
  | nil => simp [lastOffset]
  | cons p ps ih => simp [lastOffset, Option.or_eq_none_iff, ih, and_comm]

theorem lastOffset_eq_some {n : Nat} (h : lastOffset k ps = some n) :
    ∃ p ∈ ps, p.key? = some k ∧ p.offset = n := by
  induction ps with
  | nil => cases h
  | cons p ps ih =>
      rw [lastOffset, Option.or_eq_some_iff] at h
      rcases h with h | ⟨-, h⟩
      · obtain ⟨q, hq, hqk⟩ := ih h
        exact ⟨q, List.mem_cons_of_mem _ hq, hqk⟩
      · split at h
        next hk => exact ⟨p, List.mem_cons_self .., hk, Option.some.inj h⟩
        next => cases h

/-- The table has the offsets of the last definitions. -/
theorem enterAll_get? (ps : List Placed) (symbols : Symbols) (k : Text) :
    (enterAll ps symbols).get? k =
      ((lastOffset k ps).map fun n => Value.int n).or (symbols.get? k) := by
  induction ps generalizing symbols with
  | nil => rfl
  | cons p ps ih =>
      have hcons : enterAll (p :: ps) symbols = enterAll ps (p.enter symbols) := rfl
      have henter : (p.enter symbols).get? k =
          if p.key? = some k then some (.int p.offset) else symbols.get? k := by
        rw [Placed.enter]
        cases hk : p.key? with
        | none => simp
        | some k' => simp [Dict.get?_set]
      rw [hcons, ih, henter, lastOffset]
      cases lastOffset k ps with
      | some n => rfl
      | none => by_cases hk : p.key? = some k <;> simp [hk]

/-- When equal keys have equal offsets, the last definition of a key is as good
as any. -/
theorem settled_enterAll
    (h : ps.Pairwise fun p q => ∀ k, p.key? = some k → q.key? = some k → p.offset = q.offset)
    (symbols : Symbols) : Settled ps (enterAll ps symbols) := by
  intro p hp k hk
  have hsymm : Std.Symm fun p q : Placed =>
      ∀ k, p.key? = some k → q.key? = some k → p.offset = q.offset :=
    ⟨fun p q hpq k hq hp => (hpq k hp hq).symm⟩
  rw [enterAll_get?]
  cases hlast : lastOffset k ps with
  | none => exact absurd hk (lastOffset_eq_none.mp hlast p hp)
  | some n =>
      obtain ⟨q, hq, hqk, rfl⟩ := lastOffset_eq_some hlast
      by_cases hne : p = q
      · rw [hne]
        rfl
      · rw [h.forall hp hq hne k hk hqk]
        rfl

/-- Every offset of the table belongs to a definition. -/
theorem enterAll_get?_some {v : Value} (h : (enterAll ps symbols).get? k = some v) :
    symbols.get? k = some v ∨ ∃ p ∈ ps, p.key? = some k ∧ v = .int p.offset := by
  rw [enterAll_get?] at h
  cases hlast : lastOffset k ps with
  | none =>
      rw [hlast] at h
      exact Or.inl h
  | some n =>
      rw [hlast] at h
      cases h
      obtain ⟨p, hp, hk, rfl⟩ := lastOffset_eq_some hlast
      exact Or.inr ⟨p, hp, hk, rfl⟩

theorem mem_keys_enter :
    k ∈ (p.enter symbols).keys ↔ p.key? = some k ∨ k ∈ symbols.keys := by
  rw [Placed.enter]
  cases hk : p.key? with
  | none => simp
  | some k' => rw [Dict.mem_keys_set, Option.some.injEq, eq_comm]

/-- The first pass refuses a global label whose name is already a key. -/
theorem pass_global_fresh (h : es.foldlM (linkEntry 0) st = .ok st') :
    (∀ p ∈ place st.res.length es, ∀ symb, p.entry = .item (.globalLabel symb) →
      symb ∉ st.symbols.keys) ∧
    (place st.res.length es).Pairwise fun p q =>
      ∀ symb, q.entry = .item (.globalLabel symb) → p.key? ≠ some symb := by
  induction es generalizing st with
  | nil =>
      constructor
      · intro p hp; cases hp
      · exact List.Pairwise.nil
  | cons x es ih =>
      obtain ⟨mid, hmid, hes⟩ := foldlM_cons_ok h
      obtain ⟨hsym, bs, hres, hlen, -⟩ := linkEntry_ok hmid
      obtain ⟨hfresh, hpair⟩ := ih hes
      have hoff : mid.res.length = st.res.length + x.2.size := by
        rw [hres, List.length_append, hlen]
      rw [hoff, hsym] at hfresh
      rw [hoff] at hpair
      constructor
      · intro p hp symb hsymb
        cases List.mem_cons.mp hp with
        | inl hp =>
            subst hp
            obtain ⟨fle, e⟩ := x
            cases hsymb
            simp only [linkEntry, linkItem] at hmid
            split at hmid
            next => cases hmid
            next hno => exact fun hmem => hno ⟨trivial, hmem⟩
        | inr hp =>
            exact fun hmem => hfresh p hp symb hsymb (mem_keys_enter.mpr (Or.inr hmem))
      · refine List.Pairwise.cons (fun q hq symb hsymb hkey => ?_) hpair
        exact hfresh q hq symb hsymb (mem_keys_enter.mpr (Or.inl hkey))

end OsCourse.Fle
