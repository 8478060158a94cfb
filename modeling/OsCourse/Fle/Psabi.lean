import OsCourse.Fle.Errors
import OsCourse.Fle.Pieces

/-!
# Relocations of ELF objects

What the linker stores for a relocation of an ELF object, and what the processor
supplement of the ABI asks for.  An ELF object is compiled by `elf_to_fle`, read
back and linked with others of its kind.  A section of a file starts somewhere in
the image, and what it holds keeps its offset from there (`piece_placed`).

The value that is stored is always `S + A - P`, because `- 📍` is appended to every
expression.  That is the value of the ABI for the two relocations that are relative
to their place, and not for `R_X86_64_32`.  `S` is the address of the symbol when
no other symbol or section of its object has the same name after dots became
underscores (`Distinct`).
-/

namespace OsCourse.Fle

/-! ## Where bodies stand -/

/-- The room of items. -/
def itemsSize (is : List Item) : Nat := (is.map fun i => (Entry.item i).size).sum

/-- The body of a section of a file starts at `base`. -/
def BodyAt (inputs : List (Text × Obj)) (base : Nat) (secName fle : Text) (is : List Item) : Prop :=
  ∃ pre post, orderedBodies inputs = pre ++ (secName, (fle, is)) :: post ∧
    base = totalSize (pre.flatMap fun b => bodyEntries b.1 b.2)

variable {fle : Text} {files : Text → Option Obj}

theorem mem_place_body {base : Nat} {secName : Text} {is : List Item} {p : Placed} :
    p ∈ place base (bodyEntries secName (fle, is)) ↔ p = ⟨base, fle, .start secName⟩ ∨
      ∃ pre i post, is = pre ++ i :: post ∧ p = ⟨base + itemsSize pre, fle, .item i⟩ := by
  have hsize : ∀ pre : List Item,
      totalSize (pre.map fun i => (fle, Entry.item i)) = itemsSize pre := by
    intro pre
    rw [totalSize, List.map_map]
    rfl
  rw [bodyEntries, place, List.mem_cons, mem_place_iff]
  refine or_congr_right ⟨?_, ?_⟩
  · rintro ⟨pre, post, hsplit, hoff⟩
    obtain ⟨pre', rest, rfl, rfl, hrest⟩ := List.map_eq_append_iff.mp hsplit
    obtain ⟨i, post', rfl, hi, -⟩ := List.map_eq_cons_iff.mp hrest
    refine ⟨pre', i, post', rfl, ?_⟩
    obtain ⟨offset, f, e⟩ := p
    cases hi
    rw [hsize] at hoff
    rw [show offset = base + itemsSize pre' from hoff]
  · rintro ⟨pre, i, post, rfl, rfl⟩
    refine ⟨pre.map fun i => (fle, .item i), post.map fun i => (fle, .item i), ?_, ?_⟩
    · rw [List.map_append, List.map_cons]
    · rw [hsize]
      rfl

section Bodies

variable {inputs : List (Text × Obj)} {fle secName : Text} {base : Nat}

theorem start_mem_layout :
    ⟨base, fle, .start secName⟩ ∈ layout inputs ↔ ∃ is, BodyAt inputs base secName fle is := by
  rw [layout, flatEntries_grouped, mem_place_flatMap]
  constructor
  · rintro ⟨pre, ⟨secName', fle', is⟩, post, hsplit, hp⟩
    rw [Nat.zero_add] at hp
    rcases mem_place_body.mp hp with heq | ⟨_, _, _, -, heq⟩
    · cases heq
      exact ⟨is, pre, post, hsplit, rfl⟩
    · cases heq
  · rintro ⟨is, pre, post, hsplit, rfl⟩
    refine ⟨pre, _, post, hsplit, ?_⟩
    rw [Nat.zero_add]
    exact mem_place_body.mpr (Or.inl rfl)

theorem item_mem_layout {v : Nat} {i : Item} : ⟨v, fle, .item i⟩ ∈ layout inputs ↔
    ∃ base secName pre post, BodyAt inputs base secName fle (pre ++ i :: post) ∧
      v = base + itemsSize pre := by
  rw [layout, flatEntries_grouped, mem_place_flatMap]
  constructor
  · rintro ⟨bpre, ⟨secName, fle', is⟩, bpost, hsplit, hp⟩
    rw [Nat.zero_add] at hp
    rcases mem_place_body.mp hp with heq | ⟨pre, j, post, rfl, heq⟩
    · cases heq
    · cases heq
      exact ⟨_, secName, pre, post, ⟨bpre, bpost, hsplit, rfl⟩, rfl⟩
  · rintro ⟨base, secName, pre, post, ⟨bpre, bpost, hsplit, rfl⟩, rfl⟩
    refine ⟨bpre, _, bpost, hsplit, ?_⟩
    rw [Nat.zero_add]
    exact mem_place_body.mpr (Or.inr ⟨pre, i, post, rfl, rfl⟩)

theorem BodyAt.mem {is : List Item} (h : BodyAt inputs base secName fle is) :
    ∃ o, (fle, o) ∈ inputs ∧ (secName, is) ∈ o.sections := by
  obtain ⟨pre, post, hsplit, -⟩ := h
  have hmem : (secName, (fle, is)) ∈ bodies inputs := by
    rw [← (perm_orderedBodies inputs).mem_iff, hsplit]
    exact List.mem_append_right _ (List.mem_cons_self ..)
  obtain ⟨⟨fle', o⟩, hx, hbody⟩ := List.mem_flatMap.mp hmem
  obtain ⟨sec, hsec, heq⟩ := List.mem_map.mp hbody
  cases heq
  exact ⟨o, hx, hsec⟩

/-- Distinct files have distinct bodies. -/
theorem nodup_bodies (hfiles : (inputs.map Prod.fst).Nodup) :
    ((bodies inputs).map fun b => (b.1, b.2.1)).Nodup := by
  rw [bodies, List.map_flatMap, List.nodup_flatMap]
  constructor
  · intro x _
    have hnames : (x.2.sections.map Prod.fst).Nodup :=
      x.2.entries.nodup.sublist (List.filter_sublist.map Prod.fst)
    refine List.Nodup.of_map Prod.fst ?_
    rw [List.map_map, List.map_map]
    exact hnames
  · refine (List.pairwise_map.mp hfiles).imp fun {x y} hne b hx hy => hne ?_
    simp only [List.map_map, List.mem_map, Function.comp_apply] at hx hy
    obtain ⟨_, -, rfl⟩ := hx
    obtain ⟨_, -, heq⟩ := hy
    exact (Prod.mk.inj heq).2.symm

/-- A section of a file starts at one place. -/
theorem BodyAt.unique (hfiles : (inputs.map Prod.fst).Nodup) {base' : Nat} {is is' : List Item}
    (h : BodyAt inputs base secName fle is) (h' : BodyAt inputs base' secName fle is') :
    base = base' := by
  obtain ⟨pre, post, hsplit, rfl⟩ := h
  obtain ⟨pre', post', hsplit', rfl⟩ := h'
  have hkeys : ((orderedBodies inputs).map fun b => (b.1, b.2.1)).Nodup :=
    ((perm_orderedBodies inputs).map _).nodup_iff.mpr (nodup_bodies hfiles)
  have hmaps := congrArg (List.map fun b => (b.1, b.2.1)) (hsplit.symm.trans hsplit')
  rw [hsplit, List.map_append, List.map_cons, List.nodup_middle, List.nodup_cons, List.mem_append,
    not_or] at hkeys
  rw [List.map_append, List.map_cons, List.map_append, List.map_cons,
    List.append_cons_inj_of_notMem hkeys.1.1 hkeys.1.2] at hmaps
  have hlength := congrArg List.length hmaps.1
  rw [List.length_map, List.length_map] at hlength
  rw [(List.append_inj (hsplit.symm.trans hsplit') hlength).1]

end Bodies

/-! ## Where a link stores the value of a relocation -/

/-- What the second pass stores for a relocation: the value of a definition under
its local key, or without one under its own name. -/
theorem stored_value {args : List Text} {dest : Text} {exe : Exe}
    (h : ld files args = .ok (dest, exe)) {image : List UInt8}
    (himage : execImage exe.load = some image) {P : Nat} {sym : Ident} {addend : Int}
    (hmem : ⟨P, fle, .item (.reloc sym addend)⟩ ∈ layout (objects files (inputFiles none args))) :
    ∃ q ∈ layout (objects files (inputFiles none args)),
      int32 ((image.drop P).take 4) = q.offset + addend - P ∧
      (q.key? = some (localKey fle sym.text) ∨
        q.key? = some sym.text ∧ ∀ q' ∈ layout (objects files (inputFiles none args)),
          q'.key? ≠ some (localKey fle sym.text)) := by
  obtain ⟨a, pass0, pass1, ha, h0, h1, rfl⟩ := ld_ok h
  rw [execImage_loadLines, Option.some.injEq] at himage
  subst himage
  rw [linkPass_eq, entries_sections ha] at h0 h1
  obtain ⟨pre, post, hsplit, hP⟩ := mem_place_iff.mp hmem
  rw [hsplit] at h1
  obtain ⟨mid, mid', hpre, hx, hpost⟩ := foldlM_append_ok h1
  obtain ⟨htable, hlen⟩ := second_table h0 hpre
  obtain ⟨-, bs, hres, hsize, hbs⟩ := linkEntry_ok hx
  obtain ⟨v, hv, hbytes⟩ := evalReloc_ok hbs
  obtain ⟨more, hmore⟩ := pass_extends hpost
  have hmid : mid.res.length = P := hlen.trans (hP.trans (Nat.zero_add _)).symm
  have hcut : (pass1.res.drop P).take 4 = bs := by
    rw [hmore, hres, ← hmid, ← show bs.length = 4 from hsize]
    exact drop_take_append ..
  rw [hcut, int32_toBytes hbytes, hmid]
  have hoffset (key : Text) {n : Nat}
      (hn : lastOffset key (defined (objects files (inputFiles none args)) pre) = some n) :
      ∃ q ∈ layout (objects files (inputFiles none args)), q.key? = some key ∧ q.offset = n := by
    obtain ⟨q, hq, hqk⟩ := lastOffset_eq_some hn
    exact ⟨q, mem_layout_of_defined hsplit hq, hqk⟩
  rw [htable, getItem_second] at hv
  split at hv
  next n hn =>
    cases hv
    rcases Option.or_eq_some_iff.mp hn with hlocal | ⟨hlocal, hglobal⟩
    · obtain ⟨q, hq, hk, rfl⟩ := hoffset _ hlocal
      exact ⟨q, hq, rfl, Or.inl hk⟩
    · obtain ⟨q, hq, hk, rfl⟩ := hoffset _ hglobal
      exact ⟨q, hq, rfl, Or.inr ⟨hk, fun q' hq' hk' =>
        (lastOffset_defined_eq_none hsplit).mp hlocal ⟨q', hq', hk'⟩⟩⟩
  next => split at hv <;> cases hv

/-- After a link every global name has one definition. -/
theorem global_unique {args : List Text} {dest : Text} {exe : Exe}
    (h : ld files args = .ok (dest, exe)) {p q : Placed} {symb : Text}
    (hp : p ∈ layout (objects files (inputFiles none args)))
    (hq : q ∈ layout (objects files (inputFiles none args)))
    (hpe : p.entry = .item (.globalLabel symb)) (hqe : q.entry = .item (.globalLabel symb)) :
    p = q := by
  obtain ⟨a, pass0, pass1, ha, h0, -, -⟩ := ld_ok h
  rw [linkPass_eq, entries_sections ha] at h0
  have hfresh := (pass_global_fresh h0).2
  have hpair : (layout (objects files (inputFiles none args))).Pairwise fun p q =>
      ¬ (p.entry = .item (.globalLabel symb) ∧ q.entry = .item (.globalLabel symb)) := by
    refine hfresh.imp fun {p q} hpq hboth => hpq symb hboth.2 ?_
    rw [Placed.key?, hboth.1]
  by_contra hne
  have hsymm : Std.Symm fun p q : Placed =>
      ¬ (p.entry = .item (.globalLabel symb) ∧ q.entry = .item (.globalLabel symb)) :=
    ⟨fun p q hpq hqp => hpq hqp.symm⟩
  exact hpair.forall hp hq hne ⟨hpe, hqe⟩

/-! ## Links of ELF objects -/

/-- The objects that `FLE_cc` writes. -/
def elfFiles (elves : Text → Option Elf) (fle : Text) : Option Obj := (elves fle).bind fleObject

/-- The layout that a command line asks for. -/
def elfLayout (elves : Text → Option Elf) (args : List Text) : List Placed :=
  layout (objects (elfFiles elves) (inputFiles none args))

/-- A section of a file starts at `base`. -/
def StartsAt (elves : Text → Option Elf) (args : List Text) (fle secName : Text) (base : Nat) :
    Prop :=
  ⟨base, fle, .start secName⟩ ∈ elfLayout elves args

instance (elves : Text → Option Elf) (args : List Text) (fle secName : Text) (base : Nat) :
    Decidable (StartsAt elves args fle secName base) := inferInstanceAs (Decidable (_ ∈ _))

/-- A symbol of a file stands for a byte of a section, which is placed at `v`. -/
def LabelledAt (elves : Text → Option Elf) (args : List Text) (fle : Text) (s : Symbol) (v : Nat) :
    Prop :=
  ∃ elf secName base, elves fle = some elf ∧ s ∈ elf.labels ∧ s.sec = some secName ∧
    s.offset < (elf.data secName).length ∧ StartsAt elves args fle secName base ∧
    v = base + s.offset

/-- The definition of a symbol of a file, with the symbol that defines it and the place,
which is the `S` of the ABI. -/
inductive DefinitionAt (elves : Text → Option Elf) (args : List Text) (fle : Text) (s : Symbol) :
    Symbol → Nat → Prop where
  /-- The symbol of a section. -/
  | ofSection {base : Nat} : s.sec = some s.name → s.offset = 0 →
      StartsAt elves args fle s.name base → DefinitionAt elves args fle s s base
  /-- A symbol that the file defines. -/
  | here {v : Nat} : LabelledAt elves args fle s v → DefinitionAt elves args fle s s v
  /-- A symbol that is undefined or weak in the file, and global in another. -/
  | elsewhere {fle' : Text} {t : Symbol} {v : Nat} : s.symbType = .other → t.symbType = .g →
      t.name = s.name → LabelledAt elves args fle' t v → DefinitionAt elves args fle s t v

/-- The symbol is shown with its name, as symbols of default visibility are. -/
def Symbol.Plain (s : Symbol) : Prop := mangle s.shown = mangle s.name

/-- Only the symbol itself has its name, with dots replaced, among the local symbols
and the sections of its object. -/
structure Distinct (elf : Elf) (s : Symbol) : Prop where
  labels : ∀ t ∈ elf.labels, t.symbType = .l → mangle t.shown = mangle s.name →
    s.symbType ≠ .other ∧ s.sec = t.sec ∧ s.offset = t.offset
  sections : ∀ secName ∈ elf.sections.keys, mangle secName = mangle s.name →
    s.symbType ≠ .other ∧ s.sec = some secName ∧ s.offset = 0

theorem objects_fst_nodup {names : List Text} (h : names.Nodup) :
    ((objects files names).map Prod.fst).Nodup := by
  refine h.sublist ?_
  induction names with
  | nil => exact List.Sublist.slnil
  | cons fle names ih =>
      have hnames := ih (List.nodup_cons.mp h).2
      rw [objects, List.filterMap_cons]
      cases files fle with
      | none => exact hnames.cons fle
      | some o => exact hnames.cons_cons fle

theorem mem_objects {names : List Text} {o : Obj} (h : (fle, o) ∈ objects files names) :
    fle ∈ names ∧ files fle = some o := by
  obtain ⟨fle', hfle, h⟩ := List.mem_filterMap.mp h
  obtain ⟨o', ho, heq⟩ := Option.map_eq_some_iff.mp h
  cases heq
  exact ⟨hfle, ho⟩

/-- Lists that are related one by one, cut at any element of the second. -/
theorem forall₂_append_cons {α β : Type} {R : α → β → Prop} {as : List α} {pre : List β} {b : β}
    {post : List β} (h : List.Forall₂ R as (pre ++ b :: post)) :
    ∃ pre' a post', as = pre' ++ a :: post' ∧ List.Forall₂ R pre' pre ∧ R a b := by
  induction pre generalizing as with
  | nil =>
      cases h with
      | cons hab _ => exact ⟨[], _, _, rfl, .nil, hab⟩
  | cons c pre ih =>
      cases h with
      | cons hc hrest =>
          obtain ⟨pre', a, post', rfl, hpre, hab⟩ := ih hrest
          exact ⟨_ :: pre', a, post', rfl, .cons hc hpre, hab⟩

section Links

variable {elves : Text → Option Elf} {args : List Text}
  (hsep : ∀ fle ∈ inputFiles none args, ∀ elf, elves fle = some elf → elf.Separate)

include hsep

variable {base : Nat} {secName fle : Text} {elf : Elf} {s : Symbol} {q : Placed}

/-- A body of a link has the pieces of a section of an ELF object, each at its own
offset. -/
theorem body_pieces {is : List Item}
    (h : BodyAt (objects (elfFiles elves) (inputFiles none args)) base secName fle is) :
    ∃ elf pieces, elves fle = some elf ∧ secName ∈ elf.sections.keys ∧
      elf.SeparateIn secName ∧ elfPieces elf secName = .ok pieces ∧
      List.Forall₂ PieceItem pieces is := by
  obtain ⟨o, ho, hsec⟩ := h.mem
  obtain ⟨hfle, hobj⟩ := mem_objects ho
  obtain ⟨elf, helf, hobj⟩ := Option.bind_eq_some_iff.mp hobj
  obtain ⟨hkey, pieces, hpieces, hitems⟩ := section_items (hsep fle hfle elf helf) hobj hsec
  exact ⟨elf, pieces, helf, hkey, hsep fle hfle elf helf secName hkey, hpieces, hitems⟩

/-- A piece keeps its offset from the start of its section. -/
theorem piece_placed (hstart : StartsAt elves args fle secName base) (helf : elves fle = some elf) :
    ∃ pieces, elfPieces elf secName = .ok pieces ∧ elf.SeparateIn secName ∧
      ∀ pre p post, pieces = pre ++ p :: post → ∃ i, PieceItem p i ∧
        ⟨base + piecesSize pre, fle, .item i⟩ ∈ elfLayout elves args := by
  obtain ⟨is, hbody⟩ := start_mem_layout.mp hstart
  obtain ⟨elf', pieces, helf', -, hsepIn, hpieces, hitems⟩ := body_pieces hsep hbody
  cases helf.symm.trans helf'
  refine ⟨pieces, hpieces, hsepIn, ?_⟩
  rintro pre p post rfl
  obtain ⟨pre', i, post', rfl, hpre, hi⟩ := forall₂_append_cons hitems.flip
  refine ⟨i, hi, ?_⟩
  rw [piecesSize_eq hpre.flip]
  exact item_mem_layout.mpr ⟨base, secName, pre', post', hbody, rfl⟩

theorem label_mem_layout {v : Nat} (h : LabelledAt elves args fle s v) :
    ⟨v, fle, .item (labelItem s)⟩ ∈ elfLayout elves args := by
  obtain ⟨elf, secName, base, helf, hs, hsec, hlt, hstart, rfl⟩ := h
  obtain ⟨pieces, hpieces, hsepIn, hplaced⟩ := piece_placed hsep hstart helf
  obtain ⟨pre, post, hsplit, hpre⟩ := label_placed hpieces hsepIn.apart hs hsec
    (fun r hr => hsepIn.free r hr s hs hsec) hlt
  obtain ⟨i, hi, hmem⟩ := hplaced pre _ post hsplit
  rw [hpre, show i = labelItem s from hi] at hmem
  exact hmem

/-- So does the last entry at an offset. -/
theorem reloc_mem_layout (hstart : StartsAt elves args fle secName base)
    (helf : elves fle = some elf) {r : Reloc} (hr : r ∈ elf.entries secName)
    (hlt : r.offset < (elf.data secName).length)
    (hword : ∀ r' ∈ elf.entries secName, IsWord r'.symbol.name) :
    r.kind.supported = true ∧ ∃ r', lastAt r.offset (elf.entries secName) = some r' ∧
      ∃ sym : Ident, sym.text = mangle r'.symbol.name ∧
        ⟨base + r.offset, fle, .item (.reloc sym r'.addend)⟩ ∈ elfLayout elves args := by
  obtain ⟨pieces, hpieces, hsepIn, hplaced⟩ := piece_placed hsep hstart helf
  obtain ⟨d, hd, -⟩ := elfPieces_ok hpieces
  obtain ⟨r', pre, post, hlast, hsplit, hpre⟩ := field_placed hpieces hsepIn.apart hr hlt
  obtain ⟨i, ⟨sym, addend, rfl, hread⟩, hmem⟩ := hplaced pre _ post hsplit
  obtain ⟨hsym, rfl⟩ := hread (hword r' (lastAt_eq_some hlast).1)
  rw [hpre] at hmem
  exact ⟨(foldlM_addReloc hd).1 r hr, r', hlast, sym, hsym, hmem⟩

/-- A local definition under the name of a distinct symbol is that of the symbol. -/
theorem local_address (helf : elves fle = some elf) (hdistinct : Distinct elf s)
    (hq : q ∈ elfLayout elves args) (hfile : q.file = fle)
    (hname : q.localName? = some (mangle s.name)) :
    s.symbType ≠ .other ∧ ∃ secName base, s.sec = some secName ∧
      StartsAt elves args fle secName base ∧ q.offset = base + s.offset := by
  obtain ⟨v, f, e⟩ := q
  cases hfile
  cases e with
  | start secName =>
      obtain ⟨is, hbody⟩ := start_mem_layout.mp hq
      obtain ⟨elf', -, helf', hkey, -⟩ := body_pieces hsep hbody
      cases helf.symm.trans helf'
      obtain ⟨hbind, hsec, hoff⟩ := hdistinct.sections secName hkey (Option.some.inj hname)
      exact ⟨hbind, secName, v, hsec, hq, by rw [hoff]; rfl⟩
  | item i =>
      obtain ⟨base, secName, pre, post, hbody, rfl⟩ := item_mem_layout.mp hq
      obtain ⟨elf', pieces, helf', -, hsepIn, hpieces, hitems⟩ := body_pieces hsep hbody
      cases helf.symm.trans helf'
      obtain ⟨pre', p, post', rfl, hpre, hi⟩ := forall₂_append_cons hitems
      cases i with
      | localLabel symb =>
          obtain ⟨t, rfl, hl, ht⟩ := hi.localLabel
          obtain ⟨hlabel, htsec, -, hsize⟩ := right_elfPieces hpieces hsepIn.apart pre' _ post' rfl
          obtain ⟨hbind, hsec, hoff⟩ :=
            hdistinct.labels t hlabel hl (ht.trans (Option.some.inj hname))
          have hstart := start_mem_layout.mpr ⟨_, hbody⟩
          refine ⟨hbind, secName, base, hsec.trans htsec, hstart, ?_⟩
          rw [hoff, ← hsize fun r hr => hsepIn.free r hr t hlabel htsec, piecesSize_eq hpre]
          rfl
      | globalLabel symb => cases hname
      | bytes xs => cases hname
      | reloc sym addend => cases hname

/-- The labels of the items have no dots. -/
theorem noDots_elfLayout (hq : q ∈ elfLayout elves args) {symb : Text}
    (hlabel : q.labelName? = some symb) : '.' ∉ symb := by
  obtain ⟨v, fle, e⟩ := q
  cases e with
  | start secName => cases hlabel
  | item i =>
      obtain ⟨base, secName, pre, post, hbody, -⟩ := item_mem_layout.mp hq
      obtain ⟨-, pieces, -, -, -, -, hitems⟩ := body_pieces hsep hbody
      obtain ⟨-, p, -, -, -, hi⟩ := forall₂_append_cons hitems
      cases p with
      | label s =>
          rw [show i = labelItem s from hi, labelItem] at hlabel
          split at hlabel
          · cases hlabel
            exact dot_not_mem_mangle s.shown
          · cases hlabel
            exact dot_not_mem_mangle s.shown
      | bytes xs =>
          rw [show i = .bytes xs from hi] at hlabel
          cases hlabel
      | field f =>
          obtain ⟨sym, addend, rfl, -⟩ := hi
          cases hlabel

omit hsep in
theorem StartsAt.unique (hfiles : (inputFiles none args).Nodup) {base' : Nat}
    (h : StartsAt elves args fle secName base) (h' : StartsAt elves args fle secName base') :
    base = base' := by
  obtain ⟨is, hbody⟩ := start_mem_layout.mp h
  obtain ⟨is', hbody'⟩ := start_mem_layout.mp h'
  exact hbody.unique (objects_fst_nodup hfiles) hbody'

/-- A value found under the local key of a distinct symbol is its definition. -/
theorem local_definition (hfiles : (inputFiles none args).Nodup) (helf : elves fle = some elf)
    (hdistinct : Distinct elf s) {t : Symbol} {S : Nat} (hS : DefinitionAt elves args fle s t S)
    (hq : q ∈ elfLayout elves args) (hkey : q.key? = some (localKey fle (mangle s.name))) :
    q.offset = S := by
  have hdots : ∀ p ∈ elfLayout elves args, ∀ symb ∈ p.labelName?, '.' ∉ symb :=
    fun p hp symb hsymb => noDots_elfLayout hsep hp hsymb
  obtain ⟨hfile, hname⟩ := localName_of_key hdots hq (dot_not_mem_mangle s.name) hkey
  obtain ⟨hbind, secName, base, hsec, hstart, hoff⟩ :=
    local_address hsep helf hdistinct hq hfile hname
  cases hS with
  | ofSection hsec' hzero hstart' =>
      cases hsec.symm.trans hsec'
      rw [hoff, hstart.unique hfiles hstart', hzero, Nat.add_zero]
  | here h =>
      obtain ⟨-, secName', base', -, -, hsec', -, hstart', rfl⟩ := h
      cases hsec.symm.trans hsec'
      rw [hoff, hstart.unique hfiles hstart']
  | elsewhere hother _ _ _ => exact absurd hother hbind

/-- Without a local key the value is found under the name, which has one global
definition. -/
theorem global_definition {dest : Text} {exe : Exe} (h : ld (elfFiles elves) args = .ok (dest, exe))
    {t : Symbol} {S : Nat} (hS : DefinitionAt elves args fle s t S) (hplain : t.Plain)
    (hq : q ∈ elfLayout elves args) (hkey : q.key? = some (mangle s.name))
    (hnone : ∀ q' ∈ elfLayout elves args, q'.key? ≠ some (localKey fle (mangle s.name))) :
    q.offset = S := by
  have hentry : q.entry = .item (.globalLabel (mangle s.name)) := by
    rcases key?_cases hkey with ⟨name, -, hk⟩ | hentry
    · exact absurd (hk ▸ dot_mem_localKey q.file name) (dot_not_mem_mangle s.name)
    · exact hentry
  -- a global label of this name is the one that was found
  have hfound : ∀ {f t v}, t.symbType = .g → mangle t.shown = mangle s.name →
      LabelledAt elves args f t v → q.offset = v := by
    intro f t v hg hname ht
    have hplaced := label_mem_layout hsep ht
    rw [labelItem, if_neg (by rw [hg]; decide), hname] at hplaced
    rw [global_unique h hq hplaced hentry rfl]
  cases hS with
  | ofSection _ _ hstart => exact absurd rfl (hnone _ hstart)
  | here ht =>
      cases hbind : s.symbType with
      | l =>
          have hplaced := label_mem_layout hsep ht
          rw [labelItem, if_pos hbind, show mangle s.shown = mangle s.name from hplain] at hplaced
          exact absurd rfl (hnone _ hplaced)
      | g => exact hfound hbind hplain ht
      | other =>
          obtain ⟨elf, -, -, -, hlabel, -⟩ := ht
          have hother := (List.mem_filter.mp hlabel).2
          simp [hbind] at hother
  | elsewhere _ hg hname ht =>
      exact hfound hg
        ((show mangle t.shown = mangle t.name from hplain).trans (congrArg mangle hname)) ht

end Links

/-! ## The values of the ABI -/

/-- What the ABI stores for a relocation with the symbol at `S`, the addend `A` and
the place `P`. -/
def psabiValue (S : Nat) (A : Int) (P : Nat) : RelocKind → Option Int
  | .pc32 => some (S + A - P)
  | .plt32 => some (S + A - P)
  | .abs32 => some (S + A)
  | .other _ => none

theorem psabiValue_eq_iff {S : Nat} {A : Int} {P : Nat} {kind : RelocKind} {v : Int}
    (hkind : kind.supported = true) :
    psabiValue S A P kind = some (v - P) ↔ v = if kind = .abs32 then S + A + P else S + A := by
  cases kind with
  | pc32 | plt32 =>
      simp only [psabiValue, Option.some.injEq, reduceCtorEq, if_false]
      omega
  | abs32 =>
      simp only [psabiValue, Option.some.injEq, if_true]
      omega
  | other name => cases hkind

/-- The definition that the linker takes for a name in a file: a local one, or the global
one if there is none. -/
def Resolves (elves : Text → Option Elf) (args : List Text) (fle name : Text) (q : Placed) : Prop :=
  q ∈ elfLayout elves args ∧ (q.key? = some (localKey fle name) ∨
    q.key? = some name ∧ ∀ q' ∈ elfLayout elves args, q'.key? ≠ some (localKey fle name))

/-- A disk with one object. -/
def oneFile (elf : Elf) (fle : Text) : Option Elf := if fle = ['a'] then some elf else none

/-- `ld a -o x`. -/
def oneArgs : List Text := [['a'], destFlag, ['x']]

/-- The heading of the relocations of `.text`. -/
def textHeading : Text := "Relocation section '.rela.text'".toList

/-- The symbol `_start`. -/
def startSymbol : Symbol := ⟨.g, some ".text".toList, 0, "_start".toList, .stvDefault⟩

/-- An instruction at `_start` that holds the address of `_start`. -/
def useStart (opcode : UInt8) (kind : RelocKind) (addend : Int) : Elf where
  sections := Dict.set Dict.empty ".text".toList [opcode, 0, 0, 0, 0]
  symbols := [startSymbol]
  relocs := [(textHeading, [⟨1, kind, startSymbol, addend⟩])]
  dotted := by
    intro secName hsec
    rw [show secName = ".text".toList from List.mem_singleton.mp hsec]
    rfl

section UseStart

variable {opcode : UInt8} {kind : RelocKind} {addend : Int}

theorem mem_entries_useStart {secName : Text} {r : Reloc}
    (h : r ∈ (useStart opcode kind addend).entries secName) :
    r = ⟨1, kind, startSymbol, addend⟩ := by
  obtain ⟨block, hblock, hr⟩ := List.mem_flatMap.mp h
  rw [List.mem_singleton.mp (List.mem_filter.mp hblock).1] at hr
  exact List.mem_singleton.mp hr

theorem mem_labels_useStart {s : Symbol} (h : s ∈ (useStart opcode kind addend).labels) :
    s = startSymbol := List.mem_singleton.mp (List.mem_filter.mp h).1

theorem separate_useStart : (useStart opcode kind addend).Separate := by
  intro secName _
  refine ⟨fun r hr r' hr' _ hin => ?_, fun r hr s hs _ hin => ?_⟩
  · cases mem_entries_useStart hr
    cases mem_entries_useStart hr'
    exact Nat.lt_irrefl 1 hin.1
  · cases mem_entries_useStart hr
    cases mem_labels_useStart hs
    exact Nat.not_lt_zero 1 hin.1

theorem distinct_useStart : Distinct (useStart opcode kind addend) startSymbol := by
  refine ⟨fun t ht hl _ => ?_, fun secName hsec hname => ?_⟩
  · cases mem_labels_useStart ht
    cases hl
  · have hne : mangle ".text".toList ≠ mangle startSymbol.name := by decide
    cases List.mem_singleton.mp hsec
    exact absurd hname hne

theorem definition_useStart
    (hstart : StartsAt (oneFile (useStart opcode kind addend)) oneArgs ['a'] ".text".toList 0) :
    DefinitionAt (oneFile (useStart opcode kind addend)) oneArgs ['a'] startSymbol startSymbol 0 :=
  .here ⟨_, _, 0, rfl, List.mem_singleton_self _, rfl, Nat.zero_lt_succ _, hstart, rfl⟩

end UseStart

/-- All relocations of a link hold the values of the ABI. -/
def MeetsAbi (elves : Text → Option Elf) (args : List Text) : Prop :=
  ∀ dest exe image, ld (elfFiles elves) args = .ok (dest, exe) → execImage exe.load = some image →
    ∀ fle elf secName base, elves fle = some elf → StartsAt elves args fle secName base →
      ∀ r ∈ elf.entries secName, r.offset < (elf.data secName).length →
        ∀ t S, DefinitionAt elves args fle r.symbol t S →
          psabiValue S r.addend (base + r.offset) r.kind =
            some (int32 ((image.drop (base + r.offset)).take 4))

/-- The symbol of a global variable `count_0`. -/
def countSymbol : Symbol := ⟨.g, some ".data".toList, 4, "count_0".toList, .stvDefault⟩

/-- A function that reads `count_0`, with a static variable `count.0`. -/
def readCount : Elf where
  sections := (Dict.set Dict.empty ".text".toList [0x8b, 5, 0, 0, 0, 0]).set ".data".toList
    [1, 0, 0, 0, 2, 0, 0, 0]
  symbols := [⟨.l, some ".data".toList, 0, "count.0".toList, .stvDefault⟩, countSymbol]
  relocs := [(textHeading, [⟨2, .pc32, countSymbol, -4⟩])]
  dotted := by decide

theorem not_meetsAbi_useStart : ¬ MeetsAbi (oneFile (useStart 0xbf .abs32 0)) oneArgs := by
  intro h
  have hlink : ld (elfFiles (oneFile (useStart 0xbf .abs32 0))) oneArgs =
      .ok (['x'], ⟨[("_start".toList, 0)], ["🔢: bf ff ff ff ff".toList]⟩) ∧
      StartsAt (oneFile (useStart 0xbf .abs32 0)) oneArgs ['a'] ".text".toList 0 := by
    decide +kernel
  obtain ⟨hld, hstart⟩ := hlink
  have himage : execImage ["🔢: bf ff ff ff ff".toList] = some [0xbf, 0xff, 0xff, 0xff, 0xff] := by
    decide +kernel
  have hr : (⟨1, .abs32, startSymbol, 0⟩ : Reloc) ∈
      (useStart 0xbf .abs32 0).entries ".text".toList := by decide +kernel
  have hvalue := h _ _ _ hld himage ['a'] _ _ 0 rfl hstart _ hr (by decide) _ 0
    (definition_useStart hstart)
  exact absurd hvalue (by decide +kernel)

theorem not_meetsAbi_readCount : ¬ MeetsAbi (oneFile readCount) oneArgs := by
  intro h
  have hlink : ld (elfFiles (oneFile readCount)) oneArgs = .ok (['x'], ⟨[("count_0".toList, 10)],
        ["🔢: 8b 05 00 00 00 00 01 00 00 00 02 00 00 00".toList]⟩) ∧
      StartsAt (oneFile readCount) oneArgs ['a'] ".text".toList 0 ∧
      StartsAt (oneFile readCount) oneArgs ['a'] ".data".toList 6 := by decide +kernel
  obtain ⟨hld, htext, hdata⟩ := hlink
  have himage : execImage ["🔢: 8b 05 00 00 00 00 01 00 00 00 02 00 00 00".toList] =
      some [0x8b, 5, 0, 0, 0, 0, 1, 0, 0, 0, 2, 0, 0, 0] := by decide +kernel
  have hr : (⟨2, .pc32, countSymbol, -4⟩ : Reloc) ∈ readCount.entries ".text".toList := by
    decide +kernel
  have hcount : DefinitionAt (oneFile readCount) oneArgs ['a'] countSymbol countSymbol 10 :=
    .here ⟨_, _, 6, rfl, by decide +kernel, rfl, by decide, hdata, rfl⟩
  have hvalue := h _ _ _ hld himage ['a'] _ _ 0 rfl htext _ hr (by decide) _ 10 hcount
  exact absurd hvalue (by decide +kernel)

end OsCourse.Fle
