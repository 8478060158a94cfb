import OsCourse.Fle.Elf
import OsCourse.Fle.Layout
import Mathlib.Data.List.Forall2

/-!
# The pieces of a section

The loop of `elf_to_fle` over the bytes of a section.  After `n` bytes the pieces
and the bytes that are held take `n` bytes, and those of the current field that are
still to be skipped (`Scan.Good`).  So a label or a relocation that comes while
nothing is skipped is placed at its own offset.  In a section where no field starts
inside of another (`Apart`) this holds for all fields, and for the labels that are not
inside of a field (`right_elfPieces`).  No label and no field that has a byte in the
section is lost, and each piece is read back as one item that takes the same room
(`section_items`, `PieceItem.size_eq`).
-/

namespace OsCourse.Fle

/-! ## Fields of entries -/

variable {elf : Elf} {secName : Text} {p : Piece} {is : List Item}

section
variable {d : Dict Nat RelocField} (hd : relocations elf secName = .ok d)

include hd

/-- The field at an offset is that of the last entry there. -/
theorem eq_field {k : Nat} {f : RelocField} (hf : d.get? k = some f) :
    ∃ r ∈ elf.entries secName, r.offset = k ∧ lastAt k (elf.entries secName) = some r ∧
      f = r.field := by
  rw [relocations_get? hd] at hf
  obtain ⟨r, hr, rfl⟩ := Option.map_eq_some_iff.mp hf
  obtain ⟨hmem, hoff⟩ := lastAt_eq_some hr
  exact ⟨r, hmem, hoff, hr, rfl⟩

/-- Every entry leaves a field at its offset, its own or that of a later entry. -/
theorem exists_field {r : Reloc} (hr : r ∈ elf.entries secName) :
    ∃ r', lastAt r.offset (elf.entries secName) = some r' ∧ d.get? r.offset = some r'.field := by
  obtain ⟨r', hlast⟩ := exists_lastAt hr
  exact ⟨r', hlast, by rw [relocations_get? hd, hlast]; rfl⟩

end

/-- The offset is inside of the field of the entry. -/
def Reloc.Inside (r : Reloc) (x : Nat) : Prop := r.offset < x ∧ x < r.offset + 4

instance (r : Reloc) (x : Nat) : Decidable (r.Inside x) := inferInstanceAs (Decidable (_ ∧ _))

/-- No entry below an offset is inside of the field of another. -/
def Apart (entries : List Reloc) (size : Nat) : Prop :=
  ∀ r ∈ entries, ∀ r' ∈ entries, r'.offset < size → ¬ r.Inside r'.offset

instance (entries : List Reloc) (size : Nat) : Decidable (Apart entries size) :=
  inferInstanceAs (Decidable (∀ r ∈ entries, _))

/-! ## The room of pieces -/

/-- The room of a piece. -/
def Piece.size : Piece → Nat
  | .label _ => 0
  | .bytes xs => xs.length
  | .field _ => 4

/-- The room of pieces. -/
def piecesSize (ps : List Piece) : Nat := (ps.map Piece.size).sum

theorem piecesSize_append (ps qs : List Piece) :
    piecesSize (ps ++ qs) = piecesSize ps + piecesSize qs := by
  rw [piecesSize, List.map_append, List.sum_append]
  rfl

theorem piecesSize_concat (ps : List Piece) (p : Piece) :
    piecesSize (ps ++ [p]) = piecesSize ps + p.size := piecesSize_append ps [p]

/-! ## The loop -/

section Scan

variable {symbols : List Symbol} {relocations : Dict Nat RelocField} {n : Nat} {l : Scan}

theorem Scan.dump_holding (l : Scan) : l.dump.holding = [] := by
  rw [Scan.dump]
  split
  next h => exact h
  next => rfl

theorem Scan.dump_skip (l : Scan) : l.dump.skip = l.skip := by
  rw [Scan.dump]
  split <;> rfl

/-- What every label keeps, the labels of an offset keep. -/
theorem Scan.addLabels_induction {P : Scan → Prop} (hl : P l)
    (hadd : ∀ l s, s ∈ symbols → s.sec = some secName → s.offset = n → P l →
      P (l.append (.label s))) : P (l.addLabels secName symbols n) := by
  refine List.foldlRecOn symbols (motive := P) _ hl fun l hl s hs => ?_
  rw [Scan.addLabel]
  split
  next hat => exact hadd l s hs hat.1 hat.2 hl
  next => exact hl

/-- A byte is skipped, or held until the bytes are written. -/
theorem Scan.addByte_induction {P : Scan → Prop} (b : UInt8) (hdump : ∀ l, P l → P l.dump)
    (hskip : 0 < l.skip → P { l with skip := l.skip - 1 })
    (hhold : l.skip = 0 → P { l with holding := l.holding ++ [b] }) : P (l.addByte b) := by
  rw [Scan.addByte]
  split
  next h => exact hskip h
  next h =>
    have hheld := hhold (by omega)
    simp only
    split
    · exact hdump _ hheld
    · exact hheld

/-- What every step keeps, the loop keeps. -/
theorem Scan.run_induction {P : Nat → Scan → Prop} {data : List UInt8} (hl : P 0 l)
    (hstep : ∀ n l b, data[n]? = some b → P n l →
      P (n + 1) (l.step secName symbols relocations (b, n))) :
    P data.length (data.zipIdx.foldl (Scan.step secName symbols relocations) l) := by
  induction data using List.reverseRecOn with
  | nil => exact hl
  | append_singleton data b ih =>
      have hrun := ih fun n l b hb => hstep n l b
        ((List.getElem?_append_left (List.getElem?_eq_some_iff.mp hb).1).trans hb)
      rw [List.zipIdx_append, List.foldl_append, List.length_append, Nat.zero_add]
      exact hstep _ _ b List.getElem?_concat_length hrun

/-- The room of the pieces and of the bytes that are held. -/
def Scan.room (l : Scan) : Nat := piecesSize l.res + l.holding.length

theorem Scan.room_dump (l : Scan) : l.dump.room = l.room := by
  rw [Scan.dump]
  split
  next => rfl
  next =>
    rw [Scan.room, piecesSize_concat, List.length_nil, Nat.add_zero]
    rfl

theorem Scan.size_dump (l : Scan) : piecesSize l.dump.res = l.room := by
  rw [← l.room_dump, Scan.room, l.dump_holding, List.length_nil, Nat.add_zero]

theorem Scan.room_append (l : Scan) (p : Piece) : (l.append p).room = l.room + p.size := by
  rw [← l.size_dump, Scan.room, Scan.append, piecesSize_concat, l.dump_holding, List.length_nil,
    Nat.add_zero]

/-- Labels take no room. -/
theorem Scan.room_addLabels (secName : Text) (symbols : List Symbol) (n : Nat) (l : Scan) :
    (l.addLabels secName symbols n).room = l.room ∧
      (l.addLabels secName symbols n).skip = l.skip :=
  Scan.addLabels_induction (P := fun l' : Scan => l'.room = l.room ∧ l'.skip = l.skip) ⟨rfl, rfl⟩
    fun l' s _ _ _ hl => ⟨(l'.room_append (.label s)).trans hl.1, l'.dump_skip.trans hl.2⟩

theorem Scan.skip_addByte (b : UInt8) (l : Scan) : (l.addByte b).skip = l.skip - 1 :=
  Scan.addByte_induction (P := fun l' : Scan => l'.skip = l.skip - 1) b
    (fun l' hl => l'.dump_skip.trans hl) (fun _ => rfl) fun h => by simp [h]

theorem Scan.room_addByte (b : UInt8) (l : Scan) :
    (l.addByte b).room = l.room + if l.skip = 0 then 1 else 0 := by
  refine Scan.addByte_induction
    (P := fun l' : Scan => l'.room = l.room + if l.skip = 0 then 1 else 0) b
    (fun l' hl => l'.room_dump.trans hl) (fun h => ?_) fun h => ?_
  · rw [if_neg h.ne']
    rfl
  · rw [if_pos h, Scan.room, List.length_append]
    rfl

end Scan

/-! ## Where the pieces stand -/

/-- The bytes of a section. -/
def Elf.data (elf : Elf) (secName : Text) : List UInt8 := (elf.sections.get? secName).getD []

/-- A piece after the pieces `pre` stands at its own offset, if it is a label that is not
inside of a field, or a field. -/
def Right (elf : Elf) (secName : Text) (pre : List Piece) : Piece → Prop
  | .label s => s ∈ elf.labels ∧ s.sec = some secName ∧ s.offset < (elf.data secName).length ∧
      ((∀ r ∈ elf.entries secName, ¬ r.Inside s.offset) → piecesSize pre = s.offset)
  | .bytes _ => True
  | .field f => ∃ r, lastAt (piecesSize pre) (elf.entries secName) = some r ∧ f = r.field

/-- All pieces stand at their own offsets. -/
def AllRight (elf : Elf) (secName : Text) (ps : List Piece) : Prop :=
  ∀ pre p post, ps = pre ++ p :: post → Right elf secName pre p

theorem AllRight.concat {ps : List Piece} (h : AllRight elf secName ps)
    (hp : Right elf secName ps p) : AllRight elf secName (ps ++ [p]) := by
  intro pre q post heq
  rcases List.eq_nil_or_concat post with rfl | ⟨post', x, rfl⟩
  · obtain ⟨rfl, hq⟩ := List.append_inj' heq rfl
    cases hq
    exact hp
  · rw [List.concat_eq_append, ← List.cons_append, ← List.append_assoc] at heq
    obtain ⟨hps, -⟩ := List.append_inj' heq rfl
    exact h pre q post' hps

/-- The invariant of the loop after `n` bytes.  A field whose bytes are skipped
starts below `bound`. -/
structure Scan.Good (elf : Elf) (secName : Text) (bound n : Nat) (l : Scan) : Prop where
  room_eq : l.room = n + l.skip
  right : AllRight elf secName l.res
  inside : l.skip = 0 ∨ ∃ r ∈ elf.entries secName, r.offset < bound ∧ n + l.skip = r.offset + 4

section Good

variable {d : Dict Nat RelocField} {bound n : Nat} {l : Scan}

theorem Scan.right_dump (h : AllRight elf secName l.res) : AllRight elf secName l.dump.res := by
  rw [Scan.dump]
  split
  next => exact h
  next => exact h.concat trivial

/-- While nothing is skipped the next piece is placed at the current offset. -/
theorem Scan.Good.size_dump (h : l.Good elf secName bound n) (hskip : l.skip = 0) :
    piecesSize l.dump.res = n := by
  rw [l.size_dump, h.room_eq, hskip, Nat.add_zero]

/-- At an offset that is not inside of a field nothing is skipped. -/
theorem Scan.Good.skip_eq_zero (h : l.Good elf secName n n)
    (hfree : ∀ r ∈ elf.entries secName, ¬ r.Inside n) : l.skip = 0 := by
  rcases h.inside with hskip | ⟨r, hr, hlt, heq⟩
  · exact hskip
  · by_contra hne
    exact hfree r hr ⟨hlt, by omega⟩

theorem Scan.Good.addLabels (hn : n < (elf.data secName).length) (h : l.Good elf secName n n) :
    (l.addLabels secName elf.labels n).Good elf secName n n := by
  refine Scan.addLabels_induction h fun l s hs hsec hoff h => ⟨?_, ?_, ?_⟩
  · rw [l.room_append, h.room_eq]
    exact congrArg (n + ·) l.dump_skip.symm
  · refine (Scan.right_dump h.right).concat ⟨hs, hsec, hoff ▸ hn, fun hfree => ?_⟩
    rw [hoff] at hfree ⊢
    exact h.size_dump (h.skip_eq_zero hfree)
  · rw [show (l.append (.label s)).skip = l.skip from l.dump_skip]
    exact h.inside

theorem Scan.Good.addByte (b : UInt8) (h : l.Good elf secName (n + 1) n) :
    (l.addByte b).Good elf secName (n + 1) (n + 1) := by
  have hroom := h.room_eq
  refine ⟨?_, ?_, ?_⟩
  · rw [Scan.room_addByte, Scan.skip_addByte]
    split <;> omega
  · exact Scan.addByte_induction (P := fun l' : Scan => AllRight elf secName l'.res) b
      (fun _ hl => Scan.right_dump hl) (fun _ => h.right) fun _ => h.right
  · rw [Scan.skip_addByte]
    rcases h.inside with h0 | ⟨r, hr, hlt, heq⟩
    · exact .inl (by omega)
    · by_cases h0 : l.skip = 0
      · exact .inl (by omega)
      · exact .inr ⟨r, hr, hlt, by omega⟩

variable (hd : relocations elf secName = .ok d)
  (hapart : Apart (elf.entries secName) (elf.data secName).length)

include hd hapart

/-- Nothing is skipped where a field starts. -/
theorem Scan.Good.skip_of_field (hn : n < (elf.data secName).length)
    (h : l.Good elf secName n n) {f : RelocField} (hf : d.get? n = some f) : l.skip = 0 := by
  obtain ⟨r, hr, rfl, -⟩ := eq_field hd hf
  exact h.skip_eq_zero fun r' hr' => hapart r' hr' r hr hn

theorem Scan.Good.addField (hn : n < (elf.data secName).length) (h : l.Good elf secName n n) :
    (l.addField d n).Good elf secName (n + 1) n := by
  rw [Scan.addField]
  cases hf : d.get? n with
  | none =>
      refine ⟨h.room_eq, h.right, h.inside.imp_right fun hin => ?_⟩
      obtain ⟨r, hr, hlt, heq⟩ := hin
      exact ⟨r, hr, Nat.lt_succ_of_lt hlt, heq⟩
  | some f =>
      have hskip := h.skip_of_field hd hapart hn hf
      have hsize := h.size_dump hskip
      obtain ⟨r, hr, hoff, hlast, rfl⟩ := eq_field hd hf
      refine ⟨?_, (Scan.right_dump h.right).concat ⟨r, by rw [hsize]; exact hlast, rfl⟩,
        Or.inr ⟨r, hr, by omega, by rw [hoff]; rfl⟩⟩
      have hroom := l.room_append (.field r.field)
      rw [h.room_eq, hskip] at hroom
      exact hroom

omit hd hapart in
/-- The loop starts with nothing. -/
theorem Scan.Good.start : (⟨[], 0, []⟩ : Scan).Good elf secName 0 0 := by
  refine ⟨rfl, fun pre p post heq => ?_, Or.inl rfl⟩
  cases pre <;> cases heq

/-- The loop keeps its invariant. -/
theorem Scan.Good.run :
    ((elf.data secName).zipIdx.foldl (Scan.step secName elf.labels d) ⟨[], 0, []⟩).Good elf secName
      (elf.data secName).length (elf.data secName).length := by
  refine Scan.run_induction (P := fun n l => l.Good elf secName n n) Scan.Good.start
    fun n l b hb h => ?_
  have hn := (List.getElem?_eq_some_iff.mp hb).1
  exact ((h.addLabels hn).addField hd hapart hn).addByte b

end Good

/-! ## Nothing is lost -/

section Scan

variable {symbols : List Symbol} {relocations : Dict Nat RelocField} {n : Nat} {l : Scan}

theorem Scan.res_dump (l : Scan) : l.res <+: l.dump.res := by
  rw [Scan.dump]
  split
  · exact List.prefix_rfl
  · exact List.prefix_append ..

theorem Scan.res_append (l : Scan) (p : Piece) : l.res <+: (l.append p).res :=
  l.res_dump.trans (List.prefix_append ..)

theorem Scan.res_addLabels (n : Nat) (l : Scan) (ss : List Symbol) :
    l.res <+: (l.addLabels secName ss n).res :=
  Scan.addLabels_induction (P := fun l' : Scan => l.res <+: l'.res) List.prefix_rfl
    fun l' _ _ _ _ hl => hl.trans (l'.res_append _)

theorem Scan.res_addField (n : Nat) (l : Scan) : l.res <+: (l.addField relocations n).res := by
  rw [Scan.addField]
  split
  · exact l.res_append _
  · exact List.prefix_rfl

theorem Scan.res_addByte (b : UInt8) (l : Scan) : l.res <+: (l.addByte b).res :=
  Scan.addByte_induction (P := fun l' : Scan => l.res <+: l'.res) b
    (fun l' hl => hl.trans l'.res_dump) (fun _ => List.prefix_rfl) fun _ => List.prefix_rfl

theorem Scan.res_step (l : Scan) (x : UInt8 × Nat) :
    l.res <+: (l.step secName symbols relocations x).res :=
  ((l.res_addLabels x.2 symbols).trans (Scan.res_addField x.2 _)).trans (Scan.res_addByte x.1 _)

theorem Scan.mem_addLabels {s : Symbol} (hs : s ∈ symbols)
    (hat : s.sec = some secName ∧ s.offset = n) :
    .label s ∈ (l.addLabels secName symbols n).res := by
  obtain ⟨a, b, hsplit⟩ := List.append_of_mem hs
  rw [Scan.addLabels, hsplit, List.foldl_append, List.foldl_cons]
  refine (Scan.res_addLabels n _ b).subset ?_
  rw [Scan.addLabel, if_pos hat]
  exact List.mem_append_right _ (List.mem_singleton_self _)

theorem Scan.mem_addField {f : RelocField} (hf : relocations.get? n = some f) :
    .field f ∈ (l.addField relocations n).res := by
  rw [Scan.addField, hf]
  exact List.mem_append_right _ (List.mem_singleton_self _)

/-- What is appended at the offset of some byte is among the pieces. -/
theorem Scan.mem_run {i : Nat}
    (hadd : ∀ l : Scan, p ∈ ((l.addLabels secName symbols i).addField relocations i).res)
    {data : List UInt8} (hlt : i < data.length) :
    p ∈ (data.zipIdx.foldl (Scan.step secName symbols relocations) l).res := by
  refine Scan.run_induction (P := fun n l => i < n → p ∈ l.res)
    (fun h => absurd h (Nat.not_lt_zero i)) (fun n l b _ h hi => ?_) hlt
  rcases Nat.lt_succ_iff_lt_or_eq.mp hi with hi | rfl
  · exact (l.res_step _).subset (h hi)
  · exact (Scan.res_addByte b _).subset (hadd l)

end Scan

/-! ## The pieces of an object -/

/-- Nothing is inside of a field of the section. -/
structure Elf.SeparateIn (elf : Elf) (secName : Text) : Prop where
  apart : Apart (elf.entries secName) (elf.data secName).length
  free : ∀ r ∈ elf.entries secName, ∀ s ∈ elf.labels, s.sec = some secName → ¬ r.Inside s.offset

/-- Nothing is inside of a field in any section of the object. -/
def Elf.Separate (elf : Elf) : Prop := ∀ secName ∈ elf.sections.keys, elf.SeparateIn secName

section Pieces

variable {pieces : List Piece} (h : elfPieces elf secName = .ok pieces)

include h

theorem elfPieces_ok :
    ∃ d, relocations elf secName = .ok d ∧ pieces = ((elf.data secName).zipIdx.foldl
      (Scan.step secName elf.labels d) ⟨[], 0, []⟩).dump.res := by
  obtain ⟨d, hd, h⟩ := bind_ok h
  exact ⟨d, hd, (Except.ok.inj h).symm⟩

/-- In a section with separate fields all pieces stand at their own offsets. -/
theorem right_elfPieces (hapart : Apart (elf.entries secName) (elf.data secName).length) :
    AllRight elf secName pieces := by
  obtain ⟨d, hd, rfl⟩ := elfPieces_ok h
  exact Scan.right_dump (Scan.Good.run hd hapart).right

/-- The label of a symbol that has a byte in the section is among the pieces. -/
theorem label_mem_elfPieces {s : Symbol} (hs : s ∈ elf.labels) (hsec : s.sec = some secName)
    (hlt : s.offset < (elf.data secName).length) : .label s ∈ pieces := by
  obtain ⟨d, -, rfl⟩ := elfPieces_ok h
  refine (Scan.res_dump _).subset (Scan.mem_run (fun l => ?_) hlt)
  exact (Scan.res_addField _ _).subset (Scan.mem_addLabels hs ⟨hsec, rfl⟩)

/-- With separate fields, the field of the last entry at an offset stands at that offset. -/
theorem field_placed (hapart : Apart (elf.entries secName) (elf.data secName).length) {r : Reloc}
    (hr : r ∈ elf.entries secName) (hlt : r.offset < (elf.data secName).length) :
    ∃ r' pre post, lastAt r.offset (elf.entries secName) = some r' ∧
      pieces = pre ++ .field r'.field :: post ∧ piecesSize pre = r.offset := by
  obtain ⟨d, hd, heq⟩ := elfPieces_ok h
  obtain ⟨r', hlast, hf⟩ := exists_field hd hr
  have hmem : .field r'.field ∈ pieces := by
    rw [heq]
    exact (Scan.res_dump _).subset (Scan.mem_run (fun l => Scan.mem_addField hf) hlt)
  obtain ⟨pre, post, hsplit⟩ := List.append_of_mem hmem
  obtain ⟨r'', hlast', heq⟩ := right_elfPieces h hapart pre _ post hsplit
  refine ⟨r', pre, post, hlast, hsplit, ?_⟩
  rw [← (lastAt_eq_some hlast').2, ← (lastAt_eq_some hlast).2]
  exact congrArg Reloc.offset (congrArg RelocField.origin heq).symm

/-- A label that is not inside of a field stands at its own offset. -/
theorem label_placed (hapart : Apart (elf.entries secName) (elf.data secName).length) {s : Symbol}
    (hs : s ∈ elf.labels) (hsec : s.sec = some secName)
    (hfree : ∀ r ∈ elf.entries secName, ¬ r.Inside s.offset)
    (hlt : s.offset < (elf.data secName).length) :
    ∃ pre post, pieces = pre ++ .label s :: post ∧ piecesSize pre = s.offset := by
  obtain ⟨pre, post, hsplit⟩ := List.append_of_mem (label_mem_elfPieces h hs hsec hlt)
  exact ⟨pre, post, hsplit, (right_elfPieces h hapart pre _ post hsplit).2.2.2 hfree⟩

end Pieces

/-! ## The items of an object -/

/-- What a piece is read as. -/
def PieceItem : Piece → Item → Prop
  | .label s, i => i = labelItem s
  | .bytes xs, i => i = .bytes xs
  | .field f, i => ∃ sym addend, i = .reloc sym addend ∧
      (IsWord f.origin.symbol.name →
        sym.text = mangle f.origin.symbol.name ∧ addend = f.origin.addend)

theorem PieceItem.size_eq {i : Item} (h : PieceItem p i) :
    (Entry.item i).size = p.size := by
  cases p with
  | label s =>
      rw [show i = labelItem s from h, labelItem]
      split <;> rfl
  | bytes xs =>
      rw [show i = .bytes xs from h]
      rfl
  | field f =>
      obtain ⟨sym, addend, rfl, -⟩ := h
      rfl

/-- A local label comes from a local symbol. -/
theorem PieceItem.localLabel {symb : Text} (h : PieceItem p (.localLabel symb)) :
    ∃ s, p = .label s ∧ s.symbType = .l ∧ mangle s.shown = symb := by
  cases p with
  | label s =>
      have hitem : .localLabel symb = labelItem s := h
      rw [labelItem] at hitem
      split at hitem
      next hl =>
        cases hitem
        exact ⟨s, rfl, hl, rfl⟩
      next => cases hitem
  | bytes xs => cases h
  | field f =>
      obtain ⟨sym, addend, h, -⟩ := h
      cases h

/-- The pieces that are read as items take the room of the items. -/
theorem piecesSize_eq {ps : List Piece} (h : List.Forall₂ PieceItem ps is) :
    piecesSize ps = (is.map fun i => (Entry.item i).size).sum := by
  induction h with
  | nil => rfl
  | cons hp _ ih =>
      rw [List.map_cons, List.sum_cons, ← ih, hp.size_eq]
      rfl

theorem readItem_piece {i : Item} (hp : ∀ f, p = .field f → ∃ r, f = Reloc.field r)
    (h : readItem p.text = some i) : PieceItem p i := by
  cases p with
  | label s => exact readItem_label h
  | bytes xs => exact readItem_bytes h
  | field f =>
      obtain ⟨r, rfl⟩ := hp f rfl
      exact readItem_field h

theorem forall₂_readItems {ps : List Piece} (h : readItems (ps.map Piece.text) = some is) :
    List.Forall₂ (fun p i => readItem p.text = some i) ps is := by
  induction ps generalizing is with
  | nil =>
      cases h
      exact .nil
  | cons p ps ih =>
      rw [List.map_cons, readItems] at h
      obtain ⟨i, hi, h⟩ := Option.bind_eq_some_iff.mp h
      obtain ⟨is', his, h⟩ := Option.bind_eq_some_iff.mp h
      cases h
      exact .cons hi (ih his)

theorem readSections_ok {names : List Text} {entries : List (Text × List Item)}
    (h : readSections elf names = some entries) (hmem : (secName, is) ∈ entries) :
    secName ∈ names ∧ ∃ pieces, elfPieces elf secName = .ok pieces ∧
      readItems (pieces.map Piece.text) = some is := by
  induction names generalizing entries with
  | nil =>
      cases h
      cases hmem
  | cons name names ih =>
      rw [readSections] at h
      obtain ⟨texts, htexts, h⟩ := Option.bind_eq_some_iff.mp h
      obtain ⟨is', his, h⟩ := Option.bind_eq_some_iff.mp h
      obtain ⟨others, hothers, h⟩ := Option.bind_eq_some_iff.mp h
      cases h
      rcases List.mem_cons.mp hmem with heq | hmem
      · cases heq
        obtain ⟨pieces, hpieces, rfl⟩ := map_ok (toOption_eq_some.mp htexts)
        exact ⟨List.mem_cons_self .., pieces, hpieces, his⟩
      · exact (ih hothers hmem).imp_left (List.mem_cons_of_mem _)

/-- The items of a section are its pieces, read one after the other. -/
theorem section_items {o : Obj} (hsep : elf.Separate) (h : fleObject elf = some o)
    (hmem : (secName, is) ∈ o.sections) :
    secName ∈ elf.sections.keys ∧
      ∃ pieces, elfPieces elf secName = .ok pieces ∧ List.Forall₂ PieceItem pieces is := by
  obtain ⟨entries, hentries, rfl⟩ := Option.map_eq_some_iff.mp h
  have hget := Dict.get?_eq_some_iff.mpr (List.mem_filter.mp hmem).1
  obtain ⟨hkey, pieces, hpieces, hread⟩ := readSections_ok hentries (Dict.get?_ofList_some hget)
  have hright := right_elfPieces hpieces (hsep secName hkey).apart
  have hexpr : ∀ p ∈ pieces, ∀ f, p = .field f → ∃ r, f = Reloc.field r := by
    rintro p hp f rfl
    obtain ⟨pre, post, hsplit⟩ := List.append_of_mem hp
    obtain ⟨r, -, hr⟩ := hright pre _ post hsplit
    exact ⟨r, hr⟩
  have hread' := (List.forall₂_and_left _ _).mpr ⟨hexpr, forall₂_readItems hread⟩
  exact ⟨hkey, pieces, hpieces, hread'.imp fun p i hpi => readItem_piece hpi.1 hpi.2⟩

end OsCourse.Fle
