import OsCourse.Fle.Convert

/-!
# What a conversion loses

The loop of `elf_to_fle` runs over the bytes that `objcopy` dumps.  A zero-initialised
section has none, so neither its size nor its labels come out, and a label at the end of a
section is never reached.  A weak symbol has no line that the pattern takes, and the label
of a hidden symbol has another name.

Fields that overlap or that reach behind the end make the items larger than the section
(`apart_of_size`), and a label inside of a field is written behind it.  These are all ways
in which something is lost (`complete_iff_whole`).
-/

namespace OsCourse.Fle

/-! ## Sections of a file -/

/-- A section as the headers of an ELF file describe it. -/
structure Section where
  size : Nat
  /-- The bytes in the file.  A zero-initialised section has none. -/
  content : Option (List UInt8)
  size_eq : ∀ bytes ∈ content, bytes.length = size

/-- `objcopy --dump-section`. -/
def Section.dump (sec : Section) : List UInt8 := sec.content.getD []

/-- An object with the headers of its sections. -/
structure ElfFile extends Elf where
  headers : Text → Section
  dumped : ∀ secName data, sections.get? secName = some data → data = (headers secName).dump

/-- The name of a label. -/
def Marked.label? : Marked → Option Text
  | .globalLabel name => some name
  | .localLabel name => some name
  | _ => none

/-- Every symbol of the section has a label with its name at its offset, and the items take
the size of the section. -/
structure Complete (file : ElfFile) (secName : Text) (items : List Marked) : Prop where
  labels : ∀ s ∈ file.symbols, s.sec = some secName → ∃ pre i post,
    items = pre ++ i :: post ∧ i.label? = some (mangle s.name) ∧ room pre = s.offset
  size : room items = (file.headers secName).size

/-- The section has its bytes in the file, unless it is empty.  Its relocations are of the
kinds that are accepted, and those that start in the section end there and do not overlap.
Each of its symbols lies before its end, not inside of a field, and the pattern takes a
symbol that is shown with its name at its offset. -/
structure ElfFile.Whole (file : ElfFile) (secName : Text) : Prop where
  stored : (file.headers secName).content.isSome = true ∨ (file.headers secName).size = 0
  kinds : ∀ r ∈ file.entries secName, r.kind.supported = true
  apart : Apart (file.entries secName) (file.headers secName).size
  fits : ∀ r ∈ file.entries secName, r.offset < (file.headers secName).size →
    r.offset + 4 ≤ (file.headers secName).size
  inside : ∀ s ∈ file.symbols, s.sec = some secName → s.offset < (file.headers secName).size ∧
    ∀ r ∈ file.entries secName, ¬ r.Inside s.offset
  shown : ∀ s ∈ file.symbols, s.sec = some secName → ∃ t ∈ file.labels, t.sec = some secName ∧
    t.offset = s.offset ∧ mangle t.shown = mangle s.name

theorem Section.length_dump (sec : Section) :
    sec.dump.length = sec.size ↔ sec.content.isSome = true ∨ sec.size = 0 := by
  obtain ⟨size, content, hsize⟩ := sec
  cases content with
  | none => simp [Section.dump, eq_comm]
  | some bytes => simpa [Section.dump] using hsize bytes rfl

variable {secName : Text} {elf : Elf} {pieces : List Piece}

theorem ElfFile.data_eq (file : ElfFile) {data : List UInt8}
    (h : file.sections.get? secName = some data) :
    file.data secName = (file.headers secName).dump := by
  rw [Elf.data, h, Option.getD_some]
  exact file.dumped secName data h

/-! ## The size of the items -/

section
variable {d : Dict Nat RelocField} (hd : relocations elf secName = .ok d)

include hd

/-- A field that starts while bytes are skipped takes their room once more. -/
theorem Scan.room_addField (l : Scan) (n : Nat) :
    (l.addField d n).room + l.skip =
      l.room + (l.addField d n).skip + if (d.get? n).isSome then l.skip else 0 := by
  rw [Scan.addField]
  cases hf : d.get? n with
  | none => simp
  | some f =>
      obtain ⟨r, -, -, -, rfl⟩ := eq_field hd hf
      have happend : ({ l.append (.field r.field) with skip := 4 } : Scan).room = l.room + 4 :=
        l.room_append (.field r.field)
      show ({ l.append (.field r.field) with skip := 4 } : Scan).room + l.skip =
        l.room + 4 + l.skip
      rw [happend]

theorem Scan.room_step (l : Scan) (b : UInt8) (n : Nat) :
    (l.step secName elf.labels d (b, n)).room + l.skip =
      l.room + 1 + (l.step secName elf.labels d (b, n)).skip +
        if (d.get? n).isSome then l.skip else 0 := by
  obtain ⟨hroom, hskip⟩ := l.room_addLabels secName elf.labels n
  have hfield := Scan.room_addField hd (l.addLabels secName elf.labels n) n
  rw [hroom, hskip] at hfield
  rw [Scan.step, Scan.room_addByte, Scan.skip_addByte]
  dsimp only
  by_cases h0 : ((l.addLabels secName elf.labels n).addField d n).skip = 0
  · rw [if_pos h0]
    omega
  · rw [if_neg h0]
    omega

end

/-- The invariant of the loop after `n` bytes, wherever the fields are. -/
structure Scan.Over (elf : Elf) (secName : Text) (n : Nat) (l : Scan) : Prop where
  past : l.Past elf secName n n
  room_le : n + l.skip ≤ l.room
  /-- A field that starts inside of another one makes the room larger. -/
  room_lt : ∀ r ∈ elf.entries secName, ∀ r' ∈ elf.entries secName, r.Inside r'.offset →
    r'.offset < n → n + l.skip < l.room

theorem Scan.Over.step {d : Dict Nat RelocField} (hd : relocations elf secName = .ok d) {l : Scan}
    {n : Nat} (h : l.Over elf secName n) (b : UInt8) :
    (l.step secName elf.labels d (b, n)).Over elf secName (n + 1) := by
  have hroom := Scan.room_step hd l b n
  have hle := h.room_le
  refine ⟨(h.past.addLabels.addField hd).addByte b, ?_, fun r hr r' hr' hin hlt => ?_⟩
  · split at hroom <;> omega
  · rcases Nat.lt_succ_iff_lt_or_eq.mp hlt with hlt | heq
    · have hover := h.room_lt r hr r' hr' hin hlt
      split at hroom <;> omega
    · -- the bytes of the first field are still skipped
      obtain ⟨f, -, hf⟩ := exists_field hd hr'
      rw [← heq, hf, Option.isSome_some, if_pos rfl] at hroom
      have hskip := h.past r hr (heq ▸ hin.1)
      have hend := hin.2
      rw [← heq] at hle hskip ⊢
      omega

/-- If the items are not larger than the section, no field starts inside of another one or
ends behind the section. -/
theorem apart_of_size (h : elfPieces elf secName = .ok pieces)
    (hsize : piecesSize pieces = (elf.data secName).length) :
    Apart (elf.entries secName) (elf.data secName).length ∧
      ∀ r ∈ elf.entries secName, r.offset < (elf.data secName).length →
        r.offset + 4 ≤ (elf.data secName).length := by
  obtain ⟨d, hd, rfl⟩ := elfPieces_ok h
  have hstart : (⟨[], 0, []⟩ : Scan).Over elf secName 0 :=
    ⟨fun r _ hlt => absurd hlt (Nat.not_lt_zero _), le_rfl,
      fun r _ r' _ _ hlt => absurd hlt (Nat.not_lt_zero _)⟩
  have hrun : ((elf.data secName).zipIdx.foldl (Scan.step secName elf.labels d)
      ⟨[], 0, []⟩).Over elf secName (elf.data secName).length :=
    Scan.run_induction (P := fun n l => l.Over elf secName n) hstart fun n l b _ h => h.step hd b
  rw [Scan.size_dump] at hsize
  have hle := hrun.room_le
  constructor
  · intro r hr r' hr' hlt hin
    have hover := hrun.room_lt r hr r' hr' hin hlt
    omega
  · intro r hr hlt
    have hend := hrun.past r hr hlt
    omega

/-! ## The labels -/

/-- Of two pieces one comes first. -/
theorem piecesSize_split {pre pre' post post' : List Piece} {p p' : Piece}
    (h : pre ++ p :: post = pre' ++ p' :: post') :
    piecesSize pre ≤ piecesSize pre' ∨ piecesSize pre' + p'.size ≤ piecesSize pre := by
  rcases List.append_eq_append_iff.mp h with ⟨m, rfl, -⟩ | ⟨m, rfl, hm⟩
  · rw [piecesSize_append]
    exact .inl (Nat.le_add_right ..)
  · cases m with
    | nil => exact .inl (by rw [List.append_nil])
    | cons q m =>
        obtain ⟨rfl, -⟩ := List.cons.inj hm
        rw [piecesSize_append]
        exact .inr (Nat.add_le_add_left (Nat.le_add_right ..) _)

/-- No piece stands inside of a field. -/
theorem not_inside_of_split (h : elfPieces elf secName = .ok pieces)
    (hapart : Apart (elf.entries secName) (elf.data secName).length) {pre post : List Piece}
    {p : Piece} (hsplit : pieces = pre ++ p :: post)
    (hlt : piecesSize pre < (elf.data secName).length) :
    ∀ r ∈ elf.entries secName, ¬ r.Inside (piecesSize pre) := by
  intro r hr hin
  obtain ⟨r', pre', post', -, hsplit', hpre'⟩ := field_placed h hapart hr (hin.1.trans hlt)
  have hsize : (Piece.field r'.field).size = 4 := rfl
  have hin' := hin
  rcases piecesSize_split (hsplit.symm.trans hsplit') with hle | hle
  · have := hin.1
    omega
  · have := hin.2
    omega

/-! ## Nothing is lost -/

section
variable {file : ElfFile} {secName : Text} {pieces : List Piece}
  (hpieces : elfPieces file.toElf secName = .ok pieces)

include hpieces

theorem complete_of_whole (hdata : file.data secName = (file.headers secName).dump)
    (h : file.Whole secName) : Complete file secName (pieces.map Piece.marked) := by
  have hlength : (file.data secName).length = (file.headers secName).size := by
    rw [hdata]
    exact (Section.length_dump _).mpr h.stored
  have hapart : Apart (file.entries secName) (file.data secName).length := hlength ▸ h.apart
  have hcells := cells_elfPieces hpieces hapart (hlength ▸ h.fits)
  refine ⟨fun s hs hsec => ?_, ?_⟩
  · obtain ⟨t, ht, htsec, hoff, hname⟩ := h.shown s hs hsec
    obtain ⟨hlt, hfree⟩ := h.inside s hs hsec
    obtain ⟨pre, post, rfl, hpre⟩ := label_placed hpieces hapart ht htsec
      (by rw [hoff]; exact hfree) (by rw [hoff, hlength]; exact hlt)
    refine ⟨pre.map Piece.marked, t.marked, post.map Piece.marked, by rw [List.map_append]; rfl,
      ?_, by rw [room_marked, hpre, hoff]⟩
    rw [Symbol.marked, ← hname]
    split <;> rfl
  · rw [← length_cells, hcells, List.length_map, List.length_zipIdx, hlength]

omit hpieces in
/-- The label of a symbol is written for a symbol that is shown with its name. -/
theorem label_of_complete (h : Complete file secName (pieces.map Piece.marked)) {s : Symbol}
    (hs : s ∈ file.symbols) (hsec : s.sec = some secName) :
    ∃ t pre post, pieces = pre ++ .label t :: post ∧ mangle t.shown = mangle s.name ∧
      piecesSize pre = s.offset := by
  obtain ⟨pre, i, post, hsplit, hname, hoff⟩ := h.labels s hs hsec
  obtain ⟨pre', rest, hpieces', rfl, hrest⟩ := List.map_eq_append_iff.mp hsplit
  obtain ⟨p, post', rfl, rfl, -⟩ := List.map_eq_cons_iff.mp hrest
  rw [room_marked] at hoff
  cases p with
  | label t =>
      refine ⟨t, pre', post', hpieces', ?_, hoff⟩
      rw [Piece.marked, Symbol.marked] at hname
      split at hname
      · exact Option.some.inj hname
      · exact Option.some.inj hname
  | bytes xs => cases hname
  | field f => cases hname

theorem stored_of_size (hdata : file.data secName = (file.headers secName).dump)
    (hsize : piecesSize pieces = (file.headers secName).size) :
    (file.headers secName).content.isSome = true ∨ (file.headers secName).size = 0 := by
  cases hcontent : (file.headers secName).content with
  | some bytes => exact Or.inl rfl
  | none =>
      -- the loop does not run
      obtain ⟨d, -, rfl⟩ := elfPieces_ok hpieces
      rw [hdata, Section.dump, hcontent] at hsize
      exact Or.inr hsize.symm

theorem whole_of_complete (hdata : file.data secName = (file.headers secName).dump)
    (h : Complete file secName (pieces.map Piece.marked)) : file.Whole secName := by
  have hroom : piecesSize pieces = (file.headers secName).size := by
    rw [← room_marked]
    exact h.size
  have hstored := stored_of_size hpieces hdata hroom
  have hlength : (file.data secName).length = (file.headers secName).size := by
    rw [hdata]
    exact (Section.length_dump _).mpr hstored
  obtain ⟨hapart, hfits⟩ := apart_of_size hpieces (hroom.trans hlength.symm)
  have hright := right_elfPieces hpieces hapart
  -- each symbol that is written has its own label, which cannot stand inside of a field
  have hfree : ∀ t ∈ file.labels, t.sec = some secName → t.offset < (file.data secName).length →
      ∀ r ∈ file.entries secName, ¬ r.Inside t.offset := by
    intro t ht htsec htlt
    obtain ⟨_, pre, post, hsplit, -, hoff⟩ :=
      label_of_complete h (List.mem_filter.mp ht).1 htsec
    rw [← hoff] at htlt ⊢
    exact not_inside_of_split hpieces hapart hsplit htlt
  have hlabel : ∀ s ∈ file.symbols, s.sec = some secName → ∃ t ∈ file.labels,
      t.sec = some secName ∧ t.offset < (file.data secName).length ∧ t.offset = s.offset ∧
        mangle t.shown = mangle s.name := by
    intro s hs hsec
    obtain ⟨t, pre, post, hsplit, hname, hoff⟩ := label_of_complete h hs hsec
    obtain ⟨ht, htsec, htlt, hplace⟩ := hright pre _ post hsplit
    exact ⟨t, ht, htsec, htlt, (hplace (hfree t ht htsec htlt)).symm.trans hoff, hname⟩
  exact {
    stored := hstored
    kinds := supported_of_elfPieces hpieces
    apart := hlength ▸ hapart
    fits := hlength ▸ hfits
    inside := by
      intro s hs hsec
      obtain ⟨t, ht, htsec, htlt, hoff, -⟩ := hlabel s hs hsec
      rw [← hoff, ← hlength]
      exact ⟨htlt, hfree t ht htsec htlt⟩
    shown := by
      intro s hs hsec
      obtain ⟨t, ht, htsec, -, hoff, hname⟩ := hlabel s hs hsec
      exact ⟨t, ht, htsec, hoff, hname⟩ }

end

/-- The conversion of a section writes items from which nothing is missing. -/
def Converts (file : ElfFile) (secName : Text) : Prop :=
  ∃ texts items, elfToFle file.toElf secName = .ok texts ∧ texts.mapM readMarked = some items ∧
    Complete file secName items

theorem Converts.whole {file : ElfFile} (hkey : secName ∈ file.sections.keys)
    (h : Converts file secName) : file.Whole secName := by
  obtain ⟨data, hget⟩ := Dict.mem_keys_iff.mp hkey
  obtain ⟨texts, items, htexts, hitems, hcomplete⟩ := h
  obtain ⟨pieces, hpieces, rfl⟩ := map_ok htexts
  rw [mapM_readMarked, Option.some.injEq] at hitems
  subst hitems
  exact whole_of_complete hpieces (file.data_eq hget) hcomplete

/-- The file of `callPuts`. -/
def callPutsFile : ElfFile where
  toElf := callPuts
  headers := fun _ => ⟨6, some [0xe8, 0, 0, 0, 0, 0xc3], by simp⟩
  dumped := by
    intro secName data hget
    have hsections : callPuts.sections =
        Dict.set Dict.empty ".text".toList [0xe8, 0, 0, 0, 0, 0xc3] := rfl
    rw [hsections, Dict.get?_set] at hget
    split at hget
    · exact (Option.some.inj hget).symm
    · cases hget

/-- An object with one section and one symbol in it, without relocations. -/
def oneSection (secName : Text) (hdot : secName.head? = some '.') (sec : Section) (s : Symbol) :
    ElfFile where
  sections := Dict.set Dict.empty secName sec.dump
  symbols := [s]
  relocs := []
  dotted := by
    intro name hname
    rw [List.mem_singleton.mp hname]
    exact hdot
  headers := fun _ => sec
  dumped := by
    intro name data hget
    rw [Dict.get?_set] at hget
    split at hget
    · exact (Option.some.inj hget).symm
    · cases hget

/-- `ret`, with a symbol at an offset. -/
def leaveFile (symbType : Binding) (offset : Nat) (visibility : Visibility) : ElfFile :=
  oneSection ".text".toList rfl ⟨1, some [0xc3], by simp⟩
    ⟨symbType, some ".text".toList, offset, "leave".toList, visibility⟩

/-- A variable of four zero bytes. -/
def countFile : ElfFile :=
  oneSection ".bss".toList rfl ⟨4, none, by simp⟩
    ⟨.g, some ".bss".toList, 0, "count".toList, .stvDefault⟩

end OsCourse.Fle
