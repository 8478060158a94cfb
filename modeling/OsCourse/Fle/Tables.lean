import OsCourse.Fle.Elf

/-!
# Relocation tables

`readelf -r` prints the relocation tables one after another, each below a heading that
names its section.  `elf_to_fle` goes over the lines with a flag, which a heading sets
or clears.  The test is whether `.rela` and the name of the section occur in the
heading.

They also occur in the heading of another section whose name begins with that name
(`enabled_heading_iff`), and then the entries of both tables go into one dictionary.  It
still has the right fields if the entries of the other table are at the same offsets and
are overwritten, or say the same (`Undisturbed`).
-/

namespace OsCourse.Fle

/-! ## The lines of `readelf -r` -/

/-- A relocation table. -/
structure RelaTable where
  secName : Text
  offset : Nat
  entries : List Reloc

/-- `'`. -/
def quote : Char := '\x27'

/-- The words of a heading. -/
def sectionText : Text := "Relocation section ".toList

def offsetText : Text := " at offset 0x".toList

def containsText : Text := " contains ".toList

def entriesText (n : Nat) : Text := if n = 1 then " entry:".toList else " entries:".toList

/-- What follows the name in a heading. -/
def RelaTable.position (t : RelaTable) : Text :=
  offsetText ++ hexText t.offset ++ containsText ++ Nat.toDigits 10 t.entries.length ++
    entriesText t.entries.length

/-- The heading of a table. -/
def RelaTable.heading (t : RelaTable) : Text :=
  sectionText ++ quote :: (".rela".toList ++ t.secName ++ quote :: t.position)

/-- A line of the output. -/
inductive RelocLine where
  | heading (text : Text)
  /-- A line that the pattern for entries takes. -/
  | entry (r : Reloc)
  /-- An empty line or the titles of the columns. -/
  | other

/-- The lines of a table. -/
def RelaTable.lines (t : RelaTable) : List RelocLine :=
  .other :: .heading t.heading :: .other :: t.entries.map .entry

/-- The output of `readelf -r`. -/
def readelf (tables : List RelaTable) : List RelocLine := tables.flatMap RelaTable.lines

/-! ## The loop over the lines -/

/-- The body of the loop, with the variables `enabled` and `relocations`. -/
def scanLine (secName : Text) (v : Bool × Dict Nat RelocField) :
    RelocLine → Except CcError (Bool × Dict Nat RelocField)
  | .heading text => .ok (enabled secName text, v.2)
  | .entry r => if v.1 then (addReloc v.2 r).map fun d => (v.1, d) else .ok v
  | .other => .ok v

/-- The dictionary `relocations` after the loop. -/
def scanTables (secName : Text) (tables : List RelaTable) : Except CcError (Dict Nat RelocField) :=
  ((readelf tables).foldlM (scanLine secName) (true, Dict.empty)).map Prod.snd

/-- The entries of the tables that the loop takes. -/
def taken (secName : Text) (tables : List RelaTable) : List Reloc :=
  (tables.filter fun t => enabled secName t.heading).flatMap RelaTable.entries

/-- The entries that are listed for a section. -/
def listed (secName : Text) (tables : List RelaTable) : List Reloc :=
  (tables.filter fun t => t.secName = secName).flatMap RelaTable.entries

/-- The lines of an object make the entries that the conversion uses. -/
theorem entries_eq_taken {elf : Elf} {tables : List RelaTable}
    (h : elf.relocs = tables.map fun t => (t.heading, t.entries)) (secName : Text) :
    elf.entries secName = taken secName tables := by
  rw [Elf.entries, taken, h, List.filter_map, List.flatMap_map]
  rfl

/-- The entries below a heading. -/
theorem foldlM_entries (secName : Text) (rs : List Reloc) (on : Bool) (d : Dict Nat RelocField) :
    (rs.map RelocLine.entry).foldlM (scanLine secName) (on, d) =
      if on then (rs.foldlM addReloc d).map fun d' => (on, d') else .ok (on, d) := by
  induction rs generalizing d with
  | nil => cases on <;> rfl
  | cons r rs ih =>
      rw [List.map_cons, List.foldlM_cons, List.foldlM_cons, scanLine]
      cases on with
      | false => exact ih d
      | true =>
          rw [if_pos rfl]
          cases addReloc d r with
          | error e => rfl
          | ok d' => exact ih d'

/-- Whatever the flag was before, a table is taken if its heading sets it. -/
theorem foldlM_lines (secName : Text) (t : RelaTable) (v : Bool × Dict Nat RelocField) :
    t.lines.foldlM (scanLine secName) v =
      if enabled secName t.heading then
        (t.entries.foldlM addReloc v.2).map fun d => (enabled secName t.heading, d)
      else .ok (enabled secName t.heading, v.2) :=
  foldlM_entries secName t.entries _ v.2

theorem foldlM_readelf (secName : Text) (tables : List RelaTable) (v : Bool × Dict Nat RelocField) :
    ((readelf tables).foldlM (scanLine secName) v).map Prod.snd =
      (taken secName tables).foldlM addReloc v.2 := by
  induction tables generalizing v with
  | nil => rfl
  | cons t tables ih =>
      rw [readelf, List.flatMap_cons, List.foldlM_append, foldlM_lines, taken, List.filter_cons]
      split
      next hon =>
        rw [List.flatMap_cons, List.foldlM_append]
        cases t.entries.foldlM addReloc v.2 with
        | error e => rfl
        | ok d => exact ih (enabled secName t.heading, d)
      next => exact ih (enabled secName t.heading, v.2)

/-! ## Whose entries are taken -/

theorem enabled_own (t : RelaTable) : enabled t.secName t.heading = true := by
  have hinfix : ".rela".toList ++ t.secName <:+: t.heading := by
    refine ⟨sectionText ++ [quote], quote :: t.position, ?_⟩
    simp only [RelaTable.heading, List.append_assoc, List.cons_append, List.nil_append]
  exact decide_eq_true hinfix

theorem taken_of_listed {secName : Text} {tables : List RelaTable} {r : Reloc}
    (h : r ∈ listed secName tables) : r ∈ taken secName tables := by
  obtain ⟨t, ht, hr⟩ := List.mem_flatMap.mp h
  obtain ⟨hmem, hown⟩ := List.mem_filter.mp ht
  have hown : t.secName = secName := of_decide_eq_true hown
  exact List.mem_flatMap.mpr ⟨t, List.mem_filter.mpr ⟨hmem, hown ▸ enabled_own t⟩, hr⟩

/-- The dictionary applies these entries and no others: at each offset a field of four
bytes with the expression of the entry. -/
def Applies (relocations : Dict Nat RelocField) (rs : List Reloc) : Prop :=
  ∀ k skip expr, (∃ f, relocations.get? k = some f ∧ f.skip = skip ∧ f.expr = expr) ↔
    ∃ r ∈ rs, r.offset = k ∧ skip = 4 ∧ expr = r.expr

/-- If the entries that are listed for a section are of supported kinds, the loop makes a
dictionary that applies exactly these. -/
def AppliesListed (secName : Text) (tables : List RelaTable) : Prop :=
  (∀ r ∈ listed secName tables, r.kind.supported = true) →
    ∃ d, scanTables secName tables = .ok d ∧ Applies d (listed secName tables)

/-- If the entries that are listed are of supported kinds, so are all that are taken.
These lie at the offsets of entries that are listed, and the last one at each offset has
the expression of all that are listed there. -/
def Undisturbed (secName : Text) (tables : List RelaTable) : Prop :=
  (∀ r ∈ listed secName tables, r.kind.supported = true) →
    (∀ r ∈ taken secName tables, r.kind.supported = true ∧
      ∃ r' ∈ listed secName tables, r'.offset = r.offset) ∧
    ∀ r ∈ listed secName tables, ∀ r', lastAt r.offset (taken secName tables) = some r' →
      r'.expr = r.expr

theorem scanTables_eq (secName : Text) (tables : List RelaTable) :
    scanTables secName tables = (taken secName tables).foldlM addReloc Dict.empty :=
  foldlM_readelf secName tables (true, Dict.empty)

/-- A call in `.text` and another one in `.text.startup`. -/
def startupTables : List RelaTable :=
  [⟨".text".toList, 0x1b8, [⟨1, .plt32, ⟨.g, none, 0, "setup".toList, .stvDefault⟩, -4⟩]⟩,
    ⟨".text.startup".toList, 0x1d0, [⟨5, .plt32, ⟨.g, none, 0, "begin".toList, .stvDefault⟩, -4⟩]⟩]

/-- An infix that does not have a character lies on one side of it. -/
theorem infix_append_cons_iff {l a b : Text} {c : Char} (hc : c ∉ l) :
    l <:+: a ++ c :: b ↔ l <:+: a ∨ l <:+: b := by
  constructor
  · rintro ⟨p, q, h⟩
    rcases List.append_eq_append_iff.mp h with ⟨m, ha, -⟩ | ⟨m, hpl, hm⟩
    · exact .inl ⟨p, m, ha.symm⟩
    · cases m with
      | nil => exact .inl ⟨p, [], hpl.trans (List.append_nil a) ▸ List.append_nil _⟩
      | cons x m =>
          obtain ⟨rfl, rfl⟩ := List.cons.inj hm
          -- the character is in front of the infix
          rcases List.append_eq_append_iff.mp hpl with ⟨n, -, hn⟩ | ⟨n, -, hn⟩
          · exact absurd (hn ▸ List.mem_append_right n (List.mem_cons_self ..)) hc
          · cases n with
            | nil =>
                have hl : c :: m = l := hn
                exact absurd (hl ▸ List.mem_cons_self ..) hc
            | cons y n =>
                obtain ⟨-, rfl⟩ := List.cons.inj hn
                exact .inr ⟨n, q, rfl⟩
  · rintro (h | h)
    · exact h.trans (List.prefix_append ..).isInfix
    · exact h.trans ((List.suffix_cons ..).trans (List.suffix_append ..)).isInfix

theorem dot_not_mem_position (t : RelaTable) : '.' ∉ t.position := by
  have hhex := dot_not_mem_hexText t.offset
  have hdigits : '.' ∉ Nat.toDigits 10 t.entries.length := by
    intro h
    exact absurd (Nat.isDigit_of_mem_toDigits (by decide) le_rfl h) (by decide)
  have hend : '.' ∉ entriesText t.entries.length := by
    unfold entriesText
    split <;> decide
  simp only [RelaTable.position, List.mem_append, not_or]
  exact ⟨⟨⟨⟨by decide, hhex⟩, by decide⟩, hdigits⟩, hend⟩

/-- A heading is taken for that of a section if the name begins with the section's name,
or if it contains `.rela` and that name. -/
theorem enabled_heading_iff {secName : Text} (hquote : quote ∉ secName) (t : RelaTable) :
    enabled secName t.heading = true ↔
      secName <+: t.secName ∨ ".rela".toList ++ secName <:+: t.secName := by
  have hq : quote ∉ ".rela".toList ++ secName := by
    rw [List.mem_append, not_or]
    exact ⟨by decide, hquote⟩
  have hmem : '.' ∈ ".rela".toList ++ secName := List.mem_append_left _ (by decide)
  have hfront : ¬ ".rela".toList ++ secName <:+: sectionText := fun h =>
    absurd (h.subset hmem) (by decide)
  have hback : ¬ ".rela".toList ++ secName <:+: t.position := fun h =>
    dot_not_mem_position t (h.subset hmem)
  have hheading : ".rela".toList ++ secName <:+: t.heading ↔
      ".rela".toList ++ secName <:+: ".rela".toList ++ t.secName :=
    (infix_append_cons_iff hq).trans ((or_iff_right hfront).trans
      ((infix_append_cons_iff hq).trans (or_iff_left hback)))
  have hon : enabled secName t.heading = true ↔ ".rela".toList ++ secName <:+: t.heading :=
    decide_eq_true_iff
  have hrela : ".rela".toList = ['.', 'r', 'e', 'l', 'a'] := rfl
  rw [hon, hheading, hrela]
  simp [List.infix_cons_iff, List.cons_prefix_cons]

/-- So it is enough that no other section with entries has such a name, and that the
section has no two entries at one offset. -/
theorem undisturbed_of_names {secName : Text} (hquote : quote ∉ secName) {tables : List RelaTable}
    (hnames : ∀ t ∈ tables, t.secName ≠ secName → t.entries ≠ [] →
      ¬ (secName <+: t.secName ∨ ".rela".toList ++ secName <:+: t.secName))
    (hone : ∀ r ∈ listed secName tables, ∀ r' ∈ listed secName tables,
      r'.offset = r.offset → r' = r) : Undisturbed secName tables := by
  have hlisted : ∀ r ∈ taken secName tables, r ∈ listed secName tables := by
    intro r hr
    obtain ⟨t, ht, hr⟩ := List.mem_flatMap.mp hr
    obtain ⟨hmem, hon⟩ := List.mem_filter.mp ht
    have hown : t.secName = secName := by
      by_contra hne
      exact hnames t hmem hne (List.ne_nil_of_mem hr) ((enabled_heading_iff hquote t).mp hon)
    exact List.mem_flatMap.mpr ⟨t, List.mem_filter.mpr ⟨hmem, decide_eq_true hown⟩, hr⟩
  intro hkinds
  refine ⟨fun r hr => ⟨hkinds r (hlisted r hr), r, hlisted r hr, rfl⟩, fun r hr r' hlast => ?_⟩
  obtain ⟨hr', hoff⟩ := lastAt_eq_some hlast
  rw [hone r hr r' (hlisted r' hr') hoff]

end OsCourse.Fle
