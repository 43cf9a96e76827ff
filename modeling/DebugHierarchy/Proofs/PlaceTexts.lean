import DebugHierarchy.Design.SourceLoc
import DebugHierarchy.Proofs.Growing

/-!
What the text of a place tells.

A place is shown as its file, its line and its column, with colons between them. The name of a file
may hold colons and digits of its own, so a reader starts at the end: the column follows the last
colon, and the line stands between the last two. Only a place without a file and a line is shown in
words, and then nobody can tell its column.

* `SourceLoc.ofText`: the place that a text shows;
* `SourceLoc.ofText_text`: what is shown in figures is read back;
* `places_told_apart`: places with one text are the same, unless they have
  neither a file nor a line;
* `columns_not_told_apart`: two places without a file and a line that differ in their columns.
-/

namespace DebugHierarchy

/-- What stands before the last colon, and what follows it. -/
def lastField (cs : List Char) : List Char × List Char :=
  ((cs.reverse.dropWhile (· ≠ ':')).tail.reverse, (cs.reverse.takeWhile (· ≠ ':')).reverse)

/-- Whatever stands before a colon, the colon is the last one if none follows. -/
theorem lastField_append {front field : List Char} (plain : ':' ∉ field) :
    lastField (front ++ ':' :: field) = (front, field) := by
  have digits : ∀ c ∈ field.reverse, decide (c ≠ ':') = true := by
    intro c hc
    rw [decide_eq_true_eq]
    rintro rfl
    exact plain (List.mem_reverse.1 hc)
  have whole : (front ++ ':' :: field).reverse = field.reverse ++ ':' :: front.reverse := by simp
  unfold lastField
  rw [whole, List.dropWhile_append_of_pos digits, List.takeWhile_append_of_pos digits]
  simp

theorem colon_not_mem_toDigits (n : Nat) : ':' ∉ Nat.toDigits 10 n := by
  intro member
  have digit := Nat.isDigit_of_mem_toDigits (by decide) (by decide) member
  exact absurd digit (by decide)

namespace SourceLoc

/-- The place has neither a file nor a line. Nothing is said of its column. -/
def Bare {ν : Type} [Inhabited ν] (l : SourceLoc ν) : Prop := l.file = default ∧ l.line = 0

instance {ν : Type} [Inhabited ν] [DecidableEq ν] (l : SourceLoc ν) : Decidable l.Bare :=
  inferInstanceAs (Decidable (l.file = default ∧ l.line = 0))

/-- The place that a text shows in figures. -/
def ofText (s : String) : SourceLoc String :=
  let (front, column) := lastField s.toList
  let (file, line) := lastField front
  ⟨.ofList file, Nat.ofDigitChars 10 line 0, Nat.ofDigitChars 10 column 0⟩

variable {l a b : SourceLoc String}

theorem text_of_bare (bare : l.Bare) : l.text = "<unknown>" := if_pos bare

theorem text_toList (shown : ¬l.Bare) :
    l.text.toList = (l.file.toList ++ ':' :: Nat.toDigits 10 l.line) ++ ':' ::
      Nat.toDigits 10 l.column := by
  have text : l.text = l.file ++ ":" ++ l.line.repr ++ ":" ++ l.column.repr := if_neg shown
  rw [text]
  simp

/-- What is shown in figures is read back. -/
theorem ofText_text (shown : ¬l.Bare) : ofText l.text = l := by
  unfold ofText
  rw [text_toList shown, lastField_append (colon_not_mem_toDigits l.column)]
  dsimp only
  rw [lastField_append (colon_not_mem_toDigits l.line)]
  simp

theorem text_eq_unknown_iff : l.text = "<unknown>" ↔ l.Bare := by
  constructor
  · intro words
    by_contra shown
    have colon : ':' ∈ l.text.toList := by
      rw [text_toList shown]
      exact List.mem_append_right _ List.mem_cons_self
    rw [words] at colon
    exact absurd colon (by decide)
  · exact text_of_bare

/-- Two places have one text if they are the same, or if both have neither a file nor a line. -/
theorem text_eq_iff : a.text = b.text ↔ a = b ∨ a.Bare ∧ b.Bare := by
  constructor
  · intro same
    by_cases bare : a.Bare
    · have words := text_of_bare bare
      rw [same] at words
      exact .inr ⟨bare, text_eq_unknown_iff.1 words⟩
    · have shown : ¬b.Bare := by
        intro bare'
        rw [text_of_bare bare'] at same
        exact bare (text_eq_unknown_iff.1 same)
      refine .inl ?_
      calc
        a = ofText a.text := (ofText_text bare).symm
        _ = ofText b.text := by rw [same]
        _ = b := ofText_text shown
  · rintro (rfl | ⟨bare, bare'⟩)
    · rfl
    · rw [text_of_bare bare, text_of_bare bare']

end SourceLoc

namespace SourceLoc

variable {names : NameTable} {l a b : SourceLoc Name} {shown : SourceLoc String}

theorem read_eq_ok_iff : l.read names = .ok shown ↔
    names.text l.file = .ok shown.file ∧ shown.line = l.line ∧ shown.column = l.column := by
  simp only [read, resolve, bind_eq_ok_iff]
  constructor
  · rintro ⟨file, text, made⟩
    cases made
    exact ⟨text, rfl, rfl⟩
  · rintro ⟨text, line, column⟩
    exact ⟨shown.file, text, by rw [← line, ← column]; rfl⟩

/-- A place whose file the table has can be shown. -/
theorem exists_read (inside : l.file.index < names.size) : ∃ shown, l.read names = .ok shown := by
  have text : names.text l.file = .ok names.strings[l.file.index] :=
    NameTable.text_eq_ok_iff.2 (List.getElem?_eq_getElem inside)
  exact ⟨⟨_, l.line, l.column⟩, read_eq_ok_iff.2 ⟨text, rfl, rfl⟩⟩

theorem file_eq_of_text {m n : Name} {s : String} (first : names.text m = .ok s)
    (second : names.text n = .ok s) :
    m = n := by
  rw [← NameTable.find?_eq_some_iff] at first second
  exact Option.some.inj (first.symm.trans second)

theorem bare_iff_of_read (read : l.read names = .ok shown) : shown.Bare ↔ l.Bare := by
  obtain ⟨text, line, _⟩ := read_eq_ok_iff.1 read
  unfold Bare
  rw [line]
  refine and_congr_left fun _ => ⟨fun empty => ?_, fun first => ?_⟩
  · rw [empty] at text
    exact file_eq_of_text text (names.text_default)
  · rw [first, names.text_default] at text
    exact (Except.ok.inj text).symm

/-- Two places that are shown alike stand in the table alike. -/
theorem eq_of_read (first : a.read names = .ok shown) (second : b.read names = .ok shown) :
    a = b := by
  obtain ⟨file, line, column⟩ := read_eq_ok_iff.1 first
  obtain ⟨file', line', column'⟩ := read_eq_ok_iff.1 second
  cases a
  cases b
  simp only [mk.injEq]
  exact ⟨file_eq_of_text file file', line.symm.trans line', column.symm.trans column'⟩

theorem isUnknown_iff : l.isUnknown = true ↔ l.Bare ∧ l.column = 0 := by
  rw [isUnknown, decide_eq_true_eq]
  cases l
  simp [unknown, Bare, and_assoc]

end SourceLoc

/-! ### Places told apart -/

/-- **Texts of places.** A place with a file or a line is read back from its text,
whatever its file is called. Only places that have neither are shown in words, and among
those the columns are lost. -/
theorem places_told_apart {names : NameTable} {a b : SourceLoc Name}
    (ha : a.file.index < names.size) (hb : b.file.index < names.size) :
    ∃ x y, a.read names = .ok x ∧ b.read names = .ok y ∧ (x.text = "<unknown>" ↔ a.Bare) ∧
      (a.isUnknown = true ↔ x.text = "<unknown>" ∧ a.column = 0) ∧
      (¬a.Bare → SourceLoc.ofText x.text = x) ∧ (x.text = y.text ↔ a = b ∨ a.Bare ∧ b.Bare) := by
  obtain ⟨x, hx⟩ := SourceLoc.exists_read ha
  obtain ⟨y, hy⟩ := SourceLoc.exists_read hb
  have words : x.text = "<unknown>" ↔ a.Bare :=
    SourceLoc.text_eq_unknown_iff.trans (SourceLoc.bare_iff_of_read hx)
  have unknown : a.isUnknown = true ↔ x.text = "<unknown>" ∧ a.column = 0 := by
    rw [SourceLoc.isUnknown_iff, words]
  have back : ¬a.Bare → SourceLoc.ofText x.text = x := by
    rw [← SourceLoc.bare_iff_of_read hx]
    exact SourceLoc.ofText_text
  refine ⟨x, y, hx, hy, words, unknown, back, ?_⟩
  rw [SourceLoc.text_eq_iff, SourceLoc.bare_iff_of_read hx, SourceLoc.bare_iff_of_read hy]
  refine or_congr_left ⟨?_, ?_⟩
  · rintro rfl
    exact SourceLoc.eq_of_read hx hy
  · rintro rfl
    exact Except.ok.inj (hx.symm.trans hy)

/-- Two files, one of which has a name that looks like a place in the other. -/
def colonFiles : NameTable := NameTable.fresh.addAll ["a.sv", "a.sv:1"]

theorem places_of_colonFiles : 13 < colonFiles.size ∧ 14 < colonFiles.size ∧
    ∃ x y, (⟨⟨13⟩, 1, 23⟩ : SourceLoc Name).read colonFiles = .ok x ∧
      (⟨⟨14⟩, 2, 3⟩ : SourceLoc Name).read colonFiles = .ok y ∧ x.text ≠ y.text := by
  have first : 13 < colonFiles.size := by decide
  have second : 14 < colonFiles.size := by decide
  obtain ⟨x, y, hx, hy, _, _, _, same⟩ :=
    places_told_apart (a := ⟨⟨13⟩, 1, 23⟩) (b := ⟨⟨14⟩, 2, 3⟩) first second
  refine ⟨first, second, x, y, hx, hy, ?_⟩
  rw [ne_eq, same]
  decide

/-- Two places without a file and a line are shown in the same words, though they differ in their
columns and neither is the unknown place. -/
theorem columns_not_told_apart : ∃ (a b : SourceLoc Name) (x y : SourceLoc String),
    a.file.index < NameTable.fresh.size ∧ b.file.index < NameTable.fresh.size ∧
      a.read .fresh = .ok x ∧ b.read .fresh = .ok y ∧ x.text = "<unknown>" ∧ a.isUnknown = false ∧
      x.text = y.text ∧ a ≠ b :=
  ⟨⟨⟨0⟩, 0, 1⟩, ⟨⟨0⟩, 0, 2⟩, ⟨"", 0, 1⟩, ⟨"", 0, 2⟩,
    by decide, by decide, by decide, by decide, by decide,
    by decide, by decide, by decide⟩

end DebugHierarchy
