import Assembler.Object.SymbolText
import Assembler.Proofs.Collections.SortedMap
import Assembler.Proofs.Lexical.Lexemes
import Assembler.Proofs.Text.Numerals
import Mathlib.Data.List.TakeWhile

/-! # The symbol file can be read back

A label is followed by a tab and its line ends with a line feed, so a label that has neither of them
is found again as it was written. Nothing else of it matters: the address behind it has digits only,
which are no white space.
-/

namespace Assembler

namespace Text

/-! ### Lines and white space -/

theorem linesFrom_cons {c : Char} (inside : c ≠ '\n') (current rest : List Char) :
    linesFrom current (c :: rest) = linesFrom (c :: current) rest := by
  rw [linesFrom]
  simpa using inside

theorem linesFrom_append {line : List Char} (h : '\n' ∉ line) (current rest : List Char) :
    linesFrom current (line ++ '\n' :: rest) =
      dropReturn (current.reverse ++ line) :: linesFrom [] rest := by
  induction line generalizing current with
  | nil => simp [linesFrom]
  | cons c line ih =>
      obtain ⟨inside, later⟩ := not_or.1 (mt List.mem_cons.2 h)
      rw [List.cons_append, linesFrom_cons (Ne.symm inside), ih later, List.reverse_cons,
        List.append_assoc, List.singleton_append]

theorem lines_flatMap {texts : List (List Char)}
    (h : ∀ line ∈ texts, '\n' ∉ line ∧ line.getLast? ≠ some '\r') :
    lines (texts.flatMap (· ++ ['\n'])) = texts := by
  induction texts with
  | nil => rfl
  | cons line texts ih =>
      obtain ⟨⟨unbroken, plain⟩, others⟩ := List.forall_mem_cons.1 h
      have behind : linesFrom [] (texts.flatMap (· ++ ['\n'])) = texts := ih others
      rw [List.flatMap_cons, List.append_assoc, List.singleton_append, lines,
        linesFrom_append unbroken, behind, List.reverse_nil, List.nil_append, dropReturn,
        if_neg plain]

theorem newline_not_mem_dropReturn {line : List Char} (h : '\n' ∉ line) :
    '\n' ∉ dropReturn line := by
  unfold dropReturn
  split
  · exact fun member => h (List.dropLast_subset line member)
  · exact h

theorem newline_not_mem_linesFrom {current : List Char} (h : '\n' ∉ current) (text : List Char) :
    ∀ line ∈ linesFrom current text, '\n' ∉ line := by
  induction text generalizing current with
  | nil =>
      rw [linesFrom]
      split
      · simp
      · simpa using h
  | cons c text ih =>
      by_cases newline : c = '\n'
      · subst newline
        rw [linesFrom]
        refine List.forall_mem_cons.2 ⟨?_, ih List.not_mem_nil⟩
        exact newline_not_mem_dropReturn (by simpa using h)
      · rw [linesFrom_cons newline]
        exact ih (by simp [h, Ne.symm newline])

theorem newline_not_mem_lines (text : List Char) : ∀ line ∈ lines text, '\n' ∉ line :=
  newline_not_mem_linesFrom List.not_mem_nil text

theorem trim_of_solid {text : List Char} (h : ∀ c ∈ text, isBlank c = false) :
    trim text = text := by
  have front : ∀ {text : List Char}, (∀ c ∈ text, isBlank c = false) →
      text.dropWhile isBlank = text := by
    intro text solid
    exact dropWhile_run (List.forall_mem_nil _) fun c first => solid c (List.mem_of_mem_head? first)
  rw [trim, front h, front fun c member => h c (List.mem_reverse.1 member), List.reverse_reverse]

/-! ### Digits of an address -/

theorem isBlank_of_digitValue? {c : Char} {d : Nat} (h : digitValue? 16 c = some d) :
    isBlank c = false := by
  have le : ∀ {a b : Char}, a ≤ b ↔ a.toNat ≤ b.toNat := Iff.rfl
  have ranges := toNat_digits
  obtain ⟨value, -⟩ := Option.filter_eq_some_iff.1 h
  simp only [le] at value
  have solid : 48 ≤ c.toNat ∧ c.toNat ≤ 102 := by
    split at value
    · omega
    · split at value
      · omega
      · split at value
        · omega
        · cases value
  simp only [isBlank, blankRanges, List.any_cons, List.any_nil, Bool.or_eq_false_iff,
    Bool.and_eq_false_iff, decide_eq_false_iff_not, and_true]
  omega

theorem Numeral.ne_nil {digits : List Char} {n : Nat} (h : Numeral 16 digits n) : digits ≠ [] := by
  rintro rfl
  obtain ⟨ds, filled, digit, -⟩ := h
  cases digit
  exact filled rfl

theorem Numeral.solid {digits : List Char} {n : Nat} (h : Numeral 16 digits n) :
    ∀ c ∈ digits, isBlank c = false := by
  intro c member
  obtain ⟨d, digit⟩ := h.isDigitOf_of_mem c member
  exact isBlank_of_digitValue? ((digitValue?_eq_some_iff (by decide)).2 digit)

/-- No numeral has a sign, which would be skipped. -/
theorem unsigned?_of_numeral {digits : List Char} {limit n : Nat} (h : Numeral 16 digits n)
    (small : n < limit) : unsigned? 16 limit digits = some n := by
  have unsigned : ∀ rest, digits ≠ '+' :: rest := by
    rintro rest rfl
    exact h.not_mem (by decide) (by decide : digitValue? 16 '+' = none) List.mem_cons_self
  have value := (natOfDigits?_eq_some_iff (by decide)).2 h
  unfold unsigned?
  split
  · next rest => exact absurd rfl (unsigned rest)
  · simp only [value, Option.filter_some, decide_eq_true small, if_true]

end Text

namespace SymbolText

/-- A label that the symbol file can show. -/
structure Writable (label : String) : Prop where
  filled : label ≠ ""
  tab : '\t' ∉ label.toList
  newline : '\n' ∉ label.toList

/-- The line of a label, without its line feed. -/
def entryLine (entry : String × UInt32) : List Char :=
  entry.1.toList ++ '\t' :: (Text.upperHex 4 entry.2.toNat).toList

variable {entry : String × UInt32}

theorem toList_write (o : Object) :
    (write o).toList = (o.symbols.toList.map entryLine).flatMap (· ++ ['\n']) := by
  simp [write, entryText, entryLine, String.toList_join, List.flatMap_map]

theorem entry?_entryLine (h : Writable entry.1) : entry? (entryLine entry) = some entry := by
  obtain ⟨label, address⟩ := entry
  have numeral := Text.numeral_upperHex 4 address.toNat
  have front : (entryLine (label, address)).takeWhile (· != '\t') = label.toList := by
    refine takeWhile_run (fun c member => ?_) (by simp)
    simpa using ne_of_mem_of_not_mem member h.tab
  have filled : label.toList.isEmpty = false := by simpa using h.filled
  simp only [ entry?, front]
  rw [entryLine, List.drop_left]
  simp only [filled, Bool.false_eq_true, if_false, Text.trim_of_solid numeral.solid,
    Text.unsigned?_of_numeral numeral address.toNat_lt, Option.map_some, String.ofList_toList,
    UInt32.ofNat_toNat]

/-- The digits of the address keep the line from being blank. -/
theorem all_isBlank_entryLine (entry : String × UInt32) :
    (entryLine entry).all Text.isBlank = false := by
  have numeral := Text.numeral_upperHex 4 entry.2.toNat
  obtain ⟨c, member⟩ := List.exists_mem_of_ne_nil _ numeral.ne_nil
  rw [List.all_eq_false]
  refine ⟨c, List.mem_append_right _ (List.mem_cons_of_mem _ member), ?_⟩
  rw [numeral.solid c member]
  exact Bool.false_ne_true

theorem newline_not_mem_entryLine (h : Writable entry.1) : '\n' ∉ entryLine entry := by
  have digits := (Text.numeral_upperHex 4 entry.2.toNat).not_mem (by decide)
    (by decide : Text.digitValue? 16 '\n' = none)
  simp [entryLine, h.newline, digits]

theorem getLast?_entryLine (entry : String × UInt32) : (entryLine entry).getLast? ≠ some '\r' := by
  have numeral := Text.numeral_upperHex 4 entry.2.toNat
  have digits := numeral.not_mem (by decide) (by decide : Text.digitValue? 16 '\r' = none)
  rcases List.eq_nil_or_concat (Text.upperHex 4 entry.2.toNat).toList with empty | ⟨init, c, same⟩
  · exact absurd empty numeral.ne_nil
  · have line : entryLine entry = entry.1.toList ++ '\t' :: init ++ [c] := by
      simp [entryLine, same]
    rw [line, List.getLast?_concat]
    rintro ⟨⟩
    exact digits (by simp [same])

theorem writable_of_entry? {line : List Char} (h : '\n' ∉ line)
    (read : entry? line = some entry) : Writable entry.1 := by
  unfold entry? at read
  extract_lets label at read
  split at read
  · cases read
  · split at read
    · cases read
    · next filled =>
        obtain ⟨n, -, rfl⟩ := Option.map_eq_some_iff.1 read
        refine ⟨by simpa using filled, ?_, ?_⟩
        · rw [String.toList_ofList]
          exact fun member => by simpa using List.mem_takeWhile_imp member
        · rw [String.toList_ofList]
          exact fun member => h ((List.takeWhile_prefix _).subset member)

theorem readLines_entries {entries : List (String × UInt32)}
    (writable : ∀ entry ∈ entries, Writable entry.1) (distinct : (entries.map (·.1)).Nodup)
    {symbols : SymbolTable} (fresh : ∀ entry ∈ entries, symbols.get? entry.1 = none) :
    readLines symbols (entries.map entryLine) =
      some (entries.foldl (fun m entry => m.insert entry.1 entry.2) symbols) := by
  induction entries generalizing symbols with
  | nil => rfl
  | cons entry entries ih =>
      obtain ⟨here, behind⟩ := List.forall_mem_cons.1 writable
      obtain ⟨new, others⟩ := List.forall_mem_cons.1 fresh
      obtain ⟨first, later⟩ := List.nodup_cons.1 distinct
      have unknown : symbols.contains entry.1 = false := by rw [SortedMap.contains, new]; rfl
      have read := entry?_entryLine here
      simp only [List.map_cons, readLines, all_isBlank_entryLine, read, unknown,
        Bool.false_eq_true, if_false, List.foldl_cons]
      refine ih behind later fun other member => ?_
      have apart : other.1 ≠ entry.1 :=
        ne_of_mem_of_not_mem (List.mem_map_of_mem member) first
      rw [SortedMap.get?_insert, if_neg apart, others other member]

theorem read?_write {o : Object} (h : ∀ label address, o.symbols.get? label = some address →
    Writable label) : read? (write o) = some ⟨o.symbols, []⟩ := by
  have writable : ∀ entry ∈ o.symbols.toList, Writable entry.1 :=
    fun entry member => h entry.1 entry.2 (SortedMap.get?_eq_some_iff.2 member)
  have lines : Text.lines (write o).toList = o.symbols.toList.map entryLine := by
    rw [toList_write]
    refine Text.lines_flatMap fun line member => ?_
    obtain ⟨entry, known, rfl⟩ := List.mem_map.1 member
    exact ⟨newline_not_mem_entryLine (writable entry known), getLast?_entryLine entry⟩
  have fresh : ∀ entry ∈ o.symbols.toList, (SortedMap.empty : SymbolTable).get? entry.1 = none :=
    fun _ _ => rfl
  have read := readLines_entries writable o.symbols.nodup_keys fresh
  rw [read?, lines, read, ← SortedMap.ofList, SortedMap.ofList_toList]
  rfl

theorem writable_of_readLines {lines : List (List Char)} (h : ∀ line ∈ lines, '\n' ∉ line)
    {symbols result : SymbolTable}
    (known : ∀ label address, symbols.get? label = some address → Writable label)
    (read : readLines symbols lines = some result) :
    ∀ label address, result.get? label = some address → Writable label := by
  induction lines generalizing symbols with
  | nil =>
      cases read
      exact known
  | cons line lines ih =>
      obtain ⟨here, behind⟩ := List.forall_mem_cons.1 h
      rw [readLines] at read
      split at read
      · exact ih behind known read
      · split at read
        · cases read
        · next found =>
            split at read
            · cases read
            · refine ih behind (fun label address bound => ?_) read
              rw [SortedMap.get?_insert] at bound
              split at bound
              · next same => exact same ▸ writable_of_entry? here found
              · exact known label address bound

theorem writable_of_read? {text : String} {o : Object} (read : read? text = some o) :
    o.sections = [] ∧ ∀ label address, o.symbols.get? label = some address → Writable label := by
  obtain ⟨symbols, lines, rfl⟩ := Option.map_eq_some_iff.1 read
  exact ⟨rfl, writable_of_readLines (Text.newline_not_mem_lines _) (by simp) lines⟩

end SymbolText

end Assembler
