import Assembler.Proofs.Lexical.Recognition
import Assembler.Proofs.Text.Numerals

/-! # Integer literals have their mathematical value

A literal is put together from a hash, signs, a mark and digits in positional notation. Reading
takes it apart again from the left, and each part can be told from what follows it by its first
character, so every literal is read in one way. The lexical class of integers admits some of the
literals, with marks and signs that depend on the dialect, and all that it admits are literals.
-/

namespace Assembler

namespace Literal

/-- The marks of a hexadecimal literal. -/
def marks : List (List Char) := [['0', 'x'], ['0', 'X'], ['x'], ['X']]

/-- A text is a literal whose digits denote a number. -/
inductive Written : List Char → Nat → Prop where
  | decimal {hash sign digits : List Char} {n : Nat} (front : hash ∈ [[], ['#']])
      (outer : sign ∈ [[], ['-']]) (numeral : Text.Numeral 10 digits n) :
      Written (hash ++ (sign ++ digits)) n
  | hexadecimal {hash sign mark sign' digits : List Char} {n : Nat} (front : hash ∈ [[], ['#']])
      (outer : sign ∈ [[], ['-']]) (marked : mark ∈ marks) (inner : sign' ∈ [[], ['-']])
      (numeral : Text.Numeral 16 digits n) :
      Written (hash ++ (sign ++ (mark ++ (sign' ++ digits)))) n

/-- The text behind a hash. -/
def afterHash : List Char → List Char
  | '#' :: rest => rest
  | text => text

theorem value?_eq (text : List Char) : value? text =
    match afterHexMark? (splitSign (afterHash text)).2 with
    | some rest => (magnitude? 16 (splitSign rest).2).map
        (signed ((splitSign (afterHash text)).1 != (splitSign rest).1))
    | none => (magnitude? 10 (splitSign (afterHash text)).2).map
        (signed (splitSign (afterHash text)).1) := by
  have same : (match text with
      | '#' :: rest => rest
      | _ => text) = afterHash text := by
    unfold afterHash
    split <;> rfl
  rw [← same]
  rfl

variable {text digits rest hash sign mark : List Char} {n : Nat}

theorem mem_optional {c : Char} : text ∈ [[], [c]] ↔ text = [] ∨ text = [c] := by
  simp

/-! ### Parts are told apart by their first characters -/

theorem exists_afterHash (text : List Char) :
    ∃ hash ∈ [[], ['#']], text = hash ++ afterHash text := by
  unfold afterHash
  split
  · exact ⟨['#'], by simp, rfl⟩
  · exact ⟨[], by simp, rfl⟩

theorem afterHash_append (front : hash ∈ [[], ['#']]) (other : rest.head? ≠ some '#') :
    afterHash (hash ++ rest) = rest := by
  rcases mem_optional.1 front with rfl | rfl
  · rw [List.nil_append]
    unfold afterHash
    split
    · exact absurd rfl other
    · rfl
  · rfl

theorem exists_splitSign (text : List Char) :
    ∃ sign ∈ [[], ['-']], text = sign ++ (splitSign text).2 := by
  unfold splitSign
  split
  · exact ⟨['-'], by simp, rfl⟩
  · exact ⟨[], by simp, rfl⟩

theorem splitSign_append (outer : sign ∈ [[], ['-']]) (other : rest.head? ≠ some '-') :
    splitSign (sign ++ rest) = (sign.contains '-', rest) := by
  rcases mem_optional.1 outer with rfl | rfl
  · rw [List.nil_append]
    unfold splitSign
    split
    · exact absurd rfl other
    · rfl
  · rfl

theorem afterHexMark?_eq_some_iff :
    afterHexMark? text = some rest ↔ ∃ mark ∈ marks, text = mark ++ rest := by
  constructor
  · intro h
    unfold afterHexMark? at h
    split at h <;> cases h
    · exact ⟨['0', 'x'], by decide, rfl⟩
    · exact ⟨['0', 'X'], by decide, rfl⟩
    · exact ⟨['x'], by decide, rfl⟩
    · exact ⟨['X'], by decide, rfl⟩
  · rintro ⟨mark, marked, rfl⟩
    simp only [marks, List.mem_cons, List.not_mem_nil, or_false] at marked
    rcases marked with rfl | rfl | rfl | rfl <;> rfl

theorem magnitude?_of_numeral {base : Nat} (small : base ≤ 16) (h : Text.Numeral base digits n) :
    magnitude? base digits = if n < 2 ^ 63 then some n else none := by
  rw [magnitude?, (Text.natOfDigits?_eq_some_iff small).2 h, Option.filter_some]
  simp

theorem numeral_of_magnitude? {base : Nat} (small : base ≤ 16)
    (h : magnitude? base digits = some n) : Text.Numeral base digits n :=
  (Text.natOfDigits?_eq_some_iff small).1 (Option.filter_eq_some_iff.1 h).1

/-- The value of a literal whose digits denote a number: each sign negates it. -/
def valueOf (text : List Char) (n : Nat) : Int := (-1) ^ text.count '-' * n

theorem signed_contains (outer : sign ∈ [[], ['-']]) (n : Nat) :
    signed (sign.contains '-') n = valueOf sign n := by
  rcases mem_optional.1 outer with rfl | rfl <;> simp [signed, valueOf]

theorem signed_contains_contains {sign' : List Char} (outer : sign ∈ [[], ['-']])
    (inner : sign' ∈ [[], ['-']]) (n : Nat) :
    signed (sign.contains '-' != sign'.contains '-') n = valueOf (sign ++ sign') n := by
  rcases mem_optional.1 outer with rfl | rfl <;> rcases mem_optional.1 inner with rfl | rfl <;>
    simp [signed, valueOf]

/-- The other parts of a literal have no sign. -/
theorem valueOf_append {other : List Char} (plain : '-' ∉ other) (n : Nat) :
    valueOf (other ++ text) n = valueOf text n := by
  rw [valueOf, List.count_append, List.count_eq_zero.2 plain, Nat.zero_add, valueOf]

theorem valueOf_append_left {other : List Char} (plain : '-' ∉ other) (n : Nat) :
    valueOf (text ++ other) n = valueOf text n := by
  rw [valueOf, List.count_append, List.count_eq_zero.2 plain, Nat.add_zero, valueOf]

theorem minus_not_mem_hash : ∀ hash ∈ [[], ['#']], '-' ∉ hash := by decide

theorem minus_not_mem_mark : ∀ mark ∈ marks, '-' ∉ mark := by decide

theorem letter_mem_mark : ∀ mark ∈ marks, 'x' ∈ mark ∨ 'X' ∈ mark := by decide

theorem head?_mark (marked : mark ∈ marks) (rest : List Char) :
    (mark ++ rest).head? ≠ some '#' ∧ (mark ++ rest).head? ≠ some '-' := by
  simp only [marks, List.mem_cons, List.not_mem_nil, or_false] at marked
  rcases marked with rfl | rfl | rfl | rfl <;> simp

theorem head?_sign (outer : sign ∈ [[], ['-']]) (other : rest.head? ≠ some '#') :
    (sign ++ rest).head? ≠ some '#' := by
  rcases mem_optional.1 outer with rfl | rfl
  · exact other
  · simp

theorem afterHexMark?_numeral (numeral : Text.Numeral 10 digits n) :
    afterHexMark? digits = none := by
  refine Option.eq_none_iff_forall_not_mem.2 fun rest marked => ?_
  obtain ⟨mark, known, rfl⟩ := afterHexMark?_eq_some_iff.1 marked
  rcases letter_mem_mark mark known with letter | letter
  · exact numeral.not_mem (by decide) (by decide) (List.mem_append_left rest letter)
  · exact numeral.not_mem (by decide) (by decide) (List.mem_append_left rest letter)

theorem value?_of_decimal (front : hash ∈ [[], ['#']]) (outer : sign ∈ [[], ['-']])
    (numeral : Text.Numeral 10 digits n) : value? (hash ++ (sign ++ digits)) =
      if n < 2 ^ 63 then some (valueOf (hash ++ (sign ++ digits)) n) else none := by
  have noHash : '#' ∉ digits := numeral.not_mem (by decide) (by decide)
  have noSign : '-' ∉ digits := numeral.not_mem (by decide) (by decide)
  rw [valueOf_append (minus_not_mem_hash hash front), valueOf_append_left noSign, value?_eq,
    afterHash_append front (head?_sign outer (mt List.mem_of_head? noHash)),
    splitSign_append outer (mt List.mem_of_head? noSign)]
  simp only [afterHexMark?_numeral numeral, magnitude?_of_numeral (by decide) numeral]
  split
  · exact congrArg some (signed_contains outer n)
  · rfl

theorem value?_of_hexadecimal {sign' : List Char} (front : hash ∈ [[], ['#']])
    (outer : sign ∈ [[], ['-']]) (marked : mark ∈ marks) (inner : sign' ∈ [[], ['-']])
    (numeral : Text.Numeral 16 digits n) :
    value? (hash ++ (sign ++ (mark ++ (sign' ++ digits)))) =
      if n < 2 ^ 63 then some (valueOf (hash ++ (sign ++ (mark ++ (sign' ++ digits)))) n)
      else none := by
  have noSign : '-' ∉ digits := numeral.not_mem (by decide) (by decide)
  obtain ⟨noHash, noOuter⟩ := head?_mark marked (sign' ++ digits)
  have split : afterHexMark? (mark ++ (sign' ++ digits)) = some (sign' ++ digits) :=
    afterHexMark?_eq_some_iff.2 ⟨mark, marked, rfl⟩
  have signs : valueOf (sign ++ (mark ++ (sign' ++ digits))) n = valueOf (sign ++ sign') n := by
    simp [valueOf, List.count_append, List.count_eq_zero.2 (minus_not_mem_mark mark marked),
      List.count_eq_zero.2 noSign]
  rw [valueOf_append (minus_not_mem_hash hash front), signs, value?_eq,
    afterHash_append front (head?_sign outer noHash), splitSign_append outer noOuter]
  simp only [split, splitSign_append inner (mt List.mem_of_head? noSign),
    magnitude?_of_numeral (by decide) numeral]
  split
  · exact congrArg some (signed_contains_contains outer inner n)
  · rfl

/-- A literal is read as its value, unless its digits denote too large a number. -/
theorem value?_of_written (h : Written text n) :
    value? text = if n < 2 ^ 63 then some (valueOf text n) else none := by
  cases h with
  | decimal front outer numeral => exact value?_of_decimal front outer numeral
  | hexadecimal front outer marked inner numeral =>
      exact value?_of_hexadecimal front outer marked inner numeral

theorem exists_written {value : Int} (h : value? text = some value) : ∃ n, Written text n := by
  obtain ⟨hash, front, wholly⟩ := exists_afterHash text
  obtain ⟨sign, outer, behind⟩ := exists_splitSign (afterHash text)
  rw [value?_eq] at h
  split at h
  · next rest marked =>
      obtain ⟨mark, known, split⟩ := afterHexMark?_eq_some_iff.1 marked
      obtain ⟨sign', inner, last⟩ := exists_splitSign rest
      obtain ⟨n, magnitude, -⟩ := Option.map_eq_some_iff.1 h
      have numeral := numeral_of_magnitude? (by decide) magnitude
      rw [wholly, behind, split, last]
      exact ⟨n, .hexadecimal front outer known inner numeral⟩
  · obtain ⟨n, magnitude, -⟩ := Option.map_eq_some_iff.1 h
    have numeral := numeral_of_magnitude? (by decide) magnitude
    rw [wholly, behind]
    exact ⟨n, .decimal front outer numeral⟩

/-! ### What the lexical class of integers admits -/

open Pattern

theorem exists_numeral_of_mem {p : Char → Bool} {base : Nat} (small : base ≤ 16)
    (sort : ∀ c, p c = true → ∃ d, Text.digitValue? base c = some d) (h : digits ∈ many p) :
    ∃ n, Text.Numeral base digits n := by
  obtain ⟨filled, all⟩ := mem_many.1 h
  exact Text.exists_numeral small filled fun c member => sort c (all c member)

theorem exists_digitValue?_of_isHexDigit {c : Char} (h : isHexDigit c = true) :
    ∃ d, Text.digitValue? 16 c = some d := by
  have le : ∀ {a b : Char}, a ≤ b ↔ a.toNat ≤ b.toNat := Iff.rfl
  have digit : c.isDigit = true ↔ '0' ≤ c ∧ c ≤ '9' := by simp [Char.isDigit, Char.le_def]
  have ranges := Text.toNat_digits
  simp only [isHexDigit, Bool.or_eq_true, Bool.and_eq_true, decide_eq_true_eq, digit, le] at h
  simp only [Text.digitValue?, Option.filter_eq_some_iff, decide_eq_true_eq, le]
  split
  · exact ⟨_, rfl, by omega⟩
  · split
    · exact ⟨_, rfl, by omega⟩
    · split
      · exact ⟨_, rfl, by omega⟩
      · omega

theorem mem_maybe_lit {c : Char} (h : text ∈ maybe (lit c)) : text ∈ [[], [c]] := by
  rw [mem_optional]
  rcases h with rfl | ⟨d, same, rfl⟩
  · exact .inl rfl
  · rw [beq_iff_eq] at same
    exact .inr (congrArg (fun d => [d]) same)

theorem exists_front {hash : Bool}
    (h : text ∈ maybe (if hash then lit '#' else 0) * maybe (lit '-')) :
    ∃ front ∈ [[], ['#']], ∃ sign ∈ [[], ['-']], text = front ++ sign := by
  obtain ⟨front, first, sign, second, rfl⟩ := Language.mem_mul.1 h
  refine ⟨front, ?_, sign, mem_maybe_lit second, rfl⟩
  cases hash with
  | false =>
      have nothing : front = [] := by simpa using first
      simp [nothing]
  | true => exact mem_maybe_lit first

theorem mem_marks {c : Char} (h : (c == 'x' || c == 'X') = true) :
    ['0', c] ∈ marks ∧ [c] ∈ marks := by
  simp only [Bool.or_eq_true, beq_iff_eq] at h
  rcases h with rfl | rfl <;> decide

theorem exists_written_of_mem {zeroMark hash : Bool}
    (h : text ∈ (TokenClass.integer zeroMark hash).pattern) : ∃ n, Written text n := by
  rcases h with decimal | hexadecimal
  · obtain ⟨_, before, digits, run, rfl⟩ := Language.mem_mul.1 decimal
    obtain ⟨front, first, sign, outer, rfl⟩ := exists_front before
    obtain ⟨n, numeral⟩ := exists_numeral_of_mem (by decide)
      (fun c digit => ⟨_, Text.digitValue?_of_isDigit digit⟩) run
    rw [List.append_assoc]
    exact ⟨n, .decimal first outer numeral⟩
  · cases zeroMark with
    | true =>
        obtain ⟨_, marked, digits, run, rfl⟩ := Language.mem_mul.1 hexadecimal
        obtain ⟨_, before, _, ⟨c, sort, rfl⟩, rfl⟩ := Language.mem_mul.1 marked
        obtain ⟨_, start, _, ⟨zero, same, rfl⟩, rfl⟩ := Language.mem_mul.1 before
        obtain ⟨front, first, sign, outer, rfl⟩ := exists_front start
        obtain ⟨n, numeral⟩ := exists_numeral_of_mem (by decide)
          (fun _ => exists_digitValue?_of_isHexDigit) run
        rw [beq_iff_eq] at same
        subst same
        have written : Written (front ++ (sign ++ (['0', c] ++ ([] ++ digits)))) n :=
          .hexadecimal first outer (mem_marks sort).1 (by simp) numeral
        exact ⟨n, by simpa using written⟩
    | false =>
        obtain ⟨_, before, digits, run, rfl⟩ := Language.mem_mul.1 hexadecimal
        obtain ⟨_, ⟨c, sort, rfl⟩, sign, inner, rfl⟩ := Language.mem_mul.1 before
        obtain ⟨n, numeral⟩ := exists_numeral_of_mem (by decide)
          (fun _ => exists_digitValue?_of_isHexDigit) run
        have written : Written ([] ++ ([] ++ ([c] ++ (sign ++ digits)))) n :=
          .hexadecimal (by simp) (by simp) (mem_marks sort).2 (mem_maybe_lit inner) numeral
        exact ⟨n, by simpa using written⟩

/-- A text has a value exactly if it is a literal whose digits denote a number below 2 to the 63rd,
    and the value is that number, negated once for each sign. A text that is an integer token as a
    whole is a literal, so it has its value unless the number is too large. -/
theorem value?_exact (text : List Char) :
    (∀ value, value? text = some value ↔
      ∃ n, Written text n ∧ n < 2 ^ 63 ∧ value = valueOf text n) ∧
    ∀ zeroMark hash, text ≠ [] →
      ((Recognizer.fresh (.integer zeroMark hash)).feedAll text).accepted = text.length →
      ∃ n, Written text n ∧
        value? text = if n < 2 ^ 63 then some (valueOf text n) else none := by
  refine ⟨fun value => ⟨fun h => ?_, ?_⟩, fun zeroMark hash filled whole => ?_⟩
  · obtain ⟨n, written⟩ := exists_written h
    rw [value?_of_written written, Option.ite_none_right_eq_some] at h
    obtain ⟨small, same⟩ := h
    cases same
    exact ⟨n, written, small, rfl⟩
  · rintro ⟨n, written, small, rfl⟩
    rw [value?_of_written written, if_pos small]
  · have token := Recognizer.longest_feedAll (.integer zeroMark hash) text
    rw [whole] at token
    obtain ⟨n, written⟩ := exists_written_of_mem (token.mem filled)
    exact ⟨n, written, value?_of_written written⟩

end Literal

end Assembler
