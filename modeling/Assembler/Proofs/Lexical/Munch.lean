import Assembler.Lexical.Scanner

/-! # Maximal munch, line by line

The tokens of a text without regard to how a scanner finds them. The text is split into lines first.
From each position of a line, every recogniser reads all the rest of the line from the start, and
the longest token found is taken.
-/

namespace Assembler

namespace Munch

/-- The first line of a text and the lines after it. A carriage return in front of a line feed
    belongs to the line break. -/
def splitLines : List Char → List Char × List (List Char)
  | [] => ([], [])
  | c :: cs =>
      let (line, lines) := splitLines cs
      if c = '\n' then ([], line :: lines)
      else if c = '\r' ∧ cs.head? = some '\n' then (line, lines)
      else (c :: line, lines)

/-- The recognisers of classes after they have read a text from the start. -/
def readers (classes : List TokenClass) (text : List Char) : List Recognizer :=
  classes.map fun k => (Recognizer.fresh k).feedAll text

/-- The greatest length that some recogniser accepts. -/
def greatest (recognizers : List Recognizer) : Nat :=
  (recognizers.map (·.accepted)).foldr max 0

/-- The kind of the first recogniser that accepts a length. -/
def kindOf (recognizers : List Recognizer) (n : Nat) : Option TokenKind :=
  (recognizers.find? (·.accepted == n)).bind (·.kind?)

/-- The tokens of a line from a position on. -/
def tokens (classes : List TokenClass) (number p : Nat) (text : List Char) :
    Except LexError (List Token) :=
  match _h : text with
  | [] => .ok []
  | c :: _ =>
      let found := readers classes text
      match greatest found with
      | 0 => .error ⟨c, number, p + 1⟩
      | n + 1 => do
          let token := (kindOf found (n + 1)).map
            (Token.mk (p + 1) (String.ofList (text.take (n + 1))))
          return token.toList ++ (← tokens classes number (p + (n + 1)) (text.drop (n + 1)))
termination_by text.length
decreasing_by
  simp only [_h, List.length_drop, List.length_cons]
  omega

def lineOf (number : Nat) (found : List Token) : List Line :=
  if found.isEmpty then [] else [⟨number, found⟩]

/-- The lines of tokens of lines from a number on. -/
def scanLines (classes : List TokenClass) : (number : Nat) → List (List Char) →
    Except LexError (List Line)
  | _, [] => .ok []
  | number, line :: lines => do
      let found ← tokens classes number 0 line
      return lineOf number found ++ (← scanLines classes (number + 1) lines)

def scan (classes : List TokenClass) (text : List Char) : Except LexError (List Line) :=
  let (line, lines) := splitLines text
  scanLines classes 1 (line :: lines)

end Munch

namespace Recognizer

variable {r : Recognizer}

theorem tokenClass_feed (r : Recognizer) (c : Char) : (r.feed c).tokenClass = r.tokenClass := by
  simp only [feed]
  split
  · split <;> rfl
  · rfl

theorem tokenClass_feedAll (r : Recognizer) (cs : List Char) :
    (r.feedAll cs).tokenClass = r.tokenClass := by
  induction cs generalizing r with
  | nil => rfl
  | cons c cs ih => exact (ih (r.feed c)).trans (tokenClass_feed r c)

theorem feedAll_of_dead (dead : r.alive = false) (cs : List Char) : r.feedAll cs = r := by
  induction cs with
  | nil => rfl
  | cons c cs ih =>
      have same : r.feed c = r := by simp [feed, dead]
      rw [feedAll, List.foldl_cons, same]
      exact ih

theorem accepted_feed_le {n : Nat} (h : r.accepted ≤ r.fed ∧ r.fed ≤ n) (c : Char) :
    (r.feed c).accepted ≤ (r.feed c).fed ∧ (r.feed c).fed ≤ n + 1 := by
  simp only [feed]
  split
  · split <;> dsimp only <;> omega
  · omega

theorem accepted_feedAll_le {n : Nat} (h : r.accepted ≤ r.fed ∧ r.fed ≤ n) (cs : List Char) :
    (r.feedAll cs).accepted ≤ n + cs.length := by
  induction cs generalizing r n with
  | nil => exact Nat.le_trans h.1 h.2
  | cons c cs ih =>
      have bound := ih (accepted_feed_le h c)
      rw [List.length_cons]
      exact Nat.le_trans bound (by omega)

/-- The better of two recognisers; the first wins a tie. -/
def better (best r : Recognizer) : Recognizer :=
  if best.accepted < r.accepted then r else best

theorem accepted_better (best r : Recognizer) :
    (better best r).accepted = max best.accepted r.accepted := by
  unfold better
  split <;> omega

theorem le_foldl_better (r : Recognizer) (rs : List Recognizer) :
    ∀ x ∈ r :: rs, x.accepted ≤ (rs.foldl better r).accepted := by
  induction rs generalizing r with
  | nil => simp
  | cons y rs ih =>
      intro x member
      have above := ih (better r y) (better r y) List.mem_cons_self
      rw [accepted_better] at above
      rw [List.foldl_cons]
      rcases List.mem_cons.1 member with rfl | member
      · omega
      · rcases List.mem_cons.1 member with rfl | member
        · omega
        · exact ih _ x (List.mem_cons_of_mem _ member)

theorem find?_foldl_better (r : Recognizer) (rs : List Recognizer) :
    (r :: rs).find? (·.accepted == (rs.foldl better r).accepted) = some (rs.foldl better r) := by
  induction rs generalizing r with
  | nil => simp
  | cons x rs ih =>
      have first := ih (better r x)
      have most := le_foldl_better (better r x) rs _ List.mem_cons_self
      rw [accepted_better] at most
      rw [List.foldl_cons]
      generalize rs.foldl better (better r x) = best at first most ⊢
      by_cases worse : r.accepted < x.accepted
      · have same : better r x = x := if_pos worse
        rw [same] at first
        rw [List.find?_cons_of_neg (by simp; omega)]
        exact first
      · have same : better r x = r := if_neg worse
        rw [same] at first
        by_cases here : r.accepted = best.accepted
        · rw [List.find?_cons_of_pos (by simpa using here)] at first ⊢
          exact first
        · rw [List.find?_cons_of_neg (by simpa using here)] at first
          rw [List.find?_cons_of_neg (by simpa using here), List.find?_cons_of_neg (by simp; omega)]
          exact first

end Recognizer

namespace Munch

variable {classes : List TokenClass}

theorem splitLines_newline (cs : List Char) :
    splitLines ('\n' :: cs) = ([], (splitLines cs).1 :: (splitLines cs).2) := by
  simp [splitLines]

theorem splitLines_return_newline (cs : List Char) :
    splitLines ('\r' :: '\n' :: cs) = splitLines ('\n' :: cs) := by
  rw [splitLines]
  simp

theorem splitLines_char {c : Char} {cs : List Char} (inside : c ≠ '\n')
    (ordinary : c = '\r' → cs.head? ≠ some '\n') :
    splitLines (c :: cs) = (c :: (splitLines cs).1, (splitLines cs).2) := by
  rw [splitLines]
  simp only [inside, if_false]
  exact if_neg fun both => ordinary both.1 both.2

theorem le_greatest {rs : List Recognizer} {r : Recognizer} (member : r ∈ rs) :
    r.accepted ≤ greatest rs := by
  induction rs with
  | nil => cases member
  | cons x rs ih =>
      simp only [greatest, List.map_cons, List.foldr_cons] at ih ⊢
      rcases List.mem_cons.1 member with rfl | member
      · omega
      · have := ih member
        omega

theorem greatest_le {rs : List Recognizer} {n : Nat} (bound : ∀ r ∈ rs, r.accepted ≤ n) :
    greatest rs ≤ n := by
  induction rs with
  | nil => exact Nat.zero_le n
  | cons x rs ih =>
      have first := bound x List.mem_cons_self
      have others := ih fun r member => bound r (List.mem_cons_of_mem _ member)
      simp only [greatest, List.map_cons, List.foldr_cons] at others ⊢
      omega

/-- The scanner cuts off what the first of the best recognisers accepts. -/
theorem cut_eq (rs : List Recognizer) :
    Scanner.cut rs = (greatest rs, kindOf rs (greatest rs)) := by
  cases rs with
  | nil => rfl
  | cons r rs =>
      have found : Recognizer.longest (r :: rs) = some (rs.foldl Recognizer.better r) := rfl
      have first := Recognizer.find?_foldl_better r rs
      have same : greatest (r :: rs) = (rs.foldl Recognizer.better r).accepted :=
        Nat.le_antisymm (greatest_le (Recognizer.le_foldl_better r rs))
          (le_greatest (List.mem_of_find?_eq_some first))
      simp [Scanner.cut, found, same, kindOf, first]

theorem greatest_readers_le (text : List Char) :
    greatest (readers classes text) ≤ text.length := by
  refine greatest_le ?_
  intro r member
  obtain ⟨k, -, rfl⟩ := List.mem_map.1 member
  have bound := Recognizer.accepted_feedAll_le (r := .fresh k) (n := 0)
    ⟨Nat.le_refl 0, Nat.le_refl 0⟩ text
  omega

theorem readers_append_of_dead {text : List Char}
    (dead : (readers classes text).any (·.alive) = false) (more : List Char) :
    readers classes (text ++ more) = readers classes text := by
  refine List.map_congr_left fun k member => ?_
  simp only [readers, List.any_map, List.any_eq_false, Function.comp_apply] at dead
  have here := dead k member
  rw [Recognizer.feedAll, List.foldl_append]
  exact Recognizer.feedAll_of_dead (r := (Recognizer.fresh k).feedAll text) (by simpa using here) more

theorem tokens_of_greatest {number p n : Nat} {text : List Char}
    (len : greatest (readers classes text) = n + 1) :
    tokens classes number p text =
      (tokens classes number (p + (n + 1)) (text.drop (n + 1))).map
        (((kindOf (readers classes text) (n + 1)).map
          (Token.mk (p + 1) (String.ofList (text.take (n + 1))))).toList ++ ·) := by
  cases text with
  | nil =>
      have short : greatest (readers classes []) ≤ 0 := greatest_readers_le []
      rw [len] at short
      cases short
  | cons c cs =>
      rw [tokens]
      simp only [len]
      rfl

theorem tokens_of_none {number p : Nat} {c : Char} {cs : List Char}
    (nothing : greatest (readers classes (c :: cs)) = 0) :
    tokens classes number p (c :: cs) = .error ⟨c, number, p + 1⟩ := by
  rw [tokens]
  simp only [nothing]

end Munch

end Assembler
