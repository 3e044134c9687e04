import Assembler.Proofs.Lexical.Classes
import Assembler.Proofs.Lexical.Scanner
import Mathlib.Order.Bounds.Basic

/-! # What a recogniser knows of the text that it has read

A recogniser that has read a text holds the length of the longest token that the text begins with.
While it is alive, its state stands for all that completes the text to a token; once it is not,
nothing does. One character keeps this up, whatever the class, since a move goes from the residual
of a state to what stands behind the character in it.
-/

namespace Assembler

open Pattern

/-- The length of the longest text of a language that a text begins with, or 0. -/
def Longest (L : Language Char) (text : List Char) (n : Nat) : Prop :=
  IsGreatest {n | n = 0 ∨ ∃ token ∈ L, token <+: text ∧ token.length = n} n

namespace Longest

variable {L : Language Char} {text : List Char} {n : Nat} {c : Char}

theorem nil : Longest L [] 0 := by
  refine ⟨.inl rfl, ?_⟩
  rintro n (rfl | ⟨token, -, front, rfl⟩)
  · exact Nat.le_refl 0
  · simpa using front.length_le

theorem of_mem (h : text ∈ L) : Longest L text text.length := by
  refine ⟨.inr ⟨text, h, List.prefix_refl text, rfl⟩, ?_⟩
  rintro n (rfl | ⟨token, -, front, rfl⟩)
  · exact Nat.zero_le _
  · exact front.length_le

theorem concat (h : Longest L text n) (out : text ++ [c] ∉ L) : Longest L (text ++ [c]) n := by
  obtain ⟨found, greatest⟩ := h
  constructor
  · rcases found with rfl | ⟨token, known, front, rfl⟩
    · exact .inl rfl
    · exact .inr ⟨token, known, front.trans (List.prefix_append text [c]), rfl⟩
  · rintro m (rfl | ⟨token, known, front, rfl⟩)
    · exact Nat.zero_le n
    · rcases List.prefix_concat_iff.1 front with rfl | front
      · exact absurd known out
      · exact greatest (.inr ⟨token, known, front, rfl⟩)

theorem length_le (h : Longest L text n) {token : List Char} (known : token ∈ L)
    (front : token <+: text) : token.length ≤ n :=
  h.2 (.inr ⟨token, known, front, rfl⟩)

theorem mem (h : Longest L text text.length) (filled : text ≠ []) : text ∈ L := by
  rcases h.1 with empty | ⟨token, known, front, size⟩
  · exact absurd (List.length_eq_zero_iff.1 empty) filled
  · rwa [← front.eq_of_length size]

end Longest

namespace Recognizer

/-- What is known of a recogniser of a class that has read a text. -/
inductive Tracks (k : TokenClass) (residual : k.automaton.State → Language Char)
    (text : List Char) : Recognizer → Prop where
  | alive {s : k.automaton.State} {fed accepted : Nat} (count : fed = text.length)
      (longest : Longest k.pattern text accepted)
      (behind : ∀ c, k.pattern.leftQuotient (text ++ [c]) = after (residual s) c)
      (possible : text ≠ [] → ∃ more, text ++ more ∈ k.pattern) :
      Tracks k residual text ⟨k, s, fed, accepted, true⟩
  | dead {s : k.automaton.State} {fed accepted : Nat} (longest : Longest k.pattern text accepted)
      (behind : ∀ c, k.pattern.leftQuotient (text ++ [c]) = 0) :
      Tracks k residual text ⟨k, s, fed, accepted, false⟩

variable {k : TokenClass} {residual : k.automaton.State → Language Char} {text : List Char}
  {r : Recognizer}

theorem Tracks.fresh (h : k.automaton.Recognizes k.pattern residual) :
    Tracks k residual [] (fresh k) :=
  .alive rfl .nil h.start (absurd rfl)

/-- Reading a character keeps up what is known. -/
theorem Tracks.feed (h : k.automaton.Recognizes k.pattern residual)
    (tracks : Tracks k residual text r) (c : Char) : Tracks k residual (text ++ [c]) (r.feed c) := by
  have complete : text ++ [c] ∈ k.pattern ↔ [] ∈ k.pattern.leftQuotient (text ++ [c]) := by
    rw [Language.mem_leftQuotient, List.append_nil]
  have next : ∀ d, k.pattern.leftQuotient (text ++ [c] ++ [d]) =
      after (k.pattern.leftQuotient (text ++ [c])) d :=
    fun d => Language.leftQuotient_append _ _ _
  cases tracks with
  | dead longest behind =>
      -- nothing that goes on from the text is a token, so neither is the longer text
      refine .dead (longest.concat ?_) fun d => ?_
      · rw [complete, behind]
        exact Language.notMem_zero []
      · rw [next, behind, after_zero]
  | @alive s fed accepted count longest behind possible =>
      -- the move says of the state's residual what is then true behind the text
      have move := h.move s c
      rw [← behind] at move
      have grown : fed + 1 = (text ++ [c]).length := by simp [count]
      simp only [Recognizer.feed, if_true]
      split
      · next stuck =>
          rw [stuck, Move.follows_stuck] at move
          refine .dead (longest.concat ?_) fun d => ?_
          · rw [complete, move]
            exact Language.notMem_zero []
          · rw [next, move, after_zero]
      · next s' reads =>
          rw [reads, Move.follows_reads] at move
          obtain ⟨there, unfinished, more, member⟩ := move
          refine .alive grown (longest.concat (mt complete.1 unfinished)) (fun d => ?_) fun _ => ?_
          · rw [next, there]
          · exact ⟨more, member⟩
      · next s' accepts =>
          rw [accepts, Move.follows_accepts] at move
          have token := complete.2 move.2
          rw [grown]
          refine .alive rfl (.of_mem token) (fun d => ?_) fun _ => ⟨[], by rwa [List.append_nil]⟩
          rw [next, move.1]
      · next s' completes =>
          rw [completes, Move.follows_completes] at move
          have token := complete.2 (move ▸ Language.nil_mem_one)
          rw [grown]
          refine .dead (.of_mem token) fun d => ?_
          rw [next, move, after_nothing]

theorem tracks_feedAll (h : k.automaton.Recognizes k.pattern residual) (text : List Char) :
    Tracks k residual text ((Recognizer.fresh k).feedAll text) := by
  induction text using List.reverseRecOn with
  | nil => exact .fresh h
  | append_singleton text c ih =>
      rw [feedAll, List.foldl_append]
      exact ih.feed h c

theorem longest_feedAll (k : TokenClass) (text : List Char) :
    Longest k.pattern text ((Recognizer.fresh k).feedAll text).accepted := by
  obtain ⟨residual, h⟩ := k.exists_recognizes
  have tracks := tracks_feedAll h text
  generalize (Recognizer.fresh k).feedAll text = r at tracks
  cases tracks with
  | alive _ longest => exact longest
  | dead longest => exact longest

/-- A recogniser accepts the longest token of its class that the text begins with, is dead only if
    no text that goes on from there begins with a longer one, and is alive behind the first
    character only if some text that goes on from there is a token. -/
theorem feedAll_exact (r : Recognizer) (text : List Char) :
    Longest r.tokenClass.pattern text (r.reset.feedAll text).accepted ∧
    ((r.reset.feedAll text).alive = false → ∀ more, ∀ token ∈ r.tokenClass.pattern,
      token <+: text ++ more → token.length ≤ (r.reset.feedAll text).accepted) ∧
    ((r.reset.feedAll text).alive = true → text ≠ [] →
      ∃ more, text ++ more ∈ r.tokenClass.pattern) := by
  refine ⟨longest_feedAll r.tokenClass text, ?_⟩
  obtain ⟨residual, h⟩ := r.tokenClass.exists_recognizes
  have tracks : Tracks r.tokenClass residual text (r.reset.feedAll text) := tracks_feedAll h text
  generalize r.reset.feedAll text = read at tracks
  cases tracks with
  | alive _ _ _ possible => exact ⟨nofun, fun _ => possible⟩
  | dead longest behind =>
      refine ⟨fun _ more token known front => ?_, nofun⟩
      rcases List.prefix_or_prefix_of_prefix front (List.prefix_append text more) with inside | past
      · exact longest.length_le known inside
      · obtain ⟨rest, rfl⟩ := past
        cases rest with
        | nil => exact longest.length_le known (by simp)
        | cons c rest =>
            have member : rest ∈ r.tokenClass.pattern.leftQuotient (text ++ [c]) := by
              simpa using known
            rw [behind] at member
            exact absurd member (Language.notMem_zero rest)

end Recognizer

end Assembler
