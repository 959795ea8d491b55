/-
# Text printed for a reader

What a program prints, taken apart again: its lines, the parts before and behind a
separator, the text between quotes, and text without certain characters at its ends.
Each comes with the text that it takes apart: a separator is found where it was
printed as long as nothing in front of it begins like one.
-/

import SocketTrail.Foundation.Unicode

namespace SocketTrail.Foundation

/-! ## Separators -/

/-- The text before and behind the first separator. -/
def splitOnce (sep : List Char) : List Char → Option (List Char × List Char)
  | [] => if sep = [] then some ([], []) else none
  | c :: text =>
      if sep <+: c :: text then some ([], (c :: text).drop sep.length)
      else (splitOnce sep text).map fun parts => (c :: parts.1, parts.2)

/-- The text before the first separator, or all of it. -/
def before (sep text : List Char) : List Char :=
  match splitOnce sep text with
  | some (first, _) => first
  | none => text

/-- The text between the first two quotes. -/
def quoted (text : List Char) : Option (List Char) :=
  match splitOnce ['"'] text with
  | some (_, rest) => (splitOnce ['"'] rest).map Prod.fst
  | none => none

/-- A separator is found where it was printed, if it begins at none of the characters
in front of it. -/
theorem splitOnce_append {sep first rest : List Char} (hsep : sep ≠ [])
    (h : ∀ later, later ≠ [] → later <:+ first → ¬ sep <+: later ++ sep ++ rest) :
    splitOnce sep (first ++ sep ++ rest) = some (first, rest) := by
  induction first with
  | nil =>
      rw [List.nil_append]
      cases sep with
      | nil => contradiction
      | cons c sep =>
          have hprefix : c :: sep <+: c :: (sep ++ rest) := List.prefix_append (c :: sep) rest
          rw [List.cons_append, splitOnce, if_pos hprefix, ← List.cons_append, List.drop_left]
  | cons c first ih =>
      have hhere := h (c :: first) (List.cons_ne_nil _ _) List.suffix_rfl
      have hrest := ih fun later hlater hsuffix =>
        h later hlater (hsuffix.trans (List.suffix_cons c first))
      rw [List.cons_append, List.cons_append] at hhere ⊢
      rw [splitOnce, if_neg hhere, hrest]
      rfl

/-- A separator whose first character does not occur before it. -/
theorem splitOnce_of_head {c : Char} {sep first rest : List Char} (h : c ∉ first) :
    splitOnce (c :: sep) (first ++ c :: sep ++ rest) = some (first, rest) := by
  apply splitOnce_append (List.cons_ne_nil _ _)
  intro later hlater hsuffix hprefix
  obtain ⟨d, later, rfl⟩ := List.exists_cons_of_ne_nil hlater
  obtain ⟨rfl, -⟩ := List.cons_prefix_cons.mp hprefix
  exact h (hsuffix.mem List.mem_cons_self)

/-- A separator of two different characters whose second does not occur before it. -/
theorem splitOnce_of_second {c d : Char} {first rest : List Char} (hne : c ≠ d)
    (h : d ∉ first) : splitOnce [c, d] (first ++ [c, d] ++ rest) = some (first, rest) := by
  apply splitOnce_append (List.cons_ne_nil _ _)
  intro later hlater hsuffix hprefix
  obtain ⟨x, later, rfl⟩ := List.exists_cons_of_ne_nil hlater
  obtain ⟨rfl, hnext⟩ := List.cons_prefix_cons.mp hprefix
  cases later with
  | nil =>
      obtain ⟨rfl, -⟩ := List.cons_prefix_cons.mp hnext
      contradiction
  | cons y later =>
      obtain ⟨rfl, -⟩ := List.cons_prefix_cons.mp hnext
      exact h (hsuffix.mem (List.mem_cons_of_mem _ List.mem_cons_self))

theorem before_of_head {c : Char} {sep first rest : List Char} (h : c ∉ first) :
    before (c :: sep) (first ++ c :: sep ++ rest) = first := by
  rw [before, splitOnce_of_head h]

theorem quoted_append {first text rest : List Char} (hfirst : '"' ∉ first)
    (htext : '"' ∉ text) : quoted (first ++ '"' :: (text ++ '"' :: rest)) = some text := by
  have houter : splitOnce ['"'] (first ++ ['"'] ++ (text ++ '"' :: rest)) =
      some (first, text ++ '"' :: rest) := splitOnce_of_head hfirst
  have hinner : splitOnce ['"'] (text ++ ['"'] ++ rest) = some (text, rest) :=
    splitOnce_of_head htext
  rw [List.append_assoc, List.singleton_append] at houter hinner
  rw [quoted, houter]
  simp only [hinner, Option.map_some]

/-! ## Lines -/

/-- A line without the carriage return at its end. -/
def dropReturn (line : List Char) : List Char :=
  if line.getLast? = some '\r' then line.dropLast else line

/-- The lines of a text. Behind the last line end stands a line only if it is not
empty, and such a line keeps a carriage return. -/
def lines (text : List Char) : List (List Char) :=
  let pieces := text.splitOn '\n'
  pieces.dropLast.map dropReturn ++ pieces.getLast?.toList.filter (· ≠ [])

/-- Lines with an end behind each. -/
def printLines (printed : List (List Char)) : List Char := printed.flatMap (· ++ ['\n'])

/-- The line has no line end of its own. -/
structure IsLine (line : List Char) : Prop where
  noEnd : '\n' ∉ line
  noReturn : line.getLast? ≠ some '\r'

/-- Lines are read as they were printed. -/
theorem lines_printLines {printed : List (List Char)} (h : ∀ line ∈ printed, IsLine line) :
    lines (printLines printed) = printed := by
  have hpieces : (printLines printed).splitOn '\n' = printed ++ [[]] := by
    induction printed with
    | nil => rfl
    | cons line rest ih =>
        obtain ⟨hline, hrest⟩ := List.forall_mem_cons.mp h
        have hprinted : printLines (line :: rest) = line ++ '\n' :: printLines rest := by
          simp [printLines]
        rw [hprinted, List.splitOn_append_cons_self_of_not_mem hline.noEnd, ih hrest]
        rfl
  have hkept : printed.map dropReturn = printed := by
    conv_rhs => rw [← List.map_id printed]
    apply List.map_congr_left
    intro line hline
    exact if_neg (h line hline).noReturn
  simp [lines, hpieces, hkept]

/-- No piece holds the separator. -/
theorem notMem_of_mem_splitOn {α : Type*} [BEq α] [LawfulBEq α] {sep : α} {text piece : List α}
    (h : piece ∈ text.splitOn sep) : sep ∉ piece := by
  induction text generalizing piece with
  | nil =>
      rw [List.splitOn_nil, List.mem_singleton] at h
      rw [h]
      exact List.not_mem_nil
  | cons c text ih =>
      rw [List.splitOn_cons_eq_if_modifyHead] at h
      split at h
      · rcases List.mem_cons.mp h with rfl | h
        · exact List.not_mem_nil
        · exact ih h
      · rename_i hc
        cases hpieces : text.splitOn sep with
        | nil => exact absurd hpieces (List.splitOn_ne_nil sep text)
        | cons head rest =>
            rw [hpieces] at h ih
            rcases List.mem_cons.mp h with rfl | h
            · rw [List.mem_cons, not_or]
              exact ⟨fun heq => hc (by rw [heq, beq_self_eq_true]), ih List.mem_cons_self⟩
            · exact ih (List.mem_cons_of_mem _ h)

/-! ## The ends of a text -/

/-- The text without the character at its end. -/
def trimEndMatches (c : Char) (text : List Char) : List Char :=
  (text.reverse.dropWhile (· = c)).reverse

/-- The text without the character at both ends. -/
def trimMatches (c : Char) (text : List Char) : List Char :=
  trimEndMatches c (text.dropWhile (· = c))

theorem mem_of_mem_trim {c : Char} {text : List Char} (h : c ∈ trim text) : c ∈ text := by
  rw [trim, trimEnd, List.mem_reverse] at h
  have hback := List.mem_reverse.mp ((List.dropWhile_suffix _).mem h)
  exact (List.dropWhile_suffix _).mem hback

/-- A text without blanks is not trimmed. -/
theorem trim_of_noBlanks {text : List Char} (h : ∀ c ∈ text, isWhiteSpace c = false) :
    trim text = text := by
  have hdrop {text : List Char} (h : ∀ c ∈ text, isWhiteSpace c = false) :
      text.dropWhile isWhiteSpace = text := by
    cases text with
    | nil => rfl
    | cons c rest =>
        rw [List.dropWhile_cons_of_neg]
        rw [h c List.mem_cons_self]
        exact Bool.false_ne_true
  rw [trim, hdrop h, trimEnd, hdrop fun c hc => h c (List.mem_reverse.mp hc),
    List.reverse_reverse]

end SocketTrail.Foundation
