/-
# Text inside markup

A reader of markup takes a document apart into its tags and the text in front of each,
and writes the characters that stand for others out. Text that was written with these
in place of the five special characters is read as it was, wherever it stands, and can
neither open a tag nor close one.
-/

import Mathlib.Data.List.Basic
import Mathlib.Tactic.Cases

namespace SocketTrail.Foundation.Markup

/-! ## Writing -/

/-- What stands for a character in text. -/
def escapeChar : Char → List Char
  | '&' => ['&', 'a', 'm', 'p', ';']
  | '<' => ['&', 'l', 't', ';']
  | '>' => ['&', 'g', 't', ';']
  | '"' => ['&', 'q', 'u', 'o', 't', ';']
  | '\'' => ['&', '#', '3', '9', ';']
  | c => [c]

def escape (text : List Char) : List Char := text.flatMap escapeChar

/-- A tag with its brackets. -/
def tag (name : List Char) : List Char := '<' :: (name ++ ['>'])

/-! ## Reading -/

/-- The text that is meant. -/
def unescape : List Char → List Char
  | '&' :: 'a' :: 'm' :: 'p' :: ';' :: rest => '&' :: unescape rest
  | '&' :: 'l' :: 't' :: ';' :: rest => '<' :: unescape rest
  | '&' :: 'g' :: 't' :: ';' :: rest => '>' :: unescape rest
  | '&' :: 'q' :: 'u' :: 'o' :: 't' :: ';' :: rest => '"' :: unescape rest
  | '&' :: '#' :: '3' :: '9' :: ';' :: rest => '\'' :: unescape rest
  | c :: rest => c :: unescape rest
  | [] => []

/-- A tag, and the text in front of it. -/
structure Element where
  text : List Char
  tag : List Char
  deriving DecidableEq, Repr

/-- The elements of a document, behind the text and, inside of a tag, the part of it that
are read already. -/
def readFrom (text : List Char) : Option (List Char) → List Char → List Element
  | _, [] => []
  | none, c :: rest =>
      if c = '<' then readFrom text (some []) rest else readFrom (text ++ [c]) none rest
  | some name, c :: rest =>
      if c = '>' then ⟨unescape text, name⟩ :: readFrom [] none rest
      else readFrom text (some (name ++ [c])) rest

/-- The elements of a document. -/
def read (document : List Char) : List Element := readFrom [] none document

/-! ## What is written is read -/

variable {text name rest : List Char}

theorem escapeChar_of_plain {c : Char}
    (h : c ≠ '&' ∧ c ≠ '<' ∧ c ≠ '>' ∧ c ≠ '"' ∧ c ≠ '\'') : escapeChar c = [c] := by
  obtain ⟨hamp, hlt, hgt, hquot, happ⟩ := h
  unfold escapeChar
  split <;> first | contradiction | rfl

theorem unescape_cons_of_ne {c : Char} (h : c ≠ '&') :
    unescape (c :: rest) = c :: unescape rest := by
  rw [unescape]
  all_goals
    intros
    simp_all

/-- One character is read as it was written. -/
theorem unescape_escapeChar (c : Char) : unescape (escapeChar c ++ rest) = c :: unescape rest := by
  by_cases h : c = '&' ∨ c = '<' ∨ c = '>' ∨ c = '"' ∨ c = '\''
  · rcases h with rfl | rfl | rfl | rfl | rfl <;> rfl
  · simp only [not_or] at h
    rw [escapeChar_of_plain h, List.singleton_append]
    exact unescape_cons_of_ne h.1

theorem unescape_escape (text : List Char) : unescape (escape text) = text := by
  induction text with
  | nil => rfl
  | cons c text ih =>
      change unescape (escapeChar c ++ escape text) = c :: text
      rw [unescape_escapeChar, ih]

/-- Written text opens no tag. -/
theorem lt_notMem_escape (text : List Char) : '<' ∉ escape text := by
  intro hmem
  obtain ⟨c, -, hc⟩ := List.mem_flatMap.mp hmem
  by_cases h : c = '&' ∨ c = '<' ∨ c = '>' ∨ c = '"' ∨ c = '\''
  · rcases h with rfl | rfl | rfl | rfl | rfl <;> simp [escapeChar] at hc
  · simp only [not_or] at h
    rw [escapeChar_of_plain h, List.mem_singleton] at hc
    exact h.2.1 hc.symm

/-- Text without special characters, which is written as it is. -/
def Verbatim (text : List Char) : Prop := escape text = text

instance : Decidable (Verbatim text) := inferInstanceAs (Decidable (escape text = text))

theorem verbatim_nil : Verbatim [] := rfl

theorem Verbatim.append {first second : List Char} (hfirst : Verbatim first)
    (hsecond : Verbatim second) : Verbatim (first ++ second) := by
  rw [Verbatim, escape, List.flatMap_append, ← escape, ← escape, hfirst, hsecond]

theorem verbatim_of_isDigit (h : ∀ c ∈ text, c.isDigit = true) : Verbatim text := by
  induction text with
  | nil => exact verbatim_nil
  | cons c text ih =>
      obtain ⟨hc, htext⟩ := List.forall_mem_cons.mp h
      have hordinary : escapeChar c = [c] := by
        apply escapeChar_of_plain
        refine ⟨?_, ?_, ?_, ?_, ?_⟩ <;> rintro rfl <;> exact absurd hc (by decide)
      change escapeChar c ++ escape text = c :: text
      rw [hordinary, ih htext, List.singleton_append]

theorem Verbatim.lt_notMem (h : Verbatim text) : '<' ∉ text := by
  rw [← h]
  exact lt_notMem_escape text

theorem Verbatim.unescape (h : Verbatim text) : unescape text = text := by
  calc Markup.unescape text = Markup.unescape (escape text) := by rw [h]
    _ = text := unescape_escape text

/-- A character that a literal does not have. -/
theorem notMem_literal {c : Char} {literal : List Char} (h : literal.all (· != c) = true) :
    c ∉ (String.ofList literal).toList := by
  rw [String.toList_ofList]
  intro hmem
  have hne := List.all_eq_true.mp h c hmem
  exact absurd hne (by simp)

theorem readFrom_text {before : List Char} (h : '<' ∉ text) :
    readFrom before none (text ++ rest) = readFrom (before ++ text) none rest := by
  induction text generalizing before with
  | nil => rw [List.nil_append, List.append_nil]
  | cons c text ih =>
      obtain ⟨hc, htext⟩ := not_or.mp (List.mem_cons.not.mp h)
      rw [List.cons_append, readFrom, if_neg (Ne.symm hc), ih htext, List.append_assoc,
        List.singleton_append]

theorem readFrom_name {before : List Char} (h : '>' ∉ name) :
    readFrom text (some before) (name ++ '>' :: rest) =
      ⟨unescape text, before ++ name⟩ :: readFrom [] none rest := by
  induction name generalizing before with
  | nil => rw [List.nil_append, readFrom, if_pos rfl, List.append_nil]
  | cons c name ih =>
      obtain ⟨hc, hname⟩ := not_or.mp (List.mem_cons.not.mp h)
      rw [List.cons_append, readFrom, if_neg (Ne.symm hc), ih hname, List.append_assoc,
        List.singleton_append]

/-- Text that opens no tag and the tag behind it are an element. -/
theorem read_tag (htext : '<' ∉ text) (hname : '>' ∉ name) :
    read (text ++ tag name ++ rest) = ⟨unescape text, name⟩ :: read rest := by
  have hbracket : tag name ++ rest = '<' :: (name ++ '>' :: rest) := by
    rw [tag, List.cons_append, List.append_assoc, List.singleton_append]
  rw [read, List.append_assoc, readFrom_text htext, hbracket, readFrom, if_pos rfl, List.nil_append,
    readFrom_name hname, List.nil_append]
  rfl

/-! ## Documents in pieces -/

/-- A tag and what is written in front of it. -/
structure Piece where
  written : List Char
  tag : List Char

/-- The pieces one behind the other. -/
def print : List Piece → List Char
  | [] => []
  | p :: rest => p.written ++ (tag p.tag ++ print rest)

/-- What a reader finds in a piece. -/
def Piece.element (p : Piece) : Element := ⟨unescape p.written, p.tag⟩

/-- What is written in front of the tag opens none, and the tag is closed once. -/
def Piece.Sound (p : Piece) : Prop := '<' ∉ p.written ∧ '>' ∉ p.tag

theorem print_append (first second : List Piece) :
    print (first ++ second) = print first ++ print second := by
  induction first with
  | nil => rfl
  | cons p rest ih => simp [print, ih]

theorem print_flatMap {α : Type*} (l : List α) (pieces : α → List Piece) :
    print (l.flatMap pieces) = l.flatMap fun a => print (pieces a) := by
  induction l with
  | nil => rfl
  | cons a rest ih => rw [List.flatMap_cons, List.flatMap_cons, print_append, ih]

theorem read_print {pieces : List Piece} (h : ∀ p ∈ pieces, p.Sound) (rest : List Char) :
    read (print pieces ++ rest) = pieces.map Piece.element ++ read rest := by
  induction pieces with
  | nil => rfl
  | cons p pieces ih =>
      obtain ⟨hp, hpieces⟩ := List.forall_mem_cons.mp h
      have hprinted : print (p :: pieces) ++ rest =
          p.written ++ tag p.tag ++ (print pieces ++ rest) := by
        simp [print, List.append_assoc]
      rw [hprinted, read_tag hp.1 hp.2, ih hpieces]
      rfl

theorem read_print_nil {pieces : List Piece} (h : ∀ p ∈ pieces, p.Sound) :
    read (print pieces) = pieces.map Piece.element := by
  have hread := read_print h []
  have hnil : read [] = [] := by simp [read, readFrom]
  rwa [List.append_nil, hnil, List.append_nil] at hread

/-! ## Cells -/

/-- The texts of the cells of a document: from a tag that begins with `td` to its end,
without the tags in between. -/
def cellsFrom : Option (List Char) → List Element → List (List Char)
  | _, [] => []
  | none, e :: rest =>
      cellsFrom (if ['t', 'd'].isPrefixOf e.tag then some [] else none) rest
  | some text, e :: rest =>
      if e.tag = ['/', 't', 'd'] then (text ++ e.text) :: cellsFrom none rest
      else cellsFrom (some (text ++ e.text)) rest

def cells (elements : List Element) : List (List Char) := cellsFrom none elements

section Cells

variable {e : Element} {elements : List Element} {text : List Char}

theorem cells_open (h : ['t', 'd'].isPrefixOf e.tag = true) :
    cells (e :: elements) = cellsFrom (some []) elements := by
  rw [cells, cellsFrom, if_pos h]

theorem cellsFrom_inner (h : e.tag ≠ ['/', 't', 'd']) :
    cellsFrom (some text) (e :: elements) = cellsFrom (some (text ++ e.text)) elements := by
  rw [cellsFrom, if_neg h]

theorem cellsFrom_close (h : e.tag = ['/', 't', 'd']) :
    cellsFrom (some text) (e :: elements) = (text ++ e.text) :: cells elements := by
  rw [cellsFrom, if_pos h, cells]

theorem cells_cons_of_not (h : ['t', 'd'].isPrefixOf e.tag = false) :
    cells (e :: elements) = cells elements := by
  rw [cells, cellsFrom, h]
  rfl

end Cells

/-- Outside of cells there are none. -/
theorem cells_append_of_not {first second : List Element}
    (h : ∀ e ∈ first, ['t', 'd'].isPrefixOf e.tag = false) :
    cells (first ++ second) = cells second := by
  induction first with
  | nil => rfl
  | cons e rest ih =>
      obtain ⟨he, hrest⟩ := List.forall_mem_cons.mp h
      rw [List.cons_append, cells_cons_of_not he, ih hrest]

end SocketTrail.Foundation.Markup
