/-
# What a reader finds in the report

The document is one list of pieces, each a tag and what is written in front of it. Every
text in it is escaped or has no special characters, so a reader of markup finds these
pieces again, with the texts as they were meant.
-/

import SocketTrail.Foundation.Numerals
import SocketTrail.Report.Render
import Mathlib.Data.List.Sort
import Mathlib.Data.String.Basic

namespace SocketTrail.Report

open SocketTrail.Foundation SocketTrail.Foundation.Markup SocketTrail.Net SocketTrail.State

/-! ## The texts -/

/-- The five replacements, one behind the other, are one. -/
theorem esc_eq (s : String) : esc s = escape s.toList := by
  unfold esc escape replace
  simp only [List.flatMap_assoc]
  congr 1
  funext c
  by_cases h : c = '&' ∨ c = '<' ∨ c = '>' ∨ c = '"' ∨ c = '\''
  · rcases h with rfl | rfl | rfl | rfl | rfl <;> decide
  · simp only [not_or] at h
    rw [escapeChar_of_plain h]
    obtain ⟨hamp, hlt, hgt, hquot, happ⟩ := h
    simp only [hamp, hlt, hgt, hquot, happ, if_false, List.flatMap_cons, List.flatMap_nil,
      List.append_nil]

theorem lt_notMem_esc (s : String) : '<' ∉ esc s := by
  rw [esc_eq]
  exact lt_notMem_escape _

theorem unescape_esc (s : String) : unescape (esc s) = s.toList := by
  rw [esc_eq]
  exact unescape_escape _

theorem verbatim_toString (n : ℕ) : Verbatim (toString n).toList := by
  rw [toList_toString_nat]
  exact verbatim_of_isDigit fun c hc => isDigit_toDigits hc

theorem verbatim_fixed (decimals n unit : ℕ) : Verbatim (fixed decimals n unit).toList := by
  have hfraction (width m : ℕ) :
      Verbatim (List.replicate (width - (Nat.toDigits 10 m).length) '0' ++ Nat.toDigits 10 m) := by
    apply verbatim_of_isDigit
    intro c hc
    rcases List.mem_append.mp hc with hzero | hdigit
    · rw [List.eq_of_mem_replicate hzero]
      decide
    · exact isDigit_toDigits hdigit
  unfold fixed
  simp only [String.toList_append, String.toList_ofList]
  exact ((verbatim_toString _).append (by decide)).append (hfraction _ _)

/-- The amounts have no special characters. -/
theorem verbatim_bytes (lang : Lang) (n : ℕ) : Verbatim (bytes lang n).toList := by
  have hamount {amount unit : String} (hnumber : Verbatim amount.toList)
      (hunit : Verbatim unit.toList) : Verbatim (amount ++ " " ++ unit).toList := by
    rw [String.toList_append, String.toList_append]
    exact (hnumber.append (by decide)).append hunit
  unfold bytes
  split_ifs
  · decide
  · exact hamount (verbatim_toString n) (by cases lang <;> decide)
  · exact hamount (verbatim_fixed _ _ _) (by cases lang <;> decide)
  · exact hamount (verbatim_fixed _ _ _) (by cases lang <;> decide)
  · exact hamount (verbatim_fixed _ _ _) (by cases lang <;> decide)

theorem verbatim_proto (p : Proto) : Verbatim p.asStr.toList := by cases p <;> decide

theorem verbatim_unowned (lang : Lang) (c : Conn) : Verbatim (unowned lang c).toList := by
  unfold unowned
  split <;> cases lang <;> decide

theorem verbatim_noName (lang : Lang) : Verbatim (tr lang "no name" "имени нет").toList := by
  cases lang <;> decide

/-! ## The pieces of a row -/

def cell (attrs : String) (written : List Char) : List Piece :=
  [⟨[], attrs.toList⟩, ⟨written, "/td".toList⟩]

/-- A cell with a name, or with the reason why there is none. -/
def nameCell (name : Option String) (reason : String) : List Piece :=
  match name with
  | some name => cell "td" (esc name)
  | none =>
      [⟨[], "td".toList⟩, ⟨[], "span class=dim".toList⟩, ⟨reason.toList, "/span".toList⟩,
        ⟨[], "/td".toList⟩]

def rowPieces (lang : Lang) (k : ConnKey) (c : Conn) : List Piece :=
  List.flatten
    [[⟨[], "tr".toList⟩], cell "td class=mono" k.proto.asStr.toList, cell "td" (esc c.state.text),
      nameCell c.domain (tr lang "no name" "имени нет"),
      cell "td class='mono ip'" (esc k.remote.text),
      cell "td class=mono" (toString k.rport.toNat).toList, cell "td class=dim" (esc (network c)),
      nameCell c.pname (unowned lang c), cell "td class=mono" (bytes lang c.txBytes).toList,
      cell "td class=mono" (bytes lang c.rxBytes).toList, [⟨[], "/tr".toList⟩]]

theorem print_rowPieces (lang : Lang) (k : ConnKey) (c : Conn) :
    print (rowPieces lang k c) = rowMarkup lang k c := by
  unfold rowPieces rowMarkup nameCell domainCell processCell
  cases c.domain <;> cases c.pname <;>
    simp only [cell, List.flatten_cons, List.flatten_nil, print, tag, String.reduceToList,
      List.cons_append, List.nil_append, List.append_assoc, List.append_nil]

/-! ## The pieces of the document -/

/-- A tag with nothing in front of it. -/
def bare (name : String) : Piece := ⟨[], name.toList⟩

/-- A tag at the start of a line. -/
def below (name : String) : Piece := ⟨['\n'], name.toList⟩

/-- An amount over its label. -/
def card (amount : List Char) (label : String) : List Piece :=
  [below "div class=card", bare "div class=n", ⟨amount, "/div".toList⟩, bare "div class=l",
    ⟨label.toList, "/div".toList⟩, bare "/div"]

def headPieces (lang : Lang) (title generated : String) (rows : List (ConnKey × Conn)) :
    List Piece :=
  let uniqIps := (rows.map fun row => row.1.remote.text).dedup
  let tx := (rows.map fun row => row.2.txBytes).sum
  let rx := (rows.map fun row => row.2.rxBytes).sum
  List.flatten
    [[bare "!doctype html", ⟨[], "html lang=".toList ++ (langCode lang).toList⟩, bare "head",
        bare "meta charset=utf-8",
        below "meta name=viewport content=\"width=device-width,initial-scale=1\"", bare "title",
        ⟨esc title, "/title".toList⟩, bare "style", ⟨styleSheet, "/style".toList⟩,
        bare "/head", bare "body", bare "div class=wrap", below "h1", ⟨esc title, "/h1".toList⟩,
        bare "p class=sub",
        ⟨(tr lang "SocketTrail, snapshot of" "SocketTrail, снимок от").toList ++
          (" ".toList ++ esc generated), "/p".toList⟩, below "div class=cards"],
      card (toString rows.length).toList (tr lang "connections" "соединений"),
      card (toString uniqIps.length).toList (tr lang "unique addresses" "уникальных адресов"),
      card (toString (uniqDom rows).length).toList
        (tr lang "domains identified" "доменов опознано"),
      card (bytes lang tx).toList (tr lang "outgoing traffic" "исходящий трафик"),
      card (bytes lang rx).toList (tr lang "incoming traffic" "входящий трафик"),
      [below "/div", below "h2", ⟨(tr lang "Connections" "Соединения").toList, "/h2".toList⟩,
        below "table", bare "thead", bare "tr", bare "th",
        ⟨(tr lang "Proto" "Протокол").toList, "th".toList⟩,
        ⟨(tr lang "State" "Состояние").toList, "th".toList⟩,
        ⟨(tr lang "Domain" "Домен").toList, "th".toList⟩,
        ⟨(tr lang "Address" "Адрес").toList, "th".toList⟩,
        ⟨(tr lang "Port" "Порт").toList, "th".toList⟩,
        ⟨(tr lang "Network" "Сеть").toList, "th".toList⟩,
        ⟨(tr lang "Process" "Процесс").toList, "th".toList⟩,
        ⟨(tr lang "Out" "Исх.").toList, "th".toList⟩,
        ⟨(tr lang "In" "Вх.").toList, "/tr".toList⟩, bare "/thead", below "tbody"]]

def tailPieces (lang : Lang) (rows : List (ConnKey × Conn)) : List Piece :=
  [bare "/tbody", bare "/table", below "h2",
    ⟨(tr lang "Domain list" "Список доменов").toList, "/h2".toList⟩, bare "pre",
    ⟨(uniqDom rows).flatMap fun d => esc d ++ ['\n'], "/pre".toList⟩, below "/div", bare "/body",
    bare "/html"]

theorem print_headPieces (lang : Lang) (title generated : String) (rows : List (ConnKey × Conn)) :
    print (headPieces lang title generated rows) = pageHead lang title generated rows := by
  unfold headPieces pageHead
  simp only [card, bare, below, List.flatten_cons, List.flatten_nil, print, tag,
    String.reduceToList, List.cons_append, List.nil_append, List.append_assoc, List.append_nil]

theorem print_tailPieces (lang : Lang) (rows : List (ConnKey × Conn)) :
    print (tailPieces lang rows) = pageTail lang rows := by
  unfold tailPieces pageTail
  simp only [bare, below, List.flatten_cons, List.flatten_nil, print, tag, String.reduceToList,
    List.cons_append, List.nil_append, List.append_nil]

/-- The pieces of the document. -/
def pieces (lang : Lang) (title generated : String) (rows : List (ConnKey × Conn)) : List Piece :=
  headPieces lang title generated rows ++
    (rows.flatMap (fun row => rowPieces lang row.1 row.2) ++ tailPieces lang rows)

theorem print_pieces (lang : Lang) (title generated : String) (rows : List (ConnKey × Conn)) :
    print (pieces lang title generated rows) = render lang title generated rows := by
  simp only [pieces, render, print_append, print_flatMap, print_headPieces, print_tailPieces,
    print_rowPieces]

/-! ## The pieces are sound -/

theorem cell_sound {attrs : String} {written : List Char} (hattrs : '>' ∉ attrs.toList)
    (hwritten : '<' ∉ written) : ∀ p ∈ cell attrs written, p.Sound := by
  simp only [cell, List.forall_mem_cons, List.not_mem_nil, false_imp_iff, implies_true, and_true,
    Piece.Sound]
  exact ⟨⟨by decide, hattrs⟩, hwritten, by decide⟩

theorem nameCell_sound {name : Option String} {reason : String} (h : Verbatim reason.toList) :
    ∀ p ∈ nameCell name reason, p.Sound := by
  cases name with
  | some name => exact cell_sound (by decide) (lt_notMem_esc name)
  | none =>
      simp only [nameCell, List.forall_mem_cons, List.not_mem_nil, false_imp_iff, implies_true,
        and_true, Piece.Sound]
      exact ⟨by decide, by decide, ⟨h.lt_notMem, by decide⟩, by decide⟩

theorem rowPieces_sound (lang : Lang) (k : ConnKey) (c : Conn) :
    ∀ p ∈ rowPieces lang k c, p.Sound := by
  simp only [rowPieces, List.mem_flatten, List.mem_cons, List.not_mem_nil, or_false]
  rintro p ⟨part, hpart, hp⟩
  have hbare (name : String) (hname : '>' ∉ name.toList) : Piece.Sound ⟨[], name.toList⟩ :=
    ⟨List.not_mem_nil, hname⟩
  rcases hpart with rfl | rfl | rfl | rfl | rfl | rfl | rfl | rfl | rfl | rfl | rfl
  · rw [List.mem_singleton.mp hp]
    exact hbare "tr" (by decide)
  · exact cell_sound (by decide) (verbatim_proto _).lt_notMem p hp
  · exact cell_sound (by decide) (lt_notMem_esc _) p hp
  · exact nameCell_sound (verbatim_noName lang) p hp
  · exact cell_sound (by decide) (lt_notMem_esc _) p hp
  · exact cell_sound (by decide) (verbatim_toString _).lt_notMem p hp
  · exact cell_sound (by decide) (lt_notMem_esc _) p hp
  · exact nameCell_sound (verbatim_unowned lang c) p hp
  · exact cell_sound (by decide) (verbatim_bytes lang _).lt_notMem p hp
  · exact cell_sound (by decide) (verbatim_bytes lang _).lt_notMem p hp
  · rw [List.mem_singleton.mp hp]
    exact hbare "/tr" (by decide)

theorem lt_notMem_styleSheet : '<' ∉ styleSheet := by
  have hlines : ∀ line ∈ styleLines, '<' ∉ line.toList := by
    simp only [styleLines, List.forall_mem_cons, List.not_mem_nil, false_imp_iff, implies_true,
      and_true, String.toList_append, List.mem_append, not_or]
    and_intros <;> exact notMem_literal (by decide +kernel)
  simp only [styleSheet, List.mem_cons, List.mem_flatMap, List.mem_append, not_or, not_exists,
    not_and, List.not_mem_nil]
  exact ⟨by decide, fun line hline => ⟨hlines line hline, by decide⟩⟩

theorem card_sound {amount : List Char} {label : String} (hamount : Verbatim amount)
    (hlabel : Verbatim label.toList) : ∀ p ∈ card amount label, p.Sound := by
  simp only [card, bare, below, List.forall_mem_cons, List.not_mem_nil, false_imp_iff, implies_true,
    and_true, Piece.Sound]
  exact ⟨by decide, by decide, ⟨hamount.lt_notMem, by decide⟩, by decide,
    ⟨hlabel.lt_notMem, by decide⟩, by decide⟩

theorem headPieces_sound (lang : Lang) (title generated : String)
    (rows : List (ConnKey × Conn)) : ∀ p ∈ headPieces lang title generated rows, p.Sound := by
  simp only [headPieces, List.mem_flatten, List.mem_cons, List.not_mem_nil, or_false]
  rintro p ⟨part, hpart, hp⟩
  rcases hpart with rfl | rfl | rfl | rfl | rfl | rfl | rfl
  · have hsnapshot : '<' ∉ (tr lang "SocketTrail, snapshot of" "SocketTrail, снимок от").toList ++
        (" ".toList ++ esc generated) := by
      simp only [List.mem_append, not_or]
      exact ⟨by cases lang <;> decide, by decide, lt_notMem_esc generated⟩
    revert p
    simp only [bare, below, List.forall_mem_cons, List.not_mem_nil, false_imp_iff, implies_true,
      and_true, Piece.Sound]
    exact ⟨by decide, ⟨by decide, by cases lang <;> decide⟩, by decide, by decide, by decide,
      by decide, ⟨lt_notMem_esc title, by decide⟩, by decide, ⟨lt_notMem_styleSheet, by decide⟩,
      by decide, by decide, by decide, by decide, ⟨lt_notMem_esc title, by decide⟩, by decide,
      ⟨hsnapshot, by decide⟩, by decide⟩
  · exact card_sound (verbatim_toString _) (by cases lang <;> decide) p hp
  · exact card_sound (verbatim_toString _) (by cases lang <;> decide) p hp
  · exact card_sound (verbatim_toString _) (by cases lang <;> decide) p hp
  · exact card_sound (verbatim_bytes lang _) (by cases lang <;> decide) p hp
  · exact card_sound (verbatim_bytes lang _) (by cases lang <;> decide) p hp
  · revert p
    simp only [bare, below, List.forall_mem_cons, List.not_mem_nil, false_imp_iff, implies_true,
      and_true, Piece.Sound]
    cases lang <;> and_intros <;> decide

theorem tailPieces_sound (lang : Lang) (rows : List (ConnKey × Conn)) :
    ∀ p ∈ tailPieces lang rows, p.Sound := by
  have hnames : '<' ∉ (uniqDom rows).flatMap fun d => esc d ++ ['\n'] := by
    simp only [List.mem_flatMap, List.mem_append, List.mem_singleton, not_exists, not_and, not_or]
    exact fun d _ => ⟨lt_notMem_esc d, by decide⟩
  simp only [tailPieces, bare, below, List.forall_mem_cons, List.not_mem_nil, false_imp_iff,
    implies_true, and_true, Piece.Sound]
  exact ⟨by decide, by decide, by decide, ⟨by cases lang <;> decide, by decide⟩, by decide,
    ⟨hnames, by decide⟩, by decide, by decide, by decide⟩

theorem pieces_sound (lang : Lang) (title generated : String) (rows : List (ConnKey × Conn)) :
    ∀ p ∈ pieces lang title generated rows, p.Sound := by
  intro p hp
  rcases List.mem_append.mp hp with hhead | hrest
  · exact headPieces_sound lang title generated rows p hhead
  · rcases List.mem_append.mp hrest with hrow | htail
    · obtain ⟨row, -, hrow⟩ := List.mem_flatMap.mp hrow
      exact rowPieces_sound lang row.1 row.2 p hrow
    · exact tailPieces_sound lang rows p htail

/-- A reader finds the pieces of the document. -/
theorem read_render (lang : Lang) (title generated : String) (rows : List (ConnKey × Conn)) :
    read (render lang title generated rows) =
      (pieces lang title generated rows).map Piece.element := by
  rw [← print_pieces]
  exact read_print_nil (pieces_sound lang title generated rows)

/-! ## The cells of the table -/

/-- What a row says, in the order of the columns. -/
def cellTexts (lang : Lang) (k : ConnKey) (c : Conn) : List String :=
  [k.proto.asStr, c.state.text, c.domain.getD (tr lang "no name" "имени нет"), k.remote.text,
    toString k.rport.toNat, network c, c.pname.getD (unowned lang c), bytes lang c.txBytes,
    bytes lang c.rxBytes]

/-- The end of a cell. -/
theorem tag_end (text : List Char) :
    (Element.mk text "/td".toList).tag = ['/', 't', 'd'] := by
  change "/td".toList = _
  decide

theorem cells_cell {attrs : String} {written : List Char} {rest : List Element}
    (h : ['t', 'd'].isPrefixOf attrs.toList = true) :
    cells ((cell attrs written).map Piece.element ++ rest) = unescape written :: cells rest := by
  change cells (⟨[], attrs.toList⟩ :: ⟨unescape written, "/td".toList⟩ :: rest) = _
  rw [cells_open h, cellsFrom_close (tag_end _), List.nil_append]

theorem cells_nameCell {name : Option String} {reason : String} {rest : List Element}
    (h : Verbatim reason.toList) :
    cells ((nameCell name reason).map Piece.element ++ rest) =
      (name.getD reason).toList :: cells rest := by
  cases name with
  | some name =>
      change cells ((cell "td" (esc name)).map Piece.element ++ rest) = _
      rw [cells_cell (by decide), unescape_esc]
      rfl
  | none =>
      have hspan : "span class=dim".toList ≠ ['/', 't', 'd'] := by decide
      have hspanEnd : "/span".toList ≠ ['/', 't', 'd'] := by decide
      change cells (⟨[], "td".toList⟩ :: ⟨[], "span class=dim".toList⟩ ::
        ⟨unescape reason.toList, "/span".toList⟩ :: ⟨[], "/td".toList⟩ :: rest) = _
      rw [cells_open (by decide), cellsFrom_inner hspan, cellsFrom_inner hspanEnd,
        cellsFrom_close (tag_end _), h.unescape, List.nil_append, List.nil_append, List.append_nil]
      rfl

theorem cells_rowPieces (lang : Lang) (k : ConnKey) (c : Conn) (rest : List Element) :
    cells ((rowPieces lang k c).map Piece.element ++ rest) =
      (cellTexts lang k c).map String.toList ++ cells rest := by
  have hopen (rest : List Element) :
      cells (List.map Piece.element [⟨[], "tr".toList⟩] ++ rest) = cells rest :=
    cells_cons_of_not (by decide)
  have hclose : cells (List.map Piece.element [⟨[], "/tr".toList⟩] ++ rest) = cells rest :=
    cells_cons_of_not (by decide)
  simp only [rowPieces, List.flatten_cons, List.flatten_nil, List.map_append, List.append_assoc,
    List.append_nil]
  rw [hopen, cells_cell (by decide), cells_cell (by decide), cells_nameCell (verbatim_noName lang),
    cells_cell (by decide), cells_cell (by decide), cells_cell (by decide),
    cells_nameCell (verbatim_unowned lang c), cells_cell (by decide), cells_cell (by decide),
    hclose, (verbatim_proto k.proto).unescape, unescape_esc, unescape_esc,
    (verbatim_toString k.rport.toNat).unescape, unescape_esc,
    (verbatim_bytes lang c.txBytes).unescape, (verbatim_bytes lang c.rxBytes).unescape]
  rfl

theorem cells_rows (lang : Lang) (rows : List (ConnKey × Conn)) (rest : List Element) :
    cells ((rows.flatMap fun row => rowPieces lang row.1 row.2).map Piece.element ++ rest) =
      (rows.flatMap fun row => (cellTexts lang row.1 row.2).map String.toList) ++ cells rest := by
  induction rows with
  | nil => rfl
  | cons row rows ih =>
      rw [List.flatMap_cons, List.map_append, List.append_assoc, cells_rowPieces, ih,
        List.flatMap_cons, List.append_assoc]

/-- The tags in front of the rows and behind them. -/
theorem headPieces_tags (lang : Lang) (title title' generated generated' : String)
    (rows rows' : List (ConnKey × Conn)) :
    (headPieces lang title generated rows).map Piece.tag =
      (headPieces lang title' generated' rows').map Piece.tag := by
  simp only [headPieces, card, List.flatten_cons, List.map_append, List.map_cons]

/-- Where no tag opens a cell there are none. -/
theorem cells_of_tags {pieces : List Piece} {rest : List Element}
    (h : ∀ name ∈ pieces.map Piece.tag, ['t', 'd'].isPrefixOf name = false) :
    cells (pieces.map Piece.element ++ rest) = cells rest := by
  apply cells_append_of_not
  intro e he
  obtain ⟨p, hp, rfl⟩ := List.mem_map.mp he
  exact h p.tag (List.mem_map_of_mem hp)

theorem cells_headPieces (lang : Lang) (title generated : String) (rows : List (ConnKey × Conn))
    (rest : List Element) :
    cells ((headPieces lang title generated rows).map Piece.element ++ rest) = cells rest := by
  apply cells_of_tags
  rw [headPieces_tags lang title "" generated "" rows []]
  cases lang <;> decide +kernel

theorem cells_tailPieces (lang : Lang) (rows : List (ConnKey × Conn)) :
    cells ((tailPieces lang rows).map Piece.element) = [] := by
  have hnone : cells ((tailPieces lang rows).map Piece.element ++ []) = cells [] := by
    apply cells_of_tags
    change ∀ name ∈ (tailPieces lang []).map Piece.tag, ['t', 'd'].isPrefixOf name = false
    cases lang <;> decide +kernel
  rwa [List.append_nil] at hnone

/-! ## The report as a reader finds it -/

/-- The names that two rows have. -/
def SameShape (a b : ConnKey × Conn) : Prop :=
  a.2.domain.isSome = b.2.domain.isSome ∧ a.2.pname.isSome = b.2.pname.isSome

theorem nameCell_tags {name name' : Option String} (h : name.isSome = name'.isSome)
    (reason reason' : String) :
    (nameCell name reason).map Piece.tag = (nameCell name' reason').map Piece.tag := by
  cases name with
  | some name =>
      obtain ⟨name', rfl⟩ := Option.isSome_iff_exists.mp h.symm
      rfl
  | none =>
      obtain rfl : name' = none := Option.isNone_iff_eq_none.mp (by simpa using h.symm)
      rfl

theorem rowPieces_tags {lang : Lang} {row row' : ConnKey × Conn} (h : SameShape row row') :
    (rowPieces lang row.1 row.2).map Piece.tag =
      (rowPieces lang row'.1 row'.2).map Piece.tag := by
  simp only [rowPieces, cell, List.flatten_cons, List.flatten_nil, List.map_append, List.map_cons,
    List.map_nil]
  rw [nameCell_tags h.1 _ (tr lang "no name" "имени нет"),
    nameCell_tags h.2 _ (unowned lang row'.2)]

theorem rowsPieces_tags {lang : Lang} {rows rows' : List (ConnKey × Conn)}
    (h : List.Forall₂ SameShape rows rows') :
    (rows.flatMap fun row => rowPieces lang row.1 row.2).map Piece.tag =
      (rows'.flatMap fun row => rowPieces lang row.1 row.2).map Piece.tag := by
  induction h with
  | nil => rfl
  | cons hrow _ ih =>
      rw [List.flatMap_cons, List.flatMap_cons, List.map_append, List.map_append,
        rowPieces_tags hrow, ih]

/-- The tags of a report depend on which rows have names, and on nothing that comes from
the network: no text opens a tag or closes one. -/
theorem tags_render {lang : Lang} {title title' generated generated' : String}
    {rows rows' : List (ConnKey × Conn)} (h : List.Forall₂ SameShape rows rows') :
    (read (render lang title generated rows)).map Element.tag =
      (read (render lang title' generated' rows')).map Element.tag := by
  have htags (pieces : List Piece) :
      (pieces.map Piece.element).map Element.tag = pieces.map Piece.tag := by
    rw [List.map_map]
    rfl
  rw [read_render, read_render, htags, htags]
  simp only [pieces, List.map_append]
  rw [headPieces_tags lang title title' generated generated' rows rows', rowsPieces_tags h]
  rfl

def sampleKey : ConnKey := ⟨.tcp, .ofOctets 10 0 0 2, 40000, .ofOctets 1 1 1 1, 443⟩

/-- A row whose names are markup. -/
def hostileRow : ConnKey × Conn :=
  (sampleKey, { Store.freshConn sampleKey true 1000 with
    domain := some "</td></table><script>alert(1)</script>"
    pname := some "'\"<b>&amp;" })

def plainRow : ConnKey × Conn :=
  (sampleKey, { Store.freshConn sampleKey true 1000 with
    domain := some "example.com"
    pname := some "curl" })

/-- Names that are markup leave the tags as they are. -/
theorem tags_render_hostile :
    (read (render .en "<h1>" "now" [hostileRow])).map Element.tag =
      (read (render .en "Network connections" "now" [plainRow])).map Element.tag :=
  tags_render (.cons ⟨by decide, by decide⟩ .nil)

/-- The list of names has each once, in order. -/
theorem uniqDom_spec (rows : List (ConnKey × Conn)) :
    (uniqDom rows).Pairwise (· < ·) ∧
      ∀ d, d ∈ uniqDom rows ↔ ∃ row ∈ rows, row.2.domain = some d := by
  constructor
  · have hnodup : (uniqDom rows).Nodup :=
      (List.mergeSort_perm _ _).nodup_iff.mpr (List.nodup_dedup _)
    have hsorted : (uniqDom rows).Pairwise (· ≤ ·) := List.pairwise_mergeSort' (· ≤ ·) _
    exact hsorted.imp₂ (fun _ _ hle hne => lt_of_le_of_ne hle hne) hnodup
  · intro d
    simp only [uniqDom, List.mem_mergeSort, List.mem_dedup, List.mem_filterMap]

/-- A list of names is read as it was, name by name. -/
theorem unescape_names (names : List String) :
    unescape (names.flatMap fun d => esc d ++ ['\n']) =
      names.flatMap fun d => d.toList ++ ['\n'] := by
  have hline (d : String) : esc d ++ ['\n'] = escape (d.toList ++ ['\n']) := by
    rw [esc_eq, escape, escape, List.flatMap_append]
    rfl
  have hwritten : (names.flatMap fun d => esc d ++ ['\n']) =
      escape (names.flatMap fun d => d.toList ++ ['\n']) := by
    simp only [hline, escape, List.flatMap_assoc]
  rw [hwritten, unescape_escape]

theorem cells_render (lang : Lang) (title generated : String) (rows : List (ConnKey × Conn)) :
    cells (read (render lang title generated rows)) =
      rows.flatMap fun row => (cellTexts lang row.1 row.2).map String.toList := by
  rw [read_render, pieces, List.map_append, List.map_append, cells_headPieces, cells_rows,
    cells_tailPieces, List.append_nil]

/-- A reader of the report finds in its table nine cells for every row, with what the row
says, the title in front of it, and behind it the names of the rows, each once and in
order: whatever characters they are made of. -/
theorem render_reads_back (lang : Lang) (title generated : String)
    (rows : List (ConnKey × Conn)) :
    cells (read (render lang title generated rows)) =
        (rows.flatMap fun row => (cellTexts lang row.1 row.2).map String.toList) ∧
      ⟨title.toList, "/title".toList⟩ ∈ read (render lang title generated rows) ∧
      ⟨title.toList, "/h1".toList⟩ ∈ read (render lang title generated rows) ∧
      ∃ names : List String, names.Pairwise (· < ·) ∧
        (∀ d, d ∈ names ↔ ∃ row ∈ rows, row.2.domain = some d) ∧
        ⟨names.flatMap fun d => d.toList ++ ['\n'], "/pre".toList⟩ ∈
          read (render lang title generated rows) := by
  have hpiece {p : Piece} (hp : p ∈ pieces lang title generated rows) :
      p.element ∈ read (render lang title generated rows) := by
    rw [read_render]
    exact List.mem_map_of_mem hp
  have htitle (closing : String)
      (h : ⟨esc title, closing.toList⟩ ∈ headPieces lang title generated rows) :
      ⟨title.toList, closing.toList⟩ ∈ read (render lang title generated rows) := by
    have helement := hpiece (List.mem_append_left _ h)
    rwa [Piece.element, unescape_esc] at helement
  refine ⟨?_, htitle "/title" ?_, htitle "/h1" ?_, uniqDom rows, (uniqDom_spec rows).1,
    (uniqDom_spec rows).2, ?_⟩
  · exact cells_render lang title generated rows
  · simp [headPieces]
  · simp [headPieces]
  · have hlist : ⟨(uniqDom rows).flatMap fun d => esc d ++ ['\n'], "/pre".toList⟩ ∈
        tailPieces lang rows := by simp [tailPieces]
    have helement := hpiece (List.mem_append_right _ (List.mem_append_right _ hlist))
    rwa [Piece.element, unescape_names] at helement

end SocketTrail.Report
