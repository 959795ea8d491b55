/-
# The report

One document holds the rows that were exported, to be read in a browser without the
program. Their names come from the network. Whatever they are, the document has the same
tags, and a reader finds in the cells of its table what the rows say.
-/

import SocketTrail.Foundation.Lines
import SocketTrail.Foundation.Markup
import SocketTrail.State.Enrich
import Mathlib.Data.List.Dedup

namespace SocketTrail.Report

open SocketTrail.Foundation SocketTrail.Foundation.Markup SocketTrail.Net SocketTrail.State

/-- Write a text for a character. -/
def replace (c : Char) (written : List Char) (text : List Char) : List Char :=
  text.flatMap fun d => if d = c then written else [d]

def esc (s : String) : List Char :=
  replace '\'' "&#39;".toList
    (replace '"' "&quot;".toList
      (replace '>' "&gt;".toList
        (replace '<' "&lt;".toList
          (replace '&' "&amp;".toList s.toList))))

/-! ## Amounts -/

/-- The nearest whole number to a fraction; of two, the even one. -/
def roundHalfEven (num den : ℕ) : ℕ :=
  let q := num / den
  let r := num % den
  if 2 * r < den then q else if den < 2 * r then q + 1 else q + q % 2

/-- The nearest number of 53 significant bits, as a conversion to floating point has it. -/
def asF64 (n : ℕ) : ℕ :=
  if n < 2 ^ 53 then n
  else
    let unit := 2 ^ (Nat.log2 n - 52)
    roundHalfEven n unit * unit

/-- An amount in a unit that is a power of two, with so many decimals. -/
def fixed (decimals n unit : ℕ) : String :=
  let scaled := roundHalfEven (asF64 n * 10 ^ decimals) unit
  let fraction := Nat.toDigits 10 (scaled % 10 ^ decimals)
  toString (scaled / 10 ^ decimals) ++ "." ++
    String.ofList (List.replicate (decimals - fraction.length) '0' ++ fraction)

def bytes (lang : Lang) (n : ℕ) : String :=
  if n = 0 then "-"
  else if n < 1024 then toString n ++ " " ++ tr lang "B" "Б"
  else if n < 1048576 then fixed 1 n 1024 ++ " " ++ tr lang "KB" "КБ"
  else if n < 1073741824 then fixed 2 n 1048576 ++ " " ++ tr lang "MB" "МБ"
  else fixed 2 n 1073741824 ++ " " ++ tr lang "GB" "ГБ"

/-! ## The document -/

/-- The code of a language. -/
def langCode : Lang → String
  | .en => "en"
  | .ru => "ru"

/-- The lines of the style sheet. -/
def styleLines : List String :=
  [":root\x7b--bg:#0f1115;--panel:#161a21;--panel2:#1c2129;--line:#2a313c;--txt:#e6e9ef;" ++
      "--dim:#9aa4b2;--accent:#7aa2f7\x7d",
    "@media (prefers-color-scheme:light)\x7b:root\x7b--bg:#f6f7f9;--panel:#fff;--panel2:#eef1f5;" ++
      "--line:#d8dee8;",
    " --txt:#1a1d23;--dim:#5b6472;--accent:#2f5fd0\x7d\x7d",
    "*\x7bbox-sizing:border-box\x7dbody\x7bmargin:0;background:var(--bg);color:var(--txt);",
    " font:15px/1.6 -apple-system,\"Segoe UI\",Roboto,Arial,sans-serif\x7d",
    ".wrap\x7bmax-width:1180px;margin:0 auto;padding:32px 16px 70px\x7d",
    "h1\x7bfont-size:26px;margin:0 0 4px;letter-spacing:-.02em\x7d",
    ".sub\x7bcolor:var(--dim);font-size:14px;margin:0 0 24px\x7d",
    ".cards\x7bdisplay:grid;grid-template-columns:repeat(auto-fit,minmax(150px,1fr));gap:12px;" ++
      "margin:20px 0\x7d",
    ".card\x7bbackground:var(--panel);border:1px solid var(--line);border-radius:10px;" ++
      "padding:14px 16px\x7d",
    ".card .n\x7bfont-size:22px;font-weight:600\x7d.card .l\x7bfont-size:12.5px;" ++
      "color:var(--dim)\x7d",
    "h2\x7bfont-size:19px;margin:38px 0 12px;padding-bottom:8px;" ++
      "border-bottom:1px solid var(--line)\x7d",
    "table\x7bwidth:100%;border-collapse:collapse;background:var(--panel);" ++
      "border:1px solid var(--line);",
    " border-radius:10px;overflow:hidden;font-size:13.5px\x7d",
    "th\x7bbackground:var(--panel2);text-align:left;padding:9px 11px;font-size:11.5px;" ++
      "color:var(--dim);",
    " text-transform:uppercase;letter-spacing:.05em\x7d",
    "td\x7bpadding:8px 11px;border-top:1px solid var(--line)\x7d",
    ".mono\x7bfont-family:ui-monospace,Menlo,Consolas,monospace;font-size:12.5px\x7d",
    ".ip\x7bcolor:var(--accent);font-weight:600\x7d.dim\x7bcolor:var(--dim)\x7d",
    "pre\x7bbackground:var(--panel2);border:1px solid var(--line);border-radius:8px;" ++
      "padding:12px 14px;",
    " font-family:ui-monospace,monospace;font-size:12.5px;overflow-x:auto\x7d"]

def styleSheet : List Char := '\n' :: styleLines.flatMap fun line => line.toList ++ ['\n']

/-- The name of a row. -/
def domainCell (lang : Lang) (c : Conn) : List Char :=
  match c.domain with
  | some d => esc d
  | none =>
      List.flatten
        ["<span class=dim>".toList, (tr lang "no name" "имени нет").toList, "</span>".toList]

/-- Why the owner of a row is not known. -/
def unowned (lang : Lang) (c : Conn) : String :=
  if c.fromPacketsOnly then tr lang "packets only" "только пакеты"
  else tr lang "owner unknown" "владелец неизвестен"

def processCell (lang : Lang) (c : Conn) : List Char :=
  match c.pname with
  | some name => esc name
  | none =>
      List.flatten ["<span class=dim>".toList, (unowned lang c).toList, "</span>".toList]

/-- The network of a row. -/
def network (c : Conn) : String := c.asn.getD "" ++ " " ++ c.owner.getD ""

def rowMarkup (lang : Lang) (k : ConnKey) (c : Conn) : List Char :=
  List.flatten
    ["<tr><td class=mono>".toList, k.proto.asStr.toList, "</td><td>".toList, esc c.state.text,
      "</td><td>".toList, domainCell lang c, "</td><td class='mono ip'>".toList,
      esc k.remote.text, "</td><td class=mono>".toList, (toString k.rport.toNat).toList,
      "</td><td class=dim>".toList, esc (network c), "</td><td>".toList, processCell lang c,
      "</td><td class=mono>".toList, (bytes lang c.txBytes).toList, "</td><td class=mono>".toList,
      (bytes lang c.rxBytes).toList, "</td></tr>".toList]

/-- The different names of the rows, in the order of their bytes. -/
def uniqDom (rows : List (ConnKey × Conn)) : List String :=
  (rows.filterMap fun row => row.2.domain).dedup.mergeSort fun a b => a ≤ b

/-- What stands before the rows. -/
def pageHead (lang : Lang) (title generated : String) (rows : List (ConnKey × Conn)) :
    List Char :=
  let uniqIps := (rows.map fun row => row.1.remote.text).dedup
  let tx := (rows.map fun row => row.2.txBytes).sum
  let rx := (rows.map fun row => row.2.rxBytes).sum
  List.flatten
    ["<!doctype html><html lang=".toList, (langCode lang).toList,
      "><head><meta charset=utf-8>\n<meta name=viewport ".toList,
      "content=\"width=device-width,initial-scale=1\"><title>".toList,
      esc title, "</title><style>".toList, styleSheet,
      "</style></head><body><div class=wrap>\n<h1>".toList, esc title, "</h1><p class=sub>".toList,
      (tr lang "SocketTrail, snapshot of" "SocketTrail, снимок от").toList, " ".toList,
      esc generated, "</p>\n<div class=cards>\n<div class=card><div class=n>".toList,
      (toString rows.length).toList, "</div><div class=l>".toList,
      (tr lang "connections" "соединений").toList,
      "</div></div>\n<div class=card><div class=n>".toList, (toString uniqIps.length).toList,
      "</div><div class=l>".toList, (tr lang "unique addresses" "уникальных адресов").toList,
      "</div></div>\n<div class=card><div class=n>".toList,
      (toString (uniqDom rows).length).toList, "</div><div class=l>".toList,
      (tr lang "domains identified" "доменов опознано").toList,
      "</div></div>\n<div class=card><div class=n>".toList, (bytes lang tx).toList,
      "</div><div class=l>".toList, (tr lang "outgoing traffic" "исходящий трафик").toList,
      "</div></div>\n<div class=card><div class=n>".toList, (bytes lang rx).toList,
      "</div><div class=l>".toList, (tr lang "incoming traffic" "входящий трафик").toList,
      "</div></div>\n</div>\n<h2>".toList, (tr lang "Connections" "Соединения").toList,
      "</h2>\n<table><thead><tr><th>".toList, (tr lang "Proto" "Протокол").toList, "<th>".toList,
      (tr lang "State" "Состояние").toList, "<th>".toList, (tr lang "Domain" "Домен").toList,
      "<th>".toList, (tr lang "Address" "Адрес").toList, "<th>".toList,
      (tr lang "Port" "Порт").toList, "<th>".toList, (tr lang "Network" "Сеть").toList,
      "<th>".toList, (tr lang "Process" "Процесс").toList, "<th>".toList,
      (tr lang "Out" "Исх.").toList, "<th>".toList, (tr lang "In" "Вх.").toList,
      "</tr></thead>\n<tbody>".toList]

/-- What stands behind the rows. -/
def pageTail (lang : Lang) (rows : List (ConnKey × Conn)) : List Char :=
  List.flatten
    ["</tbody></table>\n<h2>".toList, (tr lang "Domain list" "Список доменов").toList,
      "</h2><pre>".toList, (uniqDom rows).flatMap fun d => esc d ++ ['\n'],
      "</pre>\n</div></body></html>".toList]

def render (lang : Lang) (title generated : String) (rows : List (ConnKey × Conn)) : List Char :=
  pageHead lang title generated rows ++
    (rows.flatMap (fun row => rowMarkup lang row.1 row.2) ++ pageTail lang rows)

end SocketTrail.Report
