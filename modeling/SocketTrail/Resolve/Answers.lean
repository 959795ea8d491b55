/-
# What the resolver finds about an address

The name of an address and the network it belongs to, read from what the tools of the
system print: `resolvectl` first, which knows the servers of every interface, and `dig`
where it gives no answer; on the other system, from the records of its own resolver.
What the tools print is an input. Whatever it is, only a name can come out as a name.
-/

import SocketTrail.Foundation.Lines
import SocketTrail.State.Enrich

namespace SocketTrail.Resolve

open SocketTrail.Foundation SocketTrail.Net SocketTrail.State

inductive Answer
  | ok (text : List Char)
  /-- The answer came, and there is no record. -/
  | empty
  /-- There was no answer. -/
  | failed
  deriving DecidableEq, Repr

/-- What looks like a domain name. The column of names is not for the complaints of a
resolver. -/
def validName (s : List Char) : Bool :=
  s ≠ [] && (utf8 s).length ≤ 253 && s.contains '.' && !s.contains ' ' &&
    s.all fun c => c.isAlphanum || c = '.' || c = '-' || c = '_'

/-- The name of a zone of addresses. A network smaller than 256 addresses is delegated
by way of such a name. -/
def reverseZone (name : List Char) : Bool :=
  let n := (trimEndMatches '.' name).map Char.toLower
  ".in-addr.arpa".toList.isSuffixOf n || ".ip6.arpa".toList.isSuffixOf n

/-! ## The tools of Linux -/

/-- What a tool printed, and whether it succeeded. -/
structure Output where
  out : List Char
  err : List Char
  success : Bool

/-- The tools of the system: no output from one that cannot be started or takes longer
than five seconds. -/
abbrev Tools := String → List String → Option Output

def notFound (o : Output) : Bool := "not found".toList <:+: o.out ++ o.err

/-- The name that a line of `resolvectl` gives for the address. -/
def resolvectlName (ip : IpAddr) (line : List Char) : Option (List Char) :=
  match splitOnce [':', ' '] line with
  | none => none
  | some (head, rest) =>
      if trim head ≠ ip.text.toList then none
      else
        let name := trimEndMatches '.' (trim (before [' ', '-', '-', ' '] rest))
        if validName name && !reverseZone name then some name else none

def ptrResolvectl (run : Tools) (ip : IpAddr) : Answer :=
  match run "resolvectl" ["query", "--legend=no", ip.text] with
  | none => .failed
  | some o =>
      if notFound o then .empty
      else
        match (lines o.out).findSome? (resolvectlName ip) with
        | some name => .ok name
        | none => .failed

def txtResolvectl (run : Tools) (name : String) : Answer :=
  match run "resolvectl" ["query", "--legend=no", "--type=TXT", name] with
  | none => .failed
  | some o =>
      if notFound o then .empty
      else
        match (lines o.out).findSome? quoted with
        | some text => .ok text
        | none => .failed

/-- The line of `dig` complains that no server answered. -/
def noisy (line : List Char) : Bool :=
  let l := trim line
  ";; communications error".toList.isPrefixOf l ||
    ";; connection timed out".toList.isPrefixOf l ||
    ";; no servers could be reached".toList.isPrefixOf l || "dig:".toList.isPrefixOf l

/-- What `dig` prints. Its complaints stand among the answers, behind semicolons. -/
def digShort (run : Tools) (args : List String) (accept : List Char → Bool) : Answer :=
  match run "dig" (["+short", "+time=3", "+tries=2"] ++ args) with
  | none => .failed
  | some o =>
      match ((lines o.out).map trim).find? fun l => l ≠ [] && !(l.head? = some ';') && accept l with
      | some l => .ok (trimMatches '"' l)
      | none => if (lines o.out ++ lines o.err).any noisy || !o.success then .failed else .empty

/-! ## The resolver of Windows -/

/-- One record of an answer, with its texts. A host name is one text. -/
structure WinRecord where
  wType : ℕ
  texts : List (List Char)

/-- A reply of the system's resolver: its code and the records. -/
structure WinReply where
  rc : ℕ
  records : List WinRecord

/-- The first text of the type in a reply. There is no reply after five seconds, or when
the call breaks off. -/
def winQuery (ty : ℕ) : Option WinReply → Answer
  | none => .failed
  | some reply =>
      -- DNS_ERROR_RCODE_NAME_ERROR and DNS_INFO_NO_RECORDS
      if reply.rc = 9003 ∨ reply.rc = 9501 then .empty
      else if reply.rc ≠ 0 then .failed
      else
        match reply.records.find? fun r => r.wType = ty && r.texts.flatten ≠ [] with
        | some r => .ok r.texts.flatten
        | none => .empty

/-! ## Either system -/

/-- What answers the questions about one address. -/
inductive Resolver
  | linux (haveResolvectl : Bool) (run : Tools)
  | windows (dnsQuery : String → ℕ → Option WinReply)

/-- The four bytes in reverse. The zone of IPv6 addresses is another one. -/
def reverseName : IpAddr → Option String
  | .v4 a => some (String.intercalate "." ([3, 2, 1, 0].map fun i => toString (IpAddr.octet a i)))
  | .v6 _ => none

/-- The name of an address in its zone. -/
def arpa : IpAddr → String
  | .v4 a => (reverseName (.v4 a)).getD (IpAddr.v4Text a) ++ ".in-addr.arpa"
  | .v6 a =>
      String.join ((List.range 16).map fun i =>
        let b := a.toNat / 256 ^ i % 256
        IpAddr.hexGroup (b % 16) ++ "." ++ IpAddr.hexGroup (b / 16) ++ ".") ++ "ip6.arpa"

namespace Resolver

def ptr (r : Resolver) (ip : IpAddr) : Answer :=
  match r with
  | .linux haveResolvectl run =>
      let fallback :=
        match digShort run ["-x", ip.text] fun l => !reverseZone l with
        | .ok s =>
            let s := trimEndMatches '.' s
            if validName s then .ok s else .empty
        | other => other
      if haveResolvectl then
        match ptrResolvectl run ip with
        | .failed => fallback
        | other => other
      else fallback
  | .windows dnsQuery =>
      match winQuery 12 (dnsQuery (arpa ip) 12) with
      | .ok s =>
          let s := trimEndMatches '.' s
          if validName s && !reverseZone s then .ok s else .empty
      | other => other

def txt (r : Resolver) (name : String) : Answer :=
  match r with
  | .linux haveResolvectl run =>
      let fallback := digShort run ["TXT", name] fun _ => true
      if haveResolvectl then
        match txtResolvectl run name with
        | .failed => fallback
        | other => other
      else fallback
  | .windows dnsQuery => winQuery 16 (dnsQuery name 16)

end Resolver

/-- The first network of an answer about the origin of an address. Where there are
several, blanks stand between them. -/
def originAsn (line : List Char) : Option (List Char) :=
  (splitWhiteSpace (line.takeWhile (· ≠ '|'))).head?.filter fun a => a.all Char.isDigit

/-- The owner of a network: what stands last. -/
def networkOwner (line : List Char) : Option (List Char) :=
  ((line.splitOn '|').getLast?.map trim).filter (· ≠ [])

def lookup (r : Resolver) (ip : IpAddr) : Whois :=
  let w : Whois :=
    match r.ptr ip with
    | .ok name => { ptr := some (String.ofList name), asn := none, owner := none, failed := false }
    | .empty => { ptr := none, asn := none, owner := none, failed := false }
    | .failed => { ptr := none, asn := none, owner := none, failed := true }
  match reverseName ip with
  | none => w
  | some rev =>
      match r.txt (rev ++ ".origin.asn.cymru.com") with
      | .ok line =>
          match originAsn line with
          | none => w
          | some a =>
              let w := { w with asn := some ("AS" ++ String.ofList a) }
              match r.txt ("AS" ++ String.ofList a ++ ".asn.cymru.com") with
              | .ok line => { w with owner := (networkOwner line).map String.ofList }
              | .empty => w
              | .failed => { w with failed := true }
      | .empty => w
      | .failed => { w with failed := true }

/-! ## Only names come out as names -/

variable {r : Resolver} {ip : IpAddr} {run : Tools}

theorem ptrResolvectl_ok {name : List Char} (h : ptrResolvectl run ip = .ok name) :
    validName name = true ∧ reverseZone name = false := by
  unfold ptrResolvectl at h
  cases hrun : run "resolvectl" ["query", "--legend=no", ip.text] with
  | none => simp [hrun] at h
  | some o =>
      simp only [hrun] at h
      split at h
      · contradiction
      · split at h
        · rename_i found hfound
          cases h
          obtain ⟨line, -, hline⟩ := List.exists_of_findSome?_eq_some hfound
          unfold resolvectlName at hline
          split at hline
          · contradiction
          · split at hline
            · contradiction
            · obtain ⟨hgood, heq⟩ := Option.ite_none_right_eq_some.mp hline
              cases heq
              simpa using hgood
        · contradiction

theorem ptr_ok {name : List Char} (h : r.ptr ip = .ok name) : validName name = true := by
  have hchecked {a : Answer} {extra : List Char → Bool}
      (ha : (match a with
        | .ok s => if validName (trimEndMatches '.' s) && extra (trimEndMatches '.' s)
            then Answer.ok (trimEndMatches '.' s) else .empty
        | other => other) = .ok name) : validName name = true := by
    cases a with
    | ok s =>
        simp only at ha
        split at ha
        · rename_i hgood
          cases ha
          exact (Bool.and_eq_true_iff.mp hgood).1
        · contradiction
    | empty => contradiction
    | failed => contradiction
  cases r with
  | linux haveResolvectl run =>
      have hdig := @hchecked (digShort run ["-x", ip.text] fun l => !reverseZone l) fun _ => true
      simp only [Bool.and_true] at hdig
      unfold Resolver.ptr at h
      simp only at h
      split at h
      · cases hfirst : ptrResolvectl run ip with
        | ok first =>
            rw [hfirst] at h
            cases h
            exact (ptrResolvectl_ok hfirst).1
        | empty => simp [hfirst] at h
        | failed =>
            simp only [hfirst] at h
            exact hdig h
      · exact hdig h
  | windows dnsQuery => exact @hchecked _ (fun s => !reverseZone s) h

/-- What was found is a name, a number of a network, and an owner of that network. -/
structure Proper (w : Whois) : Prop where
  ptr : ∀ p, w.ptr = some p → validName p.toList = true
  asn : ∀ a, w.asn = some a →
    ∃ digits, digits ≠ [] ∧ (∀ c ∈ digits, c.isDigit = true) ∧ a = "AS" ++ String.ofList digits
  owner : ∀ o, w.owner = some o → o ≠ "" ∧ '|' ∉ o.toList
  owned : w.owner.isSome = true → w.asn.isSome = true

theorem originAsn_eq_some {line a : List Char} (h : originAsn line = some a) :
    a ≠ [] ∧ ∀ c ∈ a, c.isDigit = true := by
  obtain ⟨hhead, hdigits⟩ := Option.filter_eq_some_iff.mp h
  have hmem : a ∈ splitWhiteSpace (line.takeWhile (· ≠ '|')) := List.mem_of_head? hhead
  have hne := (List.mem_filter.mp hmem).2
  exact ⟨by simpa using hne, List.all_eq_true.mp hdigits⟩

theorem networkOwner_eq_some {line o : List Char} (h : networkOwner line = some o) :
    o ≠ [] ∧ '|' ∉ o := by
  obtain ⟨hlast, hne⟩ := Option.filter_eq_some_iff.mp h
  obtain ⟨piece, hpiece, rfl⟩ := Option.map_eq_some_iff.mp hlast
  refine ⟨by simpa using hne, ?_⟩
  intro hbar
  exact notMem_of_mem_splitOn (List.mem_of_getLast? hpiece) (mem_of_mem_trim hbar)

section Found

variable {p : Option String}

theorem Proper.named (failed : Bool) (h : ∀ name, p = some name → validName name.toList = true) :
    Proper ⟨p, none, none, failed⟩ :=
  ⟨h, by simp, by simp, by simp⟩

theorem Proper.network {failed failed' : Bool} {a : List Char} {o : Option String}
    (h : Proper ⟨p, none, none, failed⟩) (ha : a ≠ [] ∧ ∀ c ∈ a, c.isDigit = true)
    (ho : ∀ text, o = some text → text ≠ "" ∧ '|' ∉ text.toList) :
    Proper ⟨p, some ("AS" ++ String.ofList a), o, failed'⟩ where
  ptr := h.ptr
  asn text htext := by
    cases htext
    exact ⟨a, ha.1, ha.2, rfl⟩
  owner := ho
  owned _ := rfl

end Found

/-- Whatever the tools print, what a lookup finds is proper. -/
theorem proper_lookup (r : Resolver) (ip : IpAddr) : Proper (lookup r ip) := by
  have hname : ∃ p failed, Proper ⟨p, none, none, failed⟩ ∧
      (match r.ptr ip with
        | .ok name => ⟨some (String.ofList name), none, none, false⟩
        | .empty => ⟨none, none, none, false⟩
        | .failed => ⟨none, none, none, true⟩ : Whois) = ⟨p, none, none, failed⟩ := by
    cases hptr : r.ptr ip with
    | ok name =>
        refine ⟨_, _, .named _ ?_, rfl⟩
        intro text htext
        cases htext
        rw [String.toList_ofList]
        exact ptr_ok hptr
    | empty => exact ⟨_, _, .named _ (by simp), rfl⟩
    | failed => exact ⟨_, _, .named _ (by simp), rfl⟩
  obtain ⟨p, failed, hproper, hw⟩ := hname
  unfold lookup
  simp only [hw]
  split
  · exact hproper
  · split
    · split
      · exact hproper
      · rename_i a ha
        have hdigits := originAsn_eq_some ha
        split
        · rename_i line _
          apply hproper.network hdigits
          intro text htext
          obtain ⟨o, ho, rfl⟩ := Option.map_eq_some_iff.mp htext
          have howner := networkOwner_eq_some ho
          rw [String.toList_ofList, ne_eq, String.ofList_eq_empty_iff]
          exact howner
        · exact hproper.network hdigits (by simp)
        · exact hproper.network hdigits (by simp)
    · exact hproper
    · exact .named true hproper.ptr

/-! ## What is printed is read -/

/-- What is left of a printed name, if it is of use. -/
def usable (name : List Char) : Option (List Char) :=
  let n := trimEndMatches '.' name
  if validName n && !reverseZone n then some n else none

/-- A line with a name: of which address it is, and by which link it came. -/
structure PtrLine where
  address : List Char
  name : List Char
  link : List Char

/-- A line with a text in quotes. -/
structure TxtLine where
  first : List Char
  content : List Char
  link : List Char

namespace PtrLine

def text (l : PtrLine) : List Char :=
  l.address ++ [':', ' '] ++ (l.name ++ [' ', '-', '-', ' '] ++ l.link)

/-- No blanks in the address and the name, and one line. -/
structure Plain (l : PtrLine) : Prop where
  address : ∀ c ∈ l.address, isWhiteSpace c = false
  name : ∀ c ∈ l.name, isWhiteSpace c = false
  link : IsLine l.link

/-- What a line says about the address. -/
def nameOf (ip : IpAddr) (l : PtrLine) : Option (List Char) :=
  if l.address = ip.text.toList then usable l.name else none

variable {l : PtrLine}

theorem isLine (h : l.Plain) : IsLine l.text where
  noEnd := by
    have haddress : '\n' ∉ l.address := fun hend =>
      absurd (h.address _ hend) (by decide)
    have hname : '\n' ∉ l.name := fun hend => absurd (h.name _ hend) (by decide)
    simp [text, haddress, hname, h.link.noEnd]
  noReturn := by
    have htext : l.text = l.address ++ [':', ' '] ++ l.name ++ [' ', '-', '-'] ++ [' '] ++ l.link := by
      simp [text]
    have hlink := h.link.noReturn
    rw [htext, List.getLast?_append]
    cases hlast : l.link.getLast? with
    | none =>
        rw [Option.none_or, List.getLast?_concat]
        decide
    | some c =>
        rw [hlast] at hlink
        exact hlink

theorem resolvectlName_text (h : l.Plain) (ip : IpAddr) :
    resolvectlName ip l.text = l.nameOf ip := by
  have haddress : ' ' ∉ l.address := fun hblank => absurd (h.address _ hblank) (by decide)
  have hname : ' ' ∉ l.name := fun hblank => absurd (h.name _ hblank) (by decide)
  have hsplit : splitOnce [':', ' '] l.text =
      some (l.address, l.name ++ [' ', '-', '-', ' '] ++ l.link) :=
    splitOnce_of_second (by decide) haddress
  have hbefore : before [' ', '-', '-', ' '] (l.name ++ [' ', '-', '-', ' '] ++ l.link) = l.name :=
    before_of_head hname
  unfold resolvectlName nameOf usable
  simp only [hsplit, hbefore, trim_of_noBlanks h.address, trim_of_noBlanks h.name]
  by_cases hip : l.address = ip.text.toList
  · rw [if_neg (not_not.mpr hip), if_pos hip]
  · rw [if_pos hip, if_neg hip]

end PtrLine

namespace TxtLine

def text (l : TxtLine) : List Char := l.first ++ '"' :: (l.content ++ '"' :: l.link)

/-- No quotes but those around the text, and one line. -/
structure Plain (l : TxtLine) : Prop where
  first : '"' ∉ l.first
  content : '"' ∉ l.content
  line : IsLine l.text

end TxtLine

/-- The tool was asked and printed these lines, none of which says that nothing was
found. -/
def Printed (run : Tools) (args : List String) (printed : List (List Char)) : Prop :=
  ∃ o, run "resolvectl" ("query" :: "--legend=no" :: args) = some o ∧
    o.out = printLines printed ∧ notFound o = false

/-- The first name that is printed for the address and is of use, is its name. Names of
zones in between, and names of other addresses, are passed over. -/
theorem ptrResolvectl_printed {shown : List PtrLine} (hplain : ∀ l ∈ shown, l.Plain)
    (h : Printed run [ip.text] (shown.map PtrLine.text)) :
    ptrResolvectl run ip =
      match shown.findSome? (PtrLine.nameOf ip) with
      | some name => .ok name
      | none => .failed := by
  obtain ⟨o, hrun, hout, hfound⟩ := h
  have hlines : lines o.out = shown.map PtrLine.text := by
    rw [hout]
    apply lines_printLines
    intro line hline
    obtain ⟨l, hl, rfl⟩ := List.mem_map.mp hline
    exact PtrLine.isLine (hplain l hl)
  have hnames : (lines o.out).findSome? (resolvectlName ip) =
      shown.findSome? (PtrLine.nameOf ip) := by
    rw [hlines, List.findSome?_map]
    clear hout hlines
    induction shown with
    | nil => rfl
    | cons l rest ih =>
        obtain ⟨hl, hrest⟩ := List.forall_mem_cons.mp hplain
        rw [List.findSome?_cons, List.findSome?_cons, Function.comp_apply,
          PtrLine.resolvectlName_text hl, ih hrest]
  unfold ptrResolvectl
  simp only [hrun, hfound, hnames, Bool.false_eq_true, if_false]

/-- The text of the first line is read as it was printed. -/
theorem txtResolvectl_printed {name : String} {l : TxtLine} {rest : List TxtLine}
    (hplain : ∀ l' ∈ l :: rest, l'.Plain)
    (h : Printed run ["--type=TXT", name] ((l :: rest).map TxtLine.text)) :
    txtResolvectl run name = .ok l.content := by
  obtain ⟨o, hrun, hout, hfound⟩ := h
  have hlines : lines o.out = (l :: rest).map TxtLine.text := by
    rw [hout]
    apply lines_printLines
    intro line hline
    obtain ⟨l', hl', rfl⟩ := List.mem_map.mp hline
    exact (hplain l' hl').line
  have hl := hplain l List.mem_cons_self
  have hquoted : quoted l.text = some l.content := quoted_append hl.first hl.content
  unfold txtResolvectl
  simp only [hrun, hfound, hlines, Bool.false_eq_true, if_false, List.map_cons,
    List.findSome?_cons, hquoted]

theorem originAsn_append {digits rest : List Char} (hne : digits ≠ [])
    (hdigits : ∀ c ∈ digits, c.isDigit = true) :
    originAsn (digits ++ ' ' :: rest) = some digits := by
  have hbar : ∀ c ∈ digits, decide (c ≠ '|') = true := by
    intro c hc
    have hdigit := hdigits c hc
    rw [decide_eq_true_eq]
    rintro rfl
    contradiction
  have hblank : ∀ c ∈ digits, isWhiteSpace c = false := by
    intro c hc
    have hdigit := hdigits c hc
    simp only [Char.isDigit, Bool.and_eq_true, decide_eq_true_eq, ge_iff_le,
      UInt32.le_iff_toNat_le] at hdigit
    have hnat : c.toNat = c.val.toNat := rfl
    have hzero : '0'.val.toNat = 48 := rfl
    have hnine : '9'.val.toNat = 57 := rfl
    simp only [isWhiteSpace, decide_eq_false_iff_not]
    omega
  have hpieces : splitWhiteSpace (digits ++ ' ' :: rest.takeWhile fun c => c ≠ '|') =
      digits :: splitWhiteSpace (rest.takeWhile fun c => c ≠ '|') := by
    unfold splitWhiteSpace
    rw [List.splitOnP_append_cons_of_forall_mem hblank _ (by decide),
      List.filter_cons_of_pos (by simpa using hne)]
  unfold originAsn
  rw [List.takeWhile_append_of_pos hbar, List.takeWhile_cons_of_pos (by decide), hpieces,
    List.head?_cons]
  exact Option.filter_eq_some_iff.mpr ⟨rfl, List.all_eq_true.mpr hdigits⟩

theorem networkOwner_append {first owner : List Char} (hbar : '|' ∉ owner)
    (hne : trim owner ≠ []) : networkOwner (first ++ '|' :: owner) = some (trim owner) := by
  have hlast : ((first ++ '|' :: owner).splitOn '|').getLast? = some owner := by
    rw [List.splitOn_append_cons_self, List.splitOn_eq_singleton hbar, List.getLast?_concat]
  unfold networkOwner
  rw [hlast]
  exact Option.filter_eq_some_iff.mpr ⟨rfl, by simpa using hne⟩

/-- The servers know the address: its name, the network that announces it, and the owner
of the network stand where they are looked for in what `resolvectl` prints. -/
structure Told (run : Tools) (a : BitVec 32) (name digits owner : List Char) : Prop where
  named : ∃ shown : List PtrLine, (∀ l ∈ shown, l.Plain) ∧
    Printed run [(IpAddr.v4 a).text] (shown.map PtrLine.text) ∧
      shown.findSome? (PtrLine.nameOf (.v4 a)) = some name
  number : digits ≠ [] ∧ ∀ c ∈ digits, c.isDigit = true
  origin : ∃ (l : TxtLine) (rest : List TxtLine) (more : List Char),
    (∀ l' ∈ l :: rest, l'.Plain) ∧ l.content = digits ++ ' ' :: more ∧
      ∀ rev, reverseName (.v4 a) = some rev →
        Printed run ["--type=TXT", rev ++ ".origin.asn.cymru.com"]
          ((l :: rest).map TxtLine.text)
  oneField : '|' ∉ owner ∧ trim owner ≠ []
  network : ∃ (l : TxtLine) (rest : List TxtLine) (first : List Char),
    (∀ l' ∈ l :: rest, l'.Plain) ∧ l.content = first ++ '|' :: owner ∧
      Printed run ["--type=TXT", "AS" ++ String.ofList digits ++ ".asn.cymru.com"]
        ((l :: rest).map TxtLine.text)

/-- What the servers know of an address is what a lookup finds. -/
theorem lookup_told {a : BitVec 32} {name digits owner : List Char}
    (h : Told run a name digits owner) :
    lookup (.linux true run) (.v4 a) =
      { ptr := some (String.ofList name)
        asn := some ("AS" ++ String.ofList digits)
        owner := some (String.ofList (trim owner))
        failed := false } := by
  obtain ⟨shown, hshown, hprinted, hname⟩ := h.named
  have hptr : Resolver.ptr (.linux true run) (.v4 a) = .ok name := by
    have hfirst := ptrResolvectl_printed hshown hprinted
    rw [hname] at hfirst
    unfold Resolver.ptr
    simp only [hfirst, if_true]
  have htxt {name : String} {l : TxtLine} {rest : List TxtLine}
      (hplain : ∀ l' ∈ l :: rest, l'.Plain)
      (h : Printed run ["--type=TXT", name] ((l :: rest).map TxtLine.text)) :
      Resolver.txt (.linux true run) name = .ok l.content := by
    unfold Resolver.txt
    simp only [txtResolvectl_printed hplain h, if_true]
  obtain ⟨o, os, more, hos, hcontent, horigin⟩ := h.origin
  obtain ⟨n, ns, first, hns, htext, hnetwork⟩ := h.network
  have hasn : originAsn (digits ++ ' ' :: more) = some digits :=
    originAsn_append h.number.1 h.number.2
  have howner : networkOwner (first ++ '|' :: owner) = some (trim owner) :=
    networkOwner_append h.oneField.1 h.oneField.2
  unfold lookup
  rw [hptr]
  simp only [reverseName] at horigin ⊢
  simp only [htxt hos (horigin _ rfl), hcontent, hasn, htxt hns hnetwork, htext, howner,
    Option.map_some]

/-- A network smaller than 256 addresses: the zone in between comes first. -/
def sampleNames : List PtrLine :=
  [⟨"192.0.2.35".toList, "35.32-63.2.0.192.in-addr.arpa".toList, "eth0".toList⟩,
    ⟨"192.0.2.35".toList, "host.example.net".toList, "eth0".toList⟩]

def sampleOrigin : TxtLine where
  first := "origin IN TXT ".toList
  content := "64500 64501 | 192.0.2.0/24 | US".toList
  link := " -- eth0".toList

def sampleNetwork : TxtLine where
  first := "network IN TXT ".toList
  content := "64500 | US | Example network".toList
  link := " -- eth0".toList

def sampleTools : Tools := fun _ args =>
  if args.length = 3 then some ⟨printLines (sampleNames.map PtrLine.text), [], true⟩
  else if args.getLast? = some "AS64500.asn.cymru.com" then
    some ⟨printLines [sampleNetwork.text], [], true⟩
  else some ⟨printLines [sampleOrigin.text], [], true⟩

theorem lookup_told_sample :
    lookup (.linux true sampleTools) (.ofOctets 192 0 2 35) =
      { ptr := some "host.example.net"
        asn := some "AS64500"
        owner := some "Example network"
        failed := false } := by
  have hnames : ∀ l ∈ sampleNames, l.Plain := by
    intro l hl
    have hnone {text : List Char} (h : (text.all fun c => isWhiteSpace c = false) = true) :
        ∀ c ∈ text, isWhiteSpace c = false := by simpa using h
    rcases List.mem_pair.mp hl with rfl | rfl <;>
      exact ⟨hnone (by decide), hnone (by decide), by decide, by decide⟩
  have hplain {l : TxtLine} (h : l.Plain) : ∀ l' ∈ [l], l'.Plain := by
    intro l' hl'
    rwa [List.mem_singleton.mp hl']
  have htold : Told sampleTools (BitVec.ofNat 32 3221226019) "host.example.net".toList
      "64500".toList " Example network".toList :=
    { named := ⟨sampleNames, hnames, ⟨_, rfl, rfl, by decide +kernel⟩, by decide⟩
      number := ⟨by decide, List.all_eq_true.mp (by decide)⟩
      origin := ⟨sampleOrigin, [], "64501 | 192.0.2.0/24 | US".toList,
        hplain ⟨by decide, by decide, by decide, by decide⟩, rfl, by
          intro rev hrev
          cases hrev
          exact ⟨_, rfl, rfl, by decide +kernel⟩⟩
      oneField := by decide
      network := ⟨sampleNetwork, [], "64500 | US ".toList,
        hplain ⟨by decide, by decide, by decide, by decide⟩, rfl,
          ⟨_, rfl, rfl, by decide +kernel⟩⟩ }
  exact lookup_told htold

end SocketTrail.Resolve
