/-
# The process scanner of Linux

A pass of the scanner reads one line for every process, `/proc/<pid>/stat`. The
name of the process stands in parentheses and may hold anything, so the fields are
counted from the last closing one. `StatLine` is a line as the kernel lays it out;
`parseStat_line` says what the parser makes of it. Before the parser the line is
read as text, and a line that is no text takes its process out of the list.
-/

import SocketTrail.Foundation.Execution
import SocketTrail.Foundation.KeyedMap
import SocketTrail.Foundation.Text
import SocketTrail.Foundation.Unicode
import SocketTrail.Net.Process
import SocketTrail.Net.Sockets

namespace SocketTrail.Net

open SocketTrail.Foundation

/-! ## The line -/

/-- The value of decimal digits below a limit. -/
def decimalBelow (limit : ℕ) (digits : List Char) : Option ℕ :=
  if digits = [] then none
  else
    digits.foldlM (fun n c => do
      let d ← digitValue 10 c
      if n * 10 + d < limit then some (n * 10 + d) else none) 0

/-- A signed number of 32 bits. -/
def parseI32 (text : List Char) : Option ℤ :=
  match text with
  | '-' :: digits => (decimalBelow (2 ^ 31 + 1) digits).map fun n : ℕ => -(n : ℤ)
  | _ => (fromStrRadix 10 31 text).map fun n : ℕ => (n : ℤ)

example : parseI32 "-20".toList = some (-20) := by decide

/-- The fields of the line that are read on every pass. -/
structure Stat where
  comm : List Char
  ppid : ℤ
  started : ℕ
  deriving DecidableEq, Repr

/-- Read the line: the name between the first opening and the last closing
parenthesis, the other fields behind it. -/
def parseStat (s : List Char) : Option Stat := do
  let opening ← s.findIdx? (· == '(')
  let fromEnd ← s.reverse.findIdx? (· == ')')
  let closing := s.length - 1 - fromEnd
  guard (opening + 1 ≤ closing)
  let comm := (s.take closing).drop (opening + 1)
  let fields := splitWhiteSpace (s.drop (closing + 1))
  let ppid ← parseI32 (← fields[1]?)
  let started ← fromStrRadix 10 64 (← fields[19]?)
  some { comm := comm, ppid := ppid, started := started }

example : parseStat "42 (Web (Content) x) S 17 4 4 0 -1 4 1 0 0 0 5 3 0 0 20 0 9 0 98 1".toList =
    some { comm := "Web (Content) x".toList, ppid := 17, started := 98 } := by
  decide +kernel

/-! ## The cache -/

/-- A process as the scanner remembers it. -/
structure Entry where
  info : ProcInfo
  started : ℕ
  deriving DecidableEq, Repr

/-- What the files of one process read as in a pass. -/
structure ProcFiles where
  stat : Option Bytes
  cmdline : Option Bytes

/-- The name of the program of a process under Wine: the base name of the last
argument that ends like one. -/
def exeFromCmdline (cmdline : List Char) : Option (List Char) :=
  (((splitWhiteSpace cmdline).filter fun t => ".exe".toList <:+ t.map Char.toLower).map fun t =>
    let base := (t.reverse.takeWhile fun c => c ≠ '/' ∧ c ≠ '\\').reverse
    ((base.dropWhile (· = '"')).reverse.dropWhile (· = '"')).reverse).getLast?

/-- Read a process in full; one without a name is none. -/
def readProc (pid : ℤ) (st : Stat) (cmdline : Option Bytes) : Option ProcInfo :=
  if st.comm = [] then none
  else
    let text := (fromUtf8Lossy (cmdline.getD [])).toList
    let cmdline := trim (text.map fun c => if c = Char.ofNat 0 then ' ' else c)
    let lower := cmdline.map Char.toLower
    let proton := "proton".toList <:+: lower ∨ "/wine".toList <:+: lower ∨
      "pressure-vessel".toList <:+: lower ∨ "wine".toList <+: st.comm ∨ ".exe".toList <:+ st.comm
    let name := if proton then (exeFromCmdline cmdline).getD st.comm else st.comm
    some {
      pid := pid
      started := st.started
      ppid := st.ppid
      comm := String.ofList st.comm
      name := String.ofList name
      cmdline := String.ofList cmdline
      proton := proton }

abbrev Scanner := KeyedMap ℤ Entry

namespace Scanner

/-- Read a process in full into the cache. -/
def renew (pid : ℤ) (st : Stat) (cmdline : Option Bytes) (cache : Scanner) : Scanner :=
  match readProc pid st cmdline with
  | some info => cache.insert pid { info := info, started := st.started }
  | none => cache.erase pid

/-- Look at one process. A known one with the same start and the same name only
takes its parent from the line. -/
def update (pid : ℤ) (files : ProcFiles) (cache : Scanner) : Scanner :=
  match (files.stat.bind fromUtf8).bind parseStat with
  | none => cache.erase pid
  | some st =>
      match cache.lookup pid with
      | none => renew pid st files.cmdline cache
      | some e =>
          if e.started = st.started ∧ e.info.comm = String.ofList st.comm then
            cache.insert pid { e with info := { e.info with ppid := st.ppid } }
          else renew pid st files.cmdline cache

/-- What a pass does to the cache: it looks at a process, or it forgets those that
it did not meet. -/
inductive Act
  | update (pid : ℤ) (files : ProcFiles)
  | retain (alive : List ℤ)

def step (cache : Scanner) : Act → Scanner
  | .update pid files => cache.update pid files
  | .retain alive => KeyedMap.filterMap (fun pid e => if pid ∈ alive then some e else none) cache

def system : System Scanner Act := .ofFun step

end Scanner

/-! ## Lines of the kernel -/

/-- The decimal digits of a number, with its sign. -/
def signed : ℤ → List Char
  | .ofNat n => Nat.toDigits 10 n
  | .negSucc n => '-' :: Nat.toDigits 10 (n + 1)

/-- A line as the kernel lays it out. The name is any byte string that a process
can have; seventeen numbers stand between the parent and the start time. -/
structure StatLine where
  pid : ℕ
  comm : Bytes
  state : Char
  ppid : ℤ
  between : List ℤ
  started : ℕ
  after : List ℤ
  named : 0 ∉ comm
  letter : state.isAlpha = true
  parent : -(2 ^ 31) ≤ ppid ∧ ppid < 2 ^ 31
  seventeen : between.length = 17
  start : started < 2 ^ 64

namespace StatLine

/-- The fields behind the name. -/
def fields (line : StatLine) : List (List Char) :=
  [line.state] :: ([line.ppid] ++ line.between ++ [(line.started : ℤ)] ++ line.after).map signed

/-- What stands behind the name. -/
def rest (line : StatLine) : List Char := line.fields.flatMap (' ' :: ·) ++ ['\n']

def bytes (line : StatLine) : Bytes :=
  utf8 (Nat.toDigits 10 line.pid ++ [' ', '(']) ++ line.comm ++ utf8 (')' :: line.rest)

end StatLine

/-! ## Reading numbers back -/

theorem digitValue_digitChar {d : ℕ} (h : d < 10) : digitValue 10 (Nat.digitChar d) = some d := by
  have hall : ∀ d : Fin 10, digitValue 10 (Nat.digitChar d) = some d.val := by decide
  exact hall ⟨d, h⟩

/-- The digits of a number below the limit are read back digit by digit. -/
theorem foldlM_toDigits {limit n : ℕ} (h : n < limit) :
    (Nat.toDigits 10 n).foldlM (fun n c => do
      let d ← digitValue 10 c
      if n * 10 + d < limit then some (n * 10 + d) else none) 0 = some n := by
  induction n using Nat.strongRecOn with
  | ind n ih =>
      rw [Nat.toDigits_eq_if (by decide)]
      split
      · rename_i hsmall
        simp [digitValue_digitChar hsmall, h]
      · rename_i hlarge
        rw [List.foldlM_append, ih (n / 10) (by omega) (by omega)]
        have hback : n / 10 * 10 + n % 10 = n := by omega
        simp [digitValue_digitChar (Nat.mod_lt n (by decide : 0 < 10)), hback, h]

theorem isDigit_of_mem_toDigits {n : ℕ} {c : Char} (h : c ∈ Nat.toDigits 10 n) :
    c.isDigit = true :=
  Nat.isDigit_of_mem_toDigits (by decide) (by decide) h

theorem head_toDigits_ne {n : ℕ} {c : Char} (hc : c.isDigit = false) :
    (Nat.toDigits 10 n).head? ≠ some c := by
  intro hhead
  rw [isDigit_of_mem_toDigits (List.mem_of_mem_head? hhead)] at hc
  contradiction

theorem fromStrRadix_toDigits {bits n : ℕ} (h : n < 2 ^ bits) :
    fromStrRadix 10 bits (Nat.toDigits 10 n) = some n := by
  unfold fromStrRadix
  rw [if_neg (head_toDigits_ne (by decide))]
  dsimp only
  rw [if_neg Nat.toDigits_ne_nil]
  exact foldlM_toDigits h

theorem parseI32_signed {n : ℤ} (h : -(2 ^ 31) ≤ n ∧ n < 2 ^ 31) :
    parseI32 (signed n) = some n := by
  cases n with
  | ofNat n =>
      have hpos : parseI32 (Nat.toDigits 10 n) =
          (fromStrRadix 10 31 (Nat.toDigits 10 n)).map fun n : ℕ => (n : ℤ) := by
        unfold parseI32
        split
        · rename_i digits heq
          exact absurd (by rw [heq]; rfl) (head_toDigits_ne (n := n) (c := '-') (by decide))
        · rfl
      rw [signed, hpos, fromStrRadix_toDigits (by simp at h; omega)]
      rfl
  | negSucc n =>
      have hlimit : n + 1 < 2 ^ 31 + 1 := by omega
      change (decimalBelow (2 ^ 31 + 1) (Nat.toDigits 10 (n + 1))).map _ = _
      unfold decimalBelow
      rw [if_neg Nat.toDigits_ne_nil, foldlM_toDigits hlimit]
      rfl

/-! ## Finding the fields -/

/-- A character that neither ends a field nor closes the name. -/
def Plain (c : Char) : Prop := isWhiteSpace c = false ∧ c ≠ '(' ∧ c ≠ ')'

theorem plain_of_range {c : Char} (h : 45 ≤ c.toNat ∧ c.toNat < 127) : Plain c := by
  refine ⟨?_, ?_, ?_⟩
  · unfold isWhiteSpace
    simp only [decide_eq_false_iff_not]
    omega
  · rintro rfl
    simp at h
  · rintro rfl
    simp at h

theorem plain_of_isDigit {c : Char} (h : c.isDigit = true) : Plain c := by
  simp only [Char.isDigit, Bool.and_eq_true, decide_eq_true_eq, ge_iff_le,
    UInt32.le_iff_toNat_le] at h
  exact plain_of_range ⟨le_trans (by decide) h.1, lt_of_le_of_lt h.2 (by decide)⟩

theorem plain_of_isAlpha {c : Char} (h : c.isAlpha = true) : Plain c := by
  change (decide ('A'.val ≤ c.val ∧ c.val ≤ 'Z'.val) ||
    (decide ('a'.val ≤ c.val) && decide (c.val ≤ 'z'.val))) = true at h
  simp only [Bool.or_eq_true, Bool.and_eq_true, decide_eq_true_eq, UInt32.le_iff_toNat_le] at h
  rcases h with h | h
  · exact plain_of_range ⟨le_trans (by decide) h.1, lt_of_le_of_lt h.2 (by decide)⟩
  · exact plain_of_range ⟨le_trans (by decide) h.1, lt_of_le_of_lt h.2 (by decide)⟩

theorem plain_of_mem_signed {n : ℤ} {c : Char} (h : c ∈ signed n) : Plain c := by
  cases n with
  | ofNat n => exact plain_of_isDigit (isDigit_of_mem_toDigits h)
  | negSucc n =>
      rcases List.mem_cons.mp h with rfl | h
      · exact plain_of_range (by decide)
      · exact plain_of_isDigit (isDigit_of_mem_toDigits h)

theorem signed_ne_nil (n : ℤ) : signed n ≠ [] := by
  cases n with
  | ofNat n => exact Nat.toDigits_ne_nil
  | negSucc n => exact List.cons_ne_nil _ _

theorem splitOnP_append {text : List Char} (h : ∀ c ∈ text, isWhiteSpace c = false)
    (rest : List Char) :
    (text ++ rest).splitOnP isWhiteSpace =
      (rest.splitOnP isWhiteSpace).modifyHead (text ++ ·) := by
  induction text with
  | nil => cases hpieces : rest.splitOnP isWhiteSpace <;> simp [hpieces]
  | cons c text ih =>
      obtain ⟨hc, htext⟩ := List.forall_mem_cons.mp h
      rw [List.cons_append, List.splitOnP_cons_eq_if_modifyHead, hc, ih htext]
      simp [List.modifyHead_modifyHead, Function.comp_def]

/-- Fields with a blank in front of each and a line end behind the last are the
fields of the text. -/
theorem splitWhiteSpace_fields {fields : List (List Char)}
    (h : ∀ field ∈ fields, field ≠ [] ∧ ∀ c ∈ field, isWhiteSpace c = false) :
    splitWhiteSpace (fields.flatMap (' ' :: ·) ++ ['\n']) = fields := by
  have hpieces : (fields.flatMap (' ' :: ·) ++ ['\n']).splitOnP isWhiteSpace =
      [] :: fields ++ [[]] := by
    induction fields with
    | nil => rfl
    | cons field rest ih =>
        obtain ⟨hfield, hrest⟩ := List.forall_mem_cons.mp h
        rw [List.flatMap_cons, List.append_assoc, List.cons_append,
          List.splitOnP_cons_eq_if_modifyHead, if_pos (by decide), splitOnP_append hfield.2,
          ih hrest]
        simp
  have hkept : fields.filter (· ≠ []) = fields :=
    List.filter_eq_self.mpr fun field hfield => by simpa using (h field hfield).1
  unfold splitWhiteSpace
  rw [hpieces]
  simpa using hkept

namespace StatLine

variable (line : StatLine)

theorem plain_fields {field : List Char} (h : field ∈ line.fields) :
    field ≠ [] ∧ ∀ c ∈ field, Plain c := by
  unfold fields at h
  rcases List.mem_cons.mp h with rfl | h
  · exact ⟨List.cons_ne_nil _ _, by simpa using plain_of_isAlpha line.letter⟩
  · obtain ⟨n, -, rfl⟩ := List.mem_map.mp h
    exact ⟨signed_ne_nil n, fun c hc => plain_of_mem_signed hc⟩

theorem splitWhiteSpace_rest : splitWhiteSpace line.rest = line.fields :=
  splitWhiteSpace_fields fun _ hfield =>
    ⟨(line.plain_fields hfield).1, fun c hc => ((line.plain_fields hfield).2 c hc).1⟩

theorem notMem_rest : ')' ∉ line.rest := by
  intro h
  rcases List.mem_append.mp h with h | h
  · obtain ⟨field, hfield, h⟩ := List.mem_flatMap.mp h
    rcases List.mem_cons.mp h with h | h
    · contradiction
    · exact ((line.plain_fields hfield).2 _ h).2.2 rfl
  · simp at h

theorem fields_parent : line.fields[1]? = some (signed line.ppid) := rfl

theorem fields_start : line.fields[19]? = some (signed line.started) := by
  simp [fields, line.seventeen]

/-- The text of the line is found exactly if the name is text. -/
theorem fromUtf8_bytes :
    fromUtf8 line.bytes = (fromUtf8 line.comm).map fun comm =>
      Nat.toDigits 10 line.pid ++ ' ' :: '(' :: (comm ++ ')' :: line.rest) := by
  have hlayout : line.bytes = utf8 (Nat.toDigits 10 line.pid ++ [' ']) ++
      UInt8.ofNat '('.toNat :: (line.comm ++ UInt8.ofNat ')'.toNat :: utf8 line.rest) := by
    simp only [bytes, utf8_append, utf8_cons, utf8_nil, List.append_nil, List.append_assoc]
    rfl
  cases hcomm : fromUtf8 line.comm with
  | some comm =>
      rw [Option.map_some, fromUtf8_eq_some, bytes, ← fromUtf8_eq_some.mp hcomm, ← utf8_append,
        ← utf8_append]
      simp
  | none =>
      rw [Option.map_none, Option.eq_none_iff_forall_ne_some]
      intro text htext
      rw [fromUtf8_eq_some, hlayout] at htext
      obtain ⟨_, second, -, -, hsecond⟩ := utf8_split (by decide) htext
      obtain ⟨comm, _, -, hfirst, -⟩ := utf8_split (by decide) hsecond
      rw [fromUtf8_eq_some.mpr hfirst] at hcomm
      contradiction

end StatLine

/-- The parser finds the name between the parentheses, whatever it is, if no
opening one stands in front of it and no closing one behind it. -/
theorem parseStat_layout {front comm rest : List Char} (hfront : '(' ∉ front) (hrest : ')' ∉ rest) :
    parseStat (front ++ '(' :: (comm ++ ')' :: rest)) = (do
      let ppid ← parseI32 (← (splitWhiteSpace rest)[1]?)
      let started ← fromStrRadix 10 64 (← (splitWhiteSpace rest)[19]?)
      some { comm := comm, ppid := ppid, started := started }) := by
  have hsplit : front ++ '(' :: (comm ++ ')' :: rest) =
      (front ++ ['(']) ++ (comm ++ ')' :: rest) := by simp
  have hopening : (front ++ '(' :: (comm ++ ')' :: rest)).findIdx? (· == '(') =
      some front.length := by
    have hnone : front.findIdx? (· == '(') = none :=
      List.findIdx?_eq_none_iff.mpr fun c hc => by
        simpa using fun heq : c = '(' => hfront (heq ▸ hc)
    simp [List.findIdx?_append, List.findIdx?_cons, hnone]
  have hclosing : (front ++ '(' :: (comm ++ ')' :: rest)).reverse.findIdx? (· == ')') =
      some rest.length := by
    have hnone : rest.reverse.findIdx? (· == ')') = none :=
      List.findIdx?_eq_none_iff.mpr fun c hc => by
        simpa using fun heq : c = ')' => hrest (heq ▸ List.mem_reverse.mp hc)
    simp [List.findIdx?_append, List.findIdx?_cons, hnone]
  have hlength : (front ++ '(' :: (comm ++ ')' :: rest)).length - 1 - rest.length =
      front.length + 1 + comm.length := by
    simp only [List.length_append, List.length_cons]
    omega
  have htake : ((front ++ '(' :: (comm ++ ')' :: rest)).take (front.length + 1 + comm.length)).drop
      (front.length + 1) = comm := by
    rw [hsplit, List.drop_take, List.drop_left' (by simp), Nat.add_sub_cancel_left,
      List.take_left' rfl]
  have hdrop : (front ++ '(' :: (comm ++ ')' :: rest)).drop (front.length + 1 + comm.length + 1) =
      rest := by
    have hlast : front ++ '(' :: (comm ++ ')' :: rest) =
        (front ++ ['('] ++ comm ++ [')']) ++ rest := by simp
    rw [hlast]
    exact List.drop_left' (by simp only [List.length_append, List.length_singleton])
  unfold parseStat
  rw [hopening, hclosing]
  simp only [Option.bind_eq_bind, Option.bind_some, hlength, htake, hdrop, guard,
    if_pos (Nat.le_add_right (front.length + 1) comm.length), Option.pure_def]

namespace StatLine

variable (line : StatLine)

/-- What the scanner reads from a line of the kernel: the name as it stands there
and the fields of the line, or nothing when the name is no text. -/
theorem parseStat_bytes :
    (fromUtf8 line.bytes).bind parseStat = (fromUtf8 line.comm).map fun comm =>
      { comm := comm, ppid := line.ppid, started := line.started } := by
  rw [fromUtf8_bytes]
  cases fromUtf8 line.comm with
  | none => rfl
  | some comm =>
      have hfront : '(' ∉ Nat.toDigits 10 line.pid ++ [' '] := by
        rw [List.mem_append, not_or]
        exact ⟨fun h => (plain_of_isDigit (isDigit_of_mem_toDigits h)).2.1 rfl, by simp⟩
      have hlayout : Nat.toDigits 10 line.pid ++ ' ' :: '(' :: (comm ++ ')' :: line.rest) =
          (Nat.toDigits 10 line.pid ++ [' ']) ++ '(' :: (comm ++ ')' :: line.rest) := by simp
      rw [Option.map_some, Option.bind_some, hlayout, parseStat_layout hfront line.notMem_rest,
        line.splitWhiteSpace_rest, line.fields_parent, line.fields_start]
      have hstart : fromStrRadix 10 64 (signed line.started) = some line.started :=
        fromStrRadix_toDigits line.start
      simp [parseI32_signed line.parent, hstart]

end StatLine

/-! ## The scanner -/

namespace Scanner

/-- The entries of a scanner: each is of the process it stands for, with its start
time, and has a name. -/
def Ok (cache : Scanner) : Prop :=
  ∀ pid e, cache.lookup pid = some e →
    e.info.pid = pid ∧ e.info.started = e.started ∧ e.info.comm ≠ ""

/-- The process is in the list with the parent and the start time of its line, and
with its name if that is text. -/
def Lists (cache : Scanner) (pid : ℤ) (line : StatLine) : Prop :=
  ∃ e, cache.lookup pid = some e ∧ e.info.pid = pid ∧ e.info.ppid = line.ppid ∧
    e.info.started = line.started ∧ e.started = line.started ∧
    ∀ comm, fromUtf8 line.comm = some comm → e.info.comm = String.ofList comm

/-- What a look at a process does to its entry, given what was read of its line: it
goes when nothing was read or the name is empty, and else it is there with the
fields of the line. -/
inductive Looked (cache : Scanner) (pid : ℤ) (read : Option Stat) : Scanner → Prop
  | gone (hunnamed : ∀ st, read = some st → st.comm = []) :
      Looked cache pid read (cache.erase pid)
  | listed {st : Stat} {e : Entry} (hread : read = some st) (hname : st.comm ≠ [])
      (hpid : e.info.pid = pid) (hppid : e.info.ppid = st.ppid)
      (hstarted : e.info.started = st.started) (hstart : e.started = st.started)
      (hcomm : e.info.comm = String.ofList st.comm) :
      Looked cache pid read (cache.insert pid e)

/-- A process is read anew with the fields of its line, unless it has no name. -/
theorem looked_renew (pid : ℤ) (st : Stat) (cmdline : Option Bytes) (cache : Scanner) :
    Looked cache pid (some st) (renew pid st cmdline cache) := by
  unfold renew readProc
  by_cases hname : st.comm = []
  · rw [if_pos hname]
    exact .gone fun st' heq => Option.some.inj heq ▸ hname
  · rw [if_neg hname]
    exact .listed rfl hname rfl rfl rfl rfl rfl

theorem ofList_ne_empty {text : List Char} (h : text ≠ []) : String.ofList text ≠ "" := by
  intro heq
  have hlist := congrArg String.toList heq
  rw [String.toList_ofList] at hlist
  exact h hlist

theorem looked_update {cache : Scanner} (hok : cache.Ok) (pid : ℤ) (files : ProcFiles) :
    Looked cache pid ((files.stat.bind fromUtf8).bind parseStat) (cache.update pid files) := by
  unfold update
  cases (files.stat.bind fromUtf8).bind parseStat with
  | none => exact .gone fun st heq => by contradiction
  | some st =>
      dsimp only
      split
      · exact looked_renew pid st files.cmdline cache
      · rename_i e hentry
        split
        · rename_i hsame
          obtain ⟨hpid, hstarted, hnamed⟩ := hok pid e hentry
          have hname : st.comm ≠ [] := fun hempty => hnamed (by rw [hsame.2, hempty])
          exact .listed rfl hname hpid rfl (hstarted.trans hsame.1) hsame.1 hsame.2
        · exact looked_renew pid st files.cmdline cache

/-- A look leaves the entries of other processes alone, and its own in order. -/
theorem Looked.ok {cache cache' : Scanner} {pid : ℤ} {read : Option Stat}
    (h : Looked cache pid read cache') (hok : cache.Ok) : cache'.Ok := by
  intro q e hentry
  cases h with
  | gone =>
      by_cases hq : q = pid
      · rw [hq, AList.lookup_erase] at hentry
        contradiction
      · rw [AList.lookup_erase_ne hq] at hentry
        exact hok q e hentry
  | listed hread hname hpid hppid hstarted hstart hcomm =>
      by_cases hq : q = pid
      · rw [hq, AList.lookup_insert] at hentry
        obtain rfl := Option.some.inj hentry
        exact ⟨hpid.trans hq.symm, hstarted.trans hstart.symm, hcomm ▸ ofList_ne_empty hname⟩
      · rw [AList.lookup_insert_ne hq] at hentry
        exact hok q e hentry

theorem Ok.step {cache : Scanner} (h : cache.Ok) (a : Act) : (step cache a).Ok := by
  cases a with
  | update pid files => exact (looked_update h pid files).ok h
  | retain alive =>
      intro q e hentry
      simp only [Scanner.step, KeyedMap.lookup_filterMap, Option.bind_eq_some_iff] at hentry
      obtain ⟨e', hold, hkept⟩ := hentry
      split at hkept
      · obtain rfl := Option.some.inj hkept
        exact h q e' hold
      · contradiction

theorem ok_run {cache : Scanner} {hist : History Scanner Act} (run : Run system ∅ hist cache) :
    cache.Ok := by
  refine run.invariant (P := Ok) (fun pid e h => by simp at h) ?_
  intro s a s' h fires
  obtain rfl := Option.some.inj fires
  exact h.step a

/-- A look at a process lists it exactly if its name is text and not empty. -/
theorem lists_iff {cache : Scanner} (hok : cache.Ok) (pid : ℤ) (line : StatLine)
    (cmdline : Option Bytes) :
    (cache.update pid { stat := some line.bytes, cmdline := cmdline }).Lists pid line ↔
      (fromUtf8 line.comm).isSome = true ∧ line.comm ≠ [] := by
  have hlooked := looked_update hok pid { stat := some line.bytes, cmdline := cmdline }
  rw [Option.bind_some, line.parseStat_bytes] at hlooked
  generalize cache.update pid { stat := some line.bytes, cmdline := cmdline } = cache' at hlooked
  cases hlooked with
  | gone hunnamed =>
      refine iff_of_false ?_ ?_
      · rintro ⟨e, hentry, -⟩
        rw [AList.lookup_erase] at hentry
        contradiction
      · rintro ⟨htext, hempty⟩
        obtain ⟨comm, hsome⟩ := Option.isSome_iff_exists.mp htext
        have hnil : comm = [] := hunnamed _ (congrArg _ hsome)
        rw [hnil, fromUtf8_eq_some] at hsome
        exact hempty hsome.symm
  | listed hread hname hpid hppid hstarted hstart hcomm =>
      obtain ⟨comm, hsome, rfl⟩ := Option.map_eq_some_iff.mp hread
      refine iff_of_true ⟨_, AList.lookup_insert .., hpid, hppid, hstarted, hstart, ?_⟩
        ⟨Option.isSome_of_eq_some hsome, ?_⟩
      · intro comm' hcomm'
        rw [hsome, Option.some.injEq] at hcomm'
        rw [hcomm, hcomm']
      · intro hempty
        have hnil : fromUtf8 [] = some [] := fromUtf8_utf8 []
        rw [hempty, hnil] at hsome
        exact hname (Option.some.inj hsome).symm

/-- A scanner lists a process under its line exactly if the name is valid UTF-8
and not empty, whatever the scanner has seen before and whatever the name looks
like. -/
theorem update_lists_iff {cache : Scanner} {hist : History Scanner Act}
    (run : Run system ∅ hist cache) (pid : ℤ) (line : StatLine) (cmdline : Option Bytes) :
    (cache.update pid { stat := some line.bytes, cmdline := cmdline }).Lists pid line ↔
      (fromUtf8 line.comm).isSome = true ∧ line.comm ≠ [] :=
  lists_iff (ok_run run) pid line cmdline

/-- The line of process 42, a child of process 1. -/
def sampleLine (comm : Bytes) (named : 0 ∉ comm) : StatLine where
  pid := 42
  comm := comm
  state := 'S'
  ppid := 1
  between := List.replicate 17 0
  started := 98
  after := [200, 18]
  named := named
  letter := by decide
  parent := by decide
  seventeen := by decide
  start := by decide

/-- The name `) S 7`, which looks like the fields behind it. -/
theorem update_lists_sample :
    (update 42 { stat := some (sampleLine [41, 32, 83, 32, 55] (by decide)).bytes, cmdline := none }
      (∅ : Scanner)).Lists 42 (sampleLine [41, 32, 83, 32, 55] (by decide)) :=
  (update_lists_iff .start 42 _ none).mpr ⟨by decide +kernel, by decide⟩

/-- The name is the letter `I` and the first half of another letter, as when a
name is cut at fifteen bytes. -/
theorem update_drops_cut_name :
    ¬(update 42 { stat := some (sampleLine [0x49, 0xD0] (by decide)).bytes, cmdline := none }
      (∅ : Scanner)).Lists 42 (sampleLine [0x49, 0xD0] (by decide)) := by
  rw [lists_iff (fun pid e h => by simp at h)]
  rintro ⟨htext, -⟩
  have hcut : (fromUtf8 [0x49, 0xD0]).isSome = false := by decide +kernel
  change (fromUtf8 [0x49, 0xD0]).isSome = true at htext
  rw [hcut] at htext
  contradiction

end Scanner

end SocketTrail.Net
