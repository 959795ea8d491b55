/-
# Who holds a socket

A snapshot looks up the processes that hold the inode of a socket by a scan of
their descriptors. Under Wine the server holds a copy of every socket of a
program, so it owns a socket only when nothing else holds it. The scan meets the
holders one by one in the order of the file system: `inodeOwners` keeps a set for
every inode, drops the servers when the first program is met and passes over them
afterwards. What it arrives at is a function of who holds what.
-/

import Mathlib.Data.Set.Subsingleton
import SocketTrail.Foundation.Permute
import SocketTrail.Foundation.KeyedMap
import SocketTrail.Foundation.Unicode
import SocketTrail.Net.Sockets

namespace SocketTrail.Net

open SocketTrail.Foundation

/-- The name of a process as a scan reads it: the server of Wine or another one. -/
def isWineserver (comm : ℤ → Option (List Char)) (pid : ℤ) : Bool :=
  match comm pid with
  | none => false
  | some c => trimEnd c = "wineserver".toList

/-- A process whose name cannot be read is no server. -/
theorem isWineserver_iff {comm : ℤ → Option (List Char)} {pid : ℤ} :
    isWineserver comm pid = true ↔ ∃ c, comm pid = some c ∧ trimEnd c = "wineserver".toList := by
  unfold isWineserver
  cases comm pid with
  | none => simp only [Bool.false_eq_true, reduceCtorEq, false_and, exists_false]
  | some c => simp only [decide_eq_true_eq, Option.some.injEq, exists_eq_left']

/-- The inode of the socket that a descriptor leads to. -/
def socketInode (target : List Char) : Option ℕ :=
  if "socket:[".toList <+: target then
    fromStrRadix 10 64 ((target.drop 8).reverse.dropWhile (· = ']')).reverse
  else none

example : socketInode "socket:[4026]".toList = some 4026 := by decide

/-- One process as a scan comes to it: its descriptors, each with the target of
its link, as far as the directory and the links could be read. -/
structure Visit where
  pid : ℤ
  links : Option (List (Option (List Char)))

/-- Note that a process holds an inode. `wineserver` is what the scan has found
of a process when it first asked. -/
def noteHolder (wineserver : ℤ → Bool) (map : KeyedMap ℕ (List ℤ)) (pid : ℤ) (ino : ℕ) :
    KeyedMap ℕ (List ℤ) :=
  let owners := (map.lookup ino).getD []
  if wineserver pid && owners.any fun p => !wineserver p then map.insert ino owners
  else
    let owners := if wineserver pid then owners else owners.filter fun p => !wineserver p
    map.insert ino (if pid ∈ owners then owners else owners ++ [pid])

/-- Note the sockets of one process. -/
def noteVisit (wineserver : ℤ → Bool) (map : KeyedMap ℕ (List ℤ)) (visit : Visit) :
    KeyedMap ℕ (List ℤ) :=
  match visit.links with
  | none => map
  | some links =>
      links.foldl (fun map link =>
        match link.bind socketInode with
        | none => map
        | some ino => noteHolder wineserver map visit.pid ino) map

/-- The distinct processes found to hold each inode. -/
def inodeOwners (wineserver : ℤ → Bool) (visits : List Visit) : KeyedMap ℕ (List ℤ) :=
  visits.foldl (noteVisit wineserver) ∅

example : (inodeOwners (isWineserver fun pid => if pid = 7 then some "wineserver\n".toList else none)
    [{ pid := 7, links := some [some "socket:[1]".toList, some "socket:[2]".toList] },
      { pid := 8, links := some [none, some "socket:[1]".toList] }]).lookup 1 = some [8] := by decide

/-! ## Who holds what -/

/-- A descriptor of the process leads to the inode. -/
def Holds (visits : List Visit) (pid : ℤ) (ino : ℕ) : Prop :=
  ∃ visit ∈ visits, visit.pid = pid ∧
    ∃ links, visit.links = some links ∧
      ∃ target, some target ∈ links ∧ socketInode target = some ino

/-- The owners of an inode: its holders that are no server, or all of them when
every holder is a server. -/
def ownersOf (wineserver : ℤ → Bool) (visits : List Visit) (ino : ℕ) : Set ℤ :=
  {pid | Holds visits pid ino ∧
    (wineserver pid = false ∨ ∀ q, Holds visits q ino → wineserver q = true)}

/-- The inodes that the descriptors of one visit lead to. -/
def Visit.inodes (visit : Visit) : List ℕ :=
  (visit.links.getD []).filterMap fun link => link.bind socketInode

/-- All that a scan notes, in its order. -/
def held (visits : List Visit) : List (ℤ × ℕ) :=
  visits.flatMap fun visit => visit.inodes.map fun ino => (visit.pid, ino)

theorem mem_held {visits : List Visit} {pid : ℤ} {ino : ℕ} :
    (pid, ino) ∈ held visits ↔ Holds visits pid ino := by
  simp only [held, Visit.inodes, Holds, List.mem_flatMap, List.mem_map, List.mem_filterMap,
    Prod.mk.injEq, Option.bind_eq_some_iff]
  constructor
  · rintro ⟨visit, hvisit, _, ⟨_, hlink, target, rfl, hino⟩, hpid, rfl⟩
    cases hlinks : visit.links with
    | none => simp [hlinks] at hlink
    | some links =>
        rw [hlinks, Option.getD_some] at hlink
        exact ⟨visit, hvisit, hpid, links, hlinks, target, hlink, hino⟩
  · rintro ⟨visit, hvisit, hpid, links, hlinks, target, htarget, hino⟩
    refine ⟨visit, hvisit, ino, ⟨some target, ?_, target, rfl, hino⟩, hpid, rfl⟩
    rwa [hlinks, Option.getD_some]

theorem inodeOwners_eq_foldl (wineserver : ℤ → Bool) (visits : List Visit) :
    inodeOwners wineserver visits =
      (held visits).foldl (fun map h => noteHolder wineserver map h.1 h.2) ∅ := by
  have hvisit : ∀ map visit, noteVisit wineserver map visit =
      (visit.inodes.map fun ino => (visit.pid, ino)).foldl
        (fun map h => noteHolder wineserver map h.1 h.2) map := by
    intro map visit
    rw [List.foldl_map, Visit.inodes, List.foldl_filterMap]
    cases hlinks : visit.links with
    | none => simp [noteVisit, hlinks]
    | some links =>
        simp only [noteVisit, hlinks, Option.getD_some]
        congr 1
        funext map link
        split <;> rename_i h <;> simp [h]
  rw [held, List.foldl_flatMap, inodeOwners]
  congr 1
  funext map visit
  exact hvisit map visit

/-! ## The invariant -/

/-- The owners kept for an inode after the holders noted so far. -/
structure Kept (wineserver : ℤ → Bool) (noted : List (ℤ × ℕ)) (ino : ℕ) (owners : List ℤ) :
    Prop where
  nodup : owners.Nodup
  mem : ∀ p, p ∈ owners ↔ (p, ino) ∈ noted ∧
    (wineserver p = false ∨ ∀ q, (q, ino) ∈ noted → wineserver q = true)

/-- The map keeps the owners of every inode, and has no entry for an inode that
nothing holds. -/
def KeepsOwners (wineserver : ℤ → Bool) (noted : List (ℤ × ℕ)) (map : KeyedMap ℕ (List ℤ)) : Prop :=
  ∀ ino, Kept wineserver noted ino ((map.lookup ino).getD []) ∧
    (map.lookup ino = none ↔ ∀ p, (p, ino) ∉ noted)

section Note

variable {wineserver : ℤ → Bool} {noted : List (ℤ × ℕ)} {ino : ℕ} {owners : List ℤ} {pid : ℤ}

/-- A server is passed over where a program holds the inode. -/
theorem Kept.pass (h : Kept wineserver noted ino owners) (hpid : wineserver pid = true)
    (hprogram : ∃ p ∈ owners, wineserver p = false) :
    Kept wineserver (noted ++ [(pid, ino)]) ino owners := by
  obtain ⟨r, hr, hprogram⟩ := hprogram
  have hheld := (h.mem r).mp hr
  refine ⟨h.nodup, fun p => ?_⟩
  rw [h.mem p]
  simp only [List.mem_append, List.mem_singleton, Prod.mk.injEq, and_true]
  grind

/-- A server joins where only servers hold the inode. -/
theorem Kept.joinServer (h : Kept wineserver noted ino owners) (hpid : wineserver pid = true)
    (hservers : ∀ p ∈ owners, wineserver p = true) :
    Kept wineserver (noted ++ [(pid, ino)]) ino
      (if pid ∈ owners then owners else owners ++ [pid]) := by
  have hall : ∀ q, (q, ino) ∈ noted → wineserver q = true := by
    intro q hq
    by_contra hprogram
    exact hprogram (hservers q ((h.mem q).mpr ⟨hq, .inl (Bool.eq_false_of_not_eq_true hprogram)⟩))
  refine ⟨nodup_join h.nodup pid, fun p => ?_⟩
  rw [mem_join, h.mem p]
  simp only [List.mem_append, List.mem_singleton, Prod.mk.injEq, and_true]
  grind

/-- A program joins, and the servers leave. -/
theorem Kept.joinProgram (h : Kept wineserver noted ino owners) (hpid : wineserver pid = false) :
    Kept wineserver (noted ++ [(pid, ino)]) ino
      (if pid ∈ owners.filter fun p => !wineserver p then owners.filter fun p => !wineserver p
        else (owners.filter fun p => !wineserver p) ++ [pid]) := by
  refine ⟨nodup_join (h.nodup.filter _) pid, fun p => ?_⟩
  rw [mem_join, List.mem_filter, h.mem p]
  simp only [List.mem_append, List.mem_singleton, Prod.mk.injEq, and_true, Bool.not_eq_true']
  grind

theorem Kept.other (h : Kept wineserver noted ino owners) {j : ℕ} (hne : ino ≠ j) :
    Kept wineserver (noted ++ [(pid, j)]) ino owners := by
  refine ⟨h.nodup, fun p => ?_⟩
  rw [h.mem p]
  simp [hne]

theorem KeepsOwners.note {map : KeyedMap ℕ (List ℤ)} (h : KeepsOwners wineserver noted map)
    (pid : ℤ) (j : ℕ) :
    KeepsOwners wineserver (noted ++ [(pid, j)]) (noteHolder wineserver map pid j) := by
  intro ino
  obtain ⟨hkept, habsent⟩ := h ino
  by_cases hino : ino = j
  · subst hino
    -- the three ways to note a holder, each of which leaves an entry for the inode
    suffices hnew : ∃ owners, noteHolder wineserver map pid ino = map.insert ino owners ∧
        Kept wineserver (noted ++ [(pid, ino)]) ino owners by
      obtain ⟨owners, heq, hnew⟩ := hnew
      rw [heq, AList.lookup_insert]
      exact ⟨hnew, iff_of_false (by simp) fun hnone => hnone pid (by simp)⟩
    unfold noteHolder
    dsimp only
    cases hpid : wineserver pid with
    | false => exact ⟨_, by simp, hkept.joinProgram hpid⟩
    | true =>
        by_cases hprogram : ∃ p ∈ (map.lookup ino).getD [], wineserver p = false
        · exact ⟨_, if_pos (by simpa using hprogram), hkept.pass hpid hprogram⟩
        · refine ⟨_, ?_, hkept.joinServer hpid fun p hp => ?_⟩
          · rw [if_neg (by simpa using hprogram), if_pos rfl]
          · by_contra hp'
            exact hprogram ⟨p, hp, Bool.eq_false_of_not_eq_true hp'⟩
  · have hlookup : (noteHolder wineserver map pid j).lookup ino = map.lookup ino := by
      unfold noteHolder
      dsimp only
      split <;> exact AList.lookup_insert_ne hino
    rw [hlookup]
    refine ⟨hkept.other hino, habsent.trans ?_⟩
    simp [hino]

end Note

theorem keepsOwners_foldl (wineserver : ℤ → Bool) (later noted : List (ℤ × ℕ))
    {map : KeyedMap ℕ (List ℤ)} (h : KeepsOwners wineserver noted map) :
    KeepsOwners wineserver (noted ++ later)
      (later.foldl (fun map h => noteHolder wineserver map h.1 h.2) map) := by
  induction later generalizing noted map with
  | nil => rwa [List.append_nil]
  | cons holder rest ih =>
      rw [List.append_cons]
      exact ih (noted ++ [holder]) (h.note holder.1 holder.2)

theorem keepsOwners_inodeOwners (wineserver : ℤ → Bool) (visits : List Visit) :
    KeepsOwners wineserver (held visits) (inodeOwners wineserver visits) := by
  rw [inodeOwners_eq_foldl]
  refine keepsOwners_foldl wineserver (held visits) [] fun ino => ?_
  exact ⟨⟨List.nodup_nil, by simp⟩, by simp⟩

/-- What a scan finds for an inode: each of its owners once, or no entry when
nothing holds it. -/
theorem inodeOwners_lookup (wineserver : ℤ → Bool) (visits : List Visit) (ino : ℕ) :
    match (inodeOwners wineserver visits).lookup ino with
    | none => ∀ pid, ¬Holds visits pid ino
    | some owners => owners.Nodup ∧ owners ≠ [] ∧
        ∀ pid, pid ∈ owners ↔ pid ∈ ownersOf wineserver visits ino := by
  obtain ⟨hkept, habsent⟩ := keepsOwners_inodeOwners wineserver visits ino
  cases hlookup : (inodeOwners wineserver visits).lookup ino with
  | none =>
      rw [hlookup] at habsent
      exact fun pid hholds => habsent.mp rfl pid (mem_held.mpr hholds)
  | some owners =>
      rw [hlookup, Option.getD_some] at hkept
      have hmem : ∀ pid, pid ∈ owners ↔ pid ∈ ownersOf wineserver visits ino := by
        intro pid
        rw [hkept.mem pid, ownersOf, Set.mem_ofPred_eq, mem_held]
        simp only [mem_held]
      refine ⟨hkept.nodup, ?_, hmem⟩
      rintro rfl
      -- of the holders one is a program, or all are servers
      have hserver : ∀ q, Holds visits q ino → wineserver q = true := by
        intro q hq
        by_contra hprogram
        exact List.not_mem_nil ((hmem q).mpr ⟨hq, .inl (Bool.eq_false_of_not_eq_true hprogram)⟩)
      have hnone : ∀ q, (q, ino) ∉ held visits := by
        intro q hq
        exact List.not_mem_nil ((hmem q).mpr ⟨mem_held.mp hq, .inr hserver⟩)
      rw [habsent.mpr hnone] at hlookup
      contradiction

/-- With the names of the processes: those that hold the inode under another name own
it, and the servers own it if nothing else holds it. -/
theorem mem_inodeOwners_isWineserver (comm : ℤ → Option (List Char)) (visits : List Visit)
    (ino : ℕ) (pid : ℤ) :
    (∃ owners, (inodeOwners (isWineserver comm) visits).lookup ino = some owners ∧
        pid ∈ owners) ↔
      Holds visits pid ino ∧
        ((∀ c, comm pid = some c → trimEnd c ≠ "wineserver".toList) ∨
          ∀ q, Holds visits q ino → ∃ c, comm q = some c ∧ trimEnd c = "wineserver".toList) := by
  have hmem : (∃ owners, (inodeOwners (isWineserver comm) visits).lookup ino = some owners ∧
      pid ∈ owners) ↔ pid ∈ ownersOf (isWineserver comm) visits ino := by
    have hfound := inodeOwners_lookup (isWineserver comm) visits ino
    cases hlookup : (inodeOwners (isWineserver comm) visits).lookup ino with
    | none =>
        rw [hlookup] at hfound
        exact iff_of_false (by simp) fun hpid => hfound pid hpid.1
    | some owners =>
        rw [hlookup] at hfound
        simpa using hfound.2.2 pid
  have hprogram : isWineserver comm pid = false ↔
      ∀ c, comm pid = some c → trimEnd c ≠ "wineserver".toList := by
    rw [← Bool.not_eq_true, isWineserver_iff]
    push Not
    rfl
  rw [hmem, ownersOf, Set.mem_ofPred_eq, hprogram]
  simp only [isWineserver_iff]

/-! ## The snapshot -/

/-- The rows of the tables that a snapshot gives owners to, with their inodes. -/
def tableRows (read : SocketTable → Option (List Char)) : List (SockEntry × ℕ) :=
  SocketTable.all.flatMap fun table => parseTable (read table) table.proto

theorem snapshot_eq (read : SocketTable → Option (List Char)) (owners : ℕ → Option (List ℤ)) :
    snapshot read owners = (tableRows read).map (assignOwner owners) := rfl

/-- A row of a table has no owner yet. -/
theorem unowned_of_mem_tableRows {read : SocketTable → Option (List Char)}
    {row : SockEntry × ℕ} (h : row ∈ tableRows read) :
    row.1.pid = none ∧ row.1.ambiguous = false := by
  obtain ⟨table, -, hparsed⟩ := List.mem_flatMap.mp h
  unfold parseTable at hparsed
  split at hparsed
  · contradiction
  · obtain ⟨line, -, hline⟩ := List.mem_filterMap.mp hparsed
    unfold parseRow at hline
    split at hline
    · simp only [Option.bind_eq_bind, Option.bind_eq_some_iff, Option.some.injEq] at hline
      obtain ⟨_, -, _, -, rfl⟩ := hline
      exact ⟨rfl, rfl⟩
    · contradiction

/-- A socket gets the one process of the set, and is shared if there are more. -/
def Owned (s : SockEntry) (owners : Set ℤ) : Prop :=
  (∀ pid, s.pid = some pid ↔ owners = {pid}) ∧ (s.ambiguous = true ↔ owners.Nontrivial)

theorem owned_assignOwner {owners : ℕ → Option (List ℤ)} {row : SockEntry × ℕ} {holders : Set ℤ}
    (hrow : row.1.pid = none ∧ row.1.ambiguous = false)
    (hnone : owners row.2 = none → ∀ pid, pid ∉ holders)
    (hsome : ∀ list, owners row.2 = some list →
      list.Nodup ∧ ∀ pid, pid ∈ list ↔ pid ∈ holders) :
    Owned (assignOwner owners row) holders := by
  unfold assignOwner Owned
  cases howners : owners row.2 with
  | none =>
      obtain rfl : holders = ∅ := Set.eq_empty_of_forall_notMem (hnone howners)
      simp [hrow.1, hrow.2, eq_comm (a := (∅ : Set ℤ))]
  | some list =>
      obtain ⟨hnodup, hmem⟩ := hsome list howners
      obtain rfl : holders = {pid | pid ∈ list} := Set.ext fun pid => (hmem pid).symm
      match list with
      | [] => simp [eq_comm (a := (∅ : Set ℤ))]
      | [p] => simp
      | p :: q :: rest =>
          have hne : p ≠ q := fun heq => (List.nodup_cons.mp hnodup).1 (heq ▸ List.mem_cons_self)
          have hmany : Set.Nontrivial {pid | pid ∈ p :: q :: rest} :=
            ⟨p, by simp, q, by simp, hne⟩
          refine ⟨fun pid => iff_of_false (by simp) fun heq => ?_, iff_of_true (by simp) hmany⟩
          rw [heq] at hmany
          exact Set.not_nontrivial_singleton hmany

/-- Nothing but the set of owners decides what becomes of a row. -/
theorem assignOwner_congr {first second : ℕ → Option (List ℤ)} {row : SockEntry × ℕ}
    {holders : Set ℤ} (hfirst : Owned (assignOwner first row) holders)
    (hsecond : Owned (assignOwner second row) holders) :
    assignOwner first row = assignOwner second row := by
  have hfields : ∀ owners, assignOwner owners row =
      { row.1 with
        pid := (assignOwner owners row).pid
        ambiguous := (assignOwner owners row).ambiguous } := by
    intro owners
    unfold assignOwner
    split <;> rfl
  have hpid : (assignOwner first row).pid = (assignOwner second row).pid := by
    ext pid
    exact (hfirst.1 pid).trans (hsecond.1 pid).symm
  have hambiguous : (assignOwner first row).ambiguous = (assignOwner second row).ambiguous :=
    Bool.eq_iff_iff.mpr (hfirst.2.trans hsecond.2.symm)
  rw [hfields first, hfields second, hpid, hambiguous]

theorem owned_of_mem_tableRows (wineserver : ℤ → Bool) (visits : List Visit)
    {read : SocketTable → Option (List Char)} {row : SockEntry × ℕ} (hrow : row ∈ tableRows read) :
    Owned (assignOwner (fun ino => (inodeOwners wineserver visits).lookup ino) row)
      (ownersOf wineserver visits row.2) := by
  have hfound := inodeOwners_lookup wineserver visits row.2
  refine owned_assignOwner (unowned_of_mem_tableRows hrow) (fun hnone pid hpid => ?_)
    fun list hlist => ?_
  · rw [hnone] at hfound
    exact hfound pid hpid.1
  · rw [hlist] at hfound
    exact ⟨hfound.1, hfound.2.2⟩

/-- Socket ownership does not depend on the order of the scan. An inode has an
entry exactly if something holds it, with its programs, or with its servers if
only servers hold it; a snapshot gives a socket its owner if that set has one
element and reports it as shared if it has more; and two scans that find the same
holders give the same snapshot. The servers of the program are the processes named
`wineserver`. -/
theorem inodeOwners_exact (wineserver : ℤ → Bool) (visits : List Visit) :
    (∀ ino, match (inodeOwners wineserver visits).lookup ino with
      | none => ∀ pid, ¬Holds visits pid ino
      | some owners => owners.Nodup ∧ owners ≠ [] ∧
          ∀ pid, pid ∈ owners ↔ pid ∈ ownersOf wineserver visits ino) ∧
    (∀ read, ∀ row ∈ tableRows read,
      Owned (assignOwner (fun ino => (inodeOwners wineserver visits).lookup ino) row)
        (ownersOf wineserver visits row.2)) ∧
    (∀ later : List Visit, (∀ pid ino, Holds later pid ino ↔ Holds visits pid ino) → ∀ read,
      snapshot read (fun ino => (inodeOwners wineserver later).lookup ino) =
        snapshot read (fun ino => (inodeOwners wineserver visits).lookup ino)) ∧
    ∀ (comm : ℤ → Option (List Char)) (ino : ℕ) (pid : ℤ),
      (∃ owners, (inodeOwners (isWineserver comm) visits).lookup ino = some owners ∧
          pid ∈ owners) ↔
        Holds visits pid ino ∧
          ((∀ c, comm pid = some c → trimEnd c ≠ "wineserver".toList) ∨
            ∀ q, Holds visits q ino →
              ∃ c, comm q = some c ∧ trimEnd c = "wineserver".toList) := by
  refine ⟨inodeOwners_lookup wineserver visits,
    fun read row hrow => owned_of_mem_tableRows wineserver visits hrow, fun later hsame read => ?_,
    fun comm ino pid => mem_inodeOwners_isWineserver comm visits ino pid⟩
  rw [snapshot_eq, snapshot_eq]
  refine List.map_congr_left fun row hrow => ?_
  have howners : ownersOf wineserver later row.2 = ownersOf wineserver visits row.2 := by
    ext pid
    simp only [ownersOf, Set.mem_ofPred_eq, hsame]
  have hlater := owned_of_mem_tableRows wineserver later hrow
  rw [howners] at hlater
  exact assignOwner_congr hlater (owned_of_mem_tableRows wineserver visits hrow)

end SocketTrail.Net
