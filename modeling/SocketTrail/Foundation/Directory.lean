/-
# A directory of files

The entries of a directory name files, and a file goes on to exist while somebody
holds it open, whether an entry names it or not. What is written to a file is safe
from a loss of power only once it is synced; a loss of power leaves any first part
of the file that holds what was synced. The changes of the entries reach the disk in
their order but are never safe: a loss of power leaves the entries of any earlier
moment.
-/

import Mathlib.Data.List.Basic
import Mathlib.Data.List.GetD
import Mathlib.Logic.Function.Basic

namespace SocketTrail.Foundation

universe u

/-- One file: its content, and how much of it is synced. -/
structure FileData (α : Type u) where
  content : List α := []
  synced : ℕ := 0

/-- A directory and the files that there are. -/
structure Directory (α : Type u) where
  /-- The file under a name. -/
  entries : String → Option ℕ
  /-- The entries of the moments before, to which a loss of power may lead back. -/
  past : List (String → Option ℕ) := []
  files : ℕ → FileData α
  /-- The files from here on have never been used. -/
  fresh : ℕ

namespace Directory

variable {α : Type u}

/-- All entries that there may be after a loss of power. -/
def tables (d : Directory α) : List (String → Option ℕ) := d.entries :: d.past

/-- What is read under a name. -/
def read (d : Directory α) (name : String) : Option (List α) :=
  (d.entries name).map fun file => (d.files file).content

/-- A new file under a name that is free. -/
def createNew (d : Directory α) (name : String) : Option (ℕ × Directory α) :=
  match d.entries name with
  | some _ => none
  | none =>
      some (d.fresh,
        { entries := Function.update d.entries name (some d.fresh)
          past := d.tables
          files := Function.update d.files d.fresh {}
          fresh := d.fresh + 1 })

/-- Write at the end of an open file. -/
def append (d : Directory α) (file : ℕ) (data : List α) : Directory α :=
  { d with
    files := Function.update d.files file
      { d.files file with content := (d.files file).content ++ data } }

/-- Make the whole content of an open file safe. -/
def sync (d : Directory α) (file : ℕ) : Directory α :=
  { d with
    files := Function.update d.files file
      { d.files file with synced := (d.files file).content.length } }

/-- Let the file of one name take the place of another, if there is one. -/
def rename (d : Directory α) (source target : String) : Option (Directory α) :=
  match d.entries source with
  | none => none
  | some file =>
      if source = target then some d
      else
        some { d with
          entries := Function.update (Function.update d.entries target (some file)) source none
          past := d.tables }

def unlink (d : Directory α) (name : String) : Directory α :=
  { d with entries := Function.update d.entries name none, past := d.tables }

/-- The power is lost: the last `back` changes of the entries are, and every file
keeps a first part of its content. -/
def losePower (d : Directory α) (keep : ℕ → ℕ) (back : ℕ) : Directory α :=
  { d with
    entries := d.tables.getD back d.entries
    past := []
    files := fun file =>
      let content := (d.files file).content.take (max (d.files file).synced (keep file))
      { content := content, synced := content.length } }

/-- The file is as it would be after a loss of power. -/
def Durable (d : Directory α) (file : ℕ) : Prop :=
  (d.files file).content.length ≤ (d.files file).synced

/-- A loss of power would change nothing. -/
structure Settled (d : Directory α) : Prop where
  past : d.past = []
  durable : ∀ name file, d.entries name = some file → d.Durable file

/-- Every entry has a file of its own, and none that is still to be made. -/
structure Names (fresh : ℕ) (table : String → Option ℕ) : Prop where
  used : ∀ {name file}, table name = some file → file < fresh
  single : ∀ {name other file}, table name = some file → table other = some file → name = other

/-- The entries of every moment name files properly. -/
def Proper (d : Directory α) : Prop := ∀ table ∈ d.tables, Names d.fresh table

/-- No file at all. -/
def empty : Directory α where
  entries _ := none
  files _ := {}
  fresh := 0

theorem proper_empty : (empty : Directory α).Proper := by
  intro table htable
  obtain rfl := List.mem_singleton.mp htable
  exact ⟨fun h => by contradiction, fun h => by contradiction⟩

theorem settled_empty : (empty : Directory α).Settled where
  past := rfl
  durable _ _ h := by contradiction

/-! ## What the operations keep -/

variable {d d' : Directory α} {name other source target : String} {file : ℕ}

theorem createNew_eq_some {result : ℕ × Directory α} (h : d.createNew name = some result) :
    d.entries name = none ∧ result = (d.fresh,
      { entries := Function.update d.entries name (some d.fresh)
        past := d.tables
        files := Function.update d.files d.fresh {}
        fresh := d.fresh + 1 }) := by
  unfold createNew at h
  split at h
  · contradiction
  · rename_i hfree
    exact ⟨hfree, (Option.some.inj h).symm⟩

theorem isSome_rename (d : Directory α) (source target : String) :
    (d.rename source target).isSome = (d.entries source).isSome := by
  unfold rename
  cases d.entries source with
  | none => rfl
  | some file =>
      dsimp only
      split <;> rfl

theorem rename_eq_some (hne : source ≠ target) (h : d.rename source target = some d') :
    ∃ file, d.entries source = some file ∧ d' = { d with
      entries := Function.update (Function.update d.entries target (some file)) source none
      past := d.tables } := by
  unfold rename at h
  split at h
  · contradiction
  · rename_i file hsource
    rw [if_neg hne] at h
    exact ⟨file, hsource, (Option.some.inj h).symm⟩

theorem read_unlink (d : Directory α) (name other : String) :
    (d.unlink name).read other = if other = name then none else d.read other := by
  unfold unlink read
  dsimp only
  by_cases h : other = name
  · subst h
    rw [if_pos rfl, Function.update_self, Option.map_none]
  · rw [if_neg h, Function.update_of_ne h]

section Names

variable {fresh fresh' : ℕ} {table : String → Option ℕ}

theorem Names.mono (h : Names fresh table) (hle : fresh ≤ fresh') : Names fresh' table :=
  ⟨fun hn => Nat.lt_of_lt_of_le (h.used hn) hle, h.single⟩

theorem Names.unlink (h : Names fresh table) (name : String) :
    Names fresh (Function.update table name none) := by
  have hold {n : String} {file : ℕ} (hn : Function.update table name none n = some file) :
      table n = some file := by
    by_cases heq : n = name
    · subst heq
      rw [Function.update_self] at hn
      contradiction
    · rwa [Function.update_of_ne heq] at hn
  exact ⟨fun hn => h.used (hold hn), fun hn hother => h.single (hold hn) (hold hother)⟩

/-- A file that only one name can have may take any place. -/
theorem Names.moved (h : Names fresh table) (hfile : file < fresh)
    (hother : ∀ n, table n = some file → n = source) :
    Names fresh (Function.update (Function.update table target (some file)) source none) := by
  have hold {n : String} {i : ℕ}
      (hn : Function.update (Function.update table target (some file)) source none n = some i) :
      n ≠ source ∧ (n = target ∧ i = file ∨ n ≠ target ∧ table n = some i) := by
    by_cases hsource : n = source
    · subst hsource
      rw [Function.update_self] at hn
      contradiction
    · rw [Function.update_of_ne hsource] at hn
      by_cases htarget : n = target
      · subst htarget
        rw [Function.update_self, Option.some.injEq] at hn
        exact ⟨hsource, .inl ⟨rfl, hn.symm⟩⟩
      · rw [Function.update_of_ne htarget] at hn
        exact ⟨hsource, .inr ⟨htarget, hn⟩⟩
  constructor
  · intro n i hn
    rcases (hold hn).2 with ⟨-, rfl⟩ | ⟨-, hn⟩
    · exact hfile
    · exact h.used hn
  · intro n m i hn hm
    obtain ⟨hnsource, hn'⟩ := hold hn
    obtain ⟨hmsource, hm'⟩ := hold hm
    rcases hn' with ⟨rfl, rfl⟩ | ⟨-, hn'⟩ <;> rcases hm' with ⟨rfl, hi⟩ | ⟨-, hm'⟩
    · rfl
    · exact absurd (hother m hm') hmsource
    · exact absurd (hother n (hi ▸ hn')) hnsource
    · exact h.single hn' hm'

/-- A new file has no other name. -/
theorem Names.created (h : Names fresh table) (name : String) :
    Names (fresh + 1) (Function.update table name (some fresh)) := by
  have hold {n : String} {i : ℕ} (hn : Function.update table name (some fresh) n = some i) :
      n = name ∧ i = fresh ∨ n ≠ name ∧ table n = some i := by
    by_cases hname : n = name
    · subst hname
      rw [Function.update_self, Option.some.injEq] at hn
      exact .inl ⟨rfl, hn.symm⟩
    · rw [Function.update_of_ne hname] at hn
      exact .inr ⟨hname, hn⟩
  constructor
  · intro n i hn
    rcases hold hn with ⟨-, rfl⟩ | ⟨-, hn⟩
    · exact Nat.lt_succ_self _
    · exact Nat.lt_succ_of_lt (h.used hn)
  · intro n m i hn hm
    rcases hold hn with ⟨rfl, rfl⟩ | ⟨-, hn'⟩ <;> rcases hold hm with ⟨rfl, hi⟩ | ⟨-, hm'⟩
    · rfl
    · exact absurd (h.used hm') (Nat.lt_irrefl _)
    · exact absurd (h.used (hi ▸ hn')) (Nat.lt_irrefl _)
    · exact h.single hn' hm'

end Names

theorem Proper.now (h : d.Proper) : Names d.fresh d.entries := h _ (List.mem_cons_self ..)

/-- New entries join those of before. -/
theorem Proper.changed (h : d.Proper) {entries : String → Option ℕ} {files : ℕ → FileData α}
    {fresh : ℕ} (hle : d.fresh ≤ fresh) (hentries : Names fresh entries) :
    Proper { entries := entries, past := d.tables, files := files, fresh := fresh } :=
  List.forall_mem_cons.mpr ⟨hentries, fun table htable => (h table htable).mono hle⟩

theorem Proper.unlink (h : d.Proper) (name : String) : (d.unlink name).Proper :=
  h.changed (Nat.le_refl _) (h.now.unlink name)

/-- The entries after a loss of power are those of some moment. -/
theorem entries_losePower_mem (d : Directory α) (keep : ℕ → ℕ) (back : ℕ) :
    (d.losePower keep back).entries ∈ d.tables := by
  change d.tables.getD back d.entries ∈ d.tables
  by_cases hback : back < d.tables.length
  · rw [List.getD_eq_getElem _ _ hback]
    exact List.getElem_mem hback
  · rw [List.getD_eq_default _ _ (Nat.le_of_not_lt hback)]
    exact List.mem_cons_self ..

theorem Proper.losePower (h : d.Proper) (keep : ℕ → ℕ) (back : ℕ) :
    (d.losePower keep back).Proper :=
  List.forall_mem_singleton.mpr (h _ (d.entries_losePower_mem keep back))

/-- What is safe is there after a loss of power. -/
theorem content_losePower (h : d.Durable file) (keep : ℕ → ℕ) (back : ℕ) :
    ((d.losePower keep back).files file).content = (d.files file).content :=
  List.take_of_length_le (Nat.le_trans h (Nat.le_max_left _ _))

theorem durable_losePower (d : Directory α) (keep : ℕ → ℕ) (back file : ℕ) :
    (d.losePower keep back).Durable file := Nat.le_refl _

theorem durable_sync (d : Directory α) (file : ℕ) : (d.sync file).Durable file := by
  unfold Durable sync
  simp only [Function.update_self, Nat.le_refl]

end Directory

end SocketTrail.Foundation
