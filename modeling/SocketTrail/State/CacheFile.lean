/-
# The cache file and those who write it

Several instances of the program share one cache file. Each instance sweeps what a
crash has left behind and reads the file when it starts, and from then on saves one
snapshot at a time: into a new file of its own, which then takes the place of the
cache file. Any operation may fail, and an instance may crash at any moment: the
cache file is the last snapshot whose saving got as far as its last step. Nobody
syncs the directory, so a loss of power may bring back an earlier snapshot, but no
part of one.
-/

import SocketTrail.Foundation.Bytes
import SocketTrail.Foundation.Directory
import SocketTrail.Foundation.Execution
import SocketTrail.Foundation.Numerals

namespace SocketTrail.State

open SocketTrail.Foundation

/-- The file that is filled before it takes the place of `name`. -/
def tmpName (name : String) (pid seq : ℕ) : String :=
  name ++ "." ++ toString pid ++ "-" ++ toString seq ++ ".tmp"

/-- A file that some instance has filled, and perhaps left behind. -/
def isStale (name file : String) : Bool :=
  (name ++ ".").toList.isPrefixOf file.toList && ".tmp".toList.isSuffixOf file.toList

/-- How far an instance is with its start, or with its save. -/
inductive Stage
  /-- Removing what is left behind, with the rest of the listing. -/
  | sweeping (listing : List String)
  | idle
  /-- It is the turn of this save, and the snapshot is taken. -/
  | holding (text : Bytes)
  | writing (tmp : String) (file : ℕ) (text : Bytes) (written : ℕ)
  | synced (tmp : String) (file : ℕ) (text : Bytes)
  | failed (tmp : String)

/-- One running program. The lock on saving lets one save at a time through, and
those that wait for their turn have taken nothing yet. -/
structure Instance where
  stage : Stage
  /-- The number of temporary files made so far. -/
  seq : ℕ := 0

/-- The directory of the cache file, and the running programs by their number. -/
structure CacheDir where
  dir : Directory UInt8
  instances : ℕ → Option Instance

/-- One operation of one instance, or a disaster. -/
inductive CacheMove
  /-- The program starts, and lists the directory. -/
  | start (pid : ℕ) (listing : List String)
  | sweep (pid : ℕ) (ok : Bool)
  /-- The sweep is done, and the file is read. -/
  | load (pid : ℕ)
  | snapshot (pid : ℕ) (text : Bytes)
  | create (pid : ℕ) (ok : Bool)
  | write (pid : ℕ) (count : ℕ)
  /-- A write or the syncing fails. -/
  | fail (pid : ℕ)
  | sync (pid : ℕ)
  | rename (pid : ℕ) (ok : Bool)
  | cleanup (pid : ℕ) (ok : Bool)
  | crash (pid : ℕ)
  | losePower (keep : ℕ → ℕ) (back : ℕ)

/-- The move is a loss of power. -/
def CacheMove.cutsPower : CacheMove → Bool
  | .losePower _ _ => true
  | _ => false

namespace CacheDir

/-- The instance goes on to a stage. -/
def goOn (s : CacheDir) (pid : ℕ) (i : Instance) (stage : Stage) : CacheDir :=
  { s with instances := Function.update s.instances pid (some { i with stage := stage }) }

/-- One operation of an instance that runs. -/
def act (name : String) (s : CacheDir) (pid : ℕ) (i : Instance) : CacheMove → Option CacheDir
  | .sweep _ ok =>
      match i.stage with
      | .sweeping (file :: rest) =>
          let dir := if isStale name file && ok then s.dir.unlink file else s.dir
          some { s.goOn pid i (.sweeping rest) with dir := dir }
      | _ => none
  | .load _ =>
      match i.stage with
      | .sweeping [] => some (s.goOn pid i .idle)
      | _ => none
  | .snapshot _ text =>
      match i.stage with
      | .idle => some (s.goOn pid i (.holding text))
      | _ => none
  | .create _ ok =>
      match i.stage with
      | .holding text =>
          let tmp := tmpName name pid i.seq
          let i := { i with seq := i.seq + 1 }
          match (if ok then s.dir.createNew tmp else none) with
          | some (file, dir) => some { s.goOn pid i (.writing tmp file text 0) with dir := dir }
          | none => some (s.goOn pid i (.failed tmp))
      | _ => none
  | .write _ count =>
      match i.stage with
      | .writing tmp file text written =>
          let data := (text.drop written).take count
          some { s.goOn pid i (.writing tmp file text (written + data.length)) with
            dir := s.dir.append file data }
      | _ => none
  | .fail _ =>
      match i.stage with
      | .writing tmp _ _ _ => some (s.goOn pid i (.failed tmp))
      | _ => none
  | .sync _ =>
      match i.stage with
      | .writing tmp file text written =>
          if written = text.length then
            some { s.goOn pid i (.synced tmp file text) with dir := s.dir.sync file }
          else none
      | _ => none
  | .rename _ ok =>
      match i.stage with
      | .synced tmp _ _ =>
          match (if ok then s.dir.rename tmp name else none) with
          | some dir => some { s.goOn pid i .idle with dir := dir }
          | none => some (s.goOn pid i (.failed tmp))
      | _ => none
  | .cleanup _ ok =>
      match i.stage with
      | .failed tmp =>
          some { s.goOn pid i .idle with dir := if ok then s.dir.unlink tmp else s.dir }
      | _ => none
  | .crash _ => some { s with instances := Function.update s.instances pid none }
  | _ => none

/-- The instance that makes the move. -/
def actor : CacheMove → Option ℕ
  | .start pid _ | .sweep pid _ | .load pid | .snapshot pid _ | .create pid _ | .write pid _
  | .fail pid | .sync pid | .rename pid _ | .cleanup pid _ | .crash pid => some pid
  | .losePower _ _ => none

def step (name : String) (s : CacheDir) (m : CacheMove) : Option CacheDir :=
  match m, actor m with
  | .start pid listing, _ =>
      match s.instances pid with
      | some _ => none
      | none =>
          some { s with
            instances := Function.update s.instances pid
              (some { stage := .sweeping listing }) }
  | .losePower keep back, _ =>
      some { dir := s.dir.losePower keep back, instances := fun _ => none }
  | m, some pid => (s.instances pid).bind fun i => s.act name pid i m
  | _, none => none

/-- The cache directory under everything that its instances do. -/
def system (name : String) : System CacheDir CacheMove where
  step := step name

/-- The snapshot that the move puts in the place of the cache file. -/
def installs (s : CacheDir) : CacheMove → Option Bytes
  | .rename pid true =>
      match (s.instances pid).map Instance.stage with
      | some (.synced tmp _ text) => if (s.dir.entries tmp).isSome then some text else none
      | _ => none
  | _ => none

theorem installs_rename {name tmp : String} {s : CacheDir} {pid file : ℕ} {i : Instance}
    {text : Bytes} {d' : Directory UInt8} (hi : s.instances pid = some i)
    (hstage : i.stage = .synced tmp file text) (hrename : s.dir.rename tmp name = some d') :
    s.installs (.rename pid true) = some text := by
  have hsome : (s.dir.entries tmp).isSome = true := by
    rw [← s.dir.isSome_rename tmp name, hrename, Option.isSome_some]
  simp only [installs, hi, hstage, Option.map_some, if_pos hsome]

theorem installs_rename_none {name tmp : String} {s : CacheDir} {pid file : ℕ} {i : Instance}
    {text : Bytes} {ok : Bool} (hi : s.instances pid = some i)
    (hstage : i.stage = .synced tmp file text)
    (hrename : (if ok then s.dir.rename tmp name else none) = none) :
    s.installs (.rename pid ok) = none := by
  cases ok with
  | false => rfl
  | true =>
      have hnone : ¬ (s.dir.entries tmp).isSome = true := by
        rw [if_pos rfl] at hrename
        rw [← s.dir.isSome_rename tmp name, hrename]
        exact Bool.false_ne_true
      simp only [installs, hi, hstage, Option.map_some, if_neg hnone]

/-- The snapshots whose saving was completed, the last one first. -/
def saves (hist : History CacheDir CacheMove) : List Bytes :=
  hist.filterMap fun entry => installs entry.1 entry.2

/-- The directory of a program that has never run, or of programs that have all
ended. -/
def quiet (dir : Directory UInt8) : CacheDir where
  dir := dir
  instances _ := none

end CacheDir

/-! ## The names -/

theorem tmpName_toList (name : String) (pid seq : ℕ) :
    (tmpName name pid seq).toList =
      (name ++ ".").toList ++ (Nat.toDigits 10 pid ++ '-' :: (Nat.toDigits 10 seq ++ ".tmp".toList)) := by
  unfold tmpName
  simp only [String.toList_append, toList_toString_nat, List.append_assoc]
  rfl

/-- The temporary files of different instances have different names. -/
theorem tmpName_pid {name : String} {pid pid' seq seq' : ℕ}
    (h : tmpName name pid seq = tmpName name pid' seq') : pid = pid' := by
  have htexts := congrArg String.toList h
  rw [tmpName_toList, tmpName_toList] at htexts
  exact (toDigits_append_inj (by decide) (by decide) (List.append_cancel_left htexts)).1

/-- What an instance leaves behind, the next one removes. -/
theorem isStale_tmpName (name : String) (pid seq : ℕ) :
    isStale name (tmpName name pid seq) = true := by
  unfold isStale
  rw [tmpName_toList, Bool.and_eq_true, List.isPrefixOf_iff_prefix, List.isSuffixOf_iff_suffix]
  refine ⟨List.prefix_append _ _, ?_⟩
  rw [← List.append_assoc, ← List.cons_append, ← List.append_assoc]
  exact List.suffix_append _ _

/-- The cache file itself is never removed. -/
theorem isStale_self (name : String) : isStale name name = false := by
  unfold isStale
  have hnot : ¬ (name ++ ".").toList <+: name.toList := by
    intro hprefix
    have hlength := hprefix.length_le
    rw [String.toList_append, List.length_append] at hlength
    have hdot : ".".toList.length = 1 := rfl
    omega
  rw [← List.isPrefixOf_iff_prefix, Bool.not_eq_true] at hnot
  rw [hnot, Bool.false_and]

theorem ne_of_isStale {name file : String} (h : isStale name file = true) : file ≠ name := by
  rintro rfl
  rw [isStale_self] at h
  contradiction

/-! ## What an instance has in its hands -/

/-- The file that the instance has open. -/
def Stage.file : Stage → Option ℕ
  | .writing _ file _ _ | .synced _ file _ => some file
  | _ => none

/-- The instance fills a file that nobody else has made, which has the name that the
instance gave it and no other, or none any more. -/
structure Filling (name : String) (start dir : Directory UInt8) (pid : ℕ) (tmp : String)
    (file : ℕ) : Prop where
  own : ∃ seq, tmp = tmpName name pid seq
  later : start.fresh ≤ file
  used : file < dir.fresh
  entry : dir.entries tmp = some file ∨ dir.entries tmp = none
  only : ∀ table ∈ dir.tables, ∀ n, table n = some file → n = tmp

/-- What the stage of an instance says about the directory. -/
def Holds (name : String) (start dir : Directory UInt8) (pid : ℕ) : Stage → Prop
  | .writing tmp file text written =>
      Filling name start dir pid tmp file ∧ (dir.files file).content = text.take written
  | .synced tmp file text =>
      Filling name start dir pid tmp file ∧ (dir.files file).content = text ∧ dir.Durable file
  | .failed tmp => ∃ seq, tmp = tmpName name pid seq
  | _ => True

theorem Holds.filling {name : String} {start dir : Directory UInt8} {pid file : ℕ} {stage : Stage}
    (h : Holds name start dir pid stage) (hfile : stage.file = some file) :
    ∃ tmp, Filling name start dir pid tmp file := by
  cases stage with
  | writing tmp f text written =>
      obtain rfl := Option.some.inj hfile
      exact ⟨tmp, h.1⟩
  | synced tmp f text =>
      obtain rfl := Option.some.inj hfile
      exact ⟨tmp, h.1⟩
  | _ => contradiction

/-- What one operation of an instance may change: the one file that it has in its
hands, the names of that file, and what is left behind. -/
structure Acts (name : String) (pid file : ℕ) (d d' : Directory UInt8) : Prop where
  fresh : d.fresh ≤ d'.fresh
  entries : ∀ n, d'.entries n = d.entries n ∨ (d'.entries n = none ∧ isStale name n = true) ∨
    (d'.entries n = some file ∧ (n = name ∨ ∃ seq, n = tmpName name pid seq))
  tables : ∀ table ∈ d'.tables, table ∈ d.tables ∨ table = d'.entries
  files : ∀ f, f ≠ file → d'.files f = d.files f

section Acts

variable {name : String} {start d d' : Directory UInt8} {pid pid' file : ℕ}

theorem Acts.refl (name : String) (pid file : ℕ) (d : Directory UInt8) : Acts name pid file d d :=
  ⟨le_rfl, fun _ => .inl rfl, fun _ => .inl, fun _ _ => rfl⟩

/-- Entries that take the place of others join those of before. -/
theorem tables_changed {entries : String → Option ℕ} {past : List (String → Option ℕ)}
    {table : String → Option ℕ} (h : table ∈ entries :: past) : table ∈ past ∨ table = entries :=
  (List.mem_cons.mp h).symm

theorem Acts.unlink (pid file : ℕ) (d : Directory UInt8) {stale : String}
    (h : isStale name stale = true) : Acts name pid file d (d.unlink stale) := by
  refine ⟨le_rfl, fun n => ?_, fun _ => tables_changed, fun _ _ => rfl⟩
  unfold Directory.unlink
  dsimp only
  by_cases hn : n = stale
  · subst hn
    rw [Function.update_self]
    exact .inr (.inl ⟨rfl, h⟩)
  · rw [Function.update_of_ne hn]
    exact .inl rfl

/-- An operation of another instance leaves the file of an instance alone. -/
theorem Holds.of_acts {stage : Stage} (h : Holds name start d pid' stage) (hne : pid' ≠ pid)
    (hfile : ∀ f, stage.file = some f → f ≠ file) (hacts : Acts name pid file d d') :
    Holds name start d' pid' stage := by
  have hfilling : ∀ {tmp f}, Filling name start d pid' tmp f → f ≠ file →
      Filling name start d' pid' tmp f := by
    intro tmp f hf hother
    obtain ⟨seq, htmp⟩ := hf.own
    refine ⟨hf.own, hf.later, hf.used.trans_le hacts.fresh, ?_, ?_⟩
    · rcases hacts.entries tmp with hsame | ⟨hnone, -⟩ | ⟨-, rfl | ⟨seq', hmine⟩⟩
      · rw [hsame]
        exact hf.entry
      · exact .inr hnone
      · exact absurd htmp.symm (ne_of_isStale (isStale_tmpName tmp pid' seq))
      · exact absurd (tmpName_pid (htmp.symm.trans hmine)) hne
    · intro table htable n hn
      rcases hacts.tables table htable with hold | rfl
      · exact hf.only table hold n hn
      · rcases hacts.entries n with hsame | ⟨hnone, -⟩ | ⟨hmine, -⟩
        · exact hf.only _ (List.mem_cons_self ..) n (hsame ▸ hn)
        · rw [hnone] at hn
          contradiction
        · exact absurd (Option.some.inj (hn.symm.trans hmine)) hother
  cases stage with
  | writing tmp f text written =>
      have hother := hfile f rfl
      refine ⟨hfilling h.1 hother, ?_⟩
      rw [hacts.files f hother]
      exact h.2
  | synced tmp f text =>
      have hother := hfile f rfl
      refine ⟨hfilling h.1 hother, ?_, ?_⟩
      · rw [hacts.files f hother]
        exact h.2.1
      · unfold Directory.Durable
        rw [hacts.files f hother]
        exact h.2.2
  | failed tmp => exact h
  | _ => trivial

end Acts

/-! ## The invariant -/

/-- The cache file is the last snapshot saved, at every moment to which a loss of
power may lead back it is a whole one, every instance fills a file of its own, and
everything else in the directory is as it was. -/
structure Intact (name : String) (start : Directory UInt8) (saves : List Bytes) (lost : Bool)
    (s : CacheDir) : Prop where
  proper : s.dir.Proper
  fresh : start.fresh ≤ s.dir.fresh
  content : lost = false → s.dir.read name = saves.head?.or (start.read name)
  whole : ∀ table ∈ s.dir.tables, table name = start.entries name ∨
    ∃ file, table name = some file ∧ s.dir.Durable file ∧ (s.dir.files file).content ∈ saves
  holds : ∀ pid i, s.instances pid = some i → Holds name start s.dir pid i.stage
  apart : ∀ pid pid' i i' file, s.instances pid = some i → s.instances pid' = some i' →
    i.stage.file = some file → i'.stage.file = some file → pid = pid'
  others : ∀ table ∈ s.dir.tables, ∀ n, n ≠ name → isStale name n = false →
    table n = start.entries n
  kept : ∀ n file, start.entries n = some file →
    (s.dir.files file).content = (start.files file).content ∧ s.dir.Durable file

namespace Intact

variable {name : String} {start : Directory UInt8} {saves : List Bytes} {lost : Bool}
  {s : CacheDir}

/-- The file that an instance has in its hands, or a new one, was never the cache
file. -/
theorem ne_target (h : Intact name start saves lost s) {pid : ℕ} {i : Instance} {file : ℕ}
    (hmine : s.instances pid = some i ∧ i.stage.file = some file ∨ file = s.dir.fresh)
    {table : String → Option ℕ} (htable : table ∈ s.dir.tables) {f : ℕ}
    (hf : table name = some f) : f ≠ file := by
  rintro rfl
  rcases hmine with ⟨hi, hfile⟩ | rfl
  · obtain ⟨tmp, hfilling⟩ := (h.holds pid i hi).filling hfile
    obtain ⟨seq, htmp⟩ := hfilling.own
    refine absurd ((hfilling.only table htable name hf).trans htmp).symm ?_
    exact ne_of_isStale (isStale_tmpName name pid seq)
  · exact absurd ((h.proper table htable).used hf) (lt_irrefl _)

/-- One operation of an instance that keeps its file in its hands or lets it go. -/
theorem acts (h : Intact name start saves lost s) (hstart : start.Proper) {pid : ℕ} {i : Instance}
    {stage : Stage} {d' : Directory UInt8} {file : ℕ} {saves' : List Bytes} {seq : ℕ}
    (hacts : Acts name pid file s.dir d') (hproper : d'.Proper)
    (hmine : s.instances pid = some i ∧ i.stage.file = some file ∨ file = s.dir.fresh)
    (hholds : Holds name start d' pid stage) (hstage : ∀ f, stage.file = some f → f = file)
    (hname : d'.entries name = s.dir.entries name ∧ saves' = saves ∨
      d'.entries name = some file ∧ d'.Durable file ∧
        saves' = (d'.files file).content :: saves) :
    Intact name start saves' lost
      { dir := d', instances := Function.update s.instances pid (some ⟨stage, seq⟩) } := by
  have hlater : start.fresh ≤ file := by
    rcases hmine with ⟨hi, hfile⟩ | rfl
    · obtain ⟨tmp, hfilling⟩ := (h.holds pid i hi).filling hfile
      exact hfilling.later
    · exact h.fresh
  have hothers : ∀ pid' i', pid' ≠ pid → s.instances pid' = some i' →
      ∀ f, i'.stage.file = some f → f ≠ file := by
    rintro pid' i' hne hi' f hf rfl
    rcases hmine with ⟨hi, hfile⟩ | rfl
    · exact hne (h.apart pid' pid i' i f hi' hi hf hfile)
    · obtain ⟨tmp, hfilling⟩ := (h.holds pid' i' hi').filling hf
      exact absurd hfilling.used (lt_irrefl _)
  have hsaves : ∀ text ∈ saves, text ∈ saves' := by
    rcases hname with ⟨-, rfl⟩ | ⟨-, -, rfl⟩
    · exact fun _ htext => htext
    · exact fun _ htext => List.mem_cons_of_mem _ htext
  have hlook : ∀ pid' i', Function.update s.instances pid (some ⟨stage, seq⟩) pid' = some i' →
      pid' = pid ∧ i'.stage = stage ∨ pid' ≠ pid ∧ s.instances pid' = some i' := by
    intro pid' i' hi'
    by_cases hne : pid' = pid
    · subst hne
      rw [Function.update_self, Option.some.injEq] at hi'
      exact .inl ⟨rfl, by rw [← hi']⟩
    · rw [Function.update_of_ne hne] at hi'
      exact .inr ⟨hne, hi'⟩
  have hold : ∀ table ∈ s.dir.tables, table name = start.entries name ∨
      ∃ f, table name = some f ∧ d'.Durable f ∧ (d'.files f).content ∈ saves' := by
    intro table htable
    refine (h.whole table htable).imp_right ?_
    rintro ⟨f, hf, hdurable, hcontent⟩
    have hsame := hacts.files f (h.ne_target hmine htable hf)
    refine ⟨f, hf, ?_, ?_⟩
    · unfold Directory.Durable
      rw [hsame]
      exact hdurable
    · rw [hsame]
      exact hsaves _ hcontent
  refine ⟨hproper, h.fresh.trans hacts.fresh, fun hlost => ?_, fun table htable => ?_, ?_, ?_, ?_,
    ?_⟩
  · rcases hname with ⟨hsame, rfl⟩ | ⟨hnew, -, rfl⟩
    · rw [← h.content hlost]
      unfold Directory.read
      dsimp only
      rw [hsame]
      cases hentry : s.dir.entries name with
      | none => rfl
      | some f =>
          rw [Option.map_some, Option.map_some,
            hacts.files f (h.ne_target hmine (List.mem_cons_self ..) hentry)]
    · unfold Directory.read
      dsimp only
      rw [hnew]
      rfl
  · rcases hacts.tables table htable with hbefore | rfl
    · exact hold table hbefore
    · rcases hname with ⟨hsame, -⟩ | ⟨hnew, hdurable, rfl⟩
      · rw [hsame]
        exact hold _ (List.mem_cons_self ..)
      · exact .inr ⟨file, hnew, hdurable, List.mem_cons_self ..⟩
  · intro pid' i' hi'
    rcases hlook pid' i' hi' with ⟨rfl, heq⟩ | ⟨hne, hold⟩
    · rw [heq]
      exact hholds
    · exact (h.holds pid' i' hold).of_acts hne (hothers pid' i' hne hold) hacts
  · intro first second i₁ i₂ f hi₁ hi₂ hf₁ hf₂
    rcases hlook first i₁ hi₁ with ⟨rfl, heq₁⟩ | ⟨hne₁, hold₁⟩ <;>
      rcases hlook second i₂ hi₂ with ⟨rfl, heq₂⟩ | ⟨hne₂, hold₂⟩
    · rfl
    · exact absurd (hstage f (heq₁ ▸ hf₁)) (hothers second i₂ hne₂ hold₂ f hf₂)
    · exact absurd (hstage f (heq₂ ▸ hf₂)) (hothers first i₁ hne₁ hold₁ f hf₁)
    · exact h.apart first second i₁ i₂ f hold₁ hold₂ hf₁ hf₂
  · intro table htable n hn hstale
    rcases hacts.tables table htable with hbefore | rfl
    · exact h.others table hbefore n hn hstale
    · rw [← h.others _ (List.mem_cons_self ..) n hn hstale]
      rcases hacts.entries n with hsame | ⟨-, hswept⟩ | ⟨-, hself | ⟨seq', hmine'⟩⟩
      · exact hsame
      · rw [hstale] at hswept
        contradiction
      · exact absurd hself hn
      · rw [hmine', isStale_tmpName] at hstale
        contradiction
  · intro n f hf
    have hother : f ≠ file := (Nat.lt_of_lt_of_le (hstart.now.used hf) hlater).ne
    unfold Directory.Durable
    dsimp only
    rw [hacts.files f hother]
    exact h.kept n f hf

/-- An operation that has no file in its hands, neither before nor after. -/
theorem aside (h : Intact name start saves lost s) (hstart : start.Proper) {pid : ℕ} {stage : Stage}
    {d' : Directory UInt8} {seq : ℕ} (hacts : Acts name pid s.dir.fresh s.dir d')
    (hproper : d'.Proper) (hholds : Holds name start d' pid stage) (hstage : stage.file = none)
    (hname : d'.entries name = s.dir.entries name) :
    Intact name start saves lost
      { dir := d', instances := Function.update s.instances pid (some ⟨stage, seq⟩) } :=
  h.acts (i := ⟨stage, seq⟩) hstart hacts hproper (.inr rfl) hholds
    (fun f hf => by rw [hstage] at hf; contradiction) (.inl ⟨hname, rfl⟩)

/-- An operation that only removes what is left behind, or nothing at all. -/
theorem removing (h : Intact name start saves lost s) (hstart : start.Proper) {pid : ℕ} {stage : Stage}
    {file : String} {removes : Bool} {seq : ℕ} (hstale : removes = true → isStale name file = true)
    (hholds : ∀ d', Holds name start d' pid stage) (hstage : stage.file = none) :
    Intact name start saves lost
      { dir := if removes = true then s.dir.unlink file else s.dir
        instances := Function.update s.instances pid (some ⟨stage, seq⟩) } := by
  cases removes with
  | false => exact h.aside hstart (.refl ..) h.proper (hholds _) hstage rfl
  | true =>
      have hfile := hstale rfl
      refine h.aside hstart (.unlink _ _ _ hfile) (h.proper.unlink file) (hholds _) hstage ?_
      exact Function.update_of_ne (ne_of_isStale hfile).symm _ _

/-- Some of the instances end. -/
theorem fewer (h : Intact name start saves lost s) {instances : ℕ → Option Instance}
    (hfewer : ∀ pid i, instances pid = some i → s.instances pid = some i) :
    Intact name start saves lost { s with instances := instances } where
  proper := h.proper
  fresh := h.fresh
  content := h.content
  whole := h.whole
  holds pid i hi := h.holds pid i (hfewer pid i hi)
  apart pid pid' i i' file hi hi' :=
    h.apart pid pid' i i' file (hfewer pid i hi) (hfewer pid' i' hi')
  others := h.others
  kept := h.kept

/-- The power is lost, and with it what no one has synced and the last changes of the
entries. -/
theorem losePower (h : Intact name start saves lost s) (keep : ℕ → ℕ) (back : ℕ) :
    Intact name start saves true
      { dir := s.dir.losePower keep back, instances := fun _ => none } where
  proper := h.proper.losePower keep back
  fresh := h.fresh
  content hlost := by contradiction
  whole := by
    intro table htable
    obtain rfl := List.mem_singleton.mp htable
    refine (h.whole _ (s.dir.entries_losePower_mem keep back)).imp_right ?_
    rintro ⟨file, hfile, hdurable, hcontent⟩
    refine ⟨file, hfile, Directory.durable_losePower s.dir keep back file, ?_⟩
    rwa [Directory.content_losePower hdurable]
  holds _ _ hi := by contradiction
  apart _ _ _ _ _ hi := by contradiction
  others := by
    intro table htable
    obtain rfl := List.mem_singleton.mp htable
    exact h.others _ (s.dir.entries_losePower_mem keep back)
  kept n file hfile := by
    obtain ⟨hcontent, hdurable⟩ := h.kept n file hfile
    refine ⟨?_, Directory.durable_losePower s.dir keep back file⟩
    rw [← hcontent]
    exact Directory.content_losePower hdurable keep back

/-! ## One operation keeps the invariant -/

section Steps

variable (h : Intact name start saves lost s) (hstart : start.Proper) {pid seq : ℕ} {i : Instance}
  (hi : s.instances pid = some i)

include h hstart

theorem create {text : Bytes} {file : ℕ} {d' : Directory UInt8}
    (hcreate : s.dir.createNew (tmpName name pid seq) = some (file, d')) (next : ℕ) :
    Intact name start saves lost
      { dir := d'
        instances := Function.update s.instances pid
          (some ⟨.writing (tmpName name pid seq) file text 0, next⟩) } := by
  have hne : name ≠ tmpName name pid seq := (ne_of_isStale (isStale_tmpName name pid seq)).symm
  obtain ⟨hfree, hresult⟩ := Directory.createNew_eq_some hcreate
  obtain ⟨rfl, rfl⟩ := Prod.mk.inj hresult
  have hentry : ∀ table ∈ Function.update s.dir.entries (tmpName name pid seq)
      (some s.dir.fresh) :: s.dir.tables, ∀ n, table n = some s.dir.fresh →
        n = tmpName name pid seq := by
    intro table htable n hn
    by_contra hother
    rcases List.mem_cons.mp htable with rfl | hold
    · rw [Function.update_of_ne hother] at hn
      exact absurd (h.proper.now.used hn) (lt_irrefl _)
    · exact absurd ((h.proper table hold).used hn) (lt_irrefl _)
  refine h.acts (i := ⟨.idle, 0⟩) hstart
    ⟨Nat.le_succ _, fun n => ?_, fun _ => tables_changed, fun f hf => ?_⟩
    (h.proper.changed (Nat.le_succ _) (h.proper.now.created _)) (.inr rfl)
    ⟨⟨⟨seq, rfl⟩, h.fresh, Nat.lt_succ_self _, .inl ?_, hentry⟩, ?_⟩
    (fun f hf => (Option.some.inj hf).symm) (.inl ⟨Function.update_of_ne hne _ _, rfl⟩)
  · by_cases hn : n = tmpName name pid seq
    · subst hn
      exact .inr (.inr ⟨Function.update_self .., .inr ⟨seq, rfl⟩⟩)
    · exact .inl (Function.update_of_ne hn _ _)
  · exact Function.update_of_ne hf _ _
  · exact Function.update_self ..
  · dsimp only
    rw [Function.update_self, List.take_zero]

include hi

theorem write {tmp : String} {file written : ℕ} {text : Bytes}
    (hstage : i.stage = .writing tmp file text written) (count next : ℕ) :
    Intact name start saves lost
      { dir := s.dir.append file ((text.drop written).take count)
        instances := Function.update s.instances pid
          (some ⟨.writing tmp file text
            (written + ((text.drop written).take count).length), next⟩) } := by
  have hholds := h.holds pid i hi
  rw [hstage] at hholds
  obtain ⟨hfilling, hcontent⟩ := hholds
  refine h.acts hstart ⟨le_rfl, fun _ => .inl rfl, fun _ => .inl, fun f hf => Function.update_of_ne hf _ _⟩
    h.proper (.inl ⟨hi, by rw [hstage]; rfl⟩)
    ⟨⟨hfilling.own, hfilling.later, hfilling.used, hfilling.entry, hfilling.only⟩, ?_⟩
    (fun f hf => (Option.some.inj hf).symm) (.inl ⟨rfl, rfl⟩)
  unfold Directory.append
  dsimp only
  rw [Function.update_self, hcontent, List.take_add, List.length_take]
  rw [← List.take_eq_take_min]

theorem sync {tmp : String} {file written : ℕ} {text : Bytes}
    (hstage : i.stage = .writing tmp file text written) (hwritten : written = text.length)
    (next : ℕ) :
    Intact name start saves lost
      { dir := s.dir.sync file
        instances := Function.update s.instances pid (some ⟨.synced tmp file text, next⟩) } := by
  have hholds := h.holds pid i hi
  rw [hstage] at hholds
  obtain ⟨hfilling, hcontent⟩ := hholds
  refine h.acts hstart ⟨le_rfl, fun _ => .inl rfl, fun _ => .inl, fun f hf => Function.update_of_ne hf _ _⟩
    h.proper (.inl ⟨hi, by rw [hstage]; rfl⟩)
    ⟨⟨hfilling.own, hfilling.later, hfilling.used, hfilling.entry, hfilling.only⟩, ?_,
      Directory.durable_sync s.dir file⟩
    (fun f hf => (Option.some.inj hf).symm) (.inl ⟨rfl, rfl⟩)
  unfold Directory.sync
  dsimp only
  rw [Function.update_self, hcontent, hwritten, List.take_length]

theorem rename {tmp : String} {file : ℕ} {text : Bytes} {d' : Directory UInt8}
    (hstage : i.stage = .synced tmp file text) (hrename : s.dir.rename tmp name = some d')
    (next : ℕ) :
    Intact name start (text :: saves) lost
      { dir := d', instances := Function.update s.instances pid (some ⟨.idle, next⟩) } := by
  have hholds := h.holds pid i hi
  rw [hstage] at hholds
  obtain ⟨hfilling, rfl, hdurable⟩ := hholds
  obtain ⟨seq, htmp⟩ := hfilling.own
  have hstale : isStale name tmp = true := by rw [htmp, isStale_tmpName]
  have hne := ne_of_isStale hstale
  obtain ⟨moved, hmoved, rfl⟩ := Directory.rename_eq_some hne hrename
  obtain rfl : moved = file := by
    rcases hfilling.entry with hsame | hgone
    · exact Option.some.inj (hmoved.symm.trans hsame)
    · rw [hgone] at hmoved
      contradiction
  have hself : Function.update (Function.update s.dir.entries name (some moved)) tmp none name =
      some moved := by
    rw [Function.update_of_ne hne.symm, Function.update_self]
  refine h.acts hstart ⟨le_rfl, fun n => ?_, fun _ => tables_changed, fun _ _ => rfl⟩
    (h.proper.changed le_rfl
      (h.proper.now.moved hfilling.used (hfilling.only _ (List.mem_cons_self ..))))
    (.inl ⟨hi, by rw [hstage]; rfl⟩) trivial (fun f hf => by contradiction) (.inr ⟨hself, hdurable, rfl⟩)
  by_cases hn : n = tmp
  · subst hn
    exact .inr (.inl ⟨Function.update_self .., hstale⟩)
  · by_cases hname : n = name
    · subst hname
      exact .inr (.inr ⟨hself, .inl rfl⟩)
    · refine .inl ?_
      dsimp only
      rw [Function.update_of_ne hn, Function.update_of_ne hname]

end Steps

/-- Whatever an instance does, the invariant stays, with the snapshot that the
instance has saved. -/
theorem act (h : Intact name start saves lost s) (hstart : start.Proper) {pid : ℕ} {i : Instance}
    {m : CacheMove} {s' : CacheDir} (hi : s.instances pid = some i)
    (hactor : CacheDir.actor m = some pid) (hfires : s.act name pid i m = some s') :
    Intact name start ((s.installs m).toList ++ saves) lost s' := by
  cases m with
  | start other listing => contradiction
  | losePower keep back => contradiction
  | sweep other ok =>
      simp only [CacheDir.act] at hfires
      split at hfires
      · obtain rfl := Option.some.inj hfires
        exact h.removing hstart (fun hremoves => (Bool.and_eq_true_iff.mp hremoves).1)
          (fun _ => trivial) rfl
      · contradiction
  | load other =>
      simp only [CacheDir.act] at hfires
      split at hfires
      · obtain rfl := Option.some.inj hfires
        exact h.aside hstart (.refl ..) h.proper trivial rfl rfl
      · contradiction
  | snapshot other text =>
      simp only [CacheDir.act] at hfires
      split at hfires
      · obtain rfl := Option.some.inj hfires
        exact h.aside hstart (.refl ..) h.proper trivial rfl rfl
      · contradiction
  | create other ok =>
      simp only [CacheDir.act] at hfires
      split at hfires
      · split at hfires
        · rename_i hcreate
          obtain rfl := Option.some.inj hfires
          rw [Option.ite_none_right_eq_some] at hcreate
          exact h.create hstart hcreate.2 _
        · obtain rfl := Option.some.inj hfires
          exact h.aside hstart (.refl ..) h.proper ⟨i.seq, rfl⟩ rfl rfl
      · contradiction
  | write other count =>
      simp only [CacheDir.act] at hfires
      split at hfires
      · rename_i hstage
        obtain rfl := Option.some.inj hfires
        exact h.write hstart hi hstage count _
      · contradiction
  | fail other =>
      simp only [CacheDir.act] at hfires
      split at hfires
      · rename_i hstage
        obtain rfl := Option.some.inj hfires
        have hholds := h.holds pid i hi
        rw [hstage] at hholds
        exact h.aside hstart (.refl ..) h.proper hholds.1.own rfl rfl
      · contradiction
  | sync other =>
      simp only [CacheDir.act] at hfires
      split at hfires
      · rename_i hstage
        rw [Option.ite_none_right_eq_some] at hfires
        obtain ⟨hwritten, hfires⟩ := hfires
        obtain rfl := Option.some.inj hfires
        exact h.sync hstart hi hstage hwritten _
      · contradiction
  | rename other ok =>
      obtain rfl := Option.some.inj hactor
      simp only [CacheDir.act] at hfires
      split at hfires
      · rename_i tmp file text hstage
        split at hfires
        · rename_i d' hrename
          obtain rfl := Option.some.inj hfires
          rw [Option.ite_none_right_eq_some] at hrename
          obtain ⟨rfl, hrename⟩ := hrename
          rw [CacheDir.installs_rename hi hstage hrename]
          exact h.rename hstart hi hstage hrename _
        · rename_i hrename
          obtain rfl := Option.some.inj hfires
          have hholds := h.holds other i hi
          rw [hstage] at hholds
          rw [CacheDir.installs_rename_none hi hstage hrename]
          exact h.aside hstart (.refl ..) h.proper hholds.1.own rfl rfl
      · contradiction
  | cleanup other ok =>
      simp only [CacheDir.act] at hfires
      split at hfires
      · rename_i tmp hstage
        obtain rfl := Option.some.inj hfires
        have hholds := h.holds pid i hi
        rw [hstage] at hholds
        obtain ⟨seq, htmp⟩ := hholds
        exact h.removing hstart (fun _ => by rw [htmp, isStale_tmpName]) (fun _ => trivial) rfl
      · contradiction
  | crash other =>
      simp only [CacheDir.act] at hfires
      obtain rfl := Option.some.inj hfires
      refine h.fewer fun pid' i' hi' => ?_
      by_cases hne : pid' = pid
      · subst hne
        rw [Function.update_self] at hi'
        contradiction
      · rwa [Function.update_of_ne hne] at hi'

/-- Every operation, every crash and every loss of power keeps the invariant. -/
theorem step (h : Intact name start saves lost s) (hstart : start.Proper) {m : CacheMove}
    {s' : CacheDir} (hfires : (CacheDir.system name).step s m = some s') :
    Intact name start ((s.installs m).toList ++ saves) (m.cutsPower || lost) s' := by
  have hacting : ∀ pid, CacheDir.actor m = some pid →
      ((s.instances pid).bind fun i => s.act name pid i m) = some s' →
      Intact name start ((s.installs m).toList ++ saves) lost s' := by
    intro pid hactor hbind
    obtain ⟨i, hi, hact⟩ := Option.bind_eq_some_iff.mp hbind
    exact h.act hstart hi hactor hact
  simp only [CacheDir.system] at hfires
  cases m with
  | start pid listing =>
      simp only [CacheDir.step] at hfires
      split at hfires
      · contradiction
      · obtain rfl := Option.some.inj hfires
        exact h.aside hstart (.refl ..) h.proper trivial rfl rfl
  | losePower keep back =>
      obtain rfl := Option.some.inj hfires
      exact h.losePower keep back
  | _ => exact hacting _ rfl hfires

/-- What is neither the cache file nor left behind reads as it did. -/
theorem read_other (h : Intact name start saves lost s) {n : String} (hn : n ≠ name)
    (hstale : isStale name n = false) : s.dir.read n = start.read n := by
  unfold Directory.read
  rw [h.others _ (List.mem_cons_self ..) n hn hstale]
  cases hentry : start.entries n with
  | none => rfl
  | some file => exact congrArg some (h.kept n file hentry).1

/-- The cache file is a whole snapshot that was saved, or what it was at first. -/
theorem read_name (h : Intact name start saves lost s) :
    s.dir.read name = start.read name ∨ ∃ text ∈ saves, s.dir.read name = some text := by
  unfold Directory.read
  rcases h.whole _ (List.mem_cons_self ..) with hsame | ⟨file, hfile, -, hcontent⟩
  · left
    rw [hsame]
    cases hentry : start.entries name with
    | none => rfl
    | some file => exact congrArg some (h.kept name file hentry).1
  · right
    rw [hfile]
    exact ⟨_, hcontent, rfl⟩

end Intact

/-! ## Whole runs -/

namespace CacheDir

variable {name : String} {start : Directory UInt8} {hist : History CacheDir CacheMove}
  {s : CacheDir}

theorem saves_cons (s : CacheDir) (m : CacheMove) (hist : History CacheDir CacheMove) :
    saves ((s, m) :: hist) = (s.installs m).toList ++ saves hist := by
  unfold saves
  rw [List.filterMap_cons]
  cases s.installs m <;> rfl

theorem intact_quiet (hstart : start.Proper) (hsettled : start.Settled) :
    Intact name start [] false (quiet start) where
  proper := hstart
  fresh := le_rfl
  content _ := Option.none_or.symm
  whole := by
    intro table htable
    rw [quiet, Directory.tables, hsettled.past] at htable
    rw [List.mem_singleton.mp htable]
    exact .inl rfl
  holds _ _ hi := by contradiction
  apart _ _ _ _ _ hi := by contradiction
  others := by
    intro table htable n _ _
    rw [quiet, Directory.tables, hsettled.past] at htable
    rw [List.mem_singleton.mp htable]
  kept n file hentry := ⟨rfl, hsettled.durable n file hentry⟩

theorem intact_run (hstart : start.Proper) (hsettled : start.Settled)
    (run : Run (system name) (quiet start) hist s) :
    Intact name start (saves hist) (hist.any fun entry => entry.2.cutsPower) s := by
  refine run.historyInvariant
    (P := fun hist s => Intact name start (saves hist) (hist.any fun entry => entry.2.cutsPower) s)
    (intact_quiet hstart hsettled) ?_
  intro hist s m s' _ hintact hfires
  rw [saves_cons, List.any_cons]
  exact hintact.step hstart hfires

/-- Whatever the instances do to each other, and whenever they crash or lose power: the
cache file is a whole snapshot that was saved, or what it was at first, and unless the
power was lost the last snapshot saved. Nothing else in its directory is touched but
the files that instances fill. -/
theorem read_saved (hstart : start.Proper) (hsettled : start.Settled)
    (run : Run (system name) (quiet start) hist s) :
    (s.dir.read name = start.read name ∨ ∃ text ∈ saves hist, s.dir.read name = some text) ∧
      ((∀ entry ∈ hist, entry.2.cutsPower = false) →
        s.dir.read name = (saves hist).head?.or (start.read name)) ∧
      ∀ n, n ≠ name → isStale name n = false → s.dir.read n = start.read n := by
  have hintact := intact_run hstart hsettled run
  refine ⟨hintact.read_name, fun hpower => hintact.content ?_,
    fun n hn hstale => hintact.read_other hn hstale⟩
  rw [List.any_eq_false]
  intro entry hentry
  rw [hpower entry hentry]
  exact Bool.false_ne_true

/-- One instance saves, another one crashes in the middle of its save, a third one
starts and takes away the file of the first one's next save, which fails; the save
after that is completed. -/
def disturbed : List CacheMove :=
  [.start 1 [], .load 1, .snapshot 1 [10, 20], .create 1 true, .write 1 2, .sync 1, .rename 1 true,
    .start 2 [], .load 2, .snapshot 2 [30], .create 2 true, .crash 2,
    .snapshot 1 [40, 50, 60], .create 1 true, .write 1 2, .start 3 ["n.1-1.tmp"], .sweep 3 true,
    .write 1 2, .sync 1, .rename 1 true, .cleanup 1 true,
    .snapshot 1 [70], .create 1 true, .write 1 1, .sync 1, .rename 1 true]

/-- The last save stands, until a loss of power takes its last step back. -/
theorem read_saved_disturbed :
    let before := (system "n").play [] (quiet Directory.empty) disturbed
    let after := (system "n").play before.1 before.2 [.losePower (fun _ => 0) 1]
    before.2.dir.read "n" = some [70] ∧ after.2.dir.read "n" = some [10, 20] ∧
      ∃ text ∈ saves after.1, after.2.dir.read "n" = some text := by
  intro before after
  have run : Run (system "n") (quiet Directory.empty) before.1 before.2 :=
    (Run.start : Run (system "n") (quiet Directory.empty) [] _).play disturbed
  have hread : after.2.dir.read "n" = some [10, 20] := by decide
  refine ⟨?_, hread, ?_⟩
  · have hsaves : saves before.1 = [[70], [10, 20]] := by decide
    have hlast := (read_saved Directory.proper_empty Directory.settled_empty run).2.1 (by decide)
    rw [hlast, hsaves]
    rfl
  · refine (read_saved Directory.proper_empty Directory.settled_empty
      (run.play [.losePower (fun _ => 0) 1])).1.resolve_left fun hfirst => ?_
    rw [hread] at hfirst
    contradiction

/-- A sweep that nobody disturbs removes what is stale in its listing, and nothing
else. -/
theorem read_sweep (hist : History CacheDir CacheMove) (dir : Directory UInt8)
    (others : ℕ → Option Instance) (pid seq : ℕ) (listing : List String) (n : String) :
    ((system name).play hist
        { dir := dir
          instances := Function.update others pid (some ⟨.sweeping listing, seq⟩) }
        (listing.map (fun _ => .sweep pid true) ++ [.load pid])).2.dir.read n =
      if n ∈ listing ∧ isStale name n = true then none else dir.read n := by
  induction listing generalizing hist dir with
  | nil =>
      rw [if_neg (fun hmem => List.not_mem_nil hmem.1), List.map_nil, List.nil_append]
      simp only [System.play, system, step, actor, act, goOn, Function.update_self,
        Option.bind_some]
  | cons file rest ih =>
      simp only [List.map_cons, List.cons_append, System.play, system, step, actor, act, goOn,
        Function.update_self, Option.bind_some, Function.update_idem, Bool.and_true] at ih ⊢
      rw [ih]
      by_cases hrest : n ∈ rest ∧ isStale name n = true
      · rw [if_pos hrest, if_pos ⟨List.mem_cons_of_mem file hrest.1, hrest.2⟩]
      · rw [if_neg hrest]
        have hkept : (if isStale name file = true then dir.unlink file else dir).read n =
            if n = file ∧ isStale name n = true then none else dir.read n := by
          by_cases hstale : isStale name file = true
          · rw [if_pos hstale, Directory.read_unlink]
            by_cases hfile : n = file
            · subst hfile
              rw [if_pos rfl, if_pos ⟨rfl, hstale⟩]
            · rw [if_neg hfile, if_neg (fun h => hfile h.1)]
          · rw [if_neg hstale, if_neg]
            rintro ⟨rfl, hswept⟩
            exact hstale hswept
        rw [hkept]
        by_cases hfile : n = file ∧ isStale name n = true
        · rw [if_pos hfile, if_pos ⟨hfile.1 ▸ List.mem_cons_self .., hfile.2⟩]
        · rw [if_neg hfile, if_neg]
          rintro ⟨hmem, hstale⟩
          rcases List.mem_cons.mp hmem with rfl | hmem
          · exact hfile ⟨rfl, hstale⟩
          · exact hrest ⟨hmem, hstale⟩

/-- After any run, the next start with an undisturbed sweep of the whole directory
leaves the cache file as it is, which is a whole snapshot that was saved or what it
was at first, what was there before the first start, and nothing else. -/
theorem read_restart (hstart : start.Proper) (hsettled : start.Settled)
    (run : Run (system name) (quiet start) hist s) {pid : ℕ} (hends : s.instances pid = none)
    {listing : List String} (hlisting : ∀ n, s.dir.entries n ≠ none → n ∈ listing) :
    (s.dir.read name = start.read name ∨ ∃ text ∈ saves hist, s.dir.read name = some text) ∧
      ∀ n, ((system name).play hist s (.start pid listing ::
        (listing.map (fun _ => .sweep pid true) ++ [.load pid]))).2.dir.read n =
          if n = name then s.dir.read name
          else if isStale name n = true then none
          else start.read n := by
  have hintact := intact_run hstart hsettled run
  have hfires : (system name).step s (.start pid listing) =
      some { s with
        instances := Function.update s.instances pid (some { stage := .sweeping listing }) } := by
    simp only [system, step, hends]
  refine ⟨hintact.read_name, fun n => ?_⟩
  rw [System.play, hfires]
  dsimp only
  rw [read_sweep]
  by_cases hn : n = name
  · subst hn
    rw [if_pos rfl, isStale_self, if_neg (fun h => Bool.false_ne_true h.2)]
  · rw [if_neg hn]
    by_cases hstale : isStale name n = true
    · rw [if_pos hstale]
      split
      · rfl
      · rename_i hmissing
        have hnone : s.dir.entries n = none := by
          by_contra hentry
          exact hmissing ⟨hlisting n hentry, hstale⟩
        exact congrArg (Option.map _) hnone
    · rw [if_neg hstale, if_neg (fun h => hstale h.2)]
      exact hintact.read_other hn (Bool.not_eq_true _ ▸ hstale)

/-- The crash as above, then a loss of power, and the program starts again under its
old number. -/
theorem read_restart_disturbed :
    let crashed := (system "n").play [] (quiet Directory.empty)
      (disturbed.take 12 ++ [.losePower (fun _ => 0) 0])
    let started := ((system "n").play crashed.1 crashed.2
      [.start 2 ["n", "n.2-0.tmp"], .sweep 2 true, .sweep 2 true, .load 2]).2.dir
    crashed.2.dir.read "n.2-0.tmp" = some [] ∧ started.read "n.2-0.tmp" = none ∧
      started.read "n" = some [10, 20] := by
  intro crashed started
  have run : Run (system "n") (quiet Directory.empty) crashed.1 crashed.2 :=
    (Run.start : Run (system "n") (quiet Directory.empty) [] _).play _
  have hentries : crashed.2.dir.entries =
      Function.update (Function.update (Function.update (Function.update (fun _ => none)
        "n.1-0.tmp" (some 0)) "n" (some 0)) "n.1-0.tmp" none) "n.2-0.tmp" (some 1) := rfl
  have hlisting : ∀ n, crashed.2.dir.entries n ≠ none → n ∈ ["n", "n.2-0.tmp"] := by
    intro n hn
    by_contra hmissing
    simp only [List.mem_cons, List.not_mem_nil, or_false, not_or] at hmissing
    rw [hentries, Function.update_of_ne hmissing.2] at hn
    by_cases hfirst : n = "n.1-0.tmp"
    · subst hfirst
      exact hn (Function.update_self ..)
    · rw [Function.update_of_ne hfirst, Function.update_of_ne hmissing.1,
        Function.update_of_ne hfirst] at hn
      exact hn rfl
  have hread := (read_restart Directory.proper_empty Directory.settled_empty run
    (by decide : crashed.2.instances 2 = none) hlisting).2
  refine ⟨by decide, (hread "n.2-0.tmp").trans ?_, (hread "n").trans ?_⟩
  · rw [if_neg (by decide), if_pos (by decide)]
  · rw [if_pos rfl]
    decide

end CacheDir

end SocketTrail.State
