/-
# Finishing a dump

The sections of `finish_dump` behind the first: the capture stops, the last
packets are accounted for, the errors of the recording are collected, the file
is rewritten and its map written next to it, and a report is made of it all.
Between the sections the rest of the program runs; what a section meets is part
of the `FinishRun`.

A process-only dump whose file could not be filtered is reported as unfiltered,
whatever went wrong on the way.
-/

import SocketTrail.Annotate.Rewrite
import SocketTrail.Recording.Dump
import SocketTrail.Recording.Session

namespace SocketTrail.Recording

open SocketTrail.Foundation SocketTrail.Net SocketTrail.State SocketTrail.Annotate

/-! ## The map next to the file -/

/-- Take a suffix off the end as often as it is there. Every time shortens the
text, so `fuel` for its length is never used up. -/
def trimEndMatches (suffix : List Char) : ℕ → List Char → List Char
  | 0, text => text
  | fuel + 1, text =>
      if suffix <:+ text then
        trimEndMatches suffix fuel (text.take (text.length - suffix.length))
      else text

/-- The path of the map of a dump. -/
def sidecarPath (path : String) : String :=
  String.ofList (trimEndMatches ".pcapng".toList path.toList.length path.toList) ++ ".json"

/-- What the processing of a dump meets. -/
structure ProcessEnv where
  lang : Lang
  io : Io
  /-- The words of the system for an operation that failed. -/
  system : String
  /-- The map cannot be written: the message, and what is at its path then. -/
  sidecarFault : Option (String × Option Bytes)

/-- Rewrite the dump, unless the data to filter it by are incomplete. -/
def rewriteDump (env : ProcessEnv) (plan : Plan) (fs : Fs) (path : String)
    (onlyGroup captureComplete : Bool) : Fs × Except String Stats :=
  if onlyGroup && !captureComplete then
    (fs, .error (tr env.lang "Ownership data is incomplete" "Данные владения неполны"))
  else
    match plan.rewrite env.io fs path with
    | (fs, .ok stats) => (fs, .ok stats)
    | (fs, .error e) => (fs, .error (e.text env.lang env.system))

/-- The errors of a rewriting. -/
def rewriteErrors (lang : Lang) (onlyGroup : Bool) : Except String Stats → List String
  | .ok _ => []
  | .error e =>
      if onlyGroup then
        [tr lang ("Filtering failed; the file contains unfiltered traffic: " ++ e)
          ("Фильтрация не выполнена; файл содержит нефильтрованный трафик: " ++ e)]
      else
        [tr lang ("Dump processing failed: " ++ e) ("Обработка дампа не выполнена: " ++ e)]

/-- The counts of a rewriting that succeeded enter the map. -/
def packetsInfo (info : Json) : Except String Stats → Json
  | .ok st =>
      info.set "packets"
        (.obj [("total", .num st.packets), ("kept", .num st.kept), ("labeled", .num st.labeled)])
  | .error _ => info

/-- The map tells what became of the file. -/
def processedInfo (info : Json) (onlyGroup captureComplete : Bool)
    (rewritten : Except String Stats) (errors : List String) : Json :=
  (((packetsInfo info rewritten).set "requested_only_process" (.bool onlyGroup)).set
    "only_process" (.bool (onlyGroup && rewritten.toBool))).set
    "processing" (.obj [("ok", .bool rewritten.toBool), ("capture_complete", .bool captureComplete),
      ("errors", .arr (errors.map .str))])

/-- Write the map of a dump; its path, or why there is none. -/
def writeSidecar (env : ProcessEnv) (fs : Fs) (path : String) (info : Json) :
    Fs × Except String String :=
  match env.sidecarFault with
  | some (e, content) => (Function.update fs (sidecarPath path) content, .error e)
  | none =>
      (Function.update fs (sidecarPath path) (some (utf8 (info.pretty 0).toList)), .ok (sidecarPath path))

/-- The errors of the writing of a map. -/
def sidecarErrors (lang : Lang) : Except String String → List String
  | .ok _ => []
  | .error e =>
      [tr lang ("Connection map was not saved: " ++ e) ("Карта соединений не сохранена: " ++ e)]

/-- What the processing of a dump reports. -/
structure Processed where
  sidecar : Option String
  unfiltered : Bool
  errors : List String

/-- Rewrite the dump and write its map. -/
def processDumpFile (env : ProcessEnv) (plan : Plan) (info : Json) (fs : Fs) (path : String)
    (onlyGroup captureComplete : Bool) : Fs × Processed :=
  let (fs, rewritten) := rewriteDump env plan fs path onlyGroup captureComplete
  let errors := rewriteErrors env.lang onlyGroup rewritten
  let info := processedInfo info onlyGroup captureComplete rewritten errors
  let (fs, written) := writeSidecar env fs path info
  (fs,
    { sidecar := written.toOption
      unfiltered := onlyGroup && !rewritten.toBool
      errors := errors ++ sidecarErrors env.lang written })

/-! ## The sections of finish_dump -/

/-- The errors of the recording before its file is looked at. -/
def captureErrors (lang : Lang) (accounted : Bool) (m : Option DumpMeta) (dropped : ℕ)
    (stopped : Except String (Option String)) : List String :=
  (if accounted then []
    else [tr lang "Packet accounting did not finish" "Пакетный учет не завершился"]) ++
  (match m with
    | none => []
    | some m =>
        (if m.limitReached then
          [tr lang "Recording stopped at the metadata limit"
            "Запись остановлена по лимиту метаданных"]
        else []) ++
        (if dropped > m.droppedAtStart then
          [tr lang "Packet tracking lost data during recording"
            "При записи потеряны данные пакетного учета"]
        else [])) ++
  (match stopped with
    | .ok _ => []
    | .error e => [e])

/-- What the processing of a recording is given. -/
structure Planned where
  path : String
  onlyGroup : Bool
  plan : Plan
  info : Json

/-- Plan the processing of a recording that has a file and metadata. -/
def planRecording (input : PlanInput) (path : Option String) (m : Option DumpMeta) :
    Option Planned :=
  match path, m with
  | some path, some m =>
      let (plan, info) := dumpPlan input m path
      some { path := path, onlyGroup := m.onlyGroup, plan := plan, info := info }
  | _, _ => none

/-- How the task that processes the file ends: it returns, or it panics with a
message and leaves some files behind. -/
inductive Processing
  | returns (env : ProcessEnv)
  | panics (message : String) (files : Fs)

/-- Process the file of a recording, with the errors of the recording so far. -/
def processRecording (lang : Lang) (processing : Processing) (planned : Option Planned) (fs : Fs)
    (errors : List String) : Fs × Processed :=
  match planned with
  | some d =>
      match processing with
      | .returns env =>
          let (fs, processed) :=
            processDumpFile env d.plan d.info fs d.path d.onlyGroup errors.isEmpty
          (fs, { processed with errors := errors ++ processed.errors })
      | .panics message files =>
          (files, { sidecar := none, unfiltered := d.onlyGroup, errors := errors ++ [message] })
  | none =>
      (fs,
        { sidecar := none
          unfiltered := false
          errors := errors ++
            [tr lang "Recording has no file or metadata" "У записи нет файла или метаданных"] })

/-- The report of a recording; the size of its file may be unreadable. -/
def dumpOutcome (sizeKnown : Bool) (fs : Fs) (path : Option String) (processed : Processed) :
    DumpOutcome where
  ok := processed.errors.isEmpty
  path := path
  size := if sizeKnown then ((path.bind fs).map List.length).getD 0 else 0
  sidecar := processed.sidecar
  error := if processed.errors.isEmpty then none else some ("; ".intercalate processed.errors)
  unfiltered := processed.unfiltered

/-- What one run of `finish_dump` meets behind its first section: how the capture
process ends, whether the packets are accounted for in time, the history that is
remembered last, the count of dropped packets, what the plan is made of, and how
the file is processed. -/
structure FinishRun where
  lang : Lang
  ended : Except String Unit
  accounted : Bool
  conns : KeyedMap ConnKey Conn
  order : HashOrder ConnKey
  dropped : ℕ
  input : PlanInput
  processing : Processing
  sizeKnown : Bool

/-- The metadata once the history is remembered for the last time. -/
def FinishRun.last (run : FinishRun) (m : DumpMeta) : DumpMeta := rememberAll run.order m run.conns

/-- The errors of the recording before its file is looked at. -/
def FinishRun.errors (run : FinishRun) (dump : Dump) (last : Option DumpMeta) : List String :=
  captureErrors run.lang run.accounted last run.dropped (dump.stopped run.ended)

/-- `finish_dump` behind its first section, from the files as the capture leaves
them. -/
def finishDump (run : FinishRun) (fs : Fs) (dump : Dump) (m : Option DumpMeta) :
    Fs × Dump × DumpOutcome :=
  let m := m.map run.last
  let errors := run.errors dump m
  let dump := dump.release
  let planned := planRecording run.input dump.path m
  let (fs, processed) := processRecording run.lang run.processing planned fs errors
  (fs, dump, dumpOutcome run.sizeKnown fs dump.path processed)

/-! ## The paths of a dump -/

theorem trimEndMatches_of_not {suffix text : List Char} (h : ¬ suffix <:+ text) (fuel : ℕ) :
    trimEndMatches suffix fuel text = text := by
  cases fuel with
  | zero => rfl
  | succ fuel => rw [trimEndMatches, if_neg h]

theorem sidecarPath_toList (path : String) : ".json".toList <:+ (sidecarPath path).toList := by
  rw [sidecarPath, String.toList_append]
  exact List.suffix_append ..

/-- The map never takes the place of the dump: a path in `.pcapng` does not end
like the map, and any other path is lengthened. -/
theorem sidecarPath_ne (path : String) : sidecarPath path ≠ path := by
  intro h
  by_cases hsuffix : ".pcapng".toList <:+ path.toList
  · have hjson := sidecarPath_toList path
    rw [h] at hjson
    obtain ⟨_, hpcapng⟩ := hsuffix
    obtain ⟨_, hjson⟩ := hjson
    have hlast := congrArg List.getLast? (hpcapng.trans hjson.symm)
    simp at hlast
  · rw [sidecarPath, trimEndMatches_of_not hsuffix] at h
    have hlength := congrArg (fun text : String => text.toList.length) h
    simp at hlength

/-- Writing the map leaves the dump as it is; afterwards the map is there, or
its path is not reported. -/
theorem writeSidecar_cases (env : ProcessEnv) (fs : Fs) (path : String) (info : Json) :
    (writeSidecar env fs path info).1 path = fs path ∧
      (((writeSidecar env fs path info).1 (sidecarPath path) = some (utf8 (info.pretty 0).toList) ∧
          (writeSidecar env fs path info).2 = .ok (sidecarPath path)) ∨
        ∃ e, (writeSidecar env fs path info).2 = .error e) := by
  have hne := (sidecarPath_ne path).symm
  unfold writeSidecar
  generalize sidecarPath path = sidecar at hne ⊢
  have hother (content : Option Bytes) : Function.update fs sidecar content path = fs path :=
    Function.update_of_ne hne content fs
  split
  · rename_i e content _
    exact ⟨hother content, .inr ⟨e, rfl⟩⟩
  · exact ⟨hother _, .inl ⟨Function.update_self .., rfl⟩⟩

/-! ## What the processing of a file does -/

/-- A rewriting that fails changes no file; one that succeeds is the rewriting
of the plan. -/
theorem rewriteDump_cases (env : ProcessEnv) (plan : Plan) (fs : Fs) (path : String)
    (onlyGroup captureComplete : Bool) :
    (∃ e, rewriteDump env plan fs path onlyGroup captureComplete = (fs, .error e) ∧
      ((onlyGroup = true ∧ captureComplete = false) ∨
        ∃ failure, (plan.rewrite env.io fs path).2 = .error failure)) ∨
    ∃ stats, rewriteDump env plan fs path onlyGroup captureComplete =
        ((plan.rewrite env.io fs path).1, .ok stats) ∧
      (onlyGroup = true → captureComplete = true) ∧
      (plan.rewrite env.io fs path).2 = .ok stats := by
  unfold rewriteDump
  by_cases hincomplete : (onlyGroup && !captureComplete) = true
  · rw [if_pos hincomplete]
    left
    simp only [Bool.and_eq_true, Bool.not_eq_true'] at hincomplete
    exact ⟨_, rfl, .inl hincomplete⟩
  · rw [if_neg hincomplete]
    obtain ⟨e, heq⟩ | ⟨src, out, stats, -, -, -, heq⟩ := rewrite_cases plan env.io fs path
    · left
      rw [heq]
      exact ⟨_, rfl, .inr ⟨e, rfl⟩⟩
    · right
      rw [heq]
      refine ⟨stats, rfl, ?_, rfl⟩
      intro honly
      simpa [honly] using hincomplete

theorem isObj_packetsInfo {info : Json} (hinfo : info.IsObj) (rewritten : Except String Stats) :
    (packetsInfo info rewritten).IsObj := by
  cases rewritten with
  | ok st => exact Json.isObj_set _ _ hinfo
  | error e => exact hinfo

/-- What the map says about the processing. -/
theorem processedInfo_get {info : Json} (hinfo : info.IsObj) (onlyGroup captureComplete : Bool)
    (rewritten : Except String Stats) (errors : List String) :
    let doc := processedInfo info onlyGroup captureComplete rewritten errors
    doc.get "requested_only_process" = some (.bool onlyGroup) ∧
      doc.get "only_process" = some (.bool (onlyGroup && rewritten.toBool)) ∧
      ∃ report, doc.get "processing" = some report ∧
        report.get "ok" = some (.bool rewritten.toBool) := by
  have hpackets := isObj_packetsInfo hinfo rewritten
  have hrequested := Json.isObj_set "requested_only_process" (.bool onlyGroup) hpackets
  have honly := Json.isObj_set "only_process" (.bool (onlyGroup && rewritten.toBool)) hrequested
  refine ⟨?_, ?_, _, Json.get_set_self honly _ _, rfl⟩
  · rw [processedInfo, Json.get_set_ne _ (by decide), Json.get_set_ne _ (by decide)]
    exact Json.get_set_self hpackets _ _
  · rw [processedInfo, Json.get_set_ne _ (by decide)]
    exact Json.get_set_self hrequested _ _

/-- The facts about a dump that its processing gets right. -/
structure ProcessedRight (env : ProcessEnv) (plan : Plan) (info : Json) (fs : Fs) (path : String)
    (onlyGroup captureComplete : Bool) (files : Fs) (processed : Processed) : Prop where
  /-- Without errors the file is the rewritten one and the map is next to it. -/
  complete : processed.errors = [] →
    (∃ stats, (plan.rewrite env.io fs path).2 = .ok stats) ∧
      processed.sidecar = some (sidecarPath path)
  /-- Unfiltered means that the file is as it was, and that this is said. -/
  unfiltered : processed.unfiltered = true →
    files path = fs path ∧ ∃ text rest, processed.errors = text :: rest ∧ text ≠ ""
  /-- Filtered means that the rewriting took place. -/
  filtered : onlyGroup = true → processed.unfiltered = false →
    captureComplete = true ∧ files path = (plan.rewrite env.io fs path).1 path ∧
      ∃ stats, (plan.rewrite env.io fs path).2 = .ok stats
  /-- The map next to the file says which of the two it is. -/
  sidecar : ∀ jp, processed.sidecar = some jp → ∃ doc : Json,
    files jp = some (utf8 (doc.pretty 0).toList) ∧
      doc.get "requested_only_process" = some (.bool onlyGroup) ∧
      doc.get "only_process" = some (.bool (onlyGroup && !processed.unfiltered)) ∧
      ∃ report, doc.get "processing" = some report ∧
        (processed.unfiltered = true → report.get "ok" = some (.bool false))

theorem rewriteErrors_ne_nil (lang : Lang) (onlyGroup : Bool) (e : String) :
    rewriteErrors lang onlyGroup (.error e) ≠ [] := by
  cases onlyGroup with
  | false => simp [rewriteErrors]
  | true => simp [rewriteErrors]

/-- The error of a filtering that failed has a text. -/
theorem rewriteErrors_error (lang : Lang) (e : String) :
    ∃ text, rewriteErrors lang true (.error e) = [text] ∧ text ≠ "" := by
  refine ⟨_, rfl, ?_⟩
  cases lang with
  | en => simp [tr]
  | ru => simp [tr]

theorem processDumpFile_right (env : ProcessEnv) (plan : Plan) {info : Json} (hinfo : info.IsObj)
    (fs : Fs) (path : String) (onlyGroup captureComplete : Bool) :
    ProcessedRight env plan info fs path onlyGroup captureComplete
      (processDumpFile env plan info fs path onlyGroup captureComplete).1
      (processDumpFile env plan info fs path onlyGroup captureComplete).2 := by
  unfold processDumpFile
  have hrewrite := rewriteDump_cases env plan fs path onlyGroup captureComplete
  generalize rewriteDump env plan fs path onlyGroup captureComplete = r at hrewrite
  obtain ⟨rewrittenFs, rewritten⟩ := r
  dsimp only
  have hget := processedInfo_get hinfo onlyGroup captureComplete rewritten
    (rewriteErrors env.lang onlyGroup rewritten)
  generalize processedInfo info onlyGroup captureComplete rewritten
    (rewriteErrors env.lang onlyGroup rewritten) = doc at hget
  have hwrite := writeSidecar_cases env rewrittenFs path doc
  generalize writeSidecar env rewrittenFs path doc = w at hwrite
  obtain ⟨files, written⟩ := w
  obtain ⟨hpath, hwritten⟩ := hwrite
  dsimp only at hpath hwritten hget ⊢
  constructor
  · intro hnone
    obtain ⟨hrewriteErrors, hsidecarErrors⟩ := List.append_eq_nil_iff.mp hnone
    constructor
    · obtain ⟨e, heq, -⟩ | ⟨stats, -, -, hok⟩ := hrewrite
      · obtain ⟨-, rfl⟩ := Prod.mk.inj heq
        exact absurd hrewriteErrors (rewriteErrors_ne_nil env.lang onlyGroup e)
      · exact ⟨stats, hok⟩
    · obtain ⟨-, rfl⟩ | ⟨e, rfl⟩ := hwritten
      · rfl
      · simp [sidecarErrors] at hsidecarErrors
  · intro hunfiltered
    obtain ⟨honly, hfailed⟩ := Bool.and_eq_true_iff.mp hunfiltered
    subst honly
    obtain ⟨e, heq, -⟩ | ⟨stats, heq, -, -⟩ := hrewrite
    · obtain ⟨rfl, rfl⟩ := Prod.mk.inj heq
      obtain ⟨text, htext, hne⟩ := rewriteErrors_error env.lang e
      refine ⟨hpath, text, sidecarErrors env.lang written, ?_, hne⟩
      rw [htext]
      rfl
    · obtain ⟨-, rfl⟩ := Prod.mk.inj heq
      simp [Except.toBool] at hfailed
  · intro honly hfiltered
    subst honly
    obtain ⟨e, heq, -⟩ | ⟨stats, heq, hcomplete, hok⟩ := hrewrite
    · obtain ⟨-, rfl⟩ := Prod.mk.inj heq
      simp [Except.toBool] at hfiltered
    · obtain ⟨rfl, -⟩ := Prod.mk.inj heq
      exact ⟨hcomplete rfl, hpath, stats, hok⟩
  · intro jp hjp
    obtain ⟨hrequested, honlyProcess, report, hreport, hok⟩ := hget
    obtain ⟨hfile, rfl⟩ | ⟨e, rfl⟩ := hwritten
    · obtain rfl := Option.some.inj hjp
      refine ⟨doc, hfile, hrequested, ?_, report, hreport, ?_⟩
      · rw [honlyProcess]
        cases onlyGroup <;> simp
      · intro hunfiltered
        obtain ⟨-, hfailed⟩ := Bool.and_eq_true_iff.mp hunfiltered
        rw [hok, (Bool.not_eq_true' _).mp hfailed]
    · contradiction

/-! ## What a report says -/

theorem intercalate_ne_empty (sep : String) {texts : List String} {text : String}
    (hmem : text ∈ texts) (hne : text ≠ "") : sep.intercalate texts ≠ "" := by
  induction texts with
  | nil => contradiction
  | cons first rest ih =>
      cases rest with
      | nil =>
          rw [String.intercalate_singleton]
          obtain rfl := List.mem_singleton.mp hmem
          exact hne
      | cons second rest =>
          rw [String.intercalate_cons_cons]
          intro hempty
          obtain ⟨hfront, hback⟩ := String.append_eq_empty_iff.mp hempty
          obtain ⟨hfirst, -⟩ := String.append_eq_empty_iff.mp hfront
          rcases List.mem_cons.mp hmem with rfl | hmem
          · exact hne hfirst
          · exact ih hmem hback

/-- No error of the recording is collected exactly when nothing went wrong. -/
theorem captureErrors_eq_nil {lang : Lang} {accounted : Bool} {m : DumpMeta} {dropped : ℕ}
    {stopped : Except String (Option String)} :
    captureErrors lang accounted (some m) dropped stopped = [] ↔
      accounted = true ∧ m.limitReached = false ∧ dropped ≤ m.droppedAtStart ∧
        ∃ path, stopped = .ok path := by
  unfold captureErrors
  cases stopped with
  | ok path => cases accounted <;> cases hlimit : m.limitReached <;> simp [hlimit]
  | error e => simp

theorem FinishRun.last_sameRecording (run : FinishRun) (m : DumpMeta) :
    SameRecording m (run.last m) :=
  rememberAll_sameRecording run.order m run.conns

theorem FinishRun.limitReached_last (run : FinishRun) {m : DumpMeta} (h : m.limitReached = true) :
    (run.last m).limitReached = true :=
  rememberAll_limitReached run.order run.conns h

/-- No error of the recording is collected exactly when nothing went wrong. -/
theorem FinishRun.errors_eq_nil {run : FinishRun} {dump : Dump} {m : DumpMeta} :
    run.errors dump (some (run.last m)) = [] ↔
      (∃ path, dump.stopped run.ended = .ok path) ∧ run.accounted = true ∧
        run.dropped ≤ m.droppedAtStart ∧ (run.last m).limitReached = false := by
  rw [FinishRun.errors, captureErrors_eq_nil, (run.last_sameRecording m).droppedAtStart_eq]
  tauto

/-- The plan of a recording, and the map of its file. -/
def FinishRun.made (run : FinishRun) (m : DumpMeta) (path : String) : Plan × Json :=
  dumpPlan run.input (run.last m) path

/-- Something went wrong with a recording: the stop of its capture, the accounting
for its packets, packets that were lost, its limits, or the rewriting of its
file. -/
inductive Failed (run : FinishRun) (env : ProcessEnv) (fs : Fs) (dump : Dump) (m : DumpMeta)
    (path : String) : Prop
  | stop (e : String) (h : dump.stopped run.ended = .error e)
  | accounting (h : run.accounted = false)
  | dropped (lost : ℕ) (hpos : 0 < lost) (h : run.dropped = m.droppedAtStart + lost)
  | limit (h : m.limitReached = true ∨ (run.last m).limitReached = true)
  | rewrite (e : Failure) (h : ((run.made m path).1.rewrite env.io fs path).2 = .error e)

/-- What goes wrong before the file is looked at is an error of the recording. -/
theorem Failed.cases {run : FinishRun} {env : ProcessEnv} {fs : Fs} {dump : Dump} {m : DumpMeta}
    {path : String} (h : Failed run env fs dump m path) :
    run.errors dump (some (run.last m)) ≠ [] ∨
      ∃ e, ((run.made m path).1.rewrite env.io fs path).2 = .error e := by
  cases h with
  | rewrite e h => exact .inr ⟨e, h⟩
  | stop e h =>
      left
      intro hnil
      obtain ⟨⟨_, hok⟩, -⟩ := FinishRun.errors_eq_nil.mp hnil
      rw [h] at hok
      contradiction
  | accounting h =>
      left
      intro hnil
      obtain ⟨-, haccounted, -⟩ := FinishRun.errors_eq_nil.mp hnil
      rw [h] at haccounted
      contradiction
  | dropped lost hpos h =>
      left
      intro hnil
      obtain ⟨-, -, hdropped, -⟩ := FinishRun.errors_eq_nil.mp hnil
      omega
  | limit h =>
      left
      intro hnil
      obtain ⟨-, -, -, hlimit⟩ := FinishRun.errors_eq_nil.mp hnil
      have hreached := h.elim run.limitReached_last id
      rw [hreached] at hlimit
      contradiction

section Truthful

variable {run : FinishRun} {env : ProcessEnv} {dump : Dump} {path : String}
  (hpath : dump.path = some path) (hreturns : run.processing = .returns env) (fs : Fs)
  (m : DumpMeta)

include hpath hreturns

/-- A recording with a file and metadata is finished by the processing of its
file, and its report is made of what the processing reports. -/
theorem finishDump_processed :
    ∃ p, ProcessedRight env (run.made m path).1 (run.made m path).2 fs path m.onlyGroup
        (run.errors dump (some (run.last m))).isEmpty (finishDump run fs dump (some m)).1 p ∧
      (finishDump run fs dump (some m)).2.2 =
        dumpOutcome run.sizeKnown (finishDump run fs dump (some m)).1 (some path)
          { p with errors := run.errors dump (some (run.last m)) ++ p.errors } := by
  have hinfo : (run.made m path).2.IsObj := trivial
  have hright := processDumpFile_right env (run.made m path).1 hinfo fs path m.onlyGroup
    (run.errors dump (some (run.last m))).isEmpty
  have honly := (run.last_sameRecording m).onlyGroup_eq
  have heq : finishDump run fs dump (some m) =
      let p := processDumpFile env (run.made m path).1 (run.made m path).2 fs path m.onlyGroup
        (run.errors dump (some (run.last m))).isEmpty
      (p.1, dump.release, dumpOutcome run.sizeKnown p.1 (some path)
        { p.2 with errors := run.errors dump (some (run.last m)) ++ p.2.errors }) := by
    simp only [finishDump, planRecording, processRecording, Dump.release_path, hpath, hreturns,
      Option.map_some, honly, FinishRun.made]
  rw [heq]
  exact ⟨_, hright, rfl⟩

/-- A recording that is reported as fine went well from the start to the end. -/
theorem finishDump_ok (hok : (finishDump run fs dump (some m)).2.2.ok = true) :
    run.errors dump (some (run.last m)) = [] ∧
      (∃ stats, ((run.made m path).1.rewrite env.io fs path).2 = .ok stats) ∧
      ∃ doc : Json, (finishDump run fs dump (some m)).2.2.sidecar = some (sidecarPath path) ∧
        (finishDump run fs dump (some m)).1 (sidecarPath path) = some (utf8 (doc.pretty 0).toList) := by
  obtain ⟨p, hright, houtcome⟩ := finishDump_processed hpath hreturns fs m
  rw [houtcome] at hok ⊢
  obtain ⟨hclean, hnone⟩ := List.append_eq_nil_iff.mp (List.isEmpty_iff.mp hok)
  obtain ⟨hrewritten, hsidecar⟩ := hright.complete hnone
  obtain ⟨doc, hfile, -⟩ := hright.sidecar _ hsidecar
  exact ⟨hclean, hrewritten, doc, hsidecar, hfile⟩

/-- A process-only dump that is not reported as unfiltered is the output of the
plan. -/
theorem finishDump_filtered (honly : m.onlyGroup = true)
    (hfiltered : (finishDump run fs dump (some m)).2.2.unfiltered = false) :
    run.errors dump (some (run.last m)) = [] ∧
      ∃ src out stats, fs path = some src ∧ (run.made m path).1.apply {} src = .ok (out, stats) ∧
        ((run.made m path).1.rewrite env.io fs path).2 = .ok stats ∧
        (finishDump run fs dump (some m)).1 path = some out := by
  obtain ⟨p, hright, houtcome⟩ := finishDump_processed hpath hreturns fs m
  rw [houtcome] at hfiltered
  obtain ⟨hcomplete, hfile, stats, hok⟩ := hright.filtered honly hfiltered
  refine ⟨List.isEmpty_iff.mp hcomplete, ?_⟩
  obtain ⟨e, heq⟩ | ⟨src, out, stats', hsrc, -, happly, heq⟩ :=
    rewrite_cases (run.made m path).1 env.io fs path
  · rw [heq] at hok
    contradiction
  · rw [heq] at hfile
    refine ⟨src, out, stats', hsrc, apply_without_faults happly, by rw [heq], ?_⟩
    rw [hfile]
    dsimp only
    rw [Function.update_of_ne (partPath_ne path).symm, Function.update_self]

/-- When anything went wrong with a process-only dump, it is reported as
unfiltered. -/
theorem finishDump_unfiltered (honly : m.onlyGroup = true)
    (hfailed : Failed run env fs dump m path) :
    (finishDump run fs dump (some m)).2.2.unfiltered = true := by
  by_contra hfiltered
  rw [Bool.not_eq_true] at hfiltered
  obtain ⟨hclean, _, _, _, -, -, hok, -⟩ :=
    finishDump_filtered hpath hreturns fs m honly hfiltered
  rcases hfailed.cases with herrors | ⟨e, hrewrite⟩
  · exact herrors hclean
  · rw [hok] at hrewrite
    contradiction

/-- A process-only dump that is reported as unfiltered is as the capture left it,
and the report and the map agree. -/
theorem finishDump_raw (honly : m.onlyGroup = true)
    (hunfiltered : (finishDump run fs dump (some m)).2.2.unfiltered = true) :
    let files := (finishDump run fs dump (some m)).1
    let outcome := (finishDump run fs dump (some m)).2.2
    files path = fs path ∧ outcome.ok = false ∧
      (∃ error, outcome.error = some error ∧ error ≠ "") ∧
      ∀ jp, outcome.sidecar = some jp → ∃ doc : Json,
        files jp = some (utf8 (doc.pretty 0).toList) ∧
          doc.get "requested_only_process" = some (.bool true) ∧
          doc.get "only_process" = some (.bool false) ∧
          ∃ report, doc.get "processing" = some report ∧
            report.get "ok" = some (.bool false) := by
  obtain ⟨p, hright, houtcome⟩ := finishDump_processed hpath hreturns fs m
  rw [houtcome] at hunfiltered ⊢
  have hraw : p.unfiltered = true := hunfiltered
  obtain ⟨hfile, text, rest, htexts, hne⟩ := hright.unfiltered hraw
  have hmem : text ∈ run.errors dump (some (run.last m)) ++ p.errors := by
    rw [htexts]
    exact List.mem_append_right _ (List.mem_cons_self ..)
  have hsome : (run.errors dump (some (run.last m)) ++ p.errors).isEmpty = false := by
    rw [List.isEmpty_eq_false_iff]
    exact List.ne_nil_of_mem hmem
  refine ⟨hfile, hsome, ⟨_, ?_, intercalate_ne_empty "; " hmem hne⟩, ?_⟩
  · rw [dumpOutcome, hsome]
    rfl
  · intro jp hjp
    obtain ⟨doc, hdoc, hrequested, hprocess, report, hreport, hok⟩ := hright.sidecar jp hjp
    rw [honly] at hrequested
    rw [hraw, Bool.not_true, Bool.and_false] at hprocess
    exact ⟨doc, hdoc, hrequested, hprocess, report, hreport, hok hraw⟩

end Truthful

/-- **A report of a process-only dump tells the truth about its contents.** For
every recording with a file and metadata whose processing does not panic:

* it is reported as fine only if the capture stopped, the packets were accounted
  for, none were lost, no limit was reached, the file was rewritten and its map
  written;
* if only the process was asked for and anything of this but the map failed, the
  file keeps its bytes, and the report and the map say that it is unfiltered;
* if only the process was asked for and the report does not say unfiltered, the
  file is the output of `apply` for the recording. -/
theorem finishDump_truthful (run : FinishRun) (env : ProcessEnv) (fs : Fs) (dump : Dump)
    (m : DumpMeta) (path : String) (hpath : dump.path = some path)
    (hreturns : run.processing = .returns env) :
    let last := run.last m
    let plan := (dumpPlan run.input last path).1
    let files := (finishDump run fs dump (some m)).1
    let outcome := (finishDump run fs dump (some m)).2.2
    (outcome.ok = true →
      (∃ stopped, dump.stopped run.ended = .ok stopped) ∧ run.accounted = true ∧
        (∀ lost, run.dropped = m.droppedAtStart + lost → lost = 0) ∧
        m.limitReached = false ∧ last.limitReached = false ∧
        (∃ stats, (plan.rewrite env.io fs path).2 = .ok stats) ∧
        ∃ doc : Json, outcome.sidecar = some (sidecarPath path) ∧
          files (sidecarPath path) = some (utf8 (doc.pretty 0).toList)) ∧
    (m.onlyGroup = true → Failed run env fs dump m path →
      files path = fs path ∧ outcome.unfiltered = true ∧ outcome.ok = false ∧
        (∃ error, outcome.error = some error ∧ error ≠ "") ∧
        ∀ jp, outcome.sidecar = some jp → ∃ doc : Json,
          files jp = some (utf8 (doc.pretty 0).toList) ∧
            doc.get "requested_only_process" = some (.bool true) ∧
            doc.get "only_process" = some (.bool false) ∧
            ∃ report, doc.get "processing" = some report ∧
              report.get "ok" = some (.bool false)) ∧
    (m.onlyGroup = true → outcome.unfiltered = false →
      ∃ src out stats, fs path = some src ∧ plan.apply {} src = .ok (out, stats) ∧
        files path = some out) := by
  intro last plan files outcome
  refine ⟨?_, ?_, ?_⟩
  · intro hok
    obtain ⟨hclean, hrewritten, hsidecar⟩ := finishDump_ok hpath hreturns fs m hok
    obtain ⟨hstopped, haccounted, hdropped, hlimit⟩ := FinishRun.errors_eq_nil.mp hclean
    refine ⟨hstopped, haccounted, fun lost hlost => by omega, ?_, hlimit, hrewritten, hsidecar⟩
    by_contra hreached
    have hlast := run.limitReached_last ((Bool.not_eq_false _).mp hreached)
    rw [hlimit] at hlast
    contradiction
  · intro honly hfailed
    have hunfiltered := finishDump_unfiltered hpath hreturns fs m honly hfailed
    obtain ⟨hfile, hok, herror, hsidecar⟩ :=
      finishDump_raw hpath hreturns fs m honly hunfiltered
    exact ⟨hfile, hunfiltered, hok, herror, hsidecar⟩
  · intro honly hfiltered
    obtain ⟨-, src, out, stats, hsrc, happly, -, hfile⟩ :=
      finishDump_filtered hpath hreturns fs m honly hfiltered
    exact ⟨src, out, stats, hsrc, happly, hfile⟩

/-- A finish of the sample recording whose capture process ended badly. -/
def sampleFinish : FinishRun where
  lang := .en
  ended := .error "dumpcap did not stop cleanly"
  accounted := true
  conns := ∅
  order := .stored
  dropped := 0
  input := sampleInput
  processing := .returns { lang := .en, io := {}, system := "", sidecarFault := none }
  sizeKnown := true

/-- The dump of a capture that ended badly is reported as unfiltered and keeps its
bytes. -/
theorem finishDump_truthful_sample :
    (finishDump sampleFinish sampleFs { process := some 0, path := some "dump.pcapng" }
        (some sampleMeta)).1 "dump.pcapng" = some (encodeAll sampleCapture) ∧
      (finishDump sampleFinish sampleFs { process := some 0, path := some "dump.pcapng" }
        (some sampleMeta)).2.2.unfiltered = true := by
  obtain ⟨-, hraw, -⟩ := finishDump_truthful sampleFinish
    { lang := .en, io := {}, system := "", sidecarFault := none } sampleFs
    { process := some 0, path := some "dump.pcapng" } sampleMeta "dump.pcapng" rfl rfl
  obtain ⟨hfile, hunfiltered, -⟩ := hraw rfl (.stop "dumpcap did not stop cleanly" rfl)
  exact ⟨hfile, hunfiltered⟩

end SocketTrail.Recording
