import PythonLint.Proofs.Decoding
import PythonLint.Proofs.FileWriting
import PythonLint.Proofs.Json
import PythonLint.Proofs.WarningCounts

/-!
# Lines of a log file

A log file keeps what it held, and holds one more line for each record that is added. The line of a
record has no line feed inside, whatever texts the record has, and the record and its time are read
back from it.

Main statements: `readRecord?_line`, `addRecords_lines`.
-/

namespace PythonLint

open Text

/-! ### Reading records -/

namespace JsonValue

def field? (name : String) : JsonValue → Option JsonValue
  | object fields => fields.lookup name
  | _ => none

def text? : JsonValue → Option String
  | text content => some content
  | _ => none

def number? : JsonValue → Option Int
  | number n => some n
  | _ => none

/-- The value of a number without a sign. -/
def count? : JsonValue → Option Nat
  | number (.ofNat n) => some n
  | _ => none

def list? : JsonValue → Option (List JsonValue)
  | list items => some items
  | _ => none

/-- The numbers of an object, each for the name of its field. -/
def tally? : JsonValue → Option Tally
  | object fields =>
    fields.foldlM (fun tally entry => entry.2.count?.map fun n =>
      tally.update entry.1 fun _ => n) .empty
  | _ => none

end JsonValue

def WarningRecord.ofJson? (value : JsonValue) : Option WarningRecord := do
  let kind ← (← value.field? "warning_type").text?
  let file ← (← value.field? "file_path").text?
  let line ← (← value.field? "line").count?
  let message ← (← value.field? "message").text?
  let sourceLine ← (value.field? "source_line").mapM JsonValue.text?
  return ⟨kind, file, line, message, sourceLine⟩

/-- The record of a run and its time, from a line. -/
def readRecord? (row : List Char) : Option (Timestamp × RunRecord) := do
  let value ← JsonValue.parse row
  let seconds ← (← value.field? "timestamp").number?
  let date ← (← value.field? "datetime").text?
  let files ← (← value.field? "files_scanned").count?
  let failed ← (← value.field? "files_with_errors").count?
  let total ← (← value.field? "total_warnings").count?
  let counts ← (← value.field? "warning_counts").tally?
  let warnings ← (← (← value.field? "warnings").list?).mapM WarningRecord.ofJson?
  let version ← (← value.field? "target_version").text?
  let passes ← (← (← value.field? "analysers").list?).mapM JsonValue.text?
  return (⟨seconds, date⟩, ⟨files, failed, total, counts, warnings, version, passes⟩)

theorem WarningRecord.ofJson?_json (record : WarningRecord) :
    ofJson? record.json = some record := by
  obtain ⟨kind, file, line, message, sourceLine⟩ := record
  cases sourceLine <;> rfl

theorem mapM_map_eq {α β : Type} (read : β → Option α) (write : α → β)
    (h : ∀ x, read (write x) = some x) (xs : List α) : (xs.map write).mapM read = some xs := by
  induction xs with
  | nil => rfl
  | cons x xs ih => simp [h, ih]

theorem Tally.updateIn_of_lt {name : String} {change : Option Nat → Nat}
    {entries : List (String × Nat)} (h : ∀ entry ∈ entries, entry.1 < name) :
    updateIn name change entries = entries ++ [(name, change none)] := by
  induction entries with
  | nil => rfl
  | cons entry rest ih =>
    obtain ⟨hentry, hrest⟩ := List.forall_mem_cons.1 h
    rw [updateIn, if_neg (lt_asymm hentry), if_neg hentry.ne', ih hrest, List.cons_append]

/-- Names that come in order are added at the end. -/
theorem Tally.exists_foldlM_update {rest : List (String × Nat)} {before : Tally}
    (hsorted : (before.entries ++ rest).Pairwise fun first second => first.1 < second.1) :
    ∃ after : Tally, after.entries = before.entries ++ rest ∧
      (rest.map fun entry => (entry.1, JsonValue.number entry.2)).foldlM
        (fun tally entry => entry.2.count?.map fun n => tally.update entry.1 fun _ => n) before =
          some after := by
  induction rest generalizing before with
  | nil => exact ⟨before, (List.append_nil _).symm, rfl⟩
  | cons entry rest ih =>
    have hentries : (before.update entry.1 fun _ => entry.2).entries = before.entries ++ [entry] :=
      updateIn_of_lt fun other hother =>
        (List.pairwise_append.1 hsorted).2.2 other hother entry List.mem_cons_self
    rw [← List.singleton_append, ← List.append_assoc, ← hentries] at hsorted
    obtain ⟨after, hafter, hfold⟩ := ih hsorted
    exact ⟨after, by rw [hafter, hentries, List.append_assoc, List.singleton_append], hfold⟩

theorem Tally.tally?_object (tally : Tally) :
    (JsonValue.object (tally.entries.map fun entry => (entry.1, .number entry.2))).tally? =
      some tally := by
  obtain ⟨after, hafter, hfold⟩ := @exists_foldlM_update _ .empty tally.sorted
  exact hfold.trans (congrArg some (ext_lookup fun name => congrArg (List.lookup name) hafter))

open JsonValue (Fits)

theorem WarningRecord.fits_json (record : WarningRecord) (depth : Nat) :
    Fits (depth + 1) record.json := by
  refine .object ?_
  rw [List.forall_mem_append]
  refine ⟨?_, ?_⟩
  · simp only [List.forall_mem_cons]
    exact ⟨.text _ _, .text _ _, .number _ _, .text _ _, List.forall_mem_nil _⟩
  · cases record.sourceLine with
    | none => exact List.forall_mem_nil _
    | some content => exact List.forall_mem_singleton.2 (.text _ _)

theorem fits_line (time : Timestamp) (record : RunRecord) :
    Fits 128 (.object (time.fields ++ record.fields)) := by
  refine .object ?_
  simp only [Timestamp.fields, RunRecord.fields, List.cons_append, List.nil_append,
    List.forall_mem_cons]
  refine ⟨.number _ _, .text _ _, .number _ _, .number _ _, .number _ _, .object ?_, .list ?_,
    .text _ _, .list ?_, List.forall_mem_nil _⟩
  · exact List.forall_mem_map.2 fun _ _ => .number _ _
  · exact List.forall_mem_map.2 fun warning _ => warning.fits_json _
  · exact List.forall_mem_map.2 fun _ _ => .text _ _

theorem readRecord?_line (time : Timestamp) (record : RunRecord) :
    readRecord? (record.line time) = some (time, record) := by
  rw [readRecord?, RunRecord.line, JsonValue.parse_compact (fits_line time record)]
  -- Every field is found by its name.
  change ((JsonValue.object (record.counts.entries.map fun entry =>
      (entry.1, .number entry.2))).tally?.bind fun counts =>
    ((record.warnings.map WarningRecord.json).mapM WarningRecord.ofJson?).bind fun warnings =>
    ((record.passes.map JsonValue.text).mapM JsonValue.text?).bind fun passes =>
      some (time,
        ⟨record.files, record.failed, record.total, counts, warnings, record.version, passes⟩)) =
    some (time, record)
  rw [record.counts.tally?_object, mapM_map_eq _ _ WarningRecord.ofJson?_json,
    mapM_map_eq JsonValue.text? .text fun _ => rfl]
  rfl

/-! ### Adding records -/

namespace World

variable {world : World} {path : Path}

/-- The world with more records at the end of a log file, one after the other. -/
def addRecords (world : World) (path : Path) (entries : List (Timestamp × RunRecord)) :
    Except FileError World :=
  entries.foldlM (fun world entry => world.addRecord path entry.1 entry.2) world

/-- One more record is one more line. -/
theorem FileAt.addRecord {before : List UInt8} (h : world.FileAt path before) (time : Timestamp)
    (record : RunRecord) :
    ∃ after, world.addRecord path time record = .ok after ∧
      after.FileAt path (before ++ (encodeUtf8 (record.line time) ++ [0x0A])) := by
  have hrow : encodeUtf8 (record.line time ++ ['\n']) = encodeUtf8 (record.line time) ++ [0x0A] :=
    encodeUtf8_append _ _
  exact hrow ▸ h.append _

theorem FileAt.addRecords {before : List UInt8} (h : world.FileAt path before)
    (entries : List (Timestamp × RunRecord)) :
    ∃ after, world.addRecords path entries = .ok after ∧ after.FileAt path
      (before ++ (entries.map fun entry => encodeUtf8 (entry.2.line entry.1)).flatMap
        (· ++ [0x0A])) := by
  -- What the file holds so far goes along with the world.
  induction entries generalizing world before with
  | nil => exact ⟨world, rfl, (List.append_nil before).symm ▸ h⟩
  | cons entry entries ih =>
    obtain ⟨middle, hmiddle, hfile⟩ := h.addRecord entry.1 entry.2
    obtain ⟨after, hafter, hrows⟩ := ih hfile
    refine ⟨after, ?_, ?_⟩
    · rw [World.addRecords, List.foldlM_cons, hmiddle]
      exact hafter
    · rw [List.map_cons, List.flatMap_cons, ← List.append_assoc]
      exact hrows

end World

theorem lineFeed_not_mem_encodeUtf8 {text : List Char} (h : '\n' ∉ text) :
    ∀ byte ∈ encodeUtf8 text, (byte == 0x0A) = false := by
  intro byte hbyte
  obtain ⟨c, hc, hbyte⟩ := List.mem_flatMap.1 hbyte
  rw [beq_eq_false_iff_ne]
  rintro rfl
  exact lineFeed_not_mem_utf8EncodeChar (fun heq => h (heq ▸ hc)) hbyte

/-- A log file that is opened keeps what it held. Each record that is added is one more line, from
which it is read back, and the lines before stay as they are if the last of them has ended. -/
theorem addRecords_lines {world ready : World} {path : Path}
    (hopen : world.openLog path = .ok ready) :
    ∃ before, ready.readBytes path = .ok before ∧
      (∀ old, world.readBytes path = .ok old → old = before) ∧
      ∀ entries : List (Timestamp × RunRecord), ∃ (after : World) (rows : List (List Char)),
        ready.addRecords path entries = .ok after ∧
        after.readBytes path = .ok (before ++ (rows.map encodeUtf8).flatMap (· ++ [0x0A])) ∧
        List.Forall₂ (fun row entry => '\n' ∉ row ∧ readRecord? row = some entry) rows entries ∧
        (before = [] ∨ before.getLast? = some 0x0A →
          splitOn (· == 0x0A) (before ++ (rows.map encodeUtf8).flatMap (· ++ [0x0A])) =
            (splitOn (· == 0x0A) before).dropLast ++ rows.map encodeUtf8 ++ [[]]) := by
  obtain ⟨before, hbefore, hold⟩ := World.FileAt.of_openLog hopen
  refine ⟨before, hbefore.readBytes, hold, fun entries => ?_⟩
  obtain ⟨after, hafter, hfile⟩ := hbefore.addRecords entries
  have hfeed : ∀ entry : Timestamp × RunRecord, '\n' ∉ entry.2.line entry.1 :=
    fun entry => JsonValue.lineFeed_not_mem_compact (fits_line entry.1 entry.2)
  refine ⟨after, entries.map fun entry => entry.2.line entry.1, hafter, ?_, ?_, fun hend => ?_⟩
  · rw [List.map_map]
    exact hfile.readBytes
  · rw [List.forall₂_map_left_iff, List.forall₂_same]
    exact fun entry _ => ⟨hfeed entry, readRecord?_line entry.1 entry.2⟩
  · refine splitOn_append_rows rfl hend ?_
    rw [List.map_map, List.forall_mem_map]
    exact fun entry _ => lineFeed_not_mem_encodeUtf8 (hfeed entry)

def loggedOnce : World := ⟨.directory [("run.log", .file [0x7B, 0x7D, 0x0A])], []⟩

/-- A run with a warning whose texts have quotes, a line feed and a letter that is not ASCII. -/
def quotedRun : Timestamp × RunRecord :=
  (⟨-1, "1969-12-31T23:59:59+00:00"⟩,
    ⟨1, 0, 1, .add .empty "W", [⟨"W", "é.py", 1, "\"a\nb\"", some "\t\\"⟩], "3.12", []⟩)

theorem addRecords_lines_reopened :
    ∃ ready, loggedOnce.openLog (.ofString "run.log") = .ok ready ∧
      ∃ (after : World) (row : List Char),
        ready.addRecords (.ofString "run.log") [quotedRun] = .ok after ∧
      readRecord? row = some quotedRun ∧
      ∃ content, after.readBytes (.ofString "run.log") = .ok content ∧
        splitOn (· == 0x0A) content = [[0x7B, 0x7D], encodeUtf8 row, []] := by
  obtain ⟨ready, hopen⟩ : ∃ ready, loggedOnce.openLog (.ofString "run.log") = .ok ready := ⟨_, rfl⟩
  obtain ⟨before, -, hold, hrows⟩ := addRecords_lines hopen
  obtain rfl := hold [0x7B, 0x7D, 0x0A] rfl
  obtain ⟨after, rows, hafter, hread, hback, hsplit⟩ := hrows [quotedRun]
  obtain ⟨row, _, ⟨-, hrow⟩, hnil, rfl⟩ := List.forall₂_cons_right_iff.1 hback
  obtain rfl := List.forall₂_nil_right_iff.1 hnil
  exact ⟨ready, hopen, after, row, hafter, hrow, _, hread, hsplit (.inr rfl)⟩

end PythonLint
