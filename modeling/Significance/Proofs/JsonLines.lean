import Mathlib
import Significance.Proofs.FileLines
import Significance.Proofs.JsonArray
import Significance.Proofs.JsonRecords

/-! # One record on every line

The values of an array, written on lines of their own, are the records that the array holds. -/

namespace Significance

open Json (Source)
open Json.Source (IsRecord ReplacesNoObject)
open Success
open Text (utf8)

namespace Json.Source

theorem digit?_of_blank {c : Char} (h : Text.isBlank c) : Decimal.digit? c = none := by
  refine if_neg fun hdigit => ?_
  have hlow : 48 ≤ c.toNat := hdigit.1
  have hhigh : c.toNat ≤ 57 := hdigit.2
  simp only [Text.isBlank, Bool.or_eq_true, Bool.and_eq_true, decide_eq_true_eq] at h
  omega

theorem literal?_of_blank {text : List Char} (h : ∀ c ∈ text, Text.isBlank c) :
    literal? text = none := by
  by_contra hread
  obtain ⟨result, hread⟩ := Option.ne_none_iff_exists'.mp hread
  obtain ⟨c, rest, rfl, hc⟩ := exists_of_literal? hread
  have hblank := h c List.mem_cons_self
  rcases hc with rfl | hdigit
  · exact absurd hblank (by decide)
  · rw [digit?_of_blank hblank] at hdigit
    cases hdigit

/-- Blank text holds no document. -/
theorem ofText?_of_blank {text : List Char} (h : ∀ c ∈ text, Text.isBlank c) :
    ofText? text = none := by
  have hvalue : ∀ fuel, value? fuel text = none := by
    intro fuel
    cases fuel with
    | zero => rfl
    | succ fuel =>
        have hskip : ∀ c ∈ skip text, Text.isBlank c :=
          fun c hc => h c ((List.dropWhile_suffix isSpace).subset hc)
        rw [value?]
        generalize skip text = skipped at hskip
        split
        case h_7 =>
          rw [literal?_of_blank hskip]
          rfl
        all_goals exact absurd (hskip _ List.mem_cons_self) (by decide)
  rw [ofText?, hvalue]

end Json.Source

/-! ## Lines -/

namespace Loading

/-- What ends a line, before the rest of a file. -/
def Ends (ending rest : String) : Prop :=
  ending = "\n" ∨ ending = "\r\n" ∨ ending = "" ∧ rest = ""

/-- Documents in a file, each on a line of its own, with blank lines anywhere. -/
inductive OnLines : List Source → String → Prop
  | nil : OnLines [] ""
  | blank {line ending rest : String} {sources : List Source} (hfeed : '\n' ∉ line.toList)
      (hblank : Text.trim line = "") (hends : Ends ending rest) (hrest : OnLines sources rest) :
      OnLines sources (line ++ ending ++ rest)
  | document {line ending rest : String} {source : Source} {sources : List Source}
      (hfeed : '\n' ∉ line.toList) (hreturn : '\r' ∉ line.toList)
      (hsource : Source.ofText? line.toList = some source) (hends : Ends ending rest)
      (hrest : OnLines sources rest) : OnLines (source :: sources) (line ++ ending ++ rest)

/-- What is read of a line and its end: nothing of an empty line that ends the file, otherwise the
line, perhaps without a carriage return that belonged to its text. -/
theorem lines_of_ends {line ending rest : String} (hfeed : '\n' ∉ line.toList)
    (hends : Ends ending rest) :
    (line = "" ∧ lines (utf8 (line ++ ending ++ rest)) = lines (utf8 rest)) ∨
      ∃ read, (read = line ∨ read = dropReturn line) ∧
        lines (utf8 (line ++ ending ++ rest)) = utf8 read :: lines (utf8 rest) := by
  rcases hends with rfl | rfl | ⟨rfl, rfl⟩
  · exact Or.inr ⟨_, Or.inr rfl, lines_append hfeed rest⟩
  · have hreturn : line ++ "\r\n" ++ rest = (line ++ "\r") ++ "\n" ++ rest := by
      have hending : "\r\n" = "\r" ++ "\n" := rfl
      rw [hending, ← String.append_assoc]
    have hfeed' : '\n' ∉ (line ++ "\r").toList := by simp [hfeed]
    refine Or.inr ⟨line, Or.inl rfl, ?_⟩
    rw [hreturn, lines_append hfeed', dropReturn_append]
  · rw [String.append_empty, String.append_empty]
    by_cases hne : line = ""
    · exact Or.inl ⟨hne, by rw [hne]⟩
    · exact Or.inr ⟨line, Or.inl rfl, by rw [lines_of_lineFeed_notMem hfeed hne, lines_empty]⟩

/-- The records on some lines. -/
def recordsOfLines (lines : List (List UInt8)) :
    Except (Error Float) (List (Record (Value Float))) :=
  (lines.mapM recordOfLine).map (·.filterMap id)

theorem recordsOfLines_cons (line : List UInt8) (rest : List (List UInt8)) :
    recordsOfLines (line :: rest) = recordOfLine line >>= fun record =>
      (recordsOfLines rest).map (record.toList ++ ·) := by
  rw [recordsOfLines, List.mapM_cons]
  cases recordOfLine line with
  | error e => rfl
  | ok record =>
      rw [recordsOfLines]
      cases rest.mapM recordOfLine with
      | error e => rfl
      | ok records =>
          cases record with
          | none => rfl
          | some record => rfl

theorem recordOfLine_of_blank {line : String} (h : Text.trim line = "") :
    recordOfLine (utf8 line) = .ok none := by
  rw [recordOfLine, Text.fromUTF8?_utf8]
  exact if_pos h

theorem recordOfLine_of_source {line : String} {source : Source}
    (hblank : Text.trim line ≠ "") (hsource : Source.ofText? line.toList = some source) :
    recordOfLine (utf8 line) =
      (orJson (Source.sound? Record.ofJson? source)).map some := by
  rw [recordOfLine, Text.fromUTF8?_utf8]
  dsimp only
  rw [if_neg hblank, Source.read?, hsource, Option.bind_some]

theorem trim_ne_of_ofText? {line : String} {source : Source}
    (h : Source.ofText? line.toList = some source) : Text.trim line ≠ "" := by
  intro hblank
  rw [Text.trim_eq_empty_iff] at hblank
  rw [Source.ofText?_of_blank hblank] at h
  cases h

/-- The records of documents on lines are those of the documents, whatever blank lines there are. -/
theorem recordsOfLines_of_onLines {sources : List Source} {file : String}
    (h : OnLines sources file) :
    recordsOfLines (lines (utf8 file)) =
      sources.mapM fun source => orJson (Source.sound? Record.ofJson? source) := by
  induction h with
  | nil =>
      rw [lines_empty]
      rfl
  | @blank line ending rest sources hfeed hblank hends hrest ih =>
      rcases lines_of_ends hfeed hends with ⟨-, hlines⟩ | ⟨read, hread, hlines⟩
      · rw [hlines, ih]
      · have htrim : Text.trim read = "" := by
          rcases hread with rfl | rfl
          · exact hblank
          · exact trim_dropReturn hblank
        rw [hlines, recordsOfLines_cons, recordOfLine_of_blank htrim, ok_bind, ih]
        cases sources.mapM fun source => orJson (Source.sound? Record.ofJson? source) with
        | error e => rfl
        | ok records => rfl
  | @document line ending rest source sources hfeed hreturn hsource hends hrest ih =>
      have hblank := trim_ne_of_ofText? hsource
      rcases lines_of_ends hfeed hends with ⟨rfl, -⟩ | ⟨read, hread, hlines⟩
      · exact absurd rfl hblank
      · obtain rfl : read = line := hread.elim id fun h => h.trans (dropReturn_of_notMem hreturn)
        rw [hlines, recordsOfLines_cons, recordOfLine_of_source hblank hsource, ih, List.mapM_cons]
        cases orJson (Source.sound? Record.ofJson? source) with
        | error e => rfl
        | ok record =>
            cases sources.mapM fun source => orJson (Source.sound? Record.ofJson? source) with
            | error e => rfl
            | ok records => rfl

/-! ## Both readers -/

/-- What is read as one document cannot be told from what is read one by one. -/
theorem mapM_orJson {α β : Type} (f : α → Option β) (xs : List α) :
    (xs.mapM fun x => orJson (f x)) = orJson (xs.mapM f) := by
  induction xs with
  | nil => rfl
  | cons x xs ih =>
      rw [List.mapM_cons, List.mapM_cons, ih]
      cases f x with
      | none => rfl
      | some y =>
          cases xs.mapM f with
          | none => rfl
          | some ys => rfl

theorem readJsonLines_of_onLines {sources : List Source} {file : String}
    (h : OnLines sources file) :
    readJsonLines (.file file.toUTF8) =
      (orJson (sources.mapM (Source.sound? Record.ofJson?))).map Dataset.mk := by
  have hrecords := recordsOfLines_of_onLines h
  rw [mapM_orJson] at hrecords
  rw [← hrecords, readJsonLines, recordsOfLines, utf8]
  cases (lines file.toUTF8.toList).mapM recordOfLine with
  | error e => rfl
  | ok records => rfl

theorem readJson_of_ofText? {document : String} {source : Source}
    (h : Source.ofText? document.toList = some source) :
    readJson (.file document.toUTF8) =
      if source.isSound Source.depthLimit then ofDocument source else .error .json := by
  rw [readJson, Text.fromUTF8?_toUTF8]
  change (orJson (Source.read? (Source.sound? some) document) >>= ofDocument) = _
  rw [Source.read?, h, Option.bind_some, Source.sound?]
  split
  · rfl
  · rfl

theorem load_of_format {path : String} {format : Format} {found : Found}
    (h : Format.ofPath? path = some format) :
    load path found = read format path found >>= fun data =>
      if data.isEmpty then .error (.emptyData (.recordsIn path)) else .ok data := by
  rw [load, h]
  dsimp only
  cases read format path found with
  | error e => rfl
  | ok data =>
      rw [ok_bind, ok_bind]
      split
      · rfl
      · rfl

/-- The record of a document that holds one. -/
def recordOf (source : Source) : Record (Value Float) :=
  (Record.ofJson? source).getD .empty

theorem ofJson?_of_isRecord {source : Source} (h : IsRecord source) :
    Record.ofJson? source = some (recordOf source) := by
  obtain ⟨record, hread⟩ := Option.isSome_iff_exists.mp (Record.isSome_ofJson?_iff.mpr h)
  rw [recordOf, hread]
  rfl

theorem sound?_of_isRecord {source : Source} (h : IsRecord source)
    (hnesting : source.nesting ≤ Source.depthLimit) :
    Source.sound? Record.ofJson? source = some (recordOf source) := by
  rw [Source.sound?, if_pos (h.isSound hnesting), ofJson?_of_isRecord h]

theorem sound?_eq_none {source : Source} (h : ¬IsRecord source) :
    Source.sound? Record.ofJson? source = none := by
  rw [Source.sound?, ← Option.not_isSome_iff_eq_none]
  split
  · rwa [Record.isSome_ofJson?_iff]
  · simp

theorem isSound_array {sources : List Source} (h : ∀ source ∈ sources, IsRecord source)
    (hnesting : (Source.array sources).nesting ≤ Source.depthLimit) :
    (Source.array sources).isSound Source.depthLimit := by
  rw [Source.nesting] at hnesting
  rw [Source.isSound, Bool.and_eq_true, decide_eq_true_eq, Source.areSound_iff]
  refine ⟨by omega, fun source hmem => (h source hmem).isSound ?_⟩
  have hitem := Source.nesting_le_of_mem hmem
  omega

/-- What the same documents give as an array and on lines of their own. Without documents both
readers miss the records. Documents that are not all records are refused by the reader of lines, and
by the other one unless a repeated name hides an object. Records are read alike, in their order. -/
structure Agree (documentPath linesPath : String) (sources : List Source)
    (fromDocument fromLines : Except (Error Float) (Dataset Float)) : Prop where
  empty : sources = [] → fromDocument = .error (.emptyData (.recordsIn documentPath)) ∧
    fromLines = .error (.emptyData (.recordsIn linesPath))
  refused : (∃ source ∈ sources, ¬IsRecord source) → fromLines = .error .json ∧
    ((∀ source ∈ sources, ReplacesNoObject source) → fromDocument = .error .json)
  loaded : sources ≠ [] → (∀ source ∈ sources, IsRecord source) →
    ∃ data : Dataset Float, fromDocument = .ok data ∧ fromLines = .ok data ∧
      List.Forall₂ (fun source record => Record.ofJson? source = some record) sources data.records

theorem agree {documentPath linesPath document file : String} {sources : List Source}
    (hdocumentPath : Format.ofPath? documentPath = some .json)
    (hlinesPath : Format.ofPath? linesPath = some .jsonLines)
    (hdocument : Source.ofText? document.toList = some (.array sources))
    (hfile : OnLines sources file) (hnesting : (Source.array sources).nesting ≤ Source.depthLimit) :
    Agree documentPath linesPath sources (load documentPath (.file document.toUTF8))
      (load linesPath (.file file.toUTF8)) := by
  have hitems : ∀ source ∈ sources, source.nesting < Source.depthLimit := by
    intro source hmem
    have hitem := Source.nesting_le_of_mem hmem
    rw [Source.nesting] at hnesting
    omega
  rw [load_of_format hdocumentPath, load_of_format hlinesPath, read, read,
    readJson_of_ofText? hdocument, readJsonLines_of_onLines hfile]
  constructor
  case empty =>
    rintro rfl
    exact ⟨rfl, rfl⟩
  case refused =>
    rintro ⟨source, hmem, hrecord⟩
    constructor
    · rw [mapM_eq_none ⟨source, hmem, sound?_eq_none hrecord⟩]
      rfl
    · intro hreplaces
      split
      · next hsound =>
        rw [Source.isSound, Bool.and_eq_true, Source.areSound_iff] at hsound
        have hnone := recordOfLast?_eq_none hrecord (hreplaces source hmem) (hsound.2 source hmem)
        rw [ofDocument, mapM_eq_none ⟨source, hmem, hnone⟩]
        rfl
      · rfl
  case loaded =>
    intro hne hrecords
    have hlines : sources.mapM (Source.sound? Record.ofJson?) = some (sources.map recordOf) :=
      mapM_eq_some_map fun source hmem =>
        sound?_of_isRecord (hrecords source hmem) (hitems source hmem).le
    have hlast : sources.mapM recordOfLast? = some (sources.map recordOf) := by
      apply mapM_eq_some_map
      intro source hmem
      rw [recordOfLast?_of_isRecord (hrecords source hmem),
        ofJson?_of_isRecord (hrecords source hmem)]
    have hnonempty : ¬(Dataset.mk (sources.map recordOf)).isEmpty := by
      simpa [Dataset.isEmpty] using hne
    refine ⟨⟨sources.map recordOf⟩, ?_, ?_, ?_⟩
    · rw [if_pos (isSound_array hrecords hnesting), ofDocument, hlast]
      exact if_neg hnonempty
    · rw [hlines]
      exact if_neg hnonempty
    · rw [List.forall₂_map_right_iff, List.forall₂_same]
      exact fun source hmem => ofJson?_of_isRecord (hrecords source hmem)

/-- A single object is read like the line that holds it. -/
theorem load_single {documentPath linesPath document file : String}
    {fields : List (Option String × Source)}
    (hdocumentPath : Format.ofPath? documentPath = some .json)
    (hlinesPath : Format.ofPath? linesPath = some .jsonLines)
    (hdocument : Source.ofText? document.toList = some (.object fields))
    (hfile : OnLines [.object fields] file) (hreplaces : ReplacesNoObject (.object fields)) :
    load documentPath (.file document.toUTF8) = load linesPath (.file file.toUTF8) := by
  have hline : [Source.object fields].mapM (Source.sound? Record.ofJson?) =
      (Source.sound? Record.ofJson? (.object fields)).map ([·]) := by
    rw [List.mapM_cons]
    cases Source.sound? Record.ofJson? (.object fields) with
    | none => rfl
    | some record => rfl
  rw [load_of_format hdocumentPath, load_of_format hlinesPath, read, read,
    readJson_of_ofText? hdocument, readJsonLines_of_onLines hfile, hline, Source.sound?]
  split
  · next hsound =>
    rw [ofDocument, recordOfLast?_eq_ofJson? hreplaces hsound]
    cases Record.ofJson? (.object fields) with
    | none => rfl
    | some record => rfl
  · rfl

/-- An array of records and a file that has them on lines of their own hold the same data, and so do
a single object and a file with one line, unless an object repeats a name that had an object for
its value. The texts of documents, in brackets and with commas between them, are their array. -/
theorem load_agrees {documentPath linesPath : String}
    (hdocumentPath : Format.ofPath? documentPath = some .json)
    (hlinesPath : Format.ofPath? linesPath = some .jsonLines) :
    (∀ (sources : List Source) (document file : String),
      Source.ofText? document.toList = some (.array sources) → OnLines sources file →
      (Source.array sources).nesting ≤ Source.depthLimit →
        Agree documentPath linesPath sources (load documentPath (.file document.toUTF8))
          (load linesPath (.file file.toUTF8))) ∧
    (∀ (fields : List (Option String × Source)) (document file : String),
      Source.ofText? document.toList = some (.object fields) →
      OnLines [.object fields] file → ReplacesNoObject (.object fields) →
        load documentPath (.file document.toUTF8) = load linesPath (.file file.toUTF8)) ∧
    ∀ (texts : List String) (sources : List Source),
      List.Forall₂ (fun text source => Source.ofText? text.toList = some source) texts sources →
        Source.ofText? (Source.arrayText texts).toList = some (.array sources) :=
  ⟨fun _ _ _ => agree hdocumentPath hlinesPath,
    fun _ _ _ => load_single hdocumentPath hlinesPath, fun _ _ => Source.ofText?_arrayText⟩

theorem ofText?_flag :
    Source.ofText? "\x7b\"a\":true\x7d".toList = some (.object [(some "a", .bool true)]) := by
  cbv

theorem ofText?_list :
    Source.ofText? " \x7b\"a\":[null]\x7d".toList =
      some (.object [(some "a", .array [.null])]) := by
  cbv

theorem isRecord_flag : IsRecord (.object [(some "a", .bool true)]) := by
  refine ⟨[("a", .bool true)], rfl, ?_⟩
  rw [List.forall_mem_singleton]
  exact .bool true

theorem isRecord_list : IsRecord (.object [(some "a", .array [.null])]) := by
  refine ⟨[("a", .array [.null])], rfl, ?_⟩
  rw [List.forall_mem_singleton]
  refine .array ?_
  rw [List.forall_mem_singleton]
  exact .null

theorem onLines_flag {sources : List Source} {rest : String} (h : OnLines sources rest) :
    OnLines (.object [(some "a", .bool true)] :: sources)
      ("\x7b\"a\":true\x7d" ++ "\r\n" ++ rest) :=
  .document (by decide) (by decide) ofText?_flag (Or.inr (Or.inl rfl)) h

theorem onLines_list :
    OnLines [.object [(some "a", .array [.null])]] (" \x7b\"a\":[null]\x7d" ++ "" ++ "") :=
  .document (by decide) (by decide) ofText?_list (Or.inr (Or.inr ⟨rfl, rfl⟩)) .nil

theorem replacesNoObject_flag : ReplacesNoObject (.object [(some "a", .bool true)]) := by
  intro before name value after heq hname
  rw [Source.object.injEq, eq_comm, List.append_eq_singleton_iff] at heq
  rcases heq with ⟨-, heq⟩ | ⟨-, heq⟩
  · obtain ⟨-, rfl⟩ := List.cons.inj heq
    exact absurd hname List.not_mem_nil
  · cases heq

/-- Blank lines and carriage returns do not matter. -/
theorem load_agrees_flags :
    (∃ data : Dataset Float,
      load "runs.json" (.file "[\x7b\"a\":true\x7d, \x7b\"a\":[null]\x7d]".toUTF8) = .ok data ∧
        load "runs.jsonl" (.file "\n\x7b\"a\":true\x7d\r\n  \n \x7b\"a\":[null]\x7d".toUTF8) =
          .ok data) ∧
      (load "runs.json" (.file "\x7b\"a\":true\x7d".toUTF8) : Except (Error Float) _) =
        load "runs.jsonl" (.file "\x7b\"a\":true\x7d\r\n".toUTF8) := by
  have hdocumentPath : Format.ofPath? "runs.json" = some .json := by decide +kernel
  have hlinesPath : Format.ofPath? "runs.jsonl" = some .jsonLines := by decide +kernel
  obtain ⟨harray, hsingle, htexts⟩ := load_agrees hdocumentPath hlinesPath
  constructor
  · have hdocument := htexts ["\x7b\"a\":true\x7d", " \x7b\"a\":[null]\x7d"] _
      (.cons ofText?_flag (.cons ofText?_list .nil))
    have hspaces : Text.trim "  " = "" := by decide +kernel
    have hfile := OnLines.blank (by decide) (by decide +kernel : Text.trim "" = "") (Or.inl rfl)
      (onLines_flag (.blank (by decide) hspaces (Or.inl rfl) onLines_list))
    have hrecords : ∀ source ∈ [Source.object [(some "a", .bool true)],
        .object [(some "a", .array [.null])]], IsRecord source := by
      rw [List.forall_mem_cons, List.forall_mem_singleton]
      exact ⟨isRecord_flag, isRecord_list⟩
    obtain ⟨data, hfromDocument, hfromLines, -⟩ :=
      (harray _ _ _ hdocument hfile (by decide)).loaded (List.cons_ne_nil _ _) hrecords
    exact ⟨data, hfromDocument, hfromLines⟩
  · exact hsingle _ _ _ ofText?_flag (onLines_flag .nil) replacesNoObject_flag

theorem ofText?_hidden :
    Source.ofText? "\x7b\"a\":\x7b\x7d,\"a\":true\x7d".toList =
      some (.object [(some "a", .object []), (some "a", .bool true)]) := by
  cbv

/-- The reader of lines also looks at the values that a repeated name replaces: an object among
them is refused there and passed over in an array. -/
theorem not_forall_agree :
    ¬∀ (sources : List Source) (document file : String),
      Source.ofText? document.toList = some (.array sources) → OnLines sources file →
      (Source.array sources).nesting ≤ Source.depthLimit →
        (∃ data : Dataset Float, load "runs.json" (.file document.toUTF8) = .ok data ∧
          load "runs.jsonl" (.file file.toUTF8) = .ok data) ∨
        ∃ e e' : Error Float, load "runs.json" (.file document.toUTF8) = .error e ∧
          load "runs.jsonl" (.file file.toUTF8) = .error e' := by
  intro hforall
  have hdocument := Source.ofText?_arrayText (.cons ofText?_hidden .nil)
  have hfile := OnLines.document (by decide) (by decide) ofText?_hidden (Or.inr (Or.inr ⟨rfl, rfl⟩))
    .nil
  have hloaded : (load "runs.json" (.file "[\x7b\"a\":\x7b\x7d,\"a\":true\x7d]".toUTF8) :
      Except (Error Float) _).isOk = true := by
    decide +kernel
  have hrefused : (load "runs.jsonl" (.file "\x7b\"a\":\x7b\x7d,\"a\":true\x7d".toUTF8) :
      Except (Error Float) _).isOk = false := by
    decide +kernel
  rcases hforall _ _ _ hdocument hfile (by decide) with ⟨data, -, hlines⟩ | ⟨e, e', harray, -⟩
  · have hok := congrArg Except.isOk hlines
    cases hok.symm.trans hrefused
  · have herror := congrArg Except.isOk harray
    cases herror.symm.trans hloaded

end Loading

end Significance
