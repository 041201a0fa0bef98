/-
**The log of a run tells what its report tells.**

The report is written at the end of a run, and the log is left on the way.  A text that is no
formula leaves no record.  Any other leaves one with the size and the depth of its tree, one for each
line about a name, in the order of these lines and with places counted from zero, and one with the
number of names.  If there is a truth table, one more record has its width, and then every digit
behind the marker has a record with its code and its value, again in order; if there is none, nothing
is recorded about it.  How the tree is written does not show in the log.

Main definitions:

* `BoolLut.LogEntry`, `BoolLut.Record.entry` — a record as it is shown;
* `BoolLut.headEntries`, `BoolLut.tableEntries` — what is shown about a formula and its names, and
  about a truth table that is printed with given digits.

Main results:

* `BoolLut.NameTable.discovered_insertAllLogged` — **a table of names has a record of each name**,
  whatever it was filled with;
* `BoolLut.Formula.entries_nameTableLogged`, `BoolLut.TruthTable.entries_buildLogged` — what is
  shown about the two steps of a run;
* `BoolLut.records_execute_style` — the log does not depend on the style;
* `BoolLut.log_tells_report` — **the log tells what the report tells**.
-/

import BoolLut.Proofs.LogSteps
import BoolLut.Proofs.Outcomes

set_option relaxedAutoImplicit false
set_option autoImplicit false

namespace BoolLut

/-! ### What is shown -/

/-- A record as it is shown, but for the time of day. -/
structure LogEntry where
  /-- The word for its severity. -/
  level : String
  /-- The part of the program that left it. -/
  target : String
  /-- What it says. -/
  message : String
deriving DecidableEq

/-- A record as it is shown. -/
def Record.entry (r : Record) : LogEntry := ⟨r.severity.text, r.target, r.message⟩

/-- What is shown about a formula if `names` stand in its text: its size and depth, each different
name with its place, and the number of different names. -/
def headEntries (root : Formula) (names : List Name) : List LogEntry :=
  ⟨"INFO", "bitgen::run",
    "Parsed formula with " ++ toString root.size ++ " nodes (depth " ++ toString root.depth ++
      ")"⟩ ::
    names.eraseDups.mapIdx (fun j n => ⟨"DEBUG", "bitgen::collect",
      "collect: new identifier '" ++ n.text ++ "' at position " ++ toString j⟩) ++
    [⟨"DEBUG", "bitgen::collect",
      "collect: found " ++ toString names.eraseDups.length ++ " unique identifiers"⟩]

theorem Record.entry_parsed (size depth : Nat) :
    (parsed size depth).entry = ⟨"INFO", "bitgen::run",
      "Parsed formula with " ++ toString size ++ " nodes (depth " ++ toString depth ++ ")"⟩ := rfl

theorem Record.entry_collected (count : Nat) :
    (collected count).entry = ⟨"DEBUG", "bitgen::collect",
      "collect: found " ++ toString count ++ " unique identifiers"⟩ := rfl

theorem Record.entry_tabulating (count : Nat) (policy : WidthPolicy) (width : BitWidth) :
    (tabulating count policy width).entry = ⟨"DEBUG", "bitgen::table",
      "build_truth_table(identifiers = " ++ toString count ++ ", policy = " ++ policy.text ++
        ") => width " ++ toString width.bits⟩ := rfl

theorem Record.entry_row (code : Nat) (value : Bool) :
    (row code value).entry = ⟨"TRACE", "bitgen::table",
      "code " ++ BoolLut.binary code ++ " => " ++ (if value then "true" else "false")⟩ := rfl

/-- A code in binary, with exactly four digits. -/
def fourDigits (code : Nat) : String :=
  "0b" ++ String.ofList ([3, 2, 1, 0].map fun j => if code.testBit j then '1' else '0')

/-- What is shown about a truth table with codes of `w` bits over `count` names whose rows are
printed with `digits`: its width, and each digit as the value of its code. -/
def tableEntries (count : Nat) (policy : WidthPolicy) (w : Nat) (digits : List Char) :
    List LogEntry :=
  ⟨"DEBUG", "bitgen::table",
    "build_truth_table(identifiers = " ++ toString count ++ ", policy = " ++ policy.text ++
      ") => width " ++ toString w⟩ ::
    digits.mapIdx fun code digit => ⟨"TRACE", "bitgen::table",
      "code " ++ fourDigits code ++ " => " ++ (if digit = '1' then "true" else "false")⟩

/-! ### Names -/

namespace NameTable

/-- The record of a name is left when it gets its place. -/
theorem discovered_insertLogged (t : NameTable) (o : Occurrence) :
    t.names.mapIdx (fun j n => Record.discovered n j) ++ (t.insertLogged o).records =
      (t.insert o).names.mapIdx fun j n => .discovered n j := by
  rw [names_insert, insertLogged]
  split
  · rw [List.append_nil]
  · rw [List.mapIdx_append, List.mapIdx_cons, List.mapIdx_nil, Nat.zero_add, length_names]

/-- **A table of names has a record of each name**: those of the names that were there, and those
left while it was filled, are together one for each name, in order and with its place. -/
theorem discovered_insertAllLogged (t : NameTable) (os : List Occurrence) :
    t.names.mapIdx (fun j n => Record.discovered n j) ++ (t.insertAllLogged os).records =
      (os.foldl insert t).names.mapIdx fun j n => .discovered n j := by
  induction os generalizing t with
  | nil => rw [insertAllLogged, Logged.records_pure, List.append_nil, List.foldl_nil]
  | cons o os ih =>
      rw [insertAllLogged, Logged.records_bind, value_insertLogged, ← List.append_assoc,
        discovered_insertLogged, ih, List.foldl_cons]

end NameTable

/-- The records of the table of names of a formula: one for each name, and one with their number. -/
theorem Formula.records_nameTableLogged (f : Formula) :
    f.nameTableLogged.records = f.leaves.eraseDups.mapIdx (fun j n => .discovered n j) ++
      [.collected f.leaves.eraseDups.length] := by
  have hnames := NameTable.discovered_insertAllLogged .empty f.occurrences
  rw [NameTable.names_empty, List.mapIdx_nil, List.nil_append] at hnames
  have htable : f.occurrences.foldl NameTable.insert .empty = f.nameTable := rfl
  rw [nameTableLogged, Logged.records_bind, hnames, NameTable.value_insertAllLogged, htable,
    f.names_nameTable]
  simp [f.size_nameTable]

/-- What is shown about a formula and its names, when a run has found both. -/
theorem Formula.entries_nameTableLogged (f : Formula) :
    (.parsed f.size f.depth :: f.nameTableLogged.records).map Record.entry =
      headEntries f f.leaves := by
  rw [f.records_nameTableLogged, headEntries, List.map_cons, List.map_append, List.map_singleton,
    Record.entry_parsed, Record.entry_collected, List.mapIdx_eq_zipIdx_map,
    List.mapIdx_eq_zipIdx_map, List.map_map]
  rfl

/-! ### Rows -/

/-- Codes of at most four bits are shown with exactly four digits. -/
theorem binary_eq_fourDigits {code : Nat} (h : code < 16) : binary code = fourDigits code := by
  have hall : ∀ code < 16, binary code = fourDigits code := by decide +kernel
  exact hall code h

namespace TruthTable

variable {t : NameTable} {root : Formula} {policy : WidthPolicy}

/-- A code of a truth table has at most four bits. -/
theorem lt_of_lt_length_rows {tt : TruthTable} {code : Nat} (h : code < tt.rows.length) :
    code < 16 := by
  have hbits : tt.width.bits ≤ 4 := tt.width.bits_le
  have hrows : tt.width.rows ≤ 16 := Nat.pow_le_pow_right Nat.two_pos hbits
  rw [tt.length_rows] at h
  omega

/-- The records of a truth table are those of its width and of the digits of its rows. -/
theorem entries_buildLogged {tt : TruthTable} (h : build t root policy = .ok tt) :
    (buildLogged t root policy).records.map Record.entry =
      tableEntries t.size policy tt.width.bits
        (tt.rows.map fun value => if value then '1' else '0') := by
  have hrecords : (buildLogged t root policy).records =
      .tabulating t.size policy tt.width :: tt.rows.mapIdx .row := by
    simp only [buildLogged, h]
  rw [hrecords, List.map_cons, Record.entry_tabulating, tableEntries, List.cons_inj_right]
  refine List.ext_getElem (by simp) ?_
  intro code hcode hcode'
  have hrow : code < tt.rows.length := by simpa using hcode
  have hlt := lt_of_lt_length_rows hrow
  rw [List.getElem_map, List.getElem_mapIdx, List.getElem_mapIdx, List.getElem_map,
    Record.entry_row, binary_eq_fourDigits hlt]
  cases tt.rows[code] with
  | false => rfl
  | true => rfl

end TruthTable

/-! ### Runs -/

section execute

variable {text : String} {root : Formula}

/-- A text that is no formula leaves no record. -/
theorem records_execute_of_error {e : ParseError} (h : Formula.parse text = .error e)
    (style : TreeStyle) (policy : WidthPolicy) : (execute text style policy).records = [] := by
  simp only [execute, h, Logged.records_pure]

/-- A formula leaves its own record, those of its names and those of its truth table. -/
theorem records_execute_of_ok (h : Formula.parse text = .ok root) (style : TreeStyle)
    (policy : WidthPolicy) :
    (execute text style policy).records =
      (.parsed root.size root.depth :: root.nameTableLogged.records) ++
        (TruthTable.buildLogged root.nameTable root policy).records := by
  simp [execute, h]

/-- The log does not depend on the style. -/
theorem records_execute_style (text : String) (style style' : TreeStyle) (policy : WidthPolicy) :
    (execute text style policy).records = (execute text style' policy).records := by
  cases h : Formula.parse text with
  | error e => rw [records_execute_of_error h, records_execute_of_error h]
  | ok root => rw [records_execute_of_ok h, records_execute_of_ok h]

/-- What is shown about a formula with at most four names: all about its truth table, too. -/
theorem entries_execute_of_le (h : Formula.parse text = .ok root)
    (hnames : (namesIn text).eraseDups.length ≤ 4) (style : TreeStyle) (policy : WidthPolicy) :
    ∃ w digits, digits.length = 2 ^ w ∧ (∀ d ∈ digits, d = '0' ∨ d = '1') ∧
      linesOf (run text style policy).stdout = headLines root style (namesIn text) ++
        ["Generating a lut" ++ toString w ++ ".", "0" ++ String.ofList digits] ∧
      (execute text style policy).records.map Record.entry = headEntries root (namesIn text) ++
        tableEntries (namesIn text).eraseDups.length policy w digits := by
  obtain ⟨tt, htt, htabulates⟩ := run_tabulates h hnames style policy
  refine ⟨tt.width.bits, tt.rows.map (fun value => if value then '1' else '0'), ?_, ?_, ?_, ?_⟩
  · rw [List.length_map, tt.length_rows]
    rfl
  · intro d hd
    rw [List.mem_map] at hd
    obtain ⟨value, -, rfl⟩ := hd
    cases value with
    | false => exact .inl rfl
    | true => exact .inr rfl
  · exact htabulates.lines_eq
  · rw [records_execute_of_ok h, List.map_append, root.entries_nameTableLogged,
      TruthTable.entries_buildLogged htt, size_of_parse h, namesIn_of_parse h]

/-- A formula with more than four names leaves no record of a truth table. -/
theorem records_execute_of_lt (h : Formula.parse text = .ok root)
    (hnames : 4 < (namesIn text).eraseDups.length) (style : TreeStyle) (policy : WidthPolicy) :
    (execute text style policy).records =
      .parsed root.size root.depth :: root.nameTableLogged.records := by
  have hsize : maxNames < root.nameTable.size := by
    rw [size_of_parse h]
    exact hnames
  have hbuild : TruthTable.build root.nameTable root policy = .error ⟨_, maxNames⟩ :=
    TruthTable.build_eq_error_iff.2 ⟨hsize, rfl⟩
  rw [records_execute_of_ok h]
  simp only [TruthTable.buildLogged, hbuild, List.append_nil]

/-- No record on a formula and its names is one of a truth table. -/
theorem target_ne_of_mem {root : Formula} {r : Record}
    (h : r ∈ Record.parsed root.size root.depth :: root.nameTableLogged.records) :
    r.target ≠ "bitgen::table" := by
  rw [root.records_nameTableLogged, List.mem_cons, List.mem_append, List.mem_mapIdx,
    List.mem_singleton] at h
  have hrun : "bitgen::run" ≠ "bitgen::table" := by decide
  have hcollect : "bitgen::collect" ≠ "bitgen::table" := by decide
  rcases h with rfl | ⟨i, hi, rfl⟩ | rfl
  · exact hrun
  · exact hcollect
  · exact hcollect

end execute

/-- **The log tells what the report tells.**  A text that is refused leaves no record.  Otherwise
each part of the report has its part of the log, in the same order: the lines about the formula and
its names have the record of its size and depth, one for each name with its place, and one with the
number of names; the lines about a truth table have the record of its width and one for each digit;
a refusal because of too many names has none.  The log does not depend on the style, and is the one
that is left step by step. -/
theorem log_tells_report (text : String) (style : TreeStyle) (policy : WidthPolicy) :
    ((run text style policy).exitCode.value = 1 ↔ ∃ e, Formula.parse text = .error e) ∧
    ((run text style policy).exitCode.value = 1 → (execute text style policy).records = []) ∧
    ((run text style policy).exitCode.value ≠ 1 → ∃ root lines entries,
      Formula.parse text = .ok root ∧
      linesOf (run text style policy).stdout = headLines root style (namesIn text) ++ lines ∧
      (execute text style policy).records.map Record.entry =
        headEntries root (namesIn text) ++ entries ∧
      ((run text style policy).exitCode.value = 0 → ∃ w digits,
        digits.length = 2 ^ w ∧ (∀ d ∈ digits, d = '0' ∨ d = '1') ∧
        lines = ["Generating a lut" ++ toString w ++ ".", "0" ++ String.ofList digits] ∧
        entries = tableEntries (namesIn text).eraseDups.length policy w digits) ∧
      ((run text style policy).exitCode.value = 2 →
        lines = [refusalLine (namesIn text).eraseDups.length] ∧ entries = [] ∧
        ∀ r ∈ (execute text style policy).records, r.target ≠ "bitgen::table")) ∧
    (∀ style', (execute text style' policy).records = (execute text style policy).records) ∧
    executeStepwise text style policy = execute text style policy := by
  cases hparse : Formula.parse text with
  | error e =>
      have hcode := (run_refuses hparse style policy).exitCode_eq
      exact ⟨⟨fun _ => ⟨e, rfl⟩, fun _ => hcode⟩,
        fun _ => records_execute_of_error hparse style policy, fun hne => absurd hcode hne,
        fun style' => records_execute_style text style' style policy,
        executeStepwise_eq text style policy⟩
  | ok root =>
      have hcode : (run text style policy).exitCode.value ≠ 1 := by
        rw [exitCode_run, hparse]
        by_cases hmany : 4 < (namesIn text).eraseDups.length
        · simp [hmany, ExitCode.value]
        · simp [hmany, ExitCode.value]
      have hparses : ¬ ∃ e, (.ok root : Except ParseError Formula) = .error e := by
        rintro ⟨e, he⟩
        cases he
      refine ⟨⟨fun h => absurd h hcode, fun h => absurd h hparses⟩, fun h => absurd h hcode,
        fun _ => ?_, fun style' => records_execute_style text style' style policy,
        executeStepwise_eq text style policy⟩
      rcases Nat.lt_or_ge 4 (namesIn text).eraseDups.length with hmany | hfew
      · have hrejects := run_rejects hparse hmany style policy
        have hrecords := records_execute_of_lt hparse hmany style policy
        refine ⟨root, _, [], rfl, hrejects.lines_eq, ?_, ?_, ?_⟩
        · rw [hrecords, root.entries_nameTableLogged, namesIn_of_parse hparse, List.append_nil]
        · intro hzero
          rw [hrejects.exitCode_eq] at hzero
          cases hzero
        · refine fun _ => ⟨rfl, rfl, fun r hr => ?_⟩
          rw [hrecords] at hr
          exact target_ne_of_mem hr
      · obtain ⟨w, digits, hlength, hdigits, hlines, hentries⟩ :=
          entries_execute_of_le hparse hfew style policy
        obtain ⟨tt, -, htabulates⟩ := run_tabulates hparse hfew style policy
        refine ⟨root, _, _, rfl, hlines, hentries, ?_, ?_⟩
        · exact fun _ => ⟨w, digits, hlength, hdigits, rfl, rfl⟩
        · intro htwo
          rw [htabulates.exitCode_eq] at htwo
          cases htwo

end BoolLut
