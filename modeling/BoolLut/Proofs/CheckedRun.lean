/-
**No step of a run lacks its condition.**

A run in which every step is checked: the text is read with a counter of open signs, the names are
filed with an index, and the codes are words of 32 bits that are shifted to get at their bits and
raised one by one.  None of the conditions ever fails, whatever the text, and the outcome is that of
a run without checks.

Main definitions:

* `BoolLut.Checked.bindFrom`, `BoolLut.Checked.rowsFrom`, `BoolLut.Checked.build` — the values of a
  code, the rows of all codes, and a truth table;
* `BoolLut.Checked.run` — a run with all steps checked.

Main results:

* `BoolLut.Checked.bindFrom_eq_ok`, `BoolLut.Checked.rowsFrom_eq_ok`, `BoolLut.Checked.build_eq_ok`
  — no condition fails while a truth table is built;
* `BoolLut.Checked.run_eq_ok` — **no condition fails in any run**.
-/

import BoolLut.Proofs.CountedParser
import BoolLut.Proofs.IndexedTable
import BoolLut.Proofs.Rows
import BoolLut.Proofs.Spelling
import BoolLut.Run

set_option relaxedAutoImplicit false
set_option autoImplicit false

namespace BoolLut

namespace Checked

/-- The number of bits of a word. -/
def wordBits : Nat := 32

/-! ### Rows -/

/-- Gives the names of a list the bits of a code from bit `j` on. -/
def bindFrom (code j : Nat) (b : Bindings) : List Name → Except Breach Bindings
  | [] => return b
  | n :: names => do
      require (j < wordBits) .shiftTooFar
      bindFrom code (j + 1) (b.set n.text ((code >>> j) &&& 1 == 1)) names

/-- The rows of the codes from `code` on, up to but not including `stop`.  Before each code is
taken, the number of codes that are left may be asked for. -/
def rowsFrom (names : List Name) (root : Formula) (stop code : Nat) :
    Except Breach (List Bool) := do
  require (code ≤ stop) .countBelowZero
  if _ : code < stop then
    require (code + 1 < 2 ^ wordBits) .codeTooLarge
    let b ← bindFrom code 0 .empty names
    let rows ← rowsFrom names root stop (code + 1)
    return root.eval b.value :: rows
  else return []
termination_by stop - code

/-- The width and the rows of the truth table of a formula. -/
def build (x : IndexedTable) (root : Formula) (policy : WidthPolicy) :
    Except Breach (Except TooManyNames (BitWidth × List Bool)) :=
  match BitWidth.ofCount x.entries.length policy with
  | .error e => return .error e
  | .ok width => do
      require (width.bits < wordBits) .shiftTooFar
      let rows ← rowsFrom (x.entries.map Prod.fst) root (1 <<< width.bits) 0
      return .ok (width, rows)

theorem shiftRight_and_one (code j : Nat) : ((code >>> j) &&& 1 == 1) = code.testBit j := by
  rw [Nat.testBit_eq_decide_div_mod_eq, Nat.and_one_is_mod, Nat.shiftRight_eq_div_pow]
  rfl

theorem bindFrom_eq_ok {code j : Nat} {names : List Name} (h : j + names.length ≤ wordBits)
    (b : Bindings) :
    bindFrom code j b names =
      .ok ((names.mapIdx fun i n => (n.text, code.testBit (j + i))).foldl
        (fun b p => b.set p.1 p.2) b) := by
  induction names generalizing j b with
  | nil => rfl
  | cons n names ih =>
      rw [List.length_cons] at h
      have hshift : j < wordBits := by omega
      have hrest : j + 1 + names.length ≤ wordBits := by omega
      have hbits : (names.mapIdx fun i n => (n.text, code.testBit (j + 1 + i))) =
          names.mapIdx fun i n => (n.text, code.testBit (j + (i + 1))) := by
        congr 1
        funext i n
        rw [Nat.add_assoc, Nat.add_comm 1 i]
      rw [bindFrom, require_eq_ok hshift, shiftRight_and_one, List.mapIdx_cons, List.foldl_cons,
        ← hbits]
      exact ih hrest _

variable {t : NameTable} {x : IndexedTable} {root : Formula} {policy : WidthPolicy}

/-- A word has a bit for each name of a table with at most 32 names. -/
theorem bindFrom_names (h : t.size ≤ wordBits) (code : Nat) :
    bindFrom code 0 .empty t.names = .ok (t.bind code) := by
  have hnames : 0 + t.names.length ≤ wordBits := by rwa [Nat.zero_add, t.length_names]
  rw [bindFrom_eq_ok hnames]
  simp only [Nat.zero_add]
  rfl

/-- Below the number of codes every code and the one after it are words, and the codes that are left
can be counted. -/
theorem rowsFrom_eq_ok (hsize : t.size ≤ wordBits) {stop : Nat} (hstop : stop < 2 ^ wordBits)
    (root : Formula) {code left : Nat} (hleft : code + left = stop) :
    rowsFrom t.names root stop code =
      .ok ((List.range' code left).map fun c => root.eval (t.bind c).value) := by
  induction left generalizing code with
  | zero =>
      have hcount : code ≤ stop := by omega
      have hend : ¬ code < stop := by omega
      rw [rowsFrom, require_eq_ok hcount, dif_neg hend]
      rfl
  | succ left ih =>
      have hcount : code ≤ stop := by omega
      have hmore : code < stop := by omega
      have hword : code + 1 < 2 ^ wordBits := by omega
      rw [rowsFrom, require_eq_ok hcount, dif_pos hmore, require_eq_ok hword, bindFrom_names hsize,
        ih (by omega)]
      rfl

theorem names_eq (h : x.Represents t) : x.entries.map Prod.fst = t.names := by
  rw [h.entries_eq, List.map_map]
  rfl

/-- A width leaves room for its codes in a word. -/
theorem bits_lt_wordBits (width : BitWidth) : width.bits < wordBits :=
  Nat.lt_of_le_of_lt width.bits_le (by decide)

/-- No condition fails while a truth table is built. -/
theorem build_eq_ok (h : x.Represents t) (root : Formula) (policy : WidthPolicy) :
    build x root policy =
      .ok ((TruthTable.build t root policy).map fun tt => (tt.width, tt.rows)) := by
  unfold build
  rw [h.length_entries]
  cases hwidth : BitWidth.ofCount t.size policy with
  | error e =>
      rw [TruthTable.build, hwidth]
      rfl
  | ok width =>
      have hbits := bits_lt_wordBits width
      have hsize : t.size ≤ wordBits := (BitWidth.le_of_ofCount hwidth).trans hbits.le
      have hrows : 1 <<< width.bits = width.rows := Nat.one_shiftLeft _
      have hstop : width.rows < 2 ^ wordBits := Nat.pow_lt_pow_right (by decide) hbits
      simp only
      rw [require_eq_ok hbits, names_eq h, hrows, rowsFrom_eq_ok hsize hstop root (Nat.zero_add _),
        ← List.range_eq_range']
      rw [TruthTable.build, hwidth]
      simp only [NameTable.assignments, List.map_map]
      rfl

/-! ### Runs -/

/-- How many names there are, and how often each occurs. -/
def summary (x : IndexedTable) : List String :=
  ("Found " ++ toString x.entries.length ++ " unique identifiers") ::
    x.entries.map fun p => p.1.text ++ ": " ++ toString p.2.length ++ " occurrences"

/-- The lines about the truth table. -/
def conclusion : Except TooManyNames (BitWidth × List Bool) → List String
  | .ok (width, rows) =>
      ["Generating a lut" ++ width.text ++ ".",
        lutMarker.toString ++ String.ofList (rows.map TruthTable.digit)]
  | .error e => [e.message]

/-- The outcome of a run over a formula. -/
def outcome (root : Formula) (x : IndexedTable)
    (table : Except TooManyNames (BitWidth × List Bool)) (style : TreeStyle) : Outcome where
  stdout := unlines (root.render style :: summary x ++ conclusion table)
  stderr := ""
  exitCode :=
    match table with
    | .ok _ => .success
    | .error e => (Failure.capacity e).exitCode

/-- A run over a text, with every step checked. -/
def run (text : String) (style : TreeStyle) (policy : WidthPolicy) : Except Breach Outcome := do
  match ← (parse text).run with
  | .error e => return .ofParseError e
  | .ok root => do
      let x ← IndexedTable.empty.insertAll root.occurrences
      let table ← build x root policy
      return outcome root x table style

theorem summary_eq (h : x.Represents t) : summary x = t.summary := by
  rw [summary, NameTable.summary, h.length_entries, h.entries_eq, NameTable.counts, List.map_map,
    List.map_map]
  rfl

theorem outcome_eq (h : x.Represents t) (root : Formula)
    (table : Except TooManyNames TruthTable) (style : TreeStyle) :
    outcome root x (table.map fun tt => (tt.width, tt.rows)) style =
      .ofReport ⟨root, t, table, style⟩ := by
  unfold outcome
  rw [summary_eq h]
  cases table with
  | error e => rfl
  | ok tt => rfl

/-- **No step of a run lacks its condition**: a run in which all steps are checked gives up on no
text, and its outcome is that of a run without checks; and every name among the tokens of a text is
a word, so that it has a character. -/
theorem run_eq_ok (text : String) (style : TreeStyle) (policy : WidthPolicy) :
    run text style policy = .ok (BoolLut.run text style policy) ∧
      ∀ lexemes, Token.lex text = .ok lexemes →
        ∀ n, .name n ∈ lexemes.map Lexeme.token → Token.IsWord n.text.toList := by
  constructor
  · unfold run
    rw [run_parse]
    cases hparse : Formula.parse text with
    | error e =>
        rw [run_of_error hparse]
        rfl
    | ok root =>
        obtain ⟨x, hx, hrepresents⟩ : ∃ x, IndexedTable.empty.insertAll root.occurrences = .ok x ∧
            x.Represents root.nameTable :=
          IndexedTable.insertAll_eq_ok IndexedTable.represents_empty root.occurrences
        rw [run_of_ok hparse, ← outcome_eq hrepresents]
        change IndexedTable.empty.insertAll root.occurrences >>= _ = _
        rw [hx]
        change build x root policy >>= _ = _
        rw [build_eq_ok hrepresents]
        rfl
  · intro lexemes hlex n hn
    exact (Token.isWritable_of_lex hlex hn).word

end Checked

end BoolLut
