/-
**The ways the program ends.**

A command line that breaks a rule is refused before anything is read, in whatever words.  One that
keeps all rules, and does not call for help, has exactly one source for its formula.  If this source
holds no text — the system does not give the file, or its bytes are not UTF-8 — the program says so
and ends; otherwise what it prints is what a run over the text prints.  No two of these ways share an exit code other than zero,
so the code of a program that fails tells what has failed.  The records that a command line asks to
see are kept apart from all this, in the log.

Main definitions:

* `BoolLut.Command.Source.Holds` — the text that a source holds;
* `BoolLut.Command.Misused` — the command line breaks a rule.

Main results:

* `BoolLut.Command.Source.read_eq_ok_iff` — what is read is what the source holds;
* `BoolLut.Command.Options.value_answer` — what is printed does not depend on what is recorded;
* `BoolLut.Command.exitCode_answer`, `BoolLut.Command.exitCode_value_iff` — what decides the exit
  code, and what each code tells;
* `BoolLut.Command.answer_outcomes` — **the ways the program ends are kept apart**.
-/

import BoolLut.Command.Answer
import BoolLut.Proofs.Drafts
import BoolLut.Proofs.Outcomes

set_option relaxedAutoImplicit false
set_option autoImplicit false

namespace BoolLut

namespace Command

/-! ### Sources -/

/-- Bytes stand for a text if they are its bytes. -/
theorem decode_eq_ok_iff {bytes : ByteArray} {text : String} :
    decode bytes = .ok text ↔ bytes = text.toUTF8 := by
  constructor
  · intro h
    unfold decode String.fromUTF8? at h
    split at h
    · next found hfound =>
        split at hfound
        · cases hfound
          cases h
          rfl
        · cases hfound
    · cases h
  · rintro rfl
    exact decode_toUTF8 text

/-- The text that a source holds: a formula is its own text, and a file or what comes in holds the
text with just its bytes. -/
def Source.Holds (s : Surroundings) : Source → String → Prop
  | .formula found, text => found = text
  | .file path, text => s.load path = .ok text.toUTF8
  | .stdin, text => s.stdin = text.toUTF8

/-- A path is read as a text exactly if it leads to a file with the bytes of the text. -/
theorem Surroundings.read_eq_ok_iff {s : Surroundings} {path text : String} :
    s.read path = .ok text ↔ s.load path = .ok text.toUTF8 := by
  unfold Surroundings.read
  split
  · next e he => simp [he]
  · next bytes hbytes => rw [hbytes, decode_eq_ok_iff, Except.ok.injEq]

/-- What is read is what the source holds. -/
theorem Source.read_eq_ok_iff {s : Surroundings} {source : Source} {text : String} :
    source.read s = .ok text ↔ source.Holds s text := by
  cases source with
  | formula found =>
      rw [Source.read, Except.ok.injEq]
      rfl
  | file path => exact Surroundings.read_eq_ok_iff
  | stdin => exact decode_eq_ok_iff

/-- A source that holds no text gives a reason. -/
theorem Source.read_eq_error_iff {s : Surroundings} {source : Source} :
    (∃ e, source.read s = .error e) ↔ ∀ text, ¬ source.Holds s text := by
  simp only [← Source.read_eq_ok_iff]
  cases source.read s with
  | error e => simp
  | ok text => simp

/-! ### Answers -/

/-- What is printed once the formula was read, or could not be, does not depend on what is
recorded. -/
theorem Options.value_answer (o : Options) (reading : Except ReadError String) :
    (o.answer reading).value =
      match reading with
      | .error e => e.outcome
      | .ok text => run text o.style o.policy := by
  cases reading with
  | error e => rfl
  | ok text => rfl

/-- The command line breaks a rule: it neither calls for help nor asks for a truth table. -/
def Misused (arguments : List String) : Prop :=
  ¬ CallsHelp arguments ∧ ∀ items o, Reads arguments items → ¬ Asks items o

section answer

variable {arguments : List String}

/-- Something holds of what a command line asks for if it holds of what was understood. -/
theorem exists_asks_iff {P : Options → Prop} :
    (∃ items o, Reads arguments items ∧ Asks items o ∧ P o) ↔
      ∃ o, Request.ofArguments arguments = .ok (.generate o) ∧ P o := by
  simp only [ofArguments_eq_generate_iff]
  constructor
  · rintro ⟨items, o, hreads, hasks, ho⟩
    exact ⟨o, ⟨items, hreads, hasks⟩, ho⟩
  · rintro ⟨o, ⟨items, hreads, hasks⟩, ho⟩
    exact ⟨items, o, hreads, hasks, ho⟩

/-- A command line that breaks a rule is one that is not understood. -/
theorem misused_iff : Misused arguments ↔ ∃ e, Request.ofArguments arguments = .error e := by
  constructor
  · rintro ⟨hhelp, hasks⟩
    cases h : Request.ofArguments arguments with
    | error e => exact ⟨e, rfl⟩
    | ok request =>
        cases request with
        | help => exact absurd (ofArguments_eq_help_iff.1 h) hhelp
        | generate o =>
            obtain ⟨items, hreads, ho⟩ := ofArguments_eq_generate_iff.1 h
            exact absurd ho (hasks items o hreads)
  · rintro ⟨e, he⟩
    constructor
    · intro hhelp
      rw [ofArguments_eq_help_iff.2 hhelp] at he
      cases he
    · intro items o hreads ho
      rw [ofArguments_eq_generate_iff.2 ⟨items, hreads, ho⟩] at he
      cases he

/-- What decides the exit code. -/
theorem exitCode_answer (arguments : List String) (s : Surroundings) :
    (answer arguments s).value.exitCode =
      match Request.ofArguments arguments with
      | .error _ => .usage
      | .ok .help => .success
      | .ok (.generate o) =>
          match o.source.read s with
          | .error _ => .io
          | .ok text =>
              match Formula.parse text with
              | .error _ => .parse
              | .ok _ => if 4 < (namesIn text).eraseDups.length then .capacity else .success := by
  unfold answer
  cases Request.ofArguments arguments with
  | error e => rfl
  | ok request =>
      cases request with
      | help => rfl
      | generate o =>
          simp only [Options.value_answer]
          cases o.source.read s with
          | error e => rfl
          | ok text => exact exitCode_run text o.style o.policy

/-- A command line that breaks a rule is refused, whatever there is to be read.  The words of the
refusal are left open. -/
theorem answer_of_misused (h : Misused arguments) : ∃ refusal : String, ∀ s,
    answer arguments s = ⟨⟨"", refusal, .usage⟩, []⟩ := by
  obtain ⟨e, he⟩ := misused_iff.1 h
  refine ⟨e.outcome.stderr, fun s => ?_⟩
  rw [answer, he]
  rfl

/-- A call for help is answered with the help text, whatever there is to be read. -/
theorem answer_of_callsHelp (h : CallsHelp arguments) (s : Surroundings) :
    answer arguments s = ⟨⟨helpText, "", .success⟩, []⟩ := by
  rw [answer, ofArguments_eq_help_iff.2 h]
  rfl

/-- If the source holds no text, the program says why. -/
theorem value_answer_of_error {items : List Item} {o : Options} (hreads : Reads arguments items)
    (hasks : Asks items o) {s : Surroundings} {e : ReadError} (he : o.source.read s = .error e) :
    (answer arguments s).value =
      ⟨"", "Could not read formula: " ++ e.message ++ "\n", .io⟩ := by
  rw [answer, ofArguments_eq_generate_iff.2 ⟨items, hreads, hasks⟩]
  simp only [Options.value_answer, he]
  rfl

/-- If the source holds a text, a run over it gives the answer. -/
theorem value_answer_of_holds {items : List Item} {o : Options} (hreads : Reads arguments items)
    (hasks : Asks items o) {s : Surroundings} {text : String} (htext : o.source.Holds s text) :
    (answer arguments s).value =
      run text (if Item.symbols ∈ items then .symbols else .placeholders)
        (if Item.exact ∈ items then .exact else .snapped) := by
  rw [answer, ofArguments_eq_generate_iff.2 ⟨items, hreads, hasks⟩, ← hasks.style_eq,
    ← hasks.policy_eq]
  simp only [Options.value_answer, Source.read_eq_ok_iff.2 htext]

/-- Each exit code other than zero stands for one way to end. -/
theorem exitCode_value_iff (arguments : List String) (s : Surroundings) :
    ((answer arguments s).value.exitCode.value = 64 ↔
      ∃ e, Request.ofArguments arguments = .error e) ∧
    ((answer arguments s).value.exitCode.value = 74 ↔
      ∃ o, Request.ofArguments arguments = .ok (.generate o) ∧
        ∀ text, ¬ o.source.read s = .ok text) ∧
    ((answer arguments s).value.exitCode.value = 1 ↔
      ∃ o, Request.ofArguments arguments = .ok (.generate o) ∧ ∃ text, o.source.read s = .ok text ∧
        ∃ e, Formula.parse text = .error e) ∧
    ((answer arguments s).value.exitCode.value = 2 ↔
      ∃ o, Request.ofArguments arguments = .ok (.generate o) ∧ ∃ text, o.source.read s = .ok text ∧
        (∃ root, Formula.parse text = .ok root) ∧ 4 < (namesIn text).eraseDups.length) := by
  rw [exitCode_answer]
  cases Request.ofArguments arguments with
  | error e => simp [ExitCode.value]
  | ok request =>
      cases request with
      | help => simp [ExitCode.value]
      | generate o =>
          cases hread : o.source.read s with
          | error e => simp [ExitCode.value, hread]
          | ok text =>
              cases hparse : Formula.parse text with
              | error e => simp [ExitCode.value, hread, hparse]
              | ok root =>
                  by_cases hmany : 4 < (namesIn text).eraseDups.length
                  · simp [ExitCode.value, hread, hparse, hmany]
                  · simp [ExitCode.value, hread, hparse, hmany]

/-- A run that prints a result succeeds, or refuses a formula because of its names. -/
theorem exitCode_of_stdout_run_ne {text : String} {style : TreeStyle} {policy : WidthPolicy}
    (h : (run text style policy).stdout ≠ "") :
    (run text style policy).exitCode.value = 0 ∨ (run text style policy).exitCode.value = 2 := by
  cases hparse : Formula.parse text with
  | error e => exact absurd (run_refuses hparse style policy).stdout_eq h
  | ok root =>
      rcases Nat.lt_or_ge 4 (namesIn text).eraseDups.length with hmany | hfew
      · exact .inr (run_rejects hparse hmany style policy).exitCode_eq
      · obtain ⟨tt, -, htabulates⟩ := run_tabulates hparse hfew style policy
        exact .inl htabulates.exitCode_eq

/-- So does a program that prints a result, unless it was called for help. -/
theorem exitCode_of_stdout_ne {s : Surroundings} (h : (answer arguments s).value.stdout ≠ "") :
    (answer arguments s).value.exitCode.value = 0 ∨
      (answer arguments s).value.exitCode.value = 2 := by
  unfold answer at h ⊢
  cases hrequest : Request.ofArguments arguments with
  | error e =>
      rw [hrequest] at h
      exact absurd rfl h
  | ok request =>
      rw [hrequest] at h
      cases request with
      | help => exact .inl rfl
      | generate o =>
          simp only [Options.value_answer] at h ⊢
          cases hread : o.source.read s with
          | error e =>
              rw [hread] at h
              exact absurd rfl h
          | ok text =>
              rw [hread] at h
              exact exitCode_of_stdout_run_ne h

end answer

/-- **The ways the program ends are kept apart.**  A command line that breaks a rule is refused in
the same words whatever comes in and whatever the files hold.  One that keeps the rules is answered
with the reason if its source holds no text, and otherwise just as a run over the text is, with
symbols and with exact widths if it says so.  The codes 64, 74, 1 and 2 each stand for one of these
ways, and something is printed as a result only with the codes 0 and 2. -/
theorem answer_outcomes (arguments : List String) :
    (Misused arguments → ∃ refusal : String, ∀ s,
      answer arguments s = ⟨⟨"", refusal, .usage⟩, []⟩) ∧
    (CallsHelp arguments → ∀ s, answer arguments s = ⟨⟨helpText, "", .success⟩, []⟩) ∧
    (∀ items o, Reads arguments items → Asks items o → ∀ s,
      ((∀ text, ¬ o.source.Holds s text) → ∃ e, o.source.read s = .error e ∧
        (answer arguments s).value =
          ⟨"", "Could not read formula: " ++ e.message ++ "\n", .io⟩) ∧
      ∀ text, o.source.Holds s text →
        (answer arguments s).value =
          run text (if Item.symbols ∈ items then .symbols else .placeholders)
            (if Item.exact ∈ items then .exact else .snapped)) ∧
    ∀ s,
      ((answer arguments s).value.exitCode.value = 64 ↔ Misused arguments) ∧
      ((answer arguments s).value.exitCode.value = 74 ↔
        ∃ items o, Reads arguments items ∧ Asks items o ∧ ∀ text, ¬ o.source.Holds s text) ∧
      ((answer arguments s).value.exitCode.value = 1 ↔
        ∃ items o, Reads arguments items ∧ Asks items o ∧ ∃ text, o.source.Holds s text ∧
          ∃ e, Formula.parse text = .error e) ∧
      ((answer arguments s).value.exitCode.value = 2 ↔
        ∃ items o, Reads arguments items ∧ Asks items o ∧ ∃ text, o.source.Holds s text ∧
          (∃ root, Formula.parse text = .ok root) ∧ 4 < (namesIn text).eraseDups.length) ∧
      ((answer arguments s).value.stdout ≠ "" →
        (answer arguments s).value.exitCode.value = 0 ∨
          (answer arguments s).value.exitCode.value = 2) := by
  refine ⟨answer_of_misused, answer_of_callsHelp, ?_, fun s => ?_⟩
  · intro items o hreads hasks s
    constructor
    · intro hnone
      obtain ⟨e, he⟩ := Source.read_eq_error_iff.2 hnone
      exact ⟨e, he, value_answer_of_error hreads hasks he⟩
    · exact fun text htext => value_answer_of_holds hreads hasks htext
  · simp only [exists_asks_iff, misused_iff, ← Source.read_eq_ok_iff]
    obtain ⟨husage, hio, hparse, hcapacity⟩ := exitCode_value_iff arguments s
    exact ⟨husage, hio, hparse, hcapacity, exitCode_of_stdout_ne⟩

end Command

end BoolLut
