/-
**Where the formula comes from.**

A formula stands on the command line, or in a file, or it is what comes in.  Only the place that the
command line names is looked at, and nothing of the answer but one record shows which it was: the
same text is answered in the same way from wherever it comes.  In particular the answer to a formula
on the command line does not depend on any file or on what comes in.  The answer to a formula in a
file depends on what the system gives for the path, and on nothing else; so what comes in matters
there only if a path leads to it, as some paths of a system do.

Main definitions:

* `BoolLut.Command.Item.source?` — the source that an item names;
* `BoolLut.Command.Surroundings.ofFiles` — surroundings in which some files can be read.

Main results:

* `BoolLut.Command.Asks.insert_source` — an item that names a source changes nothing else;
* `BoolLut.Command.answer_congr`, `BoolLut.Command.answer_of_holds` — the surroundings matter only
  through the one source, and the answer by the text that it holds;
* `BoolLut.Command.answer_eq_of_formula`, `BoolLut.Command.answer_eq_of_file` — what the answer does
  not depend on;
* `BoolLut.Command.answer_by_source` — **where the formula comes from makes no difference**.
-/

import BoolLut.Proofs.CommandOutcomes

set_option relaxedAutoImplicit false
set_option autoImplicit false

namespace BoolLut

namespace Command

/-! ### Items that name a source -/

/-- The source that an item names. -/
def Item.source? : Item → Option Source
  | formula text => some (.formula text)
  | file path => some (.file path)
  | _ => none

/-- Command lines are put together by putting together what they say. -/
theorem Says.append {front back : List String} {items more : List Item} (h : Says front items)
    (hback : Says back more) : Says (front ++ back) (items ++ more) := by
  induction h with
  | nil => exact hback
  | cons hi _ ih =>
      rw [List.append_assoc]
      exact .cons hi ih

/-- Items that name no source ask for what comes in. -/
theorem exists_asks_stdin {items : List Item} (h : Consistent items)
    (hnone : ∀ i ∈ items, i.source? = none) : ∃ o, o.source = .stdin ∧ Asks items o := by
  have hformula : ∀ text, Item.formula text ∉ items := fun text hmem => nomatch hnone _ hmem
  have hfile : ∀ path, Item.file path ∉ items := fun path hmem => nomatch hnone _ hmem
  cases hfinish : (Draft.ofItems items).finish with
  | error e =>
      obtain ⟨text, -, htext, -⟩ := Draft.exists_of_finish_error hfinish
      exact absurd ((Draft.formula?_ofItems_eq_some_iff h).1 htext) (hformula text)
  | ok request =>
      obtain ⟨o, -, ho⟩ := Draft.asks_of_finish h hfinish
      exact ⟨o, ho.source_stdin hformula hfile, ho⟩

section insert

variable {front back : List Item} {i : Item} {source : Source}

/-- One more item keeps the rules if it is the only one to name a source. -/
theorem Consistent.insert_source (h : Consistent (front ++ back))
    (hnone : ∀ j ∈ front ++ back, j.source? = none) (hi : i.source? = some source)
    (hpossible : i.IsPossible) : Consistent (front ++ i :: back) := by
  have hkind : ∀ j : Item, j.kind = i.kind → j.source? ≠ none := by
    intro j hj
    cases i <;> cases j <;> simp_all [Item.kind, Item.source?]
  have hperm : (front ++ i :: back).Perm (front ++ back ++ [i]) := by
    rw [List.append_assoc]
    exact .append_left front (List.perm_append_singleton i back).symm
  have hlast : Consistent (front ++ back ++ [i]) := by
    refine Consistent.append_singleton_iff.2 ⟨h, ?_, hpossible⟩
    intro hmem
    obtain ⟨j, hj, hji⟩ := List.mem_map.1 hmem
    exact hkind j hji (hnone j hj)
  exact ⟨(hperm.map Item.kind).nodup_iff.2 hlast.once,
    fun j hj => hlast.possible j (hperm.mem_iff.1 hj)⟩

/-- An item that names a source changes nothing else of what is asked for. -/
theorem Asks.insert_source {o : Options} (h : Asks (front ++ back) o)
    (hnone : ∀ j ∈ front ++ back, j.source? = none) (hi : i.source? = some source)
    (hpossible : i.IsPossible) : Asks (front ++ i :: back) { o with source } := by
  -- an item with a source can only be the new one, and one without a source only an old one
  have hnew : ∀ {j : Item} {source' : Source}, j.source? = some source' →
      (j ∈ front ++ i :: back ↔ j = i) := by
    intro j source' hj
    rw [List.mem_append, List.mem_cons, or_left_comm, ← List.mem_append, or_iff_left_iff_imp]
    intro hmem
    rw [hnone j hmem] at hj
    cases hj
  have hold : ∀ {j : Item}, j.source? = none → (j ∈ front ++ i :: back ↔ j ∈ front ++ back) := by
    intro j hj
    have hne : j ≠ i := by
      rintro rfl
      rw [hj] at hi
      cases hi
    rw [List.mem_append, List.mem_cons, or_left_comm, ← List.mem_append, or_iff_right hne]
  refine ⟨h.consistent.insert_source hnone hi hpossible, ?_, ?_, ?_, ?_, ?_, ?_, ?_, ?_⟩
  · intro text path htext hpath
    rw [hnew rfl] at htext hpath
    cases htext.trans hpath.symm
  · intro text htext
    rw [hnew rfl] at htext
    subst htext
    exact (Option.some.inj hi).symm
  · intro path hpath
    rw [hnew rfl] at hpath
    subst hpath
    exact (Option.some.inj hi).symm
  · intro hformula hfile
    have hmem : i ∈ front ++ i :: back := List.mem_append_right _ List.mem_cons_self
    cases i with
    | formula text => exact absurd hmem (hformula text)
    | file path => exact absurd hmem (hfile path)
    | _ => cases hi
  · simp only [hold (j := .symbols) rfl]
    exact h.style_eq
  · simp only [hold (j := .exact) rfl]
    exact h.policy_eq
  · intro word hword
    exact h.threshold_eq word ((hold rfl).1 hword)
  · intro hword
    exact h.threshold_default fun word hmem => hword word ((hold rfl).2 hmem)

end insert

/-- A command line that is understood asks for what its items ask for. -/
theorem asks_of_generate {arguments : List String} {items : List Item} {o : Options}
    (hreads : Reads arguments items) (h : Request.ofArguments arguments = .ok (.generate o)) :
    Asks items o := by
  have hempty : Draft.empty = .ofItems [] := rfl
  rw [Request.ofArguments, Draft.read_of_reads hreads, Draft.bind_eq_ok_iff] at h
  obtain ⟨d, hd, hfinish⟩ := h
  rw [hempty, Draft.addAll_ofItems .nil] at hd
  obtain ⟨hitems, rfl⟩ := hd
  obtain ⟨o', ho', hasks⟩ := Draft.asks_of_finish hitems hfinish
  cases ho'
  exact hasks

/-! ### What an answer depends on -/

/-- The surroundings matter only through what the one source holds. -/
theorem answer_congr {arguments : List String} {s s' : Surroundings}
    (h : ∀ o, Request.ofArguments arguments = .ok (.generate o) →
      o.source.read s = o.source.read s') : answer arguments s = answer arguments s' := by
  unfold answer
  cases hrequest : Request.ofArguments arguments with
  | error e => rfl
  | ok request =>
      cases request with
      | help => rfl
      | generate o => simp only [h o hrequest]

/-- The answer, by the text of the source. -/
theorem answer_of_holds {arguments : List String} {items : List Item} {o : Options}
    (hreads : Reads arguments items) (hasks : Asks items o) {s : Surroundings} {text : String}
    (htext : o.source.Holds s text) :
    answer arguments s =
      ⟨run text o.style o.policy,
        (o.source.announcement ++ (execute text o.style o.policy).records).filter
          o.threshold.admits⟩ := by
  rw [answer, ofArguments_eq_generate_iff.2 ⟨items, hreads, hasks⟩]
  simp only [Source.read_eq_ok_iff.2 htext, Options.answer, Options.record]
  cases o.source <;> rfl

/-! ### The same text from each source -/

section sources

variable {front back words : List String} {items more : List Item} {path text : String}
  {s' s'' : Surroundings}

/-- A text is answered in the same way from wherever it comes, but for the one record of a file that
is opened. -/
theorem answer_from_each_source (hfront : Says front items) (hback : Says back more)
    (hitems : Consistent (items ++ more)) (hnone : ∀ i ∈ items ++ more, i.source? = none)
    (hwords : (Item.file path).Said words) (hfile : (Source.file path).Holds s' text)
    (hstdin : Source.stdin.Holds s'' text) :
    (∀ s, answer (front ++ back ++ ["--", text]) s = answer (front ++ back) s'') ∧
      (answer (front ++ words ++ back) s').value = (answer (front ++ back) s'').value ∧
      (∃ opened, opened.Sublist [.reading path] ∧
        (answer (front ++ words ++ back) s').records =
          opened ++ (answer (front ++ back) s'').records) ∧
      (answer (front ++ back) s'').value =
        run text (if Item.symbols ∈ items ++ more then .symbols else .placeholders)
          (if Item.exact ∈ items ++ more then .exact else .snapped) := by
  obtain ⟨o, ho, hasks⟩ := exists_asks_stdin hitems hnone
  have hincoming : answer (front ++ back) s'' = ⟨run text o.style o.policy,
      (execute text o.style o.policy).records.filter o.threshold.admits⟩ := by
    have htext : o.source.Holds s'' text := by
      rw [ho]
      exact hstdin
    rw [answer_of_holds (.said (hfront.append hback)) hasks htext, ho]
    rfl
  have honline : ∀ s, answer (front ++ back ++ ["--", text]) s = ⟨run text o.style o.policy,
      (execute text o.style o.policy).records.filter o.threshold.admits⟩ := by
    intro s
    have hall : Asks (items ++ more ++ [.formula text]) { o with source := .formula text } :=
      Asks.insert_source (by rwa [List.append_nil]) (by rwa [List.append_nil]) rfl trivial
    exact answer_of_holds (.separated (hfront.append hback) [text]) hall rfl
  have hopened : answer (front ++ words ++ back) s' = ⟨run text o.style o.policy,
      [Record.reading path].filter o.threshold.admits ++
        (execute text o.style o.policy).records.filter o.threshold.admits⟩ := by
    have hsays : Says (front ++ words ++ back) (items ++ .file path :: more) := by
      rw [List.append_assoc]
      exact hfront.append (.cons hwords hback)
    -- what leads to a file is not empty, and so it can be the value of the option
    have hpossible : (Item.file path).IsPossible := Surroundings.ne_empty_of_load hfile
    have hall := hasks.insert_source hnone rfl hpossible
    rw [answer_of_holds (.said hsays) hall hfile, List.filter_append]
    rfl
  rw [hincoming, hopened, ← hasks.style_eq, ← hasks.policy_eq]
  exact ⟨honline, rfl, ⟨_, List.filter_sublist, rfl⟩, rfl⟩

end sources

/-- The answer to a formula on the command line is the same in all surroundings. -/
theorem answer_eq_of_formula {arguments : List String} {items : List Item} {text : String}
    (hreads : Reads arguments items) (hmem : Item.formula text ∈ items) (s s' : Surroundings) :
    answer arguments s = answer arguments s' := by
  refine answer_congr fun o ho => ?_
  have hasks := asks_of_generate hreads ho
  rw [hasks.source_formula text hmem]
  rfl

/-- The answer to a formula in a file is the same wherever the system gives the same for its
path. -/
theorem answer_eq_of_file {arguments : List String} {items : List Item} {path : String}
    (hreads : Reads arguments items) (hmem : Item.file path ∈ items) {s s' : Surroundings}
    (hload : s.load path = s'.load path) : answer arguments s = answer arguments s' := by
  have hread : s.read path = s'.read path := by rw [Surroundings.read, Surroundings.read, hload]
  refine answer_congr fun o ho => ?_
  have hasks := asks_of_generate hreads ho
  rw [hasks.source_file path hmem]
  exact hread

/-- **Where the formula comes from makes no difference.**  With the same options, a text behind the
sign `--`, in a file that is named, or as what comes in, is answered with the same result, complaint
and exit code, which are those of a run over it; the records that are shown are the same too, but
for one of the file that is opened.  With a formula on the command line, or if the command line
breaks a rule or calls for help, the answer is the same in all surroundings; and with a file that is
named, it is the same whatever comes in and whatever other files hold, as long as the system gives
the same for the path. -/
theorem answer_by_source :
    (∀ {front back words : List String} {items more : List Item} {path text : String}
      {s' s'' : Surroundings}, Says front items → Says back more → Consistent (items ++ more) →
      (∀ i ∈ items ++ more, i.source? = none) → (Item.file path).Said words →
      (Source.file path).Holds s' text → Source.stdin.Holds s'' text →
        (∀ s, answer (front ++ back ++ ["--", text]) s = answer (front ++ back) s'') ∧
        (answer (front ++ words ++ back) s').value = (answer (front ++ back) s'').value ∧
        (∃ opened, opened.Sublist [.reading path] ∧
          (answer (front ++ words ++ back) s').records =
            opened ++ (answer (front ++ back) s'').records) ∧
        (answer (front ++ back) s'').value =
          run text (if Item.symbols ∈ items ++ more then .symbols else .placeholders)
            (if Item.exact ∈ items ++ more then .exact else .snapped)) ∧
    (∀ arguments : List String, (Misused arguments ∨ CallsHelp arguments ∨
        ∃ items text, Reads arguments items ∧ Item.formula text ∈ items) →
      ∀ s s', answer arguments s = answer arguments s') ∧
    ∀ (arguments : List String) (items : List Item) (path : String), Reads arguments items →
      Item.file path ∈ items → ∀ s s' : Surroundings, s.load path = s'.load path →
        answer arguments s = answer arguments s' := by
  refine ⟨answer_from_each_source, ?_, ?_⟩
  · rintro arguments (hmisused | hhelp | ⟨items, text, hreads, hmem⟩) s s'
    · obtain ⟨e, he⟩ := answer_of_misused hmisused
      rw [he, he]
    · rw [answer_of_callsHelp hhelp, answer_of_callsHelp hhelp]
    · exact answer_eq_of_formula hreads hmem s s'
  · intro arguments items path hreads hmem s s' hload
    exact answer_eq_of_file hreads hmem hload

/-! ### Surroundings with some files -/

/-- Surroundings in which just these files can be read. -/
def Surroundings.ofFiles (stdin : ByteArray) (files : List (String × ByteArray)) :
    Surroundings where
  stdin := stdin
  load path :=
    if path = "" then .error .notFound
    else
      match files.lookup path with
      | some bytes => .ok bytes
      | none => .error .notFound
  load_empty := ⟨.notFound, rfl⟩

/-- A text that begins as an option does, and ends in a new line, from each source; the bytes that
come in otherwise are no text, and other files may be there or not. -/
theorem answer_by_source_dash :
    answer ["--exact", "--symbols", "--", "-a\n"] (.ofFiles ⟨#[255]⟩ []) =
        answer ["--exact", "--symbols"] (.ofFiles "-a\n".toUTF8 []) ∧
      (answer ["--exact", "--file=f", "--symbols"]
          (.ofFiles ⟨#[255]⟩ [("f", "-a\n".toUTF8)])).value =
        (answer ["--exact", "--symbols"] (.ofFiles "-a\n".toUTF8 [])).value ∧
      answer ["--", "-a\n"] (.ofFiles ⟨#[255]⟩ []) =
        answer ["--", "-a\n"] (.ofFiles .empty [("f", .empty)]) ∧
      answer ["-f=f"] (.ofFiles ⟨#[255]⟩ [("f", "-a\n".toUTF8)]) =
        answer ["-f=f"] (.ofFiles .empty [("/dev/stdin", .empty), ("f", "-a\n".toUTF8)]) := by
  obtain ⟨hsources, hformula, hfile⟩ := answer_by_source
  have hheld : (Source.file "f").Holds (.ofFiles ⟨#[255]⟩ [("f", "-a\n".toUTF8)]) "-a\n" := rfl
  have hincoming : Source.stdin.Holds (.ofFiles "-a\n".toUTF8 []) "-a\n" := rfl
  obtain ⟨honline, hopened, -⟩ :=
    hsources (.cons (.exact .exact) .nil) (.cons (.symbols .symbols) .nil)
      ⟨by decide, by simp [Item.IsPossible]⟩ (by simp [Item.source?]) (.file (.fileJoined "f"))
      hheld hincoming
  refine ⟨honline _, hopened, ?_, ?_⟩
  · exact hformula _ (.inr (.inr ⟨_, "-a\n", .separated .nil ["-a\n"], by simp⟩)) _ _
  · exact hfile _ _ "f" (.said (.cons (.file (.fileLetterJoined "f")) .nil)) (by simp) _ _ rfl

/-- What comes in does matter if the path of the file leads to it: a name is a formula, and nothing
is none. -/
theorem answer_file_of_stdin :
    Reads ["--file=/dev/stdin"] [.file "/dev/stdin"] ∧
      (answer ["--file=/dev/stdin"]
        (.ofFiles "a".toUTF8 [("/dev/stdin", "a".toUTF8)])).value.exitCode = .success ∧
      (answer ["--file=/dev/stdin"]
        (.ofFiles "".toUTF8 [("/dev/stdin", "".toUTF8)])).value.exitCode = .parse := by
  have hrequest : Request.ofArguments ["--file=/dev/stdin"] =
      .ok (.generate ⟨.file "/dev/stdin", .placeholders, .snapped, .default⟩) := by decide
  have hread : ∀ text : String, (Source.file "/dev/stdin").read
      (.ofFiles text.toUTF8 [("/dev/stdin", text.toUTF8)]) = .ok text :=
    fun text => Source.read_eq_ok_iff.2 rfl
  have hname : Formula.parse "a" = .ok (.var (.ofChars 'a' [])) := by decide +kernel
  have hnothing : Formula.parse "" = .error ⟨.unexpectedEnd, 0⟩ := by decide +kernel
  have hfew : (namesIn "a").eraseDups.length ≤ 4 := by decide +kernel
  refine ⟨.said (.cons (.file (.fileJoined "/dev/stdin")) .nil), ?_, ?_⟩
  · simp only [exitCode_answer, hrequest, hread, hname, if_neg hfew.not_gt]
  · simp only [exitCode_answer, hrequest, hread, hnothing]

end Command

end BoolLut
