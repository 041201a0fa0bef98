/-
**How one argument is spelled.**

Each argument is recognised by its text alone.  An option is one of a few fixed words, or such a
word with its value joined to it; the option for a file has a letter too, to which the value may be
attached; and what does not begin with `-`, or is just this sign, is a formula.  This module lists
the spellings of each kind of argument, and shows that reading follows the list.  The reading tries
the spellings in an order that matters: a value that is attached to a letter neither is empty nor
begins with `=`, since the text would have been recognised before.

Main definitions:

* `BoolLut.Command.IsValue` — a text that is not taken for an option;
* `BoolLut.Command.Argument.Spelled` — the spellings of an argument.

Main results:

* `BoolLut.Command.after?_eq_some_iff` — what comes after the front of a text;
* `BoolLut.Command.Argument.ofText_eq_iff` — **a text is read as the argument that it spells**.
-/

import Mathlib.Data.List.Basic
import BoolLut.Command.Arguments

set_option relaxedAutoImplicit false
set_option autoImplicit false

namespace BoolLut

namespace Command

/-! ### Fronts of texts -/

theorem after?_eq_some_iff {front text rest : String} :
    after? front text = some rest ↔ text = front ++ rest := by
  rw [after?, Option.map_eq_some_iff]
  constructor
  · rintro ⟨cs, hcs, rfl⟩
    rw [List.isPrefixOf?_eq_some_iff_append_eq] at hcs
    rw [← String.toList_inj, String.toList_append, String.toList_ofList, hcs]
  · rintro rfl
    refine ⟨rest.toList, ?_, String.ofList_toList⟩
    rw [List.isPrefixOf?_eq_some_iff_append_eq, String.toList_append]

theorem after?_append (front rest : String) : after? front (front ++ rest) = some rest :=
  after?_eq_some_iff.2 rfl

theorem after?_eq_none_iff {front text : String} :
    after? front text = none ↔ ∀ rest, text ≠ front ++ rest := by
  rw [Option.eq_none_iff_forall_ne_some]
  exact forall_congr' fun rest => not_congr after?_eq_some_iff

/-- A text that begins in one way has nothing after another front. -/
theorem after?_append_eq_none {front front' : String} (h : ¬ front.toList <+: front'.toList)
    (h' : ¬ front'.toList <+: front.toList) (rest : String) :
    after? front' (front ++ rest) = none := by
  rw [after?_eq_none_iff]
  intro rest' heq
  rw [← String.toList_inj, String.toList_append, String.toList_append] at heq
  have hprefix : front'.toList <+: front.toList ++ rest.toList := ⟨rest'.toList, heq.symm⟩
  rcases List.prefix_or_prefix_of_prefix (List.prefix_append _ _) hprefix with hle | hle
  · exact h hle
  · exact h' hle

/-- The text is not taken for an option: if it begins with `-`, there is no more to it. -/
def IsValue (text : String) : Prop := ∀ more, text = "-" ++ more → more = ""

theorem looksLikeOption_eq_false_iff {text : String} :
    looksLikeOption text = false ↔ IsValue text := by
  unfold looksLikeOption IsValue
  split
  · next c cs htext =>
      refine ⟨fun h => Bool.noConfusion h, fun h => ?_⟩
      have hmore := h (String.ofList (c :: cs)) (String.toList_inj.1 (by simp [htext]))
      simp [← String.toList_inj] at hmore
  · next hshort =>
      refine ⟨fun _ more htext => ?_, fun _ => rfl⟩
      cases hmore : more.toList with
      | nil => exact String.toList_inj.1 hmore
      | cons c cs => exact (hshort c cs (by simp [htext, hmore])).elim

/-- What begins as an option does is taken for an option. -/
theorem looksLikeOption_append {front : String} (h : looksLikeOption front = true) (rest : String) :
    looksLikeOption (front ++ rest) = true := by
  unfold looksLikeOption at h ⊢
  split at h
  · next c cs hfront => simp [hfront]
  · cases h

theorem after?_eq_none_of_isValue {front text : String} (hfront : looksLikeOption front = true)
    (h : IsValue text) : after? front text = none := by
  rw [after?_eq_none_iff]
  rintro rest rfl
  rw [← looksLikeOption_eq_false_iff, looksLikeOption_append hfront] at h
  cases h

/-! ### Spellings -/

namespace Argument

/-- The spellings of an argument.  An option that does not exist has none. -/
inductive Spelled : Argument → String → Prop
  | help : Spelled help "--help"
  | helpLetter (more : String) : Spelled help ("-h" ++ more)
  | exact : Spelled exact "--exact"
  | symbols : Spelled symbols "--symbols"
  | fileWord : Spelled (file none) "--file"
  | fileLetter : Spelled (file none) "-f"
  | fileJoined (path : String) : Spelled (file (some path)) ("--file=" ++ path)
  | fileLetterJoined (path : String) : Spelled (file (some path)) ("-f=" ++ path)
  | fileAttached {path : String} (hempty : path ≠ "") (hjoined : ∀ more, path ≠ "=" ++ more) :
      Spelled (file (some path)) ("-f" ++ path)
  | logLevelWord : Spelled (logLevel none) "--log-level"
  | logLevelJoined (word : String) : Spelled (logLevel (some word)) ("--log-level=" ++ word)
  | separator : Spelled separator "--"
  | formula {text : String} (h : IsValue text) : Spelled (formula text) text

/-- A text with a letter for an option is read as this option. -/
theorem spelled_of_ofLetter? {text : String} {a : Argument} (hletter : text ≠ "-f")
    (h : ofLetter? text = some a) : a.Spelled text := by
  unfold ofLetter? at h
  split at h
  · next more hmore =>
      rw [after?_eq_some_iff] at hmore
      cases h
      exact hmore ▸ .helpLetter more
  · next path _ hpath =>
      rw [after?_eq_some_iff] at hpath
      cases h
      exact hpath ▸ .fileLetterJoined path
  · next path _ hjoined hpath =>
      rw [after?_eq_some_iff] at hpath
      rw [after?_eq_none_iff] at hjoined
      cases h
      subst hpath
      refine .fileAttached ?_ ?_
      · rintro rfl
        exact hletter (by simp)
      · rintro more rfl
        exact hjoined more (by simp [← String.append_assoc])
  · cases h

/-- Every text is read as an argument that it spells, or as an option that does not exist. -/
theorem spelled_ofText (text : String) :
    (ofText text).Spelled text ∨ ofText text = unknown text := by
  unfold ofText
  split
  · exact .inl (.helpLetter "")
  · exact .inl .help
  · exact .inl .exact
  · exact .inl .symbols
  · exact .inl .fileLetter
  · exact .inl .fileWord
  · exact .inl .logLevelWord
  · exact .inl .separator
  · next hletter _ _ _ =>
      unfold ofJoined
      split
      · next path hpath =>
          rw [after?_eq_some_iff] at hpath
          exact .inl (hpath ▸ .fileJoined path)
      · next word _ hword =>
          rw [after?_eq_some_iff] at hword
          exact .inl (hword ▸ .logLevelJoined word)
      · next a _ _ ha => exact .inl (spelled_of_ofLetter? hletter ha)
      · split
        · exact .inr rfl
        · next hvalue =>
            exact .inl (.formula (looksLikeOption_eq_false_iff.1 (Bool.eq_false_iff.2 hvalue)))

/-- The texts that are recognised as a whole. -/
def wholeWords : List String :=
  ["-h", "--help", "--exact", "--symbols", "-f", "--file", "--log-level", "--"]

theorem ofText_of_not_mem {text : String} (h : text ∉ wholeWords) :
    ofText text = ofJoined text := by
  simp only [wholeWords, List.mem_cons, List.not_mem_nil, or_false, not_or] at h
  unfold ofText
  split <;> simp_all

/-- A text is not recognised as a whole if there is more to it than to the only word that begins as
it does. -/
theorem append_not_mem_wholeWords {front rest : String}
    (h : ∀ word ∈ wholeWords, front.toList <+: word.toList → word = front)
    (hrest : front ∈ wholeWords → rest ≠ "") : front ++ rest ∉ wholeWords := by
  intro hmem
  have hfront : front ++ rest = front := by
    refine h _ hmem ?_
    rw [String.toList_append]
    exact List.prefix_append _ _
  refine hrest (hfront ▸ hmem) ?_
  rw [← String.toList_inj, String.toList_append] at hfront
  exact String.toList_inj.1 (List.append_right_eq_self.1 hfront)

theorem ofText_of_ofLetter? {text : String} {a : Argument} (hword : text ∉ wholeWords)
    (hfile : after? "--file=" text = none) (hlevel : after? "--log-level=" text = none)
    (h : ofLetter? text = some a) : ofText text = a := by
  rw [ofText_of_not_mem hword, ofJoined, hfile, hlevel, h]

/-- A text is read as an argument that it spells. -/
theorem ofText_of_spelled {a : Argument} {text : String} (h : a.Spelled text) :
    ofText text = a := by
  cases h with
  | help => rfl
  | helpLetter more =>
      by_cases hmore : more = ""
      · subst hmore
        rfl
      · have hword : "-h" ++ more ∉ wholeWords :=
          append_not_mem_wholeWords (by decide) fun _ => hmore
        refine ofText_of_ofLetter? hword ?_ ?_ ?_
        · exact after?_append_eq_none (by decide) (by decide) more
        · exact after?_append_eq_none (by decide) (by decide) more
        · rw [ofLetter?, after?_append]
  | exact => rfl
  | symbols => rfl
  | fileWord => rfl
  | fileLetter => rfl
  | fileJoined path =>
      have hword : "--file=" ++ path ∉ wholeWords :=
        append_not_mem_wholeWords (by decide) fun h => absurd h (by decide)
      rw [ofText_of_not_mem hword, ofJoined, after?_append]
  | fileLetterJoined path =>
      have hword : "-f=" ++ path ∉ wholeWords :=
        append_not_mem_wholeWords (by decide) fun h => absurd h (by decide)
      refine ofText_of_ofLetter? hword ?_ ?_ ?_
      · exact after?_append_eq_none (by decide) (by decide) path
      · exact after?_append_eq_none (by decide) (by decide) path
      · rw [ofLetter?, after?_append_eq_none (by decide) (by decide) path, after?_append]
  | fileAttached hempty hjoined =>
      rename_i path
      -- the letter with `=` is tried before the letter alone, and must not be met here
      have hword : "-f" ++ path ∉ wholeWords :=
        append_not_mem_wholeWords (by decide) fun _ => hempty
      have hequals : after? "-f=" ("-f" ++ path) = none := by
        refine after?_eq_none_iff.2 fun more hmore => hjoined more ?_
        rw [← String.toList_inj] at hmore ⊢
        simpa using hmore
      refine ofText_of_ofLetter? hword ?_ ?_ ?_
      · exact after?_append_eq_none (by decide) (by decide) path
      · exact after?_append_eq_none (by decide) (by decide) path
      · rw [ofLetter?, after?_append_eq_none (by decide) (by decide) path, hequals, after?_append]
  | logLevelWord => rfl
  | logLevelJoined word =>
      have hword : "--log-level=" ++ word ∉ wholeWords :=
        append_not_mem_wholeWords (by decide) fun h => absurd h (by decide)
      rw [ofText_of_not_mem hword, ofJoined,
        after?_append_eq_none (by decide) (by decide) word, after?_append]
  | separator => rfl
  | formula hvalue =>
      have hwords : ∀ word ∈ wholeWords, looksLikeOption word = true := by decide
      have hshort := looksLikeOption_eq_false_iff.2 hvalue
      have hword : text ∉ wholeWords := by
        intro hmem
        rw [hwords text hmem] at hshort
        cases hshort
      rw [ofText_of_not_mem hword, ofJoined, ofLetter?, after?_eq_none_of_isValue rfl hvalue,
        after?_eq_none_of_isValue rfl hvalue, after?_eq_none_of_isValue rfl hvalue,
        after?_eq_none_of_isValue rfl hvalue, after?_eq_none_of_isValue rfl hvalue]
      simp only [hshort]
      rfl

/-- **A text is read as the argument that it spells.** -/
theorem ofText_eq_iff {a : Argument} {text : String} :
    ofText text = a ↔
      a.Spelled text ∨ a = unknown text ∧ ∀ a' : Argument, ¬ a'.Spelled text := by
  constructor
  · rintro rfl
    rcases spelled_ofText text with h | hunknown
    · exact .inl h
    · refine .inr ⟨hunknown, fun a' ha' => ?_⟩
      rw [ofText_of_spelled ha'] at hunknown
      subst hunknown
      cases ha'
  · rintro (h | ⟨rfl, hnone⟩)
    · exact ofText_of_spelled h
    · exact (spelled_ofText text).resolve_left (hnone _)

end Argument

end Command

end BoolLut
