/-
**Command lines are read item by item.**

Reading goes from left to right, keeps a draft of what was asked for so far, and gives up at the
first broken rule.  The draft is at every point the one that the items before this point make
together, and an item is taken exactly if these items and the new one keep the rules; so a command
line is accepted exactly if it says items that keep all rules, in whatever order it says them.  Only
a call for help depends on its place: it is heard if nothing before it breaks a rule.

Main definitions:

* `BoolLut.Command.Draft.ofItems` — the draft that items make;
* `BoolLut.Command.Draft.add`, `BoolLut.Command.Draft.addAll` — adding items to a draft;
* `BoolLut.Command.Draft.Understood` — what a list of arguments leads to from a draft on;
* `BoolLut.Command.Draft.First` — what stands first on a command line.

Main results:

* `BoolLut.Command.Draft.addAll_ofItems` — items are taken exactly if all together keep the rules;
* `BoolLut.Command.Draft.read_of_said`, `BoolLut.Command.Draft.first_cons` — one step of reading,
  and what else can stand first;
* `BoolLut.Command.Draft.read_eq_ok_iff` — **reading follows the items of a command line**;
* `BoolLut.Command.Draft.asks_of_finish`, `BoolLut.Command.Draft.finish_of_asks` — what a draft is
  finished with;
* `BoolLut.Command.ofArguments_eq_generate_iff`, `BoolLut.Command.ofArguments_eq_help_iff` — **which
  command lines are accepted, and what they ask for**.
-/

import BoolLut.Proofs.CommandLines

set_option relaxedAutoImplicit false
set_option autoImplicit false

namespace BoolLut

namespace Command

/-! ### Drafts -/

namespace Draft

/-- The draft after the items. -/
def ofItems (items : List Item) : Draft where
  formula? := items.findSome? Item.text?
  file? := items.findSome? Item.path?
  threshold? := items.findSome? Item.threshold?
  exact := decide (Item.exact ∈ items)
  symbols := decide (Item.symbols ∈ items)

/-- Adds what an item asks for. -/
def add (d : Draft) : Item → Except UsageError Draft
  | .exact => d.addExact
  | .symbols => d.addSymbols
  | .file path => d.addFile path
  | .logLevel word => d.addThreshold word
  | .formula text => d.addFormula text

/-- Adds what the items ask for, in order. -/
def addAll (d : Draft) (items : List Item) : Except UsageError Draft := items.foldlM add d

theorem addAll_cons (d : Draft) (i : Item) (items : List Item) :
    d.addAll (i :: items) = d.add i >>= fun next => next.addAll items := rfl

theorem addAll_append (d : Draft) (items more : List Item) :
    d.addAll (items ++ more) = d.addAll items >>= fun next => next.addAll more := by
  rw [addAll, List.foldlM_append]
  rfl

theorem bind_eq_ok_iff {α β : Type} {x : Except UsageError α} {f : α → Except UsageError β}
    {b : β} : x >>= f = .ok b ↔ ∃ a, x = .ok a ∧ f a = .ok b := by
  cases x with
  | error e =>
      constructor
      · intro h
        cases h
      · rintro ⟨a, h, -⟩
        cases h
  | ok a =>
      constructor
      · intro h
        exact ⟨a, rfl, h⟩
      · rintro ⟨_, h, hb⟩
        cases h
        exact hb

section ofItems

variable {items : List Item}

theorem ofItems_append_singleton (items : List Item) (i : Item) :
    ofItems (items ++ [i]) =
      { formula? := (ofItems items).formula?.or i.text?
        file? := (ofItems items).file?.or i.path?
        threshold? := (ofItems items).threshold?.or i.threshold?
        exact := (ofItems items).exact || decide (Item.exact = i)
        symbols := (ofItems items).symbols || decide (Item.symbols = i) } := by
  simp [ofItems, List.findSome?_append]

/-- There is no value about a thing if there is no item about it. -/
theorem findSome?_eq_none_iff_kind {β : Type} {value? : Item → Option β} {k : Item.Kind}
    (hvalue : ∀ i ∈ items, value? i = none ↔ i.kind ≠ k) :
    items.findSome? value? = none ↔ k ∉ items.map Item.kind := by
  rw [List.findSome?_eq_none_iff, List.mem_map, not_exists]
  refine forall_congr' fun i => ?_
  rw [not_and]
  exact ⟨fun h hi => (hvalue i hi).1 (h hi), fun h hi => (hvalue i hi).2 (h hi)⟩

theorem formula?_ofItems_eq_none_iff :
    (ofItems items).formula? = none ↔ Item.Kind.formula ∉ items.map Item.kind :=
  findSome?_eq_none_iff_kind fun i _ => by cases i <;> simp [Item.text?, Item.kind]

theorem file?_ofItems_eq_none_iff :
    (ofItems items).file? = none ↔ Item.Kind.file ∉ items.map Item.kind :=
  findSome?_eq_none_iff_kind fun i _ => by cases i <;> simp [Item.path?, Item.kind]

theorem threshold?_ofItems_eq_none_iff (h : Consistent items) :
    (ofItems items).threshold? = none ↔ Item.Kind.logLevel ∉ items.map Item.kind := by
  refine findSome?_eq_none_iff_kind fun i hi => ?_
  have hpossible := h.possible i hi
  cases i with
  | logLevel word =>
      obtain ⟨threshold, hthreshold⟩ := hpossible
      simp [Item.threshold?, Item.kind, hthreshold]
  | _ => simp [Item.threshold?, Item.kind]

/-- An item that is all that can be said about a thing is there if there is an item about it. -/
theorem not_mem_iff_kind {i : Item} (hi : ∀ j : Item, j.kind = i.kind → j = i) :
    i ∉ items ↔ i.kind ∉ items.map Item.kind := by
  rw [List.mem_map, not_iff_not]
  constructor
  · intro hmem
    exact ⟨i, hmem, rfl⟩
  · rintro ⟨j, hj, hkind⟩
    exact hi j hkind ▸ hj

theorem exact_ofItems_eq_false_iff :
    (ofItems items).exact = false ↔ Item.Kind.exact ∉ items.map Item.kind := by
  rw [ofItems, decide_eq_false_iff_not]
  exact not_mem_iff_kind fun j hj => by cases j <;> cases hj; rfl

theorem symbols_ofItems_eq_false_iff :
    (ofItems items).symbols = false ↔ Item.Kind.symbols ∉ items.map Item.kind := by
  rw [ofItems, decide_eq_false_iff_not]
  exact not_mem_iff_kind fun j hj => by cases j <;> cases hj; rfl

end ofItems

/-- An item is added if there was none about the same thing and its value can be; and then it is the
last of the items of the draft. -/
theorem add_ofItems_eq_ok_iff {items : List Item} (h : Consistent items) {i : Item} {d : Draft} :
    (ofItems items).add i = .ok d ↔
      (i.kind ∉ items.map Item.kind ∧ i.IsPossible) ∧ d = ofItems (items ++ [i]) := by
  rw [ofItems_append_singleton]
  cases i with
  | exact =>
      rw [Item.kind, ← exact_ofItems_eq_false_iff, add, addExact]
      cases hexact : (ofItems items).exact with
      | true => simp
      | false => simp [Item.IsPossible, Item.text?, Item.path?, Item.threshold?, eq_comm]
  | symbols =>
      rw [Item.kind, ← symbols_ofItems_eq_false_iff, add, addSymbols]
      cases hsymbols : (ofItems items).symbols with
      | true => simp
      | false => simp [Item.IsPossible, Item.text?, Item.path?, Item.threshold?, eq_comm]
  | file path =>
      rw [Item.kind, ← file?_ofItems_eq_none_iff, add, addFile]
      cases hfile : (ofItems items).file? with
      | some path' => simp
      | none =>
          by_cases hpath : path = ""
          · simp [Item.IsPossible, hpath]
          · simp [Item.IsPossible, Item.text?, Item.path?, Item.threshold?, hpath, eq_comm]
  | logLevel word =>
      rw [Item.kind, ← threshold?_ofItems_eq_none_iff h, add, addThreshold]
      cases hthreshold : (ofItems items).threshold? with
      | some threshold => simp
      | none =>
          cases hword : Threshold.ofText? word with
          | none => simp [Item.IsPossible, hword]
          | some threshold =>
              simp [Item.IsPossible, Item.text?, Item.path?, Item.threshold?, hword, eq_comm]
  | formula text =>
      rw [Item.kind, ← formula?_ofItems_eq_none_iff, add, addFormula]
      cases hformula : (ofItems items).formula? with
      | some text' => simp
      | none => simp [Item.IsPossible, Item.text?, Item.path?, Item.threshold?, eq_comm]

/-- Items are added one after the other; together with those of the draft they keep all rules. -/
theorem addAll_ofItems {before items : List Item} (h : Consistent before) {d : Draft} :
    (ofItems before).addAll items = .ok d ↔
      Consistent (before ++ items) ∧ d = ofItems (before ++ items) := by
  induction items generalizing before with
  | nil =>
      rw [addAll, List.foldlM_nil, List.append_nil]
      constructor
      · rintro ⟨⟩
        exact ⟨h, rfl⟩
      · rintro ⟨-, rfl⟩
        rfl
  | cons i items ih =>
      have hassoc : before ++ i :: items = before ++ [i] ++ items := by simp
      rw [hassoc, addAll_cons, bind_eq_ok_iff]
      constructor
      · rintro ⟨next, hnext, hitems⟩
        rw [add_ofItems_eq_ok_iff h] at hnext
        obtain ⟨hi, rfl⟩ := hnext
        exact (ih (Consistent.append_singleton_iff.2 ⟨h, hi⟩)).1 hitems
      · rintro ⟨hall, rfl⟩
        have hi := hall.of_append
        refine ⟨_, (add_ofItems_eq_ok_iff h).2 ⟨?_, rfl⟩, (ih hi).2 ⟨hall, rfl⟩⟩
        exact (Consistent.append_singleton_iff.1 hi).2

/-! ### Reading -/

section read

variable {items : List Item} {front : List String}

/-- The arguments of an item are read by adding it. -/
theorem read_of_said {i : Item} {words : List String} (h : i.Said words) (d : Draft)
    (rest : List String) :
    d.read (words ++ rest) = d.add i >>= fun next => next.read rest := by
  cases h with
  | exact h =>
      rw [List.singleton_append, read.eq_def]
      simp only [Argument.ofText_of_spelled h]
      rfl
  | symbols h =>
      rw [List.singleton_append, read.eq_def]
      simp only [Argument.ofText_of_spelled h]
      rfl
  | file h =>
      rw [List.singleton_append, read.eq_def]
      simp only [Argument.ofText_of_spelled h]
      rfl
  | fileNext h hpath =>
      rw [List.cons_append, List.singleton_append, read.eq_def]
      simp only [Argument.ofText_of_spelled h]
      simp only [looksLikeOption_eq_false_iff.2 hpath]
      rfl
  | logLevel h =>
      rw [List.singleton_append, read.eq_def]
      simp only [Argument.ofText_of_spelled h]
      rfl
  | logLevelNext h hlevel =>
      rw [List.cons_append, List.singleton_append, read.eq_def]
      simp only [Argument.ofText_of_spelled h]
      simp only [looksLikeOption_eq_false_iff.2 hlevel]
      rfl
  | formula h =>
      rw [List.singleton_append, read.eq_def]
      simp only [Argument.ofText_of_spelled h]
      rfl

/-- What says some items is read by adding them in order. -/
theorem read_said_append (h : Says front items) (d : Draft) (rest : List String) :
    d.read (front ++ rest) = d.addAll items >>= fun next => next.read rest := by
  induction h generalizing d with
  | nil => rfl
  | cons hi _ ih =>
      rw [List.append_assoc, read_of_said hi, addAll_cons]
      cases d.add _ with
      | error e => rfl
      | ok next => exact ih next

/-- Several formulas are added one after the other. -/
theorem addFormulas_eq (d : Draft) (texts : List String) :
    d.addFormulas texts = d.addAll (texts.map .formula) := by
  induction texts generalizing d with
  | nil => rfl
  | cons text texts ih =>
      rw [List.map_cons, addAll_cons, addFormulas]
      have hadd : d.add (.formula text) = d.addFormula text := rfl
      rw [hadd]
      cases d.addFormula text with
      | error e => rfl
      | ok next => exact ih next

theorem read_of_help {word : String} (h : Argument.help.Spelled word) (d : Draft)
    (rest : List String) : d.read (word :: rest) = .ok .help := by
  rw [read.eq_def]
  simp only [Argument.ofText_of_spelled h]

theorem read_of_separator (d : Draft) (texts : List String) :
    d.read ("--" :: texts) = d.addAll (texts.map .formula) >>= finish := by
  rw [← addFormulas_eq]
  rfl

/-- A command line that says some items is read by adding them in order. -/
theorem read_of_reads {arguments : List String} (h : Reads arguments items) (d : Draft) :
    d.read arguments = d.addAll items >>= finish := by
  cases h with
  | said h =>
      have hread := read_said_append h d []
      rw [List.append_nil] at hread
      exact hread
  | separated h texts =>
      rw [read_said_append h, addAll_append, bind_assoc]
      simp only [read_of_separator]

/-- The arguments lead to the request from the draft on: they say items that it takes, or items that
it takes and then a call for help. -/
inductive Understood (d : Draft) : List String → Request → Prop
  | generate {arguments : List String} {items : List Item} {last : Draft} {request : Request}
      (h : Reads arguments items) (hall : d.addAll items = .ok last)
      (hfinish : last.finish = .ok request) : d.Understood arguments request
  | help {front : List String} {items : List Item} {last : Draft} {word : String}
      (h : Says front items) (hall : d.addAll items = .ok last)
      (hword : Argument.help.Spelled word) (rest : List String) :
      d.Understood (front ++ word :: rest) .help

/-- One more item in front. -/
theorem Understood.cons {d next : Draft} {i : Item} {words rest : List String} {request : Request}
    (hi : i.Said words) (hadd : d.add i = .ok next) (h : next.Understood rest request) :
    d.Understood (words ++ rest) request := by
  have hcons : ∀ {items : List Item} {last : Draft}, next.addAll items = .ok last →
      d.addAll (i :: items) = .ok last := by
    intro items last hall
    rw [addAll_cons, hadd]
    exact hall
  cases h with
  | generate h hall hfinish =>
      refine .generate ?_ (hcons hall) hfinish
      cases h with
      | said h => exact .said (.cons hi h)
      | separated h texts =>
          have hreads := Reads.separated (.cons hi h) texts
          rw [List.append_assoc] at hreads
          exact hreads
  | help h hall hword rest =>
      have hhelp := Understood.help (.cons hi h) (hcons hall) hword rest
      rw [List.append_assoc] at hhelp
      exact hhelp

/-- What stands first on a command line: a call for help, the sign `--`, an item, or something that
no draft takes. -/
inductive First : List String → Prop
  | help {word : String} (h : Argument.help.Spelled word) (rest : List String) :
      First (word :: rest)
  | separator (texts : List String) : First ("--" :: texts)
  | item {i : Item} {words : List String} (h : i.Said words) (rest : List String) :
      First (words ++ rest)
  | refused {arguments : List String} {e : UsageError}
      (h : ∀ d : Draft, d.read arguments = .error e) : First arguments

/-- An option without its value is an item together with the next argument, unless there is none or
this is taken for an option. -/
theorem First.of_option {word : String} {item : String → Item} {e : UsageError}
    (hsaid : ∀ value, IsValue value → (item value).Said [word, value])
    (hnone : ∀ d : Draft, d.read [word] = .error e)
    (hoption : ∀ (value : String) (rest : List String) (d : Draft), looksLikeOption value = true →
      d.read (word :: value :: rest) = .error e) (rest : List String) : First (word :: rest) := by
  cases rest with
  | nil => exact .refused hnone
  | cons value rest =>
      cases hvalue : looksLikeOption value with
      | true => exact .refused fun d => hoption value rest d hvalue
      | false => exact .item (hsaid value (looksLikeOption_eq_false_iff.1 hvalue)) rest

/-- Something stands first on every command line that is not empty. -/
theorem first_cons (word : String) (rest : List String) : First (word :: rest) := by
  have hspelled : ∀ a : Argument, Argument.ofText word = a → a ≠ .unknown word → a.Spelled word :=
    fun a ha hknown => (Argument.ofText_eq_iff.1 ha).resolve_right fun h => hknown h.1
  cases ha : Argument.ofText word with
  | unknown text =>
      refine .refused (e := .unknownOption text) fun d => ?_
      rw [read.eq_def]
      simp only [ha]
  | help => exact .help (hspelled _ ha Argument.noConfusion) rest
  | exact => exact .item (.exact (hspelled _ ha Argument.noConfusion)) rest
  | symbols => exact .item (.symbols (hspelled _ ha Argument.noConfusion)) rest
  | formula text => exact .item (.formula (hspelled _ ha Argument.noConfusion)) rest
  | separator =>
      cases hspelled _ ha Argument.noConfusion
      exact .separator rest
  | file path? =>
      have hword := hspelled _ ha Argument.noConfusion
      cases path? with
      | some path => exact .item (.file hword) rest
      | none =>
          have hsaid : ∀ path, IsValue path → (Item.file path).Said [word, path] :=
            fun path hpath => .fileNext hword hpath
          refine .of_option (e := .missingValue word) hsaid ?_ ?_ rest
          · intro d
            rw [read.eq_def]
            simp only [ha]
          · intro path rest d hpath
            rw [read.eq_def]
            simp only [ha, hpath, if_true]
  | logLevel level? =>
      have hword := hspelled _ ha Argument.noConfusion
      cases level? with
      | some level => exact .item (.logLevel hword) rest
      | none =>
          have hsaid : ∀ level, IsValue level → (Item.logLevel level).Said [word, level] :=
            fun level hlevel => .logLevelNext hword hlevel
          refine .of_option (e := .missingValue word) hsaid ?_ ?_ rest
          · intro d
            rw [read.eq_def]
            simp only [ha]
          · intro level rest d hlevel
            rw [read.eq_def]
            simp only [ha, hlevel, if_true]

/-- **Reading follows the items of a command line.** -/
theorem read_eq_ok_iff {d : Draft} {arguments : List String} {request : Request} :
    d.read arguments = .ok request ↔ d.Understood arguments request := by
  constructor
  · intro h
    -- every item takes at least one argument, so that the induction is on the number of arguments
    induction hlength : arguments.length using Nat.strongRecOn generalizing d arguments with
    | _ n ih =>
        have hfirst : arguments = [] ∨ First arguments := by
          cases arguments with
          | nil => exact .inl rfl
          | cons word rest => exact .inr (first_cons word rest)
        rcases hfirst with rfl | hfirst
        · exact .generate (.said .nil) rfl h
        · cases hfirst with
          | help hword rest =>
              rw [read_of_help hword, Except.ok.injEq] at h
              subst h
              exact .help .nil rfl hword rest
          | separator texts =>
              rw [read_of_separator, bind_eq_ok_iff] at h
              obtain ⟨last, hall, hfinish⟩ := h
              exact .generate (.separated .nil texts) hall hfinish
          | item hi rest =>
              rw [read_of_said hi, bind_eq_ok_iff] at h
              obtain ⟨next, hadd, hrest⟩ := h
              have hlt : rest.length < n := by
                have hpos := hi.length_pos
                rw [List.length_append] at hlength
                omega
              exact .cons hi hadd (ih rest.length hlt hrest rfl)
          | refused herror =>
              rw [herror] at h
              cases h
  · intro h
    cases h with
    | generate h hall hfinish =>
        rw [read_of_reads h, hall]
        exact hfinish
    | help h hall hword rest =>
        rw [read_said_append h, hall]
        exact read_of_help hword _ rest

end read

/-! ### What is asked for -/

/-- Only a formula and a file together leave nothing to be asked for. -/
theorem exists_of_finish_error {d : Draft} {e : UsageError} (h : d.finish = .error e) :
    ∃ text path, d.formula? = some text ∧ d.file? = some path := by
  unfold finish at h
  cases hformula : d.formula? with
  | none => cases hfile : d.file? <;> simp [hformula, hfile] at h
  | some text =>
      cases hfile : d.file? with
      | none => simp [hformula, hfile] at h
      | some path => exact ⟨text, path, rfl, rfl⟩

section finish

variable {items : List Item} (h : Consistent items)

include h

theorem formula?_ofItems_eq_some_iff {text : String} :
    (ofItems items).formula? = some text ↔ Item.formula text ∈ items := by
  have hvalue : ∀ (i : Item) (text : String), i.text? = some text ↔ i = .formula text := by
    intro i text
    cases i <;> simp [Item.text?]
  exact h.findSome?_eq_some_iff_mem hvalue fun _ => rfl

theorem file?_ofItems_eq_some_iff {path : String} :
    (ofItems items).file? = some path ↔ Item.file path ∈ items := by
  have hvalue : ∀ (i : Item) (path : String), i.path? = some path ↔ i = .file path := by
    intro i path
    cases i <;> simp [Item.path?]
  exact h.findSome?_eq_some_iff_mem hvalue fun _ => rfl

theorem threshold?_ofItems_eq_some_iff {threshold : Threshold} :
    (ofItems items).threshold? = some threshold ↔
      ∃ word, Item.logLevel word ∈ items ∧ Threshold.ofText? word = some threshold := by
  have hkind : ∀ (i : Item) b, i.threshold? = some b → i.kind = .logLevel := by
    intro i b hb
    cases i <;> simp_all [Item.threshold?, Item.kind]
  refine (h.findSome?_eq_some_iff hkind).trans ?_
  constructor
  · rintro ⟨i, hi, hthreshold⟩
    obtain ⟨word, rfl⟩ : ∃ word, i = .logLevel word := by
      cases i <;> simp_all [Item.threshold?]
    exact ⟨word, hi, hthreshold⟩
  · rintro ⟨word, hi, hthreshold⟩
    exact ⟨_, hi, hthreshold⟩

/-- With the right source, the options with which a draft is finished are those asked for. -/
theorem asks_of_source {source : Source}
    (hexclusive : ∀ text path, Item.formula text ∈ items → Item.file path ∉ items)
    (hformula : ∀ text, Item.formula text ∈ items → source = .formula text)
    (hfile : ∀ path, Item.file path ∈ items → source = .file path)
    (hstdin : (∀ text, Item.formula text ∉ items) → (∀ path, Item.file path ∉ items) →
      source = .stdin) :
    Asks items
      { source
        style := if (ofItems items).symbols then .symbols else .placeholders
        policy := if (ofItems items).exact then .exact else .snapped
        threshold := (ofItems items).threshold?.getD .default } := by
  refine ⟨h, hexclusive, hformula, hfile, hstdin, by simp [ofItems], by simp [ofItems], ?_, ?_⟩
  · intro word hword
    obtain ⟨threshold, hknown⟩ := h.possible _ hword
    rw [(threshold?_ofItems_eq_some_iff h).2 ⟨word, hword, hknown⟩]
    exact hknown
  · intro hnone
    cases hthreshold : (ofItems items).threshold? with
    | none => rfl
    | some threshold =>
        obtain ⟨word, hword, -⟩ := (threshold?_ofItems_eq_some_iff h).1 hthreshold
        exact absurd hword (hnone word)

/-- A draft is finished with the options that its items ask for. -/
theorem asks_of_finish {request : Request} (hfinish : (ofItems items).finish = .ok request) :
    ∃ o, request = .generate o ∧ Asks items o := by
  have hformula : ∀ text, Item.formula text ∈ items ↔ (ofItems items).formula? = some text :=
    fun text => (formula?_ofItems_eq_some_iff h).symm
  have hfile : ∀ path, Item.file path ∈ items ↔ (ofItems items).file? = some path :=
    fun path => (file?_ofItems_eq_some_iff h).symm
  unfold finish at hfinish
  cases hf : (ofItems items).formula? with
  | some text =>
      cases hp : (ofItems items).file? with
      | some path => simp [hf, hp] at hfinish
      | none =>
          simp only [hf, hp, Except.ok.injEq] at hfinish hformula hfile
          refine ⟨_, hfinish.symm, asks_of_source h ?_ ?_ ?_ ?_⟩
          all_goals simp [hformula, hfile]
  | none =>
      cases hp : (ofItems items).file? with
      | some path =>
          simp only [hf, hp, Except.ok.injEq] at hfinish hformula hfile
          refine ⟨_, hfinish.symm, asks_of_source h ?_ ?_ ?_ ?_⟩
          all_goals simp [hformula, hfile]
      | none =>
          simp only [hf, hp, Except.ok.injEq] at hfinish hformula hfile
          refine ⟨_, hfinish.symm, asks_of_source h ?_ ?_ ?_ ?_⟩
          all_goals simp [hformula, hfile]

/-- Items that ask for a truth table finish their draft. -/
theorem finish_of_asks {o : Options} (ho : Asks items o) :
    (ofItems items).finish = .ok (.generate o) := by
  cases hfinish : (ofItems items).finish with
  | error e =>
      obtain ⟨text, path, htext, hpath⟩ := exists_of_finish_error hfinish
      rw [formula?_ofItems_eq_some_iff h] at htext
      rw [file?_ofItems_eq_some_iff h] at hpath
      exact absurd hpath (ho.exclusive text path htext)
  | ok request =>
      obtain ⟨o', rfl, ho'⟩ := asks_of_finish h hfinish
      rw [ho.unique ho']

end finish

end Draft

/-! ### Command lines -/

/-- **Which command lines are accepted, and what they ask for.** -/
theorem ofArguments_eq_generate_iff {arguments : List String} {o : Options} :
    Request.ofArguments arguments = .ok (.generate o) ↔
      ∃ items, Reads arguments items ∧ Asks items o := by
  have hempty : Draft.empty = .ofItems [] := rfl
  rw [Request.ofArguments, hempty, Draft.read_eq_ok_iff]
  constructor
  · intro h
    cases h with
    | generate hreads hall hfinish =>
        obtain ⟨hitems, rfl⟩ := (Draft.addAll_ofItems .nil).1 hall
        obtain ⟨o', hrequest, ho'⟩ := Draft.asks_of_finish hitems hfinish
        cases hrequest
        exact ⟨_, hreads, ho'⟩
  · rintro ⟨items, hreads, ho⟩
    exact .generate hreads ((Draft.addAll_ofItems .nil).2 ⟨ho.consistent, rfl⟩)
      (Draft.finish_of_asks ho.consistent ho)

/-- A file and exact widths, with the value attached to the letter of the option. -/
example : Request.ofArguments ["-fx", "--exact"] =
    .ok (.generate ⟨.file "x", .placeholders, .exact, .default⟩) := by decide

/-- A command line is answered with the help text if it calls for help before it breaks a rule. -/
theorem ofArguments_eq_help_iff {arguments : List String} :
    Request.ofArguments arguments = .ok .help ↔ CallsHelp arguments := by
  have hempty : Draft.empty = .ofItems [] := rfl
  rw [Request.ofArguments, hempty, Draft.read_eq_ok_iff]
  constructor
  · intro h
    cases h with
    | generate hreads hall hfinish =>
        obtain ⟨hitems, rfl⟩ := (Draft.addAll_ofItems .nil).1 hall
        obtain ⟨o', hrequest, -⟩ := Draft.asks_of_finish hitems hfinish
        cases hrequest
    | help hsays hall hword rest =>
        obtain ⟨hitems, -⟩ := (Draft.addAll_ofItems .nil).1 hall
        exact ⟨_, _, _, rest, rfl, hsays, hitems, hword⟩
  · rintro ⟨front, items, word, rest, rfl, hsays, hitems, hword⟩
    exact .help hsays ((Draft.addAll_ofItems .nil).2 ⟨hitems, rfl⟩) hword rest

end Command

end BoolLut
