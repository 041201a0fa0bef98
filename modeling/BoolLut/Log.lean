/-
**The log of a run.**

While it works, a run leaves records of what it found.  A record knows how much detail it is, which
part of the program left it, and what it says.  A computation that leaves records is a value
together with the list of them, in order; leaving out the records gives back the value alone.

Main definitions:

* `BoolLut.Severity` — how much detail a record is;
* `BoolLut.Record` — the things that are recorded, with `BoolLut.Record.severity`,
  `BoolLut.Record.target` and `BoolLut.Record.message`;
* `BoolLut.Logged` — a value and the records left on the way to it;
* `BoolLut.NameTable.insertLogged`, `BoolLut.Formula.nameTableLogged`,
  `BoolLut.TruthTable.buildLogged` — the steps of a run with their records.

Main results:

* `BoolLut.Formula.value_nameTableLogged`, `BoolLut.TruthTable.value_buildLogged` — recording does
  not change what is computed.
-/

import BoolLut.TruthTable

set_option relaxedAutoImplicit false
set_option autoImplicit false

namespace BoolLut

/-! ### Records -/

/-- How much detail a record is, from the most pressing to the finest. -/
inductive Severity where
  | error
  | warn
  | info
  | debug
  | trace
deriving DecidableEq, Repr

namespace Severity

/-- The place of a severity in the order. -/
def rank : Severity → Nat
  | error => 1
  | warn => 2
  | info => 3
  | debug => 4
  | trace => 5

/-- The word for a severity. -/
def text : Severity → String
  | error => "ERROR"
  | warn => "WARN"
  | info => "INFO"
  | debug => "DEBUG"
  | trace => "TRACE"

end Severity

/-- Something that the program found or did. -/
inductive Record where
  /-- The formula is read from this file. -/
  | reading (path : String)
  /-- The text is a formula of this size and depth. -/
  | parsed (size depth : Nat)
  /-- A name was met for the first time and got this place. -/
  | discovered (name : Name) (position : Nat)
  /-- There are this many names. -/
  | collected (count : Nat)
  /-- For this many names the codes have this width. -/
  | tabulating (count : Nat) (policy : WidthPolicy) (width : BitWidth)
  /-- The row of a code. -/
  | row (code : Nat) (value : Bool)
deriving DecidableEq

/-- The name of a policy in the log. -/
def WidthPolicy.text : WidthPolicy → String
  | snapped => "Snapped"
  | exact => "Exact"

/-- A code in binary, with at least four digits. -/
def binary (code : Nat) : String :=
  "0b" ++ String.ofList ((Nat.toDigits 2 code).leftpad 4 '0')

namespace Record

/-- How much detail a record is. -/
def severity : Record → Severity
  | reading .. => .debug
  | parsed .. => .info
  | discovered .. => .debug
  | collected .. => .debug
  | tabulating .. => .debug
  | row .. => .trace

/-- The part of the program that leaves a record. -/
def target : Record → String
  | reading .. => "bitgen"
  | parsed .. => "bitgen::run"
  | discovered .. => "bitgen::collect"
  | collected .. => "bitgen::collect"
  | tabulating .. => "bitgen::table"
  | row .. => "bitgen::table"

/-- What a record says. -/
def message : Record → String
  | reading path => "Reading formula from " ++ path
  | parsed size depth =>
      "Parsed formula with " ++ toString size ++ " nodes (depth " ++ toString depth ++ ")"
  | discovered name position =>
      "collect: new identifier '" ++ name.text ++ "' at position " ++ toString position
  | collected count => "collect: found " ++ toString count ++ " unique identifiers"
  | tabulating count policy width =>
      "build_truth_table(identifiers = " ++ toString count ++ ", policy = " ++ policy.text ++
        ") => width " ++ width.text
  | row code value => "code " ++ binary code ++ " => " ++ (if value then "true" else "false")

end Record

/-! ### Values with records -/

/-- A value and the records left on the way to it. -/
structure Logged (α : Type) where
  /-- The value. -/
  value : α
  /-- The records, in order. -/
  records : List Record

namespace Logged

variable {α β : Type}

instance : Monad Logged where
  pure a := ⟨a, []⟩
  bind x f := ⟨(f x.value).value, x.records ++ (f x.value).records⟩

/-- Leaves one record. -/
def emit (r : Record) : Logged Unit := ⟨(), [r]⟩

@[simp] theorem value_pure (a : α) : (pure a : Logged α).value = a := rfl

@[simp] theorem records_pure (a : α) : (pure a : Logged α).records = [] := rfl

@[simp] theorem value_bind (x : Logged α) (f : α → Logged β) :
    (x >>= f).value = (f x.value).value := rfl

@[simp] theorem records_bind (x : Logged α) (f : α → Logged β) :
    (x >>= f).records = x.records ++ (f x.value).records := rfl

@[simp] theorem value_emit (r : Record) : (emit r).value = () := rfl

@[simp] theorem records_emit (r : Record) : (emit r).records = [r] := rfl

end Logged

/-! ### Steps of a run -/

/-- Files an occurrence, and records a name that is new. -/
def NameTable.insertLogged (t : NameTable) (o : Occurrence) : Logged NameTable where
  value := t.insert o
  records := if o.name ∈ t.names then [] else [.discovered o.name t.size]

/-- Files the occurrences of a list in order. -/
def NameTable.insertAllLogged (t : NameTable) : List Occurrence → Logged NameTable
  | [] => pure t
  | o :: os => do
      let t ← t.insertLogged o
      t.insertAllLogged os

@[simp] theorem NameTable.value_insertLogged (t : NameTable) (o : Occurrence) :
    (t.insertLogged o).value = t.insert o := rfl

@[simp] theorem NameTable.value_insertAllLogged (t : NameTable) (os : List Occurrence) :
    (t.insertAllLogged os).value = os.foldl NameTable.insert t := by
  induction os generalizing t with
  | nil => rfl
  | cons o os ih =>
      simp only [insertAllLogged, Logged.value_bind, value_insertLogged, List.foldl_cons, ih]

/-- The table of names of a formula, with a record of each new name and of their number. -/
def Formula.nameTableLogged (f : Formula) : Logged NameTable := do
  let t ← NameTable.empty.insertAllLogged f.occurrences
  Logged.emit (.collected t.size)
  pure t

/-- Recording does not change the table of names. -/
@[simp] theorem Formula.value_nameTableLogged (f : Formula) :
    f.nameTableLogged.value = f.nameTable := by
  simp [nameTableLogged, nameTable, NameTable.ofList]

/-- The truth table of a formula, with a record of its width and of each row. -/
def TruthTable.buildLogged (t : NameTable) (root : Formula) (policy : WidthPolicy) :
    Logged (Except TooManyNames TruthTable) where
  value := build t root policy
  records :=
    match build t root policy with
    | .error _ => []
    | .ok tt => .tabulating t.size policy tt.width :: tt.rows.mapIdx .row

/-- Recording does not change the truth table. -/
@[simp] theorem TruthTable.value_buildLogged (t : NameTable) (root : Formula)
    (policy : WidthPolicy) : (buildLogged t root policy).value = build t root policy := rfl

end BoolLut
