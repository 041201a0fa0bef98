/-
**What the program can read.**

The program reads what comes in, and it reads files, for which it asks the system by their paths.
What the system gives for a path is not up to the program: a path may go through links, may lead to
what comes in itself, and may be refused for any reason.  So the files are a function of the paths
here, of which nothing is known but that nothing can be read under the empty path.

Main definitions:

* `BoolLut.Command.ReadError` — why a formula cannot be read;
* `BoolLut.Command.decode` — the text that bytes stand for;
* `BoolLut.Command.Surroundings` — what comes in, and what the system gives for each path;
* `BoolLut.Command.Surroundings.read` — the text of the file that a path leads to.

Main results:

* `BoolLut.Command.decode_toUTF8` — the bytes of a text stand for that text.
-/

set_option relaxedAutoImplicit false
set_option autoImplicit false

namespace BoolLut

namespace Command

/-- Why a formula cannot be read. -/
inductive ReadError where
  /-- The bytes are not text in UTF-8. -/
  | notUtf8
  /-- The system refuses, with a reason and the number of the reason. -/
  | system (reason : String) (number : Nat)
deriving DecidableEq, Repr

namespace ReadError

/-- There is nothing by that name. -/
def notFound : ReadError := system "No such file or directory" 2

/-- The path goes on behind something that is not a directory. -/
def notDirectory : ReadError := system "Not a directory" 20

/-- The path leads to a directory. -/
def isDirectory : ReadError := system "Is a directory" 21

/-- A step of the path, or the whole of it, is longer than any name can be. -/
def nameTooLong : ReadError := system "File name too long" 36

/-- The reason in words. -/
def message : ReadError → String
  | notUtf8 => "stream did not contain valid UTF-8"
  | system reason number => reason ++ " (os error " ++ toString number ++ ")"

end ReadError

/-- The text that bytes stand for. -/
def decode (bytes : ByteArray) : Except ReadError String :=
  match String.fromUTF8? bytes with
  | some text => .ok text
  | none => .error .notUtf8

/-- The bytes of a text stand for that text. -/
theorem decode_toUTF8 (text : String) : decode text.toUTF8 = .ok text := by
  have h : String.fromUTF8? text.toUTF8 = some text := dif_pos text.isValidUTF8
  simp only [decode, h]

/-- What the program can read. -/
structure Surroundings where
  /-- What comes in. -/
  stdin : ByteArray
  /-- What the system gives for a path: the bytes of the file to which it leads, or a reason why
  there are none. -/
  load : String → Except ReadError ByteArray
  /-- Nothing can be read under the empty path. -/
  load_empty : ∃ e, load "" = .error e

namespace Surroundings

/-- The text of the file that a path leads to. -/
def read (s : Surroundings) (path : String) : Except ReadError String :=
  match s.load path with
  | .error e => .error e
  | .ok bytes => decode bytes

/-- A path under which something can be read is not empty. -/
theorem ne_empty_of_load {s : Surroundings} {path : String} {bytes : ByteArray}
    (h : s.load path = .ok bytes) : path ≠ "" := by
  rintro rfl
  obtain ⟨e, he⟩ := s.load_empty
  rw [h] at he
  cases he

end Surroundings

end Command

end BoolLut
