/-
**A small system to run in.**

Where the program is to run without a system around it, a tree of directories and files stands in
for one.  A place in the tree is known by the names on the way to it from the root.  The program
runs in one of the directories, its *home*, and a path is followed from there, or from the root if
it begins with `/`: an empty step and `.` stay, `..` goes up, and any other step goes down to what
has that name.  There is no step from a file, and there are no links.

The tree has the places of a real system that paths most often lead to, and no others.  It serves
for trying the program out; what is proved of the program holds in all surroundings.

Main definitions:

* `BoolLut.Command.pathParts` — the steps of a path;
* `BoolLut.Command.FileTree` — directories and files, and the home;
* `BoolLut.Command.FileTree.find`, `BoolLut.Command.FileTree.load` — the place a path leads to, and
  the bytes there;
* `BoolLut.Command.FileTree.fresh`, `BoolLut.Command.Surroundings.fresh` — the tree around a home
  that was made for some files, and the surroundings with this tree.
-/

import BoolLut.Command.Surroundings

set_option relaxedAutoImplicit false
set_option autoImplicit false

namespace BoolLut

namespace Command

/-! ### Paths -/

/-- The steps of a path, which are separated by `/`. -/
def pathParts : List Char → List (List Char)
  | [] => [[]]
  | c :: cs =>
      if c = '/' then [] :: pathParts cs
      else
        match pathParts cs with
        | [] => [[c]]
        | part :: parts => (c :: part) :: parts

/-- The largest number of bytes of one step. -/
def maxStepBytes : Nat := 255

/-- The largest number of bytes of a path. -/
def maxPathBytes : Nat := 4095

/-! ### Trees -/

/-- What stands at a place. -/
inductive Node where
  /-- A directory. -/
  | directory
  /-- A file with this content. -/
  | file (content : ByteArray)

/-- A place: the names on the way to it from the root, and what stands there. -/
structure Place where
  /-- The names, from the root on. -/
  route : List String
  /-- What stands there. -/
  node : Node

/-- Directories and files. -/
structure FileTree where
  /-- What stands at the places below the root that are known. -/
  nodes : List (List String × Node)
  /-- The directory in which the program runs. -/
  home : List String

namespace FileTree

/-- The place one step further on. -/
def step (t : FileTree) (place : Place) (part : String) : Except ReadError Place :=
  match place.node with
  | .file _ => .error .notDirectory
  | .directory =>
      if part = "" ∨ part = "." then .ok place
      else if part = ".." then .ok ⟨place.route.dropLast, .directory⟩
      else if maxStepBytes < part.utf8ByteSize then .error .nameTooLong
      else
        match t.nodes.lookup (place.route ++ [part]) with
        | some node => .ok ⟨place.route ++ [part], node⟩
        | none => .error .notFound

/-- The place a path leads to. -/
def find (t : FileTree) (path : String) : Except ReadError Place :=
  if maxPathBytes < path.utf8ByteSize then .error .nameTooLong
  else
    let start := if path.toList.head? = some '/' then [] else t.home
    ((pathParts path.toList).map String.ofList).foldlM t.step ⟨start, .directory⟩

/-- The bytes of the file a path leads to. -/
def load (t : FileTree) (path : String) : Except ReadError ByteArray :=
  match t.find path with
  | .error e => .error e
  | .ok ⟨_, .file content⟩ => .ok content
  | .ok ⟨_, .directory⟩ => .error .isDirectory

/-! ### A fresh home -/

/-- Some directories that stand in every system. -/
def systemDirectories : List (List String) :=
  [["bin"], ["dev"], ["dev", "fd"], ["etc"], ["home"], ["lib"], ["proc"], ["proc", "self"],
    ["proc", "self", "fd"], ["tmp"], ["usr"], ["var"]]

/-- Some files that stand in every system: the empty one, and three names of what comes in. -/
def systemFiles (stdin : ByteArray) : List (List String × ByteArray) :=
  [(["dev", "null"], .empty), (["dev", "stdin"], stdin), (["dev", "fd", "0"], stdin),
    (["proc", "self", "fd", "0"], stdin)]

/-- The tree around a home that holds just `files`, in a system into which `stdin` comes. -/
def fresh (stdin : ByteArray) (files : List (String × ByteArray)) : FileTree where
  nodes :=
    files.map (fun f => (["tmp", "home", f.1], .file f.2)) ++
      systemDirectories.map (fun route => (route, .directory)) ++
      (systemFiles stdin).map (fun f => (f.1, .file f.2)) ++ [(["tmp", "home"], .directory)]
  home := ["tmp", "home"]

end FileTree

/-- The surroundings of a program that runs in a directory made for some files. -/
def Surroundings.fresh (stdin : ByteArray) (files : List (String × ByteArray)) : Surroundings where
  stdin := stdin
  load := (FileTree.fresh stdin files).load
  load_empty := ⟨.isDirectory, rfl⟩

end Command

end BoolLut
