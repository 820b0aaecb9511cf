import BCompiler.Command.Path
import BCompiler.Text.Spelling

/-!
Files in memory.

A path is followed name by name, each name but the last in a directory: from the root if it begins
with a slash, otherwise from the working directory. Whatever leads to a file may read and write it.
-/
namespace BCompiler

/-- A place in a tree of directories: its names, the innermost first. -/
abbrev Place := List String

inductive Entry where
  | file (bytes : List UInt8)
  | directory
  deriving DecidableEq, Repr

/-- Why a file cannot be read or written. -/
inductive DiskError where
  | notFound
  | notDirectory
  | isDirectory
  deriving DecidableEq, Repr

def DiskError.reason : DiskError → String
  | .notFound => "No such file or directory (os error 2)"
  | .notDirectory => "Not a directory (os error 20)"
  | .isDirectory => "Is a directory (os error 21)"

structure Disk where
  /-- The working directory. -/
  home : Place
  entries : List (Place × Entry)
  deriving DecidableEq, Repr

namespace Disk

/-- A disk without files. -/
def empty : Disk := ⟨["work", "tmp"], []⟩

/-- What is at a place; the working directory and those around it are always there. -/
def entry? (d : Disk) (place : Place) : Option Entry :=
  if place.isSuffixOf d.home then some .directory else d.entries.lookup place

def insert (place : Place) (entry : Entry) (d : Disk) : Disk :=
  { d with entries := (place, entry) :: d.entries.filter fun e => e.1 != place }

/-- Make a directory and those around it. -/
def addDirectories : Place → Disk → Disk
  | [], d => d
  | name :: parent, d => insert (name :: parent) .directory (addDirectories parent d)

/-- The place that a path without ways up leads to from the working directory. -/
def placeOf (d : Disk) (path : String) : Place :=
  ((Path.parts path).filter fun part => !Path.isStill part).reverse ++ d.home

/-- Put a file at a path, with the directories around it. -/
def addFile (path : String) (bytes : List UInt8) (d : Disk) : Disk :=
  let place := d.placeOf path
  insert place (.file bytes) (addDirectories place.tail d)

def addDirectory (path : String) (d : Disk) : Disk := addDirectories (d.placeOf path) d

/-- One step along a path, from a directory. Above the root there is only the root. -/
def step (d : Disk) (place : Place) (part : String) : Except DiskError Place :=
  if d.entry? place ≠ some .directory then .error .notDirectory
  else if Path.isStill part then .ok place
  else if part = ".." then .ok place.tail
  else if (d.entry? (part :: place)).isSome then .ok (part :: place)
  else .error .notFound

/-- Follow the parts of a path. -/
def follow (d : Disk) (place : Place) : List String → Except DiskError Place
  | [] => .ok place
  | part :: parts => do d.follow (← d.step place part) parts

/-- Where a path starts. -/
def origin (d : Disk) (path : String) : Place := if Path.isAbsolute path then [] else d.home

/-- The bytes of a file. -/
def read (d : Disk) (path : String) : Except DiskError (List UInt8) := do
  match d.entry? (← d.follow (d.origin path) (Path.parts path)) with
  | some (.file bytes) => return bytes
  | _ => throw .isDirectory

/-- Write a file, in a directory that exists. A path with a slash at its end is none of a file. -/
def write (path text : String) (d : Disk) : Except DiskError Disk :=
  let parts := (Path.parts path).reverse
  let named := parts.dropWhile fun part => part == ""
  match named with
  | [] => .error .isDirectory
  | last :: before => do
    let directory ← d.step (← d.follow (d.origin path) before.reverse) "."
    if named.length < parts.length ∨ last = "." ∨ last = ".." then throw .isDirectory
    else if d.entry? (last :: directory) = some .directory then throw .isDirectory
    else return d.insert (last :: directory) (.file (utf8Bytes text))

/-- The files of `after` below the working directory that are new or differ from those of `before`,
under their paths. -/
def changes (before after : Disk) : List (String × List UInt8) :=
  after.entries.filterMap fun (place, entry) =>
    match entry with
    | .file bytes =>
      if before.entry? place = some entry ∨ ¬before.home.isSuffixOf place then none
      else some ("/".intercalate (place.take (place.length - before.home.length)).reverse, bytes)
    | .directory => none

end Disk
end BCompiler
