import Lox.CommandLine.Path

/-!
# Files

What there may be at a path, and a directory in which it can be looked up. A directory is given by
the files in it and below it, and of what is around it only the directories at the root are known.

A path is followed part by part. Each part is looked up in the directory reached so far, and what is
not there at all is not too long either.
-/

namespace Lox

/-- What there is at a path. -/
inductive Entry where
  | absent
  | directory
  | file (content : ByteArray)
  /-- The path, or a part of it, is too long to be looked up. -/
  | tooLong

/-- The greatest number of bytes of a part of a path. -/
def maxPartLength : Nat := 255

/-- The greatest number of bytes of a path. -/
def maxPathLength : Nat := 4095

/-- A directory, as the paths and contents of the files in it. -/
structure Directory where
  files : List (String × ByteArray)
  /-- The paths of directories that are there although there may be no files in them. -/
  folders : List String

namespace Directory

/-- What there is at a place, given by the parts of the path to it. -/
def entry (d : Directory) (place : List String) : Entry :=
  match d.files.find? fun f ↦ Path.parts f.1 = place with
  | some f => .file f.2
  | none =>
    if place = [] ∨ (d.files.map Prod.fst ++ d.folders).any fun path ↦
      place.isPrefixOf (Path.parts path) then .directory
    else .absent

def isDirectory (d : Directory) (place : List String) : Bool :=
  match d.entry place with
  | .directory => true
  | _ => false

/-- Follows the parts of a path outside of the directory, where there is nothing to be seen but more
directories. -/
def followOutside : List String → Entry
  | [] => .directory
  | p :: rest =>
    if p = ".." then followOutside rest
    else if maxPartLength < p.utf8ByteSize then .tooLong
    else .absent

/-- Follows the parts of a path from a place in the directory. -/
def follow (d : Directory) (place : List String) : List String → Entry
  | [] => d.entry place
  | p :: rest =>
    if p = ".." ∧ place = [] then followOutside rest
    else if !d.isDirectory place then .absent
    else if p = ".." then d.follow place.dropLast rest
    else if maxPartLength < p.utf8ByteSize then .tooLong
    else d.follow (place ++ [p]) rest

/-- What is found at the root of every system, and the one file that is always empty. -/
def root : Directory where
  files := [("dev/null", .empty)]
  folders := ["bin", "boot", "dev", "etc", "home", "lib", "media", "mnt", "opt", "proc", "root",
    "run", "sbin", "srv", "sys", "tmp", "usr", "var"]

/-- What there is at a path. No path contains the character zero, and the root is its own parent. -/
def look (d : Directory) (path : String) : Entry :=
  if '\x00' ∈ path.toList then .absent
  else if maxPathLength < path.utf8ByteSize then .tooLong
  else if Path.root path = "" then d.follow [] (Path.parts path)
  else root.follow [] ((Path.parts path).dropWhile (· = ".."))

end Directory

end Lox
