import Fexpr.Text.Pieces
import Fexpr.Text.Slice

/-!
# Files of a directory

A directory as data: the contents of its files by their paths. Reading follows a path step by step
and tells apart a missing file, a directory, a path that goes through a file, and names that are too
long for a file system.
-/

namespace Fexpr.CommandLine

/-- Why a text could not be read. -/
inductive ReadError where
  /-- There is nothing at the path. -/
  | notFound
  /-- There is a directory at the path. -/
  | isDirectory
  /-- The path goes through something that is no directory. -/
  | notDirectory
  /-- The path or a step of it is too long. -/
  | nameTooLong
  /-- The bytes are not the encoding of a text. -/
  | notText
  /-- Anything else. -/
  | other (message : String)

/-- The error in words. -/
def ReadError.message : ReadError → String
  | notFound => "No such file or directory (os error 2)"
  | isDirectory => "Is a directory (os error 21)"
  | notDirectory => "Not a directory (os error 20)"
  | nameTooLong => "File name too long (os error 36)"
  | notText => "stream did not contain valid UTF-8"
  | other message => message

/-- The steps of a path. -/
def steps (path : List Char) : List (List Char) := Text.pieces '/' path

/-- How many bytes a path can have. -/
def maxPathSize : Nat := 4095

/-- How many bytes a step of a path can have. -/
def maxStepSize : Nat := 255

/-- Whether a step is longer than the name of a file can be. -/
def isOverlong (step : List Char) : Bool := maxStepSize < Text.byteSize step

/-- The files of a directory. -/
abbrev Files := List (String × ByteArray)

namespace Files

/-- What is at a place, given by the steps that lead to it. -/
inductive Entry where
  | file (content : ByteArray)
  | directory
  | missing

/-- What the steps lead to from the directory. A directory is there as long as a file is in it. -/
def entry (files : Files) (place : List (List Char)) : Entry :=
  match files.find? fun (path, _) => steps path.toList == place with
  | some (_, content) => .file content
  | none =>
    if place.isEmpty || files.any fun (path, _) => place.isPrefixOf (steps path.toList) then
      .directory
    else .missing

/-- What comes of following the remaining steps outside the directory, where nothing is known but that
its parents are directories. -/
def outside : (remaining : List (List Char)) → ReadError
  | [] => .isDirectory
  | step :: rest =>
    if step = [] ∨ step = ['.'] ∨ step = ['.', '.'] then outside rest
    else if isOverlong step then .nameTooLong
    else .notFound

/-- Follows the remaining steps of a path from a place. -/
def follow (files : Files) :
    (place remaining : List (List Char)) → Except ReadError ByteArray
  | place, [] =>
    match files.entry place with
    | .file content => .ok content
    | .directory => .error .isDirectory
    | .missing => .error .notFound
  | place, step :: rest =>
    match files.entry place with
    | .file _ => .error .notDirectory
    | .missing => .error .notFound
    | .directory =>
      if step = [] ∨ step = ['.'] then files.follow place rest
      else if step = ['.', '.'] then
        if place = [] then .error (outside rest) else files.follow place.dropLast rest
      else if isOverlong step then .error .nameTooLong
      else files.follow (place ++ [step]) rest

/-- Reads the file at a path. The length of the path is checked before any step. -/
def read (files : Files) (path : String) : Except ReadError ByteArray :=
  if maxPathSize < path.utf8ByteSize then .error .nameTooLong
  else
    match path.toList with
    | [] => .error .notFound
    | '/' :: cs => .error (outside (steps cs))
    | cs => files.follow [] (steps cs)

end Files

end Fexpr.CommandLine
