/-!
Names of files. A name is made of parts between slashes, of which empty parts and single dots say
nothing. A folder holds files by their bare names.
-/

namespace TurtleGraphics.CommandLine

def partsFrom (read : List Char) : List Char → List (List Char)
  | [] => [read.reverse]
  | c :: cs => if c == '/' then read.reverse :: partsFrom [] cs else partsFrom (c :: read) cs

def parts (path : String) : List (List Char) :=
  partsFrom [] path.toList

def saysNothing (part : List Char) : Bool :=
  part == [] || part == ['.']

/-- The last part that says something, unless it leads upwards. -/
def fileName (path : String) : Option (List Char) :=
  match ((parts path).filter (!saysNothing ·)).getLast? with
  | some ['.', '.'] => none
  | name => name

/-- What follows the last dot of the file name. A dot in front makes no extension. -/
def extension (path : String) : Option String := do
  let name ← fileName path
  let after := name.reverse.takeWhile (· != '.')
  if after.length + 1 < name.length then return String.ofList after.reverse
  none

inductive ReadError
  | missing
  | notFolder
  | nameTooLong
  | other (text : String)
deriving DecidableEq

def ReadError.message : ReadError → String
  | missing => "No such file or directory (os error 2)"
  | notFolder => "Not a directory (os error 20)"
  | nameTooLong => "File name too long (os error 36)"
  | other text => text

abbrev Folder := List (String × String)

/-- The bytes that a part of a path may take, and a whole path. -/
def longestPart : Nat :=
  255

def longestPath : Nat :=
  4095

/-- Follows the parts of a path from a folder. A part that says nothing stays there, and one that
leads upwards leaves for folders that hold no files. A part behind the name of a file asks for a
folder of that name. -/
def Folder.follow (f : Folder) : List (List Char) → Except ReadError String
  | [] => .error .missing
  | part :: rest =>
    let name := String.ofList part
    if saysNothing part then f.follow rest
    else if part = ['.', '.'] then Folder.follow [] rest
    else if longestPart < name.utf8ByteSize then .error .nameTooLong
    else match f.lookup name with
      | none => .error .missing
      | some text => if rest = [] then .ok text else .error .notFolder

def Folder.read (f : Folder) (path : String) : Except ReadError String :=
  if longestPath < path.utf8ByteSize then .error .nameTooLong
  else match parts path with
    | [] :: rest => Folder.follow [] rest
    | ps => f.follow ps

end TurtleGraphics.CommandLine
