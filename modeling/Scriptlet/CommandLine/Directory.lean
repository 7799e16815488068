/-!
# Files

The source named on the command line is a file if there is one of that name, and is the script itself
otherwise. Here is how a path is read, what looking for it comes to, and how that comes out for a
working directory whose files are given.

A path is followed name by name. A name too long for any file is noticed only where it is looked for, in
a directory that exists; behind a name that leads nowhere nothing is looked for any more.
-/

namespace Scriptlet.CommandLine

/-- What is found at a path. -/
inductive Found where
  /-- Nothing. -/
  | nothing
  /-- A file with its contents. -/
  | file (contents : String)
  /-- A directory. -/
  | directory
  /-- Nothing can be there: the path or a name in it is too long. -/
  | nameTooLong
  deriving DecidableEq, Repr

/-! ### Paths -/

/-- A path. -/
structure Path where
  /-- The slashes for the root, if the path starts there and not in the working directory. -/
  root : String
  /-- The names to follow. -/
  names : List String
  deriving DecidableEq, Repr

namespace Path

/-- What stands between slashes. -/
def splitSlashes : List Char → List (List Char)
  | [] => [[]]
  | '/' :: cs => [] :: splitSlashes cs
  | c :: cs =>
    match splitSlashes cs with
    | [] => [[c]]
    | name :: names => (c :: name) :: names

/-- The slashes that a path starts with. Exactly two are kept, and any other number is as good as
one. -/
def leadingSlashes (path : List Char) : String :=
  match (path.takeWhile fun c => c = '/').length with
  | 0 => ""
  | 2 => "//"
  | _ => "/"

/-- Reads a path. Its names are what stands between slashes, unless it is empty or a dot. -/
def ofString (path : String) : Path :=
  let names := (splitSlashes path.toList).filter fun name => name ≠ [] && name ≠ ['.']
  ⟨leadingSlashes path.toList, names.map String.ofList⟩

/-- The path starts at the root. -/
def isAbsolute (p : Path) : Bool := !p.root.isEmpty

/-- The path written without anything superfluous. -/
def text (p : Path) : String :=
  let text := p.root ++ String.intercalate "/" p.names
  if text.isEmpty then "." else text

/-- How many bytes a name may have. -/
def nameLimit : Nat := 255

/-- How many bytes a path may have. -/
def lengthLimit : Nat := 4095

/-- The name of the directory around a directory. -/
def parentName : String := ".."

end Path

/-! ### Following a path -/

/-- A place in a tree of directories: the names that lead there from the root. -/
abbrev Place := List String

/-- The files and directories that are known, by their places. -/
structure Tree where
  /-- The files with their contents. -/
  files : List (Place × String)
  /-- Directories; those on the way to a file or to another directory need not be among them. -/
  directories : List Place
  deriving DecidableEq, Repr

namespace Tree

/-- There is a directory at a place, or there is a file. -/
def reaches (t : Tree) (place : Place) : Bool :=
  (t.directories ++ t.files.map Prod.fst).any fun known => place.isPrefixOf known

/-- What is found when names are followed from the directory at a place. The directory around the root
is the root itself. -/
def follow (t : Tree) (here : Place) : List String → Found
  | [] => .directory
  | name :: names =>
    if name = Path.parentName then follow t here.dropLast names
    else if Path.nameLimit < name.utf8ByteSize then .nameTooLong
    else
      let place := here ++ [name]
      match t.files.lookup place with
      | some contents => if names.isEmpty then .file contents else .nothing
      | none => if t.reaches place then follow t place names else .nothing

end Tree

/-! ### The working directory -/

/-- The place of the working directory: among the temporary files, under a name that is in no path. -/
def workplace : Place := ["tmp", ""]

/-- The directories that every system has, as far as they matter here. -/
def systemDirectories : List Place :=
  [["bin"], ["boot"], ["dev"], ["etc"], ["home"], ["lib"], ["media"], ["mnt"], ["opt"], ["proc"],
   ["root"], ["run"], ["sbin"], ["srv"], ["sys"], ["tmp"], ["usr", "bin"], ["usr", "lib"],
   ["usr", "local", "bin"], ["usr", "local", "lib"], ["usr", "sbin"], ["usr", "share"],
   ["var", "cache"], ["var", "lib"], ["var", "log"], ["var", "tmp"]]

/-- The file that is always empty. -/
def emptyFile : Place × String := (["dev", "null"], "")

/-- The tree of a working directory that holds the given files, by their paths in it. -/
def treeOf (files : List (String × String)) : Tree :=
  ⟨emptyFile :: files.map fun (name, contents) => (workplace ++ (Path.ofString name).names, contents),
    systemDirectories⟩

/-- Looks for a path where the working directory holds the given files. A text with a character that no
path may hold is none. -/
def find (files : List (String × String)) (path : String) : Found :=
  if path.toList.contains '\x00' then .nothing
  else
    let p := Path.ofString path
    if Path.lengthLimit < p.text.utf8ByteSize then .nameTooLong
    else (treeOf files).follow (if p.isAbsolute then [] else workplace) p.names

end Scriptlet.CommandLine
