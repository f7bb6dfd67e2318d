import TagLint.Cli.Run

/-!
# Files below a working directory

A `FileTable` lists the files and directories below a working directory, for runs that are to read
these and nothing else. `FileTable.resolve` follows a path name by name: whatever a name is looked
up in has to be a directory, also for `.`, `..` and the empty name behind a slash. Outside the
working directory there are directories and no files.
-/

namespace TagLint.Cli

/-- The most bytes of a path. -/
def maxPathSize : Nat := 4095

/-- The most bytes of one name in a path. -/
def maxNameSize : Nat := 255

/-- Files and directories below a working directory, the newest first. Each has the names that
lead to it. -/
structure FileTable where
  /-- The entries. -/
  entries : List (List String × FileEntry)

namespace FileTable

/-- The names of a path. -/
def namesOf (path : String) : List String :=
  (path.toList.splitOn '/').map String.ofList

/-- Whether a name leads from a directory to itself. -/
def staysAt (name : String) : Bool :=
  name = "" || name = "."

/-- The table with an entry at a path. -/
def insert (table : FileTable) (path : String) (entry : FileEntry) : FileTable :=
  ⟨((namesOf path).filter fun name => !staysAt name, entry) :: table.entries⟩

/-- What some names lead to: an entry, or a directory on the way to one. No names lead to the
working directory. -/
def find (table : FileTable) (names : List String) : FileEntry :=
  match table.entries.find? (·.1 = names) with
  | some (_, entry) => entry
  | none =>
    if names.isEmpty || table.entries.any (names.isPrefixOf ·.1) then .directory else .missing

/-- What some names lead to outside the working directory. -/
def outside (names : List String) : FileEntry :=
  if names.all fun name => staysAt name || name = ".." then .directory else .missing

/-- Follows names from the place that `here` leads to. -/
def follow (table : FileTable) (here : List String) : List String → FileEntry
  | [] => table.find here
  | name :: rest =>
    if !(table.find here).isDirectory then .missing
    else if staysAt name then table.follow here rest
    else if name = ".." then
      if here.isEmpty then outside rest else table.follow here.dropLast rest
    else if name.utf8ByteSize ≤ maxNameSize then table.follow (here ++ [name]) rest
    else .missing

/-- What a path leads to. -/
def resolve (table : FileTable) (path : String) : FileEntry :=
  if path.isEmpty || maxPathSize < path.utf8ByteSize then .missing
  else
    match namesOf path with
    | "" :: names => outside names
    | names => table.follow [] names

/-- What a run can read: these files, and some bytes on standard input. -/
def environment (table : FileTable) (input : ByteArray) : Environment :=
  ⟨input, table.resolve⟩

end FileTable

end TagLint.Cli
