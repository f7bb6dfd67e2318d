import TagLint.Cli.Run

/-!
# The command

Reads what a run needs, and prints how it ends.
-/

open TagLint.Cli

/-- What a path leads to in the file system. -/
def readEntry (path : String) : IO FileEntry := do
  let found ← try some <$> IO.FS.realPath path catch _ => pure none
  match found with
  | none => return .missing
  | some place =>
    if ← place.isDir then return .directory
    if !(← place.pathExists) then return .missing
    try return .file (← IO.FS.readBinFile path)
    catch error => return .unreadable (toString error)

/-- What a scan with some options can read. -/
def readEnvironment (options : Options) : IO Environment := do
  if options.readsInput then return ⟨← (← IO.getStdin).readBinToEnd, fun _ => .missing⟩
  let entry ← readEntry options.path
  return ⟨ByteArray.empty, fun path => if path = options.path then entry else .missing⟩

/-- Runs the command. -/
def main (arguments : List String) : IO UInt32 := do
  let request := Request.ofArguments arguments
  let environment ← match request with
    | .scan options => readEnvironment options
    | _ => pure ⟨ByteArray.empty, fun _ => .missing⟩
  let outcome := request.run environment
  (← IO.getStdout).putStr outcome.output
  (← IO.getStderr).putStr outcome.errors
  return outcome.code
