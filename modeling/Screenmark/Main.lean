/-
  Screenmark — the program.

  The program reads the files below the working folder, runs the command on
  them, and writes what the command made and changed. Files that are not text
  are known by their names alone, and files elsewhere are not known. The program
  loads no libraries, and its clock shows the time of no zone.
-/
import Screenmark.Command.Run

namespace Screenmark

namespace Program

/-- The files with an entry of a folder, and with all below it. -/
partial def gather (parts : List String) (t : Tree) (e : IO.FS.DirEntry) : IO Tree := do
  let here := parts ++ [e.fileName]
  if ← e.path.isDir then
    (← e.path.readDir).foldlM (gather here) (t.put here .folder)
  else
    try return t.put here (.text (← IO.FS.readFile e.path))
    catch _ => return t.put here .other

/-- The files below the working folder. -/
def workingFolder : IO Tree := do
  let folder ← IO.currentDir
  let home := Path.parts folder.toString
  (← folder.readDir).foldlM (gather home) { items := .empty, home := home }

/-- Writes the items that the command made or changed. -/
def save (before after : Tree) : IO Unit := do
  for (name, item) in after.items.entries do
    if before.items.find? name != some item then
      match item with
      | .folder => IO.FS.createDirAll ("/" ++ name)
      | .text content => IO.FS.writeFile ("/" ++ name) content
      | .picture _ | .other => pure ()

/-- A machine without libraries. -/
def machine : Command.Machine Unit where
  zone := .utc
  load _ := .error (.unloaded "libraries are not loaded")
  fresh := ()

/-- Runs the command in the working folder. -/
def run (words : List String) : IO UInt32 := do
  let files ← workingFolder
  let outcome := Command.run machine files words
  save files outcome.files
  IO.print outcome.output
  for problem in outcome.problem do
    for line in problem.lines do
      IO.eprintln line
  return UInt32.ofNat outcome.code

end Program

end Screenmark

/-- The program. -/
def main (words : List String) : IO UInt32 := Screenmark.Program.run words
