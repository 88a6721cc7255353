import RubyWat.Command.Line

/-
  The program.

  All files below the working directory are read at the start,
  and those that the command changed are written at the end.
-/

-- Files

namespace RubyWat

namespace Main

/- The files that an entry of a directory is or holds. -/
partial def filesOf
    (directory : String) (entry : IO.FS.DirEntry) :
    IO (List (String × List UInt8)) := do
  let path := Path.join directory entry.fileName
  if ← entry.path.isDir then
    let mut found := []
    for inner in ← entry.path.readDir do
      found := found ++ (← filesOf path inner)
    return found
  else
    let bytes ← IO.FS.readBinFile entry.path
    return [(path, bytes.toList)]

/- All files below the working directory, by their paths. -/
def files : IO (List (String × List UInt8)) := do
  let mut found := []
  for entry in ← (← IO.currentDir).readDir do
    found := found ++ (← filesOf "" entry)
  return found

def surroundings : IO Command.Surroundings := do
  return {
    disk := Disk.ofFiles (← files)
    searchPath := ← IO.getEnv "GARNET_PATH"
    isTerminal := ← (← IO.getStderr).isTty }

end Main

end RubyWat

def main (args : List String) : IO UInt32 := do
  let w ← RubyWat.Main.surroundings
  let t := RubyWat.Command.execute w args
  for (path, bytes) in t.disk.changesSince w.disk do
    IO.FS.writeBinFile path ⟨bytes.toArray⟩
  IO.print t.out
  IO.eprint t.err
  return UInt32.ofNat t.exit
