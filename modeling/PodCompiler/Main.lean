import PodCompiler.Command.Run

namespace PodCompiler.Command

-- The tree with a file of the disk, if it can be read.
def loadFile (t : FileTree) (path : String) : IO FileTree := do
  try
    let data ← IO.FS.readBinFile path
    return (t.place path data.data).toOption.getD t
  catch _ => return t

def storeFile (path : String) (data : Bytes) : IO Unit := do
  let dir := Path.parent path
  if !dir.isEmpty then IO.FS.createDirAll dir
  IO.FS.writeBinFile path (ByteArray.mk data)

end PodCompiler.Command

open PodCompiler.Command

def main (args : List String) : IO UInt32 := do
  let inputs := ((Arguments.parse? args).map (·.command.inputs)).getD []
  let files ← inputs.foldlM loadFile {}
  let outcome := run args files
  for (path, data) in outcome.console.written do
    storeFile path data
  IO.print outcome.console.output
  if let some report := outcome.report then IO.eprint report
  else if outcome.code = usageCode then
    IO.eprintln "usage: fanjvm [-v] (emit POD [-o DIR] [-c FILE] [-d POD]... | dump POD | ops)"
  return outcome.code
