import TreeLowering.Command

namespace TreeLowering

-- A failure to read, by its code where the code tells more than its kind.
def readErrorOf : IO.Error → ReadError
  | .noFileOrDirectory .. => .notFound
  | .inappropriateType _ code _ =>
    if code = 21 then .isDirectory else .notADirectory
  | e@(.invalidArgument _ code _) => if code = 36 then .nameTooLong else .other (toString e)
  | e => .other (toString e)

def readText (read : IO ByteArray) : IO (Except ReadError String) := do
  try
    match String.fromUTF8? (← read) with
    | some text => return .ok text
    | none => return .error .notText
  catch e => return .error (readErrorOf e)

partial def readAll (stream : IO.FS.Stream) (held : ByteArray) : IO ByteArray := do
  let more ← stream.read 65536
  if more.isEmpty then return held else readAll stream (held ++ more)

end TreeLowering

open TreeLowering in
def main (words : List String) : IO UInt32 := do
  let (config, input) := match Arguments.parse? words with
    | some (.run config _ command) => (config, command.input?)
    | _ => (none, none)
  let asksInput := input.any Command.isStdin
  let stdin ← if asksInput then readText (do readAll (← IO.getStdin) .empty) else pure (.ok "")
  let paths := configFile :: (config.toList ++ input.toList)
  let files ← paths.mapM fun (path : String) => do
    return (path, ← readText (IO.FS.readBinFile path))
  let place := (← IO.currentDir).toString ++ "/"
  let read := fun path => (Keyed.lookup? path files).getD (.error .notFound)
  let isFile := fun path => match read path with
    | .ok _ | .error .notText | .error (.other _) => true
    | _ => false
  let outcome := Command.execute ⟨place, stdin, read, isFile⟩ words
  IO.print outcome.stdout
  IO.eprint outcome.stderr
  return outcome.status.toUInt32
