import ProgramHash.CommandLine.Outcome

open ProgramHash CommandLine

-- The file that the arguments name, if there is one, is read before the pure
-- part runs. It is not looked at when only a page of settings is printed.
def readNamed (args : List String) : IO (Except String String) :=
  match Arguments.ofList args with
  | .ok ⟨⟨some path, false, _, _⟩, _⟩ =>
      try return .ok (← IO.FS.readFile path)
      catch e => return .error e.toString
  | _ => return .error ""

def main (args : List String) : IO UInt32 := do
  let contents ← readNamed args
  let o := outcome ⟨true, true⟩ (fun _ => contents) args
  IO.print o.output
  IO.eprint o.notice
  match o.message with
  | some message => IO.eprintln ("Error: " ++ message)
  | none => pure ()
  return o.code.toUInt32
