import Widgetry.Command.Run

/-!
# The command
-/

namespace Widgetry.Main

def reason (e : IO.Error) : SystemError :=
  match e with
  | .noFileOrDirectory _ _ _ => .missing
  | .alreadyExists _ _ _ => .alreadyThere
  | .inappropriateType _ code _ => if code = 21 then .isDirectory else .notDirectory
  | e => .other (toString e)

def guarded {α : Type} (op : IO α) : IO (Except SystemError α) := do
  match ← op.toBaseIO with
  | .ok a => return .ok a
  | .error e => return .error (reason e)

def isDirectory (p : Path) : IO Bool := do
  let place := (← IO.currentDir) / p.text
  place.isDir

partial def filesBelow (directory : Path) : IO (Except (Path × SystemError) (List Path)) := do
  let place := (← IO.currentDir) / directory.text
  match ← guarded place.readDir with
  | .error e => return .error (directory, e)
  | .ok entries =>
      let mut found := []
      for entry in entries do
        let p := directory.join entry.fileName
        if ← isDirectory p then
          match ← filesBelow p with
          | .error e => return .error e
          | .ok more => found := found ++ more
        else
          found := found ++ [p]
      return .ok found

def read (p : Path) : IO (Except SystemError String) := do
  match ← guarded (IO.FS.readBinFile p.text) with
  | .error e => return .error e
  | .ok content =>
      match String.fromUTF8? content with
      | some text => return .ok text
      | none => return .error .notText

def disk : Disk IO where
  isDirectory := isDirectory
  filesBelow := filesBelow
  read := read
  createDirectories p := guarded (IO.FS.createDirAll p.text)
  write p text := guarded (IO.FS.writeFile p.text text)
  rename source target := guarded (IO.FS.rename source.text target.text)

end Widgetry.Main

def main (arguments : List String) : IO UInt32 := do
  let answer ← Widgetry.Command.run Widgetry.Main.disk arguments
  for line in answer.out do
    IO.println line
  for line in answer.err do
    IO.eprintln line
  return answer.exit.toUInt32
