import Widgetry.Files.Path

/-!
# Disks

What a program needs of a file system, as operations of a monad. The operations of a real file
system run in the outermost layer; those of a tree in memory are pure.
-/

namespace Widgetry

inductive SystemError where
  | missing
  | alreadyThere
  | notDirectory
  | isDirectory
  | nameTooLong
  | notText
  | other (text : String)
deriving DecidableEq, Repr

def SystemError.message : SystemError → String
  | .missing => "No such file or directory (os error 2)"
  | .alreadyThere => "File exists (os error 17)"
  | .notDirectory => "Not a directory (os error 20)"
  | .isDirectory => "Is a directory (os error 21)"
  | .nameTooLong => "File name too long (os error 36)"
  | .notText => "stream did not contain valid UTF-8"
  | .other text => text

structure Disk (m : Type → Type) where
  isDirectory : Path → m Bool
  /-- The files below a directory, or the directory that cannot be read. -/
  filesBelow : Path → m (Except (Path × SystemError) (List Path))
  read : Path → m (Except SystemError String)
  /-- Makes a directory and those above it, where they are missing. -/
  createDirectories : Path → m (Except SystemError Unit)
  write : Path → String → m (Except SystemError Unit)
  rename : Path → Path → m (Except SystemError Unit)

end Widgetry
