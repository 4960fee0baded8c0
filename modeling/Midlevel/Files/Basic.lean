import Midlevel.Error
import Midlevel.Files.Path

/-!
Access to files. What a program does with files is written against the operations here, so that it
runs on a real disk as well as on a modelled one.
-/

namespace Midlevel

inductive FileReason where
  | notFound
  | notDirectory
  | isDirectory
  | alreadyThere
  | nameTooLong
  | invalid
  | other (text : Text)
  deriving DecidableEq

def FileReason.text : FileReason → Text
  | notFound => "no such file or directory"
  | notDirectory => "not a directory"
  | isDirectory => "is a directory"
  | alreadyThere => "file exists"
  | nameTooLong => "file name too long"
  | invalid => "invalid argument"
  | other t => t

structure FileError where
  op : Text
  path : Text
  reason : FileReason
  deriving DecidableEq

namespace FileError

def message (e : FileError) : Text := e.op ++ " " ++ e.path ++ ": " ++ e.reason.text

def toError (e : FileError) : Error := .plain e.message

end FileError

class Files (m : Type → Type) where
  workingDir : m Text
  read : Text → m (Except FileError Text)
  write : Text → Text → m (Except FileError Unit)
  stat : Text → m (Except FileError Unit)
  makeDirs : Text → m (Except FileError Unit)
  /-- Removes a file or a directory with all that is in it. What is missing is removed already. -/
  removeAll : Text → m (Except FileError Unit)

namespace Path

def absolute {m : Type → Type} [Monad m] [Files m] (p : Text) : m Text := do
  if isAbsolute p then return clean p
  return join [← Files.workingDir, p]

end Path

end Midlevel
