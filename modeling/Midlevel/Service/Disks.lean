import Midlevel.Files.Disk
import Midlevel.Service.Answer
import Midlevel.Service.Request

/-!
Disks of requests: the files a request brings lie in one directory, which is all there is.
-/

namespace Midlevel.Service

def rootDir : DiskPath := ["ROOT"]

def freshDisk : Disk := { entries := [(rootDir, .dir)], cwd := rootDir }

def holdsDots : Text → Bool
  | 0x2E :: 0x2E :: _ => true
  | _ :: r => holdsDots r
  | [] => false

def checkPath (path : Text) : Read Unit :=
  if Path.isAbsolute path || holdsDots path then unreadable else .ok ()

def below (path : Text) : Text := Path.join [Disk.pathText rootDir, path]

def addDir (d : Disk) (path : Text) : Disk := (d.makeDirs (below path)).2

def addFile (d : Disk) (path bytes : Text) : Disk :=
  ((d.makeDirs (Path.parent (below path))).2.write (below path) bytes).2

def fromRoot (p : DiskPath) : Text := Text.join "/" (p.drop rootDir.length)

end Midlevel.Service
