import Midlevel.Text

/-!
Paths as texts: what can be said of them without looking at any disk.
-/

namespace Midlevel.Path

def slash : UInt8 := 0x2F

def isAbsolute (p : Text) : Bool := p.head? == some slash

def addPart (rooted : Bool) (done : List Text) (part : Text) : List Text :=
  if part = [] ∨ part = "." then done
  else if part = ".." then
    match done with
    | [] => if rooted then [] else [".."]
    | d :: ds => if d = ".." then ".." :: done else ds
  else part :: done

/-- The shortest path that names the same by its text: no empty part, no `.`, and `..` at most in
front. -/
def clean (p : Text) : Text :=
  let rooted := isAbsolute p
  let body := Text.join "/" ((Text.split slash p).foldl (addPart rooted) []).reverse
  if rooted then "/" ++ body else if body = [] then "." else body

def join (parts : List Text) : Text :=
  match parts.dropWhile (· = []) with
  | [] => []
  | ps => clean (Text.join "/" ps)

def dropTrailing (p : Text) : Text := (p.reverse.dropWhile (· = slash)).reverse

def lastPart (p : Text) : Text := (p.reverse.takeWhile (· ≠ slash)).reverse

def base (p : Text) : Text :=
  if p = [] then "."
  else if dropTrailing p = [] then "/"
  else lastPart (dropTrailing p)

def parent (p : Text) : Text := clean (p.take (p.length - (lastPart p).length))

def ext (p : Text) : Text :=
  let last := lastPart p
  if last.contains 0x2E then 0x2E :: (last.reverse.takeWhile (· ≠ 0x2E)).reverse else []

end Midlevel.Path
