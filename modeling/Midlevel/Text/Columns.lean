import Midlevel.Text.Cluster

/-!
The columns that text takes on a terminal. A cluster is as wide as the first of its characters that
has a width.
-/

namespace Midlevel.Text

def wide : CodePoints := .ofGaps "
  GLkDsGSocncHie32UbcvcBymBrbtbnbicrcfc85vbh2b427ecB2B91e3bCjdybobBHbcBzb4BFeB0DlmIgBaDbcDicDzfBrbDq
  bDglBwbBoiKKeCmBGUfdCdBThBdYtQNsMQmTsBEekwB9tbeFtDsExhBQKnflcoJCaiBVqBqjNFr472LfpbBdd2oeiPgXCybHub
  H8ckDxdnBsejhcogFyBhm9CsbwmBrefmr3dCt1bHfcCln4ysbBacnbDiDhBwCs6ddcdeelchjItm4KxBvbkbHdEindjhBubhio
  ejhjBXnDSYocDSYo"

/-- Characters above the first blocks that take no column: marks and signs that do not print. -/
def zeroWidth : CodePoints := .ofGaps "
  BDoEiKpfYxbIljBNwb3J4mcCKpdBTzeY0BwBfGajWqCmUdfyhChgDsBhEOcdJeBgZpcBSQe4kBgcDccTasBGGsqHzbJpdccTpb
  OmfEGecFxlBxeBIgcCfcBphdfBHDjfBLXbBucxUwfdgiichBeeFsdFFf7rc72fDwbDDgh"

def charColumns (c : Char) : Nat :=
  let n := c.toNat
  if n < 0x20 ∨ (0x7F ≤ n ∧ n ≤ 0x9F) ∨ n = 0xAD then 0
  else if n < 0x300 then 1
  else if zeroWidth.contains n then 0
  else if wide.contains n then 2
  else 1

def clusterColumns (t : Text) : Nat := (t.chars.find? (charColumns · != 0)).elim 0 charColumns

def columns (t : Text) : Nat := t.clusters.foldl (fun n c => n + clusterColumns c) 0

def fitting (width : Nat) : List Text → List Text
  | [] => []
  | c :: cs => if clusterColumns c ≤ width then c :: fitting (width - clusterColumns c) cs else []

def truncated (t : Text) (width : Nat) (tail : Text) : Text :=
  if t.columns ≤ width then t else (fitting (width - tail.columns) t.clusters).flatten ++ tail

end Midlevel.Text
