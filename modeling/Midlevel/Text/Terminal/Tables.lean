import Midlevel.Text.CodePoints

/-!
Data of Unicode 15 on how characters are shown on a terminal.
-/

namespace Midlevel.Text.Terminal

def fullWidth : CodePoints := .ofGaps "
  GLkDsGSocncHie32UbcvcBymBrbtbnbicrcfc85vbh2b427ecB2B91e3bCjdybobBHbcBzb4BFeB0DlmIgBameClcDicDzfBrb
  DqbDgmBvbBoiKKeCmBGUfdCdBThBdYtQNsMQmTsBEekwB9tbeFtDsExhBQKnflcoJCaiBVqBqjNFr472LfpbBdd2oeiPgXCybH
  ubH8ckDxdnBsejhcogFyBhm9CsbwmBrefmr3dCt1bHfcCln4ysbBacnbDiDhBwCs6ddcdeelchjItm4KxBvbkbHdEindjhBubh
  ioejhjBXnDSYocDSYo"

/-- Pictographs that are shown as emoji unless a variation selector says otherwise. -/
def emoji : CodePoints := .ofGaps "
  NHqcHxe32UbcvcBymBrbtbnbicrcfc85vbh2b427ecB2B91e3bCjdybobBHbcBzb4GPL4HubH8ckCxB0bybubc5dvcGsBhm9Cs
  bwmBrefmr3dCt1bHfcCln4ysbBacnbDiDhBwCs6ddcdeelchjItm4KxBvbkbHdEindjhBubhioejhj"

end Midlevel.Text.Terminal
