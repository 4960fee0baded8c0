import Midlevel.Text.CodePoints

/-!
How characters join into clusters.
-/

namespace Midlevel.Text.Cluster

/-- Controls stand alone. The ends of lines are told apart from them. -/
def controls : CodePoints :=
  .ofGaps "akb2sDrBhnbCBmbGUrbDAqbccyhBxqDGH9JgmTUaqBZQueHWxiBTKZlBgDsEyJgFIm"

/-- Marks that join what stands before them, the joiner excepted. -/
def extenders : CodePoints := .ofGaps "
  BDoEiKphKdBt1b22bCulBwvqbDxhcgc2eB9BeBbDnlCgj9y493fBrdCiiBqybBgC31ei4dhkcB3C61ce89kcB0ccC5ececcd3B
  ec3lcC5e5c4ucw6bC6b2e8hdkcB4C71mb9Bob3C3bdf3ehclcB3C6223fchclcBccCf2bce89kcB3Cub4c3b8D3chmiDubcjlh
  CvcB111Cdob5cflbBk9Dy46ccczcedqenbcc6pbBBbdBKkdBdcBecBecCm2h8cl9Bt3bEncB8Eodec9gdIlc2C6b71bcigk2Bw
  BfBxeBw7b5BojmcBgec2dC4bc3bdCgiccFw3nbh46dcHqCmU4HnBhEOcdFlbDsBgVigEbcBSQe4kBgcDccKmb34zc5FvcBasnb
  BmizlBudBwbceccBnbCpgccccmb8BvbBz1dccf2bBqc8J424BDZsbBCjqqqOccX7IsbFtfCMg3cfeBod4GjcWbeOxcDcdCslBx
  eEtbCcpBpbcckdBxecc7CjdBk5iCkbmcCajke2Drd2bc62G1divcCf21bwbohdfHnic3bxbD3c6b2b2cJ1ceg2cBbcDhi2bcE2
  1c6bDxdc4fJz9cJlbk2b4Foecc4BgkBogce8jgcdBunbcPq76bDewc72cEsg3b27bCuc31NjclcCaf51HYrbgpURqfChhBO8Cl
  eD3BDBkcGYzBucxUw1defiichBeeFsdCYdCdeBy8obw5pCAi7rc72fDwbGehOlbCjeToeBMehEfhEBgfBSXYuDsEyJg"

/-- Marks with a width of their own that join what stands before them. -/
def spacingMarks : CodePoints := .ofGaps "
  DKtbC3cdi4cBycChcgcccC2CgdCobCgd8bcCbcC8gcccEk1cd3dCadCjeCjcC6b2cc2cBnbocChcf3dCbcCycghtcClbExbFic
  ClbGvbjczcBsbCMqbB4Ezbh8cNiecde2gIqcC61vgFpbC2b5cC9B4ec2C8c3bdcBwiicGpbvbCAShc2DkcByqFmcBvbBwceccd
  EgcccybG1cc5Jd222bBLX91ExbBtdecElbycC7BwdjcnbDpdd2bGodBfcC7becccducIbdic3Edc6b2b2Jecge2Ejdi2bE5bc6
  E7Kbd9Jo5c421Fmdie4D6BdcCkbPrbobE272Iffe2bNmcmbBwci2bBEIhCdEacBKXob6"

/-- Marks that join what stands behind them. -/
def prepended : CodePoints := .ofGaps "CHcgI7BxbOucD2BRnbDUGkbpbJkcCVr1bJobCvgBAybR1"

/-- Pictographs, which a joiner links to each other. -/
def pictographs : CodePoints := .ofGaps "
  Gnb4LYrbmbI8wbDmgpcOdcmbDrbCsbzledHrbIxckb9Cg46mbEkkEocl11636kcpb241e3blfBtd9obobOicRvdtcBzb4BVubm
  bX31GMRmJwndB5CigmcobcksCfBbpkbubc9ejQsfMgiKgBwEyEmmDhBrmeCeikgBoiBeDemBvbkbQzJwBNi"

end Midlevel.Text.Cluster
