import Midlevel.Text.CodePoints
import Midlevel.Text.Utf8

/-!
Quoted text: between double quotes, with a backslash before whatever would end the text or not
show. Printable characters stand for themselves: letters, marks, numbers, punctuation, symbols and
the blank.
-/

namespace Midlevel.Text

/-- The printable code points of Unicode 17. -/
def printable : CodePoints := .ofGaps "
  BgDrBimbBBmcge71ubP7BmcByc3CdiBbegrwbHkbBwcChcDxoChcBxcpbBc2blfBghCxbG5icccwb7bdecjccce8e2fczc3gec
  cwb722c2bfeccd3h4bhrk393wb72fckb3d2pecmh73icccwb72fcjcccdhde2fcsk2gd3ed21cdcdddmefd3e26ovfnb3xbqc9
  3eh23cceckhwb3xbkbfc93ehcf3eckbdmnb3Bzb3geqcB03sdyb9bch3e61igkcdmCgeBdBl215y1bxc517kceBgCubBkeBnbB
  kbpbnBlHq15cOnbec71ecBpbecB7ec71ecpbC5ecCpcBgdBagDicgcYqbBcdDlhwjyjumnb3cmDqckgkgoblgDlhBrfCskB5me
  m4dBqcflBseBagldCkcCnbBdclgkgocBucmuCzbGkiCidpdCkfBrcliBrfUocgcBmcgc8111BfcC1pboc6tc3jryiBvrccB1nd
  BioBhpFkeZqwlvCRscOsfBt15cCehcoyj77777777EwBiB0DlmIgBaqbClbDicDzfBrbDqbDijBwbBRIrdCdjNkuHciInuCidk
  gCeiCsimgEmlBedD0leB7CdjockcDzyBckgcgcgj77CieEwckgQNsmxeBxMNcOccEcBmhmffB05122ZaBgBqgBzbtbee5FfeHi
  dgcgcgcdd7hnccmbB0tb2pcoBiEtfdeBtdDkbn3BvBuFaBddBxpBceBkjBefBrfB4BleoBqGcckgBkeBkeBoiCalmbpb72lbpb
  7cdCamLzjwkiy6BqbjCrg2bBsbc3cxbCuijBwtbcfBhdBbfBbBmCeeucBybcf83BdcdekhjhCmBgBnemjCcdBdcBbfBahemhDc
  CvCdBznBzhBuikgBmdBdicIaB5BqbdccqgijBhBuiBqwBaBmBcuxjDaeBkjCkbfnzhkgC1siBnjDsbulsbBvCk714pblgChfkg
  4icccwb725kcccd26fhchdflk12bBmbk12b4kbcicBdDobfBeCuikGkCccBmBiCrlkgntCggkguBcBbcpexHdCiDwDfmi2c82B
  4ccmjkCsicBuclBbCuiDfnCvhkDiiDkBiokg9BtbokBddBgcwboCv72Bs3b2jikg62Blb2ghkgBsekJmzhrbBpdBdD7pBynBJn
  DyE7flHoDXkDvnBPgqwkFXrfWlKDdCgCOsVxhB5keD3kgBecgkCskkb7vftQqCgHqDnfzczBsCxeCfhrCmflhjKXyBpBgDtElM
  Wr472LfpbBdd2oeiPgDKuEdfndjhkceFVkJtdQugxprpBucxjEmCiJmkBncCwiEivCsEsumumDjjzFfD7Ctbc2ccc4m1b7Cnbe
  c87B245bd7NccLgcBBap5pBQmBfggIf7rc72ffCkB7EiBtdockecMiBfrCg5RwBqIgBr4HkB5wicIq742pbHpcqBpCyekecBEf
  CqCyCjHm4B12b2bkb41b6411b32b21111b2bc47441kbrf35rCacKkBseDwmpcpbpbBlkGsCeBdnBsejhcogFyBLxdrdndIkgm
  4pmeCeikgBoiBecmecojBnNgiocndldC5beqcmekhFrbDzBNpCLFcBgGMocIOccLBlpXyDQwUwCFyHHzfMOoBOGXyJg"

def isPrintable (c : Char) : Bool :=
  if c.toNat < 0x7f then 0x20 ≤ c.toNat else printable.contains c.toNat

def shortEscape? : Char → Option Char
  | '\x07' => some 'a'
  | '\x08' => some 'b'
  | '\x0c' => some 'f'
  | '\n' => some 'n'
  | '\r' => some 'r'
  | '\t' => some 't'
  | '\x0b' => some 'v'
  | _ => none

def quotePiece : Piece → Text
  | .stray b => "\\x" ++ hex 2 b.toNat
  | .char c =>
    if c = '"' ∨ c = '\\' then "\\" ++ ofChars [c]
    else if isPrintable c then ofChars [c]
    else match shortEscape? c with
      | some e => "\\" ++ ofChars [e]
      | none =>
        if c.toNat < 0x20 ∨ c.toNat = 0x7f then "\\x" ++ hex 2 c.toNat
        else if c.toNat < 0x10000 then "\\u" ++ hex 4 c.toNat
        else "\\U" ++ hex 8 c.toNat

def quote (t : Text) : Text := "\"" ++ t.pieces.flatMap quotePiece ++ "\""

end Midlevel.Text
