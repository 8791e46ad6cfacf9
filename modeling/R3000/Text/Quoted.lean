import R3000.Text.Hex

/-!
# Quoted text

Text between double quotes, with a backslash before a quote or a backslash, short escapes for
the common control characters, and the number of any other character that does not print.
-/

namespace R3000.Text

/-! ## Characters that do not print

Controls, format characters, fillers, separators other than the space, unassigned characters,
and marks that extend the character before them.  The two halfwidth sound marks stand by
themselves and print. -/

/-- The lengths of the runs of characters that do not print and of those that do, by turns, in base 26:
the last digit of a length is a small letter, those before it are capitals.  The last run, which is not
listed, goes on to the last character. -/
def hiddenRuns : List String :=
  ["BgDrBimbWwEiicgehbbbubIqhGkbBmcBycdBubbbcbcbjBbegrklbbBuvqbDxibgccbeBgcbbBeBdDllboBrjhdyebjbdbh",
    "pbzfbblfBgqBqCfCdbbbeiebdhkcBdbcbicccwbhbbdedbbcgcccbbncbdeyfbbgeccwbhbcbcbcedyebbhkcdbbmbbjbdb",
    "wbhbcbfdeibbcdbpcemhbicbicccwbhbcbfdbcbgcccpcbdeslbbgddbedcbbbcdcdddmfbbcddbddbvvgdbibdbxbqdbde",
    "tdbcccekhkblbdbxbkbfdccbbcxdbcekbdolbdbBpcbbcfdbdbcedbkeBaccbsdybjbbchjcghhkcdmBwbcliinBlcbbbfb",
    "ybbbkbcjbcfbbjkceBgycBbbbbbbobBksbfbcfBxibgbnBlBtebgbccczcedqenbccgbpbBobbfbcFncIybechbbbecBpbe",
    "cBhbechbbbecpbCfbecCpfBddBagDicgcYqbBcdDlhsntdcjsonbdpCacbhibcljdkgkglfkgDlhfcBibbfCskBfeecdecb",
    "ghbdBqcflBseBagldCfccdCebbjbbcignkgkgoDiBwkedibBdjmcBgecgCebbcdbbnBwicfpdCkfBrcllbnbhebgbdcbfHk",
    "CmKscgcBmcgcibbbbbbbBfcCbbpbocgbtcdbjryiBvrccBbbndBiCkFkeZqwlvCRscOndcfBtbbfbcCehcpxjhbhbhbhbhb",
    "hbhbhBhDqBiBabDlmIgBaqbBpgqbDieDxfBrbBzbBqbDijBwbBRIrdCdjNkuBvebkBgcDccgiInurbdbebzcfekgCeiCqkm",
    "ynbBmizlbmBegBwbcecccbnblehbzbBpgcccldbibbckcBgbBzbbdccfcbbbyrcilgcgcgjhbhbCieEnbcbedkgQNsmxeBx",
    "MNcOccEcBmhmffbbybfbbbcbcbZaBgqqkwBjbtbeefbFfeGdbBedgcgcgcddhbhnccmbBabtbcbpcoBiEtfdeBtdDkbndbB",
    "vBtFbBddBxqBbeBkjBefBmkBebBleoBqGcckgBkeBkeBoiCalmbpbhbcblbpbhbcdCamLzjwkiygbBqbjCrgcbbBsbcdbcx",
    "bCuijBwtbcfBhdBbfBbBmCeeucBvpebdbBdkjhjhCmBgBlgmjCcdBdcBbfBahemhDcCvCdBznBzhBqmkgBmiyicIaBfbBqd",
    "bccqgijBnBoiwljwseeBmBcuxjbbCcpheBebccbmBxecccbeozhkjBkfbjsiBjbdlCajbbiecbqbulsbBcdcegbcClhbbbe",
    "bpblgBvbdnkicbicccwbhbcbfdbbbbeccccdbmhBckbbcbbBmbbbcpbbcdbbdbcBnCeicdbbvbbbdBeBwbcgbbcbbcbceik",
    "GkBvbcgecbcBbBkBzicbbcelkgntBrbbbcicgkguBcBbdbbcebjxHdBvjbcbDwDfmicbcibcbybfbcgebdjkCsicBqiebeB",
    "bbkBogceijbgcdBunbcjnCvhkDjbdbbbDkBiokgjbBmobbgkBddBgzbhbcbCxhbcbBmvbjkggbcbBlecbbbbhkgBsekJmtc",
    "ejpbBkicdxDibpBynBJnDyEhbflHoDXkDvnBPgrgzFXrfWlKDdBemddkCOsVxhBfbkeDdbkgBehbkBwhpkkbhbvftQqCgHq",
    "DnfzczBsCxfCelnCmeofjKXyBpBgDtElMWrebhbcbLfpbBddcboeiPgDKuEdfndjhkcbcbFVkJtdQugxprDrEmCiJmkBncC",
    "ifdwchBeeCjvCodbEsumumDjjzFfDhbCtbccbcccebmbbbhbCnbecibhbBcbebfbbdhbNccLgcVqCdeByibobhBRwBfggKb",
    "CkFqBtkhckecMiBesBsekfbRwBcekIgBeclebHkBfbdbcbhcfjcIqhbebcbpbHpcjBwCqhbekecBEfCqCyCjHmebBbbcbbc",
    "bbkbebbbbgbebbbbbbdbcbbcbbbbbbbbbbcbbcebhbebebbbkbrfdbfbrCacKkBseDwmpcpbpbBlkGsCeBdnBsejhcogFyB",
    "LxdrdndIkgmebpmeCeikgBoiBecmecojBnNgiocndldCfbbeqcmekhFrbDzBNpCLFcBgGMocIOccLBlpXyDQwUwCFyHHzfM",
    "Oo"]

def readRuns : List Char → Nat → List Nat
  | [], _ => []
  | c :: cs, high =>
    if c.isLower then (26 * high + (c.toNat - 'a'.toNat)) :: readRuns cs 0
    else readRuns cs (26 * high + (c.toNat - 'A'.toNat))

/-- Whether the character at an offset is hidden, in runs of which the first is. -/
def hiddenAt (hidden : Bool) : List Nat → Nat → Bool
  | [], _ => hidden
  | n :: runs, offset => if offset < n then hidden else hiddenAt (!hidden) runs (offset - n)

def isHidden (c : Char) : Bool :=
  hiddenAt true (readRuns (hiddenRuns.flatMap String.toList) 0) c.toNat

def quotedChar (c : Char) : String :=
  if c = '"' then "\\\""
  else if c = '\\' then "\\\\"
  else if c = '\n' then "\\n"
  else if c = '\r' then "\\r"
  else if c = '\t' then "\\t"
  else if c.toNat = 0 then "\\0"
  else if isHidden c then "\\u\x7b" ++ Hex.digits c.toNat ++ "\x7d"
  else String.singleton c

def quoted (s : String) : String :=
  "\"" ++ String.join (s.toList.map quotedChar) ++ "\""

end R3000.Text
