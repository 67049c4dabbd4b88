import GoToJava.Text.Ranges

/-!
Upper case. The tables hold the characters outside ASCII: the full upper case of each character that
has one, and the Unicode property Uppercase.
-/

namespace GoToJava.Text

/-- The upper case of characters. -/
def upperImages : Array (Nat × Nat × Nat × List Nat) := images "
  B5=39C DF=53+53 E0-F6=C0 F8-E=D8 FF=178 131=49 149=2BC+4E 17F=53 180=243 195=1F6 19A=23D 19B=A7DC
  19E=220 1BF=1F7 1C6=1C4 1C9=1C7 1CC=1CA 1DD=18E 1F0=4A+30C 1F3=1F1 23F-40=2C7E 250=2C6F 251=2C6D
  252=2C70 253=181 254=186 256-7=189 259=18F 25B=190 25C=A7AB 260=193 261=A7AC 263=194 264=A7CB
  265=A78D 266=A7AA 268=197 269=196 26A=A7AE 26B=2C62 26C=A7AD 26F=19C 271=2C6E 272=19D 275=19F
  27D=2C64 280=1A6 282=A7C5 283=1A9 287=A7B1 288=1AE 289=244 28A-B=1B1 28C=245 292=1B7 29D=A7B2
  29E=A7B0 345=399 37B-D=3FD 390=399+308+301 3AC=386 3AD-F=388 3B0=3A5+308+301 3B1-C1=391 3C2=3A3
  3C3-B=3A3 3CC=38C 3CD-E=38E 3D0=392 3D1=398 3D5=3A6 3D6=3A0 3D7=3CF 3F0=39A 3F1=3A1 3F2=3F9
  3F3=37F 3F5=395 430-4F=410 450-F=400 4CF=4C0 561-86=531 587=535+552 10D0-FA=1C90 10FD-F=1CBD
  13F8-D=13F0 1C80=412 1C81=414 1C82=41E 1C83-4=421 1C85=422 1C86=42A 1C87=462 1C88=A64A 1D79=A77D
  1D7D=2C63 1D8E=A7C6 1E96=48+331 1E97=54+308 1E98=57+30A 1E99=59+30A 1E9A=41+2BE 1E9B=1E60
  1F00-7=1F08 1F10-5=1F18 1F20-7=1F28 1F30-7=1F38 1F40-5=1F48 1F50=3A5+313 1F51=1F59
  1F52=3A5+313+300 1F53=1F5B 1F54=3A5+313+301 1F55=1F5D 1F56=3A5+313+342 1F57=1F5F 1F60-7=1F68
  1F70-1=1FBA 1F72-5=1FC8 1F76-7=1FDA 1F78-9=1FF8 1F7A-B=1FEA 1F7C-D=1FFA 1F80-7=1F08+399
  1F88-F=1F08+399 1F90-7=1F28+399 1F98-F=1F28+399 1FA0-7=1F68+399 1FA8-F=1F68+399 1FB0-1=1FB8
  1FB2=1FBA+399 1FB3=391+399 1FB4=386+399 1FB6=391+342 1FB7=391+342+399 1FBC=391+399 1FBE=399
  1FC2=1FCA+399 1FC3=397+399 1FC4=389+399 1FC6=397+342 1FC7=397+342+399 1FCC=397+399 1FD0-1=1FD8
  1FD2=399+308+300 1FD3=399+308+301 1FD6=399+342 1FD7=399+308+342 1FE0-1=1FE8 1FE2=3A5+308+300
  1FE3=3A5+308+301 1FE4=3A1+313 1FE5=1FEC 1FE6=3A5+342 1FE7=3A5+308+342 1FF2=1FFA+399 1FF3=3A9+399
  1FF4=38F+399 1FF6=3A9+342 1FF7=3A9+342+399 1FFC=3A9+399 214E=2132 2170-F=2160 24D0-E9=24B6
  2C30-5F=2C00 2C65=23A 2C66=23E 2D00-25=10A0 2D27=10C7 2D2D=10CD A794=A7C4 AB53=A7B3 AB70-BF=13A0
  FB00=46+46 FB01=46+49 FB02=46+4C FB03=46+46+49 FB04=46+46+4C FB05=53+54 FB06=53+54 FB13=544+546
  FB14=544+535 FB15=544+53B FB16=54E+546 FB17=544+53D FF41-5A=FF21 10428-4F=10400 104D8-FB=104B0
  10597-A1=10570 105A3-B1=1057C 105B3-9=1058C 105BB-C=10594 10CC0-F2=10C80 10D70-85=10D50
  118C0-DF=118A0 16E60-7F=16E40 16EBB-D3=16EA0 1E922-43=1E900"

/-- Ranges in which the upper case of every second character, from the first on, is the character
before it. -/
def upperAlternate : Array (Nat × Nat) := ranges "
  101-2F 133-7 13A-48 14B-77 17A-E 183-5 188 18C 192 199 1A1-5 1A8 1AD 1B0 1B4-6 1B9 1BD 1C5 1C8 1CB
  1CE-DC 1DF-EF 1F2 1F5 1F9-21F 223-33 23C 242 247-F 371-3 377 3D9-EF 3F8 3FB 461-81 48B-BF 4C2-E
  4D1-52F 1C8A 1E01-95 1EA1-FF 2184 2C61 2C68-C 2C73 2C76 2C81-E3 2CEC-E 2CF3 A641-6D A681-9B A723-F
  A733-6F A77A-C A77F-87 A78C A791-3 A797-A9 A7B5-C3 A7C8-A A7CD-DB A7F6"

/-- Ranges in which every character is upper case. -/
def uppercaseRuns : Array (Nat × Nat) := ranges "
  C0-D6 D8-E 181-2 18A-B 18E-91 193-4 196-8 19C-D 19F-A0 1B2-3 1B8 1BC 1C4 1C7 1CA 1F1 1F7-8 23A-B
  23D-E 244-6 376 37F 389-A 392-A1 3A3-B 3CF 3D2-4 3F4 3FA 3FD-42F 531-56 10A0-C5 10C7 10CD 13A0-F5
  1C89 1C90-BA 1CBD-F 1F08-F 1F18-D 1F28-F 1F38-F 1F48-D 1F68-F 1FB8-B 1FC8-B 1FD8-B 1FE8-C 1FF8-B
  2102 2107 210B-D 2110-2 2115 2119-D 212B-D 2130-3 213E-F 2145 2160-F 2183 24B6-CF 2C00-2F 2C63-4
  2C6E-70 2C72 2C75 2C7E-80 2CF2 A7AB-E A7B0-4 A7C5-7 A7F5 FF21-3A 10400-27 104B0-D3 10570-A
  1057C-8A 1058C-92 10594-5 10C80-B2 10D50-65 118A0-BF 16E40-5F 16EA0-B8 1D400-19 1D434-4D 1D468-81
  1D49F 1D4A2 1D4A5-6 1D4A9-C 1D4AE-B5 1D4D0-E9 1D504-5 1D507-A 1D50D-14 1D516-C 1D538-9 1D53B-E
  1D540-4 1D546 1D54A-50 1D56C-85 1D5A0-B9 1D5D4-ED 1D608-21 1D63C-55 1D670-89 1D6A8-C0 1D6E2-FA
  1D71C-34 1D756-6E 1D790-A8 1D7CA 1E900-21 1F130-49 1F150-69 1F170-89"

/-- Ranges in which every second character is upper case, from the first on. -/
def uppercaseAlternate : Array (Nat × Nat) := ranges "
  100-36 139-47 14A-78 179-D 184-6 187-9 1A2-6 1A7-9 1AC-E 1AF-B1 1B5-7 1CD-DB 1DE-EE 1F4-6 1FA-232
  241-3 248-E 370-2 386-8 38C-E 38F-91 3D8-EE 3F7-9 460-80 48A-C0 4C1-D 4D0-52E 1E00-94 1E9E-FE
  1F59-F 2124-A 2C60-2 2C67-D 2C82-E2 2CEB-D A640-6C A680-9A A722-E A732-6E A779-D A77E-86 A78B-D
  A790-2 A796-AA A7B6-C4 A7C9-B A7CC-DC 1D49C-E"

/-- Whether `n` is one of the numbers from `first` to `last` in steps. -/
def inSteps (first last step n : Nat) : Bool :=
  decide (first ≤ n) && decide (n ≤ last) && (n - first) % step == 0

def isUppercase (c : Char) : Bool :=
  if c.toNat < 0x80 then c.isUpper
  else
    uppercaseRuns.any (fun (first, last) => inSteps first last 1 c.toNat) ||
      uppercaseAlternate.any fun (first, last) => inSteps first last 2 c.toNat

/-- The upper case of a character outside ASCII by a table of images and one of alternate
characters. -/
def upperBy (images : Array (Nat × Nat × Nat × List Nat)) (alternate : Array (Nat × Nat))
    (c : Char) : List Char :=
  let n := c.toNat
  match images.find? fun (first, last, _) => inSteps first last 1 n with
  | some (first, _, upper, rest) => ((upper + (n - first)) :: rest).map Char.ofNat
  | none =>
    if alternate.any fun (first, last) => inSteps first last 2 n then [Char.ofNat (n - 1)] else [c]

/-- The upper case of a character, which may be several characters. -/
def toUppercase (c : Char) : List Char :=
  if c.toNat < 0x80 then [c.toUpper] else upperBy upperImages upperAlternate c

end GoToJava.Text
