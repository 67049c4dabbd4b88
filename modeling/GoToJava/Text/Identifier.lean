import GoToJava.Text.Ranges

/-!
Characters of identifiers: the ranges of the Unicode properties XID_Start and XID_Continue. Each
table is in ascending order.
-/

namespace GoToJava.Text

/-- Characters below U+1000 that may start an identifier. -/
def letterRangesLow : Array (Nat × Nat) := ranges "
  41-5A 61-7A AA B5 BA C0-D6 D8-F6 F8-2C1 2C6-D1 2E0-4 2EC 2EE 370-4 376-7 37B-D 37F 386 388-A 38C
  38E-A1 3A3-F5 3F7-481 48A-52F 531-56 559 560-88 5D0-EA 5EF-F2 620-4A 66E-F 671-D3 6D5 6E5-6 6EE-F
  6FA-C 6FF 710 712-2F 74D-A5 7B1 7CA-EA 7F4-5 7FA 800-15 81A 824 828 840-58 860-A 870-87 889-E
  8A0-C9 904-39 93D 950 958-61 971-80 985-C 98F-90 993-A8 9AA-B0 9B2 9B6-9 9BD 9CE 9DC-D 9DF-E1
  9F0-1 9FC A05-A A0F-10 A13-28 A2A-30 A32-3 A35-6 A38-9 A59-C A5E A72-4 A85-D A8F-91 A93-A8 AAA-B0
  AB2-3 AB5-9 ABD AD0 AE0-1 AF9 B05-C B0F-10 B13-28 B2A-30 B32-3 B35-9 B3D B5C-D B5F-61 B71 B83
  B85-A B8E-90 B92-5 B99-A B9C B9E-F BA3-4 BA8-A BAE-B9 BD0 C05-C C0E-10 C12-28 C2A-39 C3D C58-A C5D
  C60-1 C80 C85-C C8E-90 C92-A8 CAA-B3 CB5-9 CBD CDD-E CE0-1 CF1-2 D04-C D0E-10 D12-3A D3D D4E D54-6
  D5F-61 D7A-F D85-96 D9A-B1 DB3-B DBD DC0-6 E01-30 E32 E40-6 E81-2 E84 E86-A E8C-A3 EA5 EA7-B0 EB2
  EBD EC0-4 EC6 EDC-F F00 F40-7 F49-6C F88-C"

/-- Characters from U+1000 up to U+FFFF that may start an identifier. -/
def letterRangesMiddle : Array (Nat × Nat) := ranges "
  1000-2A 103F 1050-5 105A-D 1061 1065-6 106E-70 1075-81 108E 10A0-C5 10C7 10CD 10D0-FA 10FC-248
  124A-D 1250-6 1258 125A-D 1260-88 128A-D 1290-B0 12B2-5 12B8-E 12C0 12C2-5 12C8-D6 12D8-310 1312-5
  1318-5A 1380-F 13A0-F5 13F8-D 1401-66C 166F-7F 1681-9A 16A0-EA 16EE-F8 1700-11 171F-31 1740-51
  1760-C 176E-70 1780-B3 17D7 17DC 1820-78 1880-A8 18AA 18B0-F5 1900-1E 1950-6D 1970-4 1980-AB
  19B0-C9 1A00-16 1A20-54 1AA7 1B05-33 1B45-C 1B83-A0 1BAE-F 1BBA-E5 1C00-23 1C4D-F 1C5A-7D 1C80-A
  1C90-BA 1CBD-F 1CE9-C 1CEE-F3 1CF5-6 1CFA 1D00-BF 1E00-F15 1F18-D 1F20-45 1F48-D 1F50-7 1F59 1F5B
  1F5D 1F5F-7D 1F80-B4 1FB6-C 1FBE 1FC2-4 1FC6-C 1FD0-3 1FD6-B 1FE0-C 1FF2-4 1FF6-C 2071 207F 2090-C
  2102 2107 210A-13 2115 2118-D 2124 2126 2128 212A-39 213C-F 2145-9 214E 2160-88 2C00-E4 2CEB-E
  2CF2-3 2D00-25 2D27 2D2D 2D30-67 2D6F 2D80-96 2DA0-6 2DA8-E 2DB0-6 2DB8-E 2DC0-6 2DC8-E 2DD0-6
  2DD8-E 3005-7 3021-9 3031-5 3038-C 3041-96 309D-F 30A1-FA 30FC-F 3105-2F 3131-8E 31A0-BF 31F0-F
  3400-4DBF 4E00-A48C A4D0-FD A500-60C A610-F A62A-B A640-6E A67F-9D A6A0-EF A717-F A722-88 A78B-CD
  A7D0-1 A7D3 A7D5-C A7F2-801 A803-5 A807-A A80C-22 A840-73 A882-B3 A8F2-7 A8FB A8FD-E A90A-25
  A930-46 A960-7C A984-B2 A9CF A9E0-4 A9E6-F A9FA-E AA00-28 AA40-2 AA44-B AA60-76 AA7A AA7E-AF AAB1
  AAB5-6 AAB9-D AAC0 AAC2 AADB-D AAE0-A AAF2-4 AB01-6 AB09-E AB11-6 AB20-6 AB28-E AB30-5A AB5C-69
  AB70-E2 AC00-D7A3 D7B0-C6 D7CB-FB F900-A6D FA70-D9 FB00-6 FB13-7 FB1D FB1F-28 FB2A-36 FB38-C FB3E
  FB40-1 FB43-4 FB46-B1 FBD3-C5D FC64-D3D FD50-8F FD92-C7 FDF0-9 FE71 FE73 FE77 FE79 FE7B FE7D
  FE7F-FC FF21-3A FF41-5A FF66-9D FFA0-BE FFC2-7 FFCA-F FFD2-7 FFDA-C"

/-- Characters from U+10000 on that may start an identifier. -/
def letterRangesHigh : Array (Nat × Nat) := ranges "
  10000-B 1000D-26 10028-3A 1003C-D 1003F-4D 10050-D 10080-FA 10140-74 10280-9C 102A0-D0 10300-1F
  1032D-4A 10350-75 10380-9D 103A0-C3 103C8-F 103D1-5 10400-9D 104B0-D3 104D8-FB 10500-27 10530-63
  10570-A 1057C-8A 1058C-92 10594-5 10597-A1 105A3-B1 105B3-9 105BB-C 105C0-F3 10600-736 10740-55
  10760-7 10780-5 10787-B0 107B2-A 10800-5 10808 1080A-35 10837-8 1083C 1083F-55 10860-76 10880-9E
  108E0-F2 108F4-5 10900-15 10920-39 10980-B7 109BE-F 10A00 10A10-3 10A15-7 10A19-35 10A60-7C
  10A80-9C 10AC0-7 10AC9-E4 10B00-35 10B40-55 10B60-72 10B80-91 10C00-48 10C80-B2 10CC0-F2 10D00-23
  10D4A-65 10D6F-85 10E80-A9 10EB0-1 10EC2-4 10F00-1C 10F27 10F30-45 10F70-81 10FB0-C4 10FE0-F6
  11003-37 11071-2 11075 11083-AF 110D0-E8 11103-26 11144 11147 11150-72 11176 11183-B2 111C1-4
  111DA 111DC 11200-11 11213-2B 1123F-40 11280-6 11288 1128A-D 1128F-9D 1129F-A8 112B0-DE 11305-C
  1130F-10 11313-28 1132A-30 11332-3 11335-9 1133D 11350 1135D-61 11380-9 1138B 1138E 11390-B5 113B7
  113D1 113D3 11400-34 11447-A 1145F-61 11480-AF 114C4-5 114C7 11580-AE 115D8-B 11600-2F 11644
  11680-AA 116B8 11700-1A 11740-6 11800-2B 118A0-DF 118FF-906 11909 1190C-13 11915-6 11918-2F 1193F
  11941 119A0-7 119AA-D0 119E1 119E3 11A00 11A0B-32 11A3A 11A50 11A5C-89 11A9D 11AB0-F8 11BC0-E0
  11C00-8 11C0A-2E 11C40 11C72-8F 11D00-6 11D08-9 11D0B-30 11D46 11D60-5 11D67-8 11D6A-89 11D98
  11EE0-F2 11F02 11F04-10 11F12-33 11FB0 12000-399 12400-6E 12480-543 12F90-F0 13000-42F 13441-6
  13460-43FA 14400-646 16100-1D 16800-A38 16A40-5E 16A70-BE 16AD0-ED 16B00-2F 16B40-3 16B63-77
  16B7D-8F 16D40-6C 16E40-7F 16F00-4A 16F50 16F93-F 16FE0-1 16FE3 17000-87F7 18800-CD5 18CFF-D08
  1AFF0-3 1AFF5-B 1AFFD-E 1B000-122 1B132 1B150-2 1B155 1B164-7 1B170-2FB 1BC00-6A 1BC70-C 1BC80-8
  1BC90-9 1D400-54 1D456-9C 1D49E-F 1D4A2 1D4A5-6 1D4A9-C 1D4AE-B9 1D4BB 1D4BD-C3 1D4C5-505 1D507-A
  1D50D-14 1D516-C 1D51E-39 1D53B-E 1D540-4 1D546 1D54A-50 1D552-6A5 1D6A8-C0 1D6C2-DA 1D6DC-FA
  1D6FC-714 1D716-34 1D736-4E 1D750-6E 1D770-88 1D78A-A8 1D7AA-C2 1D7C4-B 1DF00-1E 1DF25-A 1E030-6D
  1E100-2C 1E137-D 1E14E 1E290-AD 1E2C0-EB 1E4D0-EB 1E5D0-ED 1E5F0 1E7E0-6 1E7E8-B 1E7ED-E 1E7F0-E
  1E800-C4 1E900-43 1E94B 1EE00-3 1EE05-1F 1EE21-2 1EE24 1EE27 1EE29-32 1EE34-7 1EE39 1EE3B 1EE42
  1EE47 1EE49 1EE4B 1EE4D-F 1EE51-2 1EE54 1EE57 1EE59 1EE5B 1EE5D 1EE5F 1EE61-2 1EE64 1EE67-A
  1EE6C-72 1EE74-7 1EE79-C 1EE7E 1EE80-9 1EE8B-9B 1EEA1-3 1EEA5-9 1EEAB-BB 20000-A6DF 2A700-B739
  2B740-81D 2B820-CEA1 2CEB0-EBE0 2EBF0-E5D 2F800-A1D 30000-134A 31350-23AF"

/-- Characters below U+2000 that may only continue an identifier. -/
def extenderRangesLow : Array (Nat × Nat) := ranges "
  30-9 5F B7 300-6F 387 483-7 591-BD 5BF 5C1-2 5C4-5 5C7 610-A 64B-69 670 6D6-C 6DF-E4 6E7-8 6EA-D
  6F0-9 711 730-4A 7A6-B0 7C0-9 7EB-F3 7FD 816-9 81B-23 825-7 829-D 859-B 897-F 8CA-E1 8E3-903 93A-C
  93E-4F 951-7 962-3 966-F 981-3 9BC 9BE-C4 9C7-8 9CB-D 9D7 9E2-3 9E6-F 9FE A01-3 A3C A3E-42 A47-8
  A4B-D A51 A66-71 A75 A81-3 ABC ABE-C5 AC7-9 ACB-D AE2-3 AE6-F AFA-F B01-3 B3C B3E-44 B47-8 B4B-D
  B55-7 B62-3 B66-F B82 BBE-C2 BC6-8 BCA-D BD7 BE6-F C00-4 C3C C3E-44 C46-8 C4A-D C55-6 C62-3 C66-F
  C81-3 CBC CBE-C4 CC6-8 CCA-D CD5-6 CE2-3 CE6-F CF3 D00-3 D3B-C D3E-44 D46-8 D4A-D D57 D62-3 D66-F
  D81-3 DCA DCF-D4 DD6 DD8-F DE6-F DF2-3 E31 E33-A E47-E E50-9 EB1 EB3-C EC8-E ED0-9 F18-9 F20-9 F35
  F37 F39 F3E-F F71-84 F86-7 F8D-97 F99-BC FC6 102B-3E 1040-9 1056-9 105E-60 1062-4 1067-D 1071-4
  1082-D 108F-9D 135D-F 1369-71 1712-5 1732-4 1752-3 1772-3 17B4-D3 17DD 17E0-9 180B-D 180F-19 18A9
  1920-B 1930-B 1946-F 19D0-A 1A17-B 1A55-E 1A60-7C 1A7F-89 1A90-9 1AB0-D 1ABF-CE 1B00-4 1B34-44
  1B50-9 1B6B-73 1B80-2 1BA1-D 1BB0-9 1BE6-F3 1C24-37 1C40-9 1C50-9 1CD0-2 1CD4-E8 1CED 1CF4 1CF7-9
  1DC0-FF"

/-- Characters from U+2000 on that may only continue an identifier. -/
def extenderRangesHigh : Array (Nat × Nat) := ranges "
  200C-D 203F-40 2054 20D0-C 20E1 20E5-F0 2CEF-F1 2D7F 2DE0-FF 302A-F 3099-A 30FB A620-9 A66F A674-D
  A69E-F A6F0-1 A802 A806 A80B A823-7 A82C A880-1 A8B4-C5 A8D0-9 A8E0-F1 A8FF-909 A926-D A947-53
  A980-3 A9B3-C0 A9D0-9 A9E5 A9F0-9 AA29-36 AA43 AA4C-D AA50-9 AA7B-D AAB0 AAB2-4 AAB7-8 AABE-F AAC1
  AAEB-F AAF5-6 ABE3-A ABEC-D ABF0-9 FB1E FE00-F FE20-F FE33-4 FE4D-F FF10-9 FF3F FF65 FF9E-F 101FD
  102E0 10376-A 104A0-9 10A01-3 10A05-6 10A0C-F 10A38-A 10A3F 10AE5-6 10D24-7 10D30-9 10D40-9
  10D69-D 10EAB-C 10EFC-F 10F46-50 10F82-5 11000-2 11038-46 11066-70 11073-4 1107F-82 110B0-A 110C2
  110F0-9 11100-2 11127-34 11136-F 11145-6 11173 11180-2 111B3-C0 111C9-C 111CE-D9 1122C-37 1123E
  11241 112DF-EA 112F0-9 11300-3 1133B-C 1133E-44 11347-8 1134B-D 11357 11362-3 11366-C 11370-4
  113B8-C0 113C2 113C5 113C7-A 113CC-D0 113D2 113E1-2 11435-46 11450-9 1145E 114B0-C3 114D0-9
  115AF-B5 115B8-C0 115DC-D 11630-40 11650-9 116AB-B7 116C0-9 116D0-E3 1171D-2B 11730-9 1182C-3A
  118E0-9 11930-5 11937-8 1193B-E 11940 11942-3 11950-9 119D1-7 119DA-E0 119E4 11A01-A 11A33-9
  11A3B-E 11A47 11A51-B 11A8A-99 11BF0-9 11C2F-36 11C38-F 11C50-9 11C92-A7 11CA9-B6 11D31-6 11D3A
  11D3C-D 11D3F-45 11D47 11D50-9 11D8A-E 11D90-1 11D93-7 11DA0-9 11EF3-6 11F00-1 11F03 11F34-A
  11F3E-42 11F50-A 13440 13447-55 1611E-39 16A60-9 16AC0-9 16AF0-4 16B30-6 16B50-9 16D70-9 16F4F
  16F51-87 16F8F-92 16FE4 16FF0-1 1BC9D-E 1CCF0-9 1CF00-2D 1CF30-46 1D165-9 1D16D-72 1D17B-82
  1D185-B 1D1AA-D 1D242-4 1D7CE-FF 1DA00-36 1DA3B-6C 1DA75 1DA84 1DA9B-F 1DAA1-F 1E000-6 1E008-18
  1E01B-21 1E023-4 1E026-A 1E08F 1E130-6 1E140-9 1E2AE 1E2EC-F9 1E4EC-F9 1E5EE-F 1E5F1-A 1E8D0-6
  1E944-A 1E950-9 1FBF0-9 E0100-EF"

/-- Whether a table of ranges holds a number. -/
def inRanges (table : Array (Nat × Nat)) (n : Nat) : Bool :=
  table.any fun (first, last) => decide (first ≤ n) && decide (n ≤ last)

/-- A character that may start an identifier, the underscore aside. -/
def isLetter (c : Char) : Bool :=
  c.isAlpha ||
    let n := c.toNat
    if n < 0x80 then false
    else if n < 0x1000 then inRanges letterRangesLow n
    else if n < 0x10000 then inRanges letterRangesMiddle n
    else inRanges letterRangesHigh n

/-- A character that may stand in an identifier after the first one. -/
def continuesIdentifier (c : Char) : Bool :=
  c.isAlphanum || c == '_' || isLetter c ||
    let n := c.toNat
    if n < 0x80 then false
    else if n < 0x2000 then inRanges extenderRangesLow n
    else inRanges extenderRangesHigh n

end GoToJava.Text
