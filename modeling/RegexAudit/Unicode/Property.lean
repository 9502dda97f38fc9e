/-!
# Character properties

Tables of some properties of characters: not all that Unicode has, but those that the program knows.
Names are matched loosely: case, underscores and one leading `is` do not count. A bare name is looked
for among the binary properties, then the general categories, then the scripts.
-/

namespace RegexAudit.Unicode

/-! ## Tables -/

/-- Every second code point from `first` to `last`. -/
def alternating (first last : Nat) : List (Nat × Nat) :=
  (List.range ((last - first) / 2 + 1)).map fun k => (first + 2 * k, first + 2 * k)

/-- Upper case letters between lower case ones. -/
def uppercaseAlternations : List (Nat × Nat) :=
  [(0x100, 0x136), (0x139, 0x147), (0x14A, 0x176), (0x1CD, 0x1DB), (0x1DE, 0x1EE), (0x1FA, 0x232),
   (0x248, 0x24E), (0x3D8, 0x3EE), (0x460, 0x480), (0x48A, 0x4BE), (0x4C3, 0x4CD), (0x4D0, 0x52E),
   (0x1E00, 0x1E94), (0x1E9E, 0x1EFE), (0x1F59, 0x1F5F), (0x2C82, 0x2CE2), (0xA640, 0xA66C),
   (0xA680, 0xA69A), (0xA722, 0xA72E), (0xA732, 0xA76E), (0xA780, 0xA786), (0xA796, 0xA7A8),
   (0xA7B6, 0xA7C2), (0xA7D6, 0xA7DC)]

/-- The other upper case letters. -/
def uppercaseSpans : List (Nat × Nat) :=
  [(0x41, 0x5A), (0xC0, 0xD6), (0xD8, 0xDE), (0x178, 0x179), (0x17B, 0x17B), (0x17D, 0x17D),
   (0x181, 0x182), (0x184, 0x184), (0x186, 0x187), (0x189, 0x18B), (0x18E, 0x191), (0x193, 0x194),
   (0x196, 0x198), (0x19C, 0x19D), (0x19F, 0x1A0), (0x1A2, 0x1A2), (0x1A4, 0x1A4), (0x1A6, 0x1A7),
   (0x1A9, 0x1A9), (0x1AC, 0x1AC), (0x1AE, 0x1AF), (0x1B1, 0x1B3), (0x1B5, 0x1B5), (0x1B7, 0x1B8),
   (0x1BC, 0x1BC), (0x1C4, 0x1C4), (0x1C7, 0x1C7), (0x1CA, 0x1CA), (0x1F1, 0x1F1), (0x1F4, 0x1F4),
   (0x1F6, 0x1F8), (0x23A, 0x23B), (0x23D, 0x23E), (0x241, 0x241), (0x243, 0x246), (0x370, 0x370),
   (0x372, 0x372), (0x376, 0x376), (0x37F, 0x37F), (0x386, 0x386), (0x388, 0x38A), (0x38C, 0x38C),
   (0x38E, 0x38F), (0x391, 0x3A1), (0x3A3, 0x3AB), (0x3CF, 0x3CF), (0x3D2, 0x3D4), (0x3F4, 0x3F4),
   (0x3F7, 0x3F7), (0x3F9, 0x3FA), (0x3FD, 0x42F), (0x4C0, 0x4C1), (0x531, 0x556),
   (0x10A0, 0x10C5), (0x10C7, 0x10C7), (0x10CD, 0x10CD), (0x13A0, 0x13F5), (0x1C89, 0x1C89),
   (0x1C90, 0x1CBA), (0x1CBD, 0x1CBF), (0x1F08, 0x1F0F), (0x1F18, 0x1F1D), (0x1F28, 0x1F2F),
   (0x1F38, 0x1F3F), (0x1F48, 0x1F4D), (0x1F68, 0x1F6F), (0x1FB8, 0x1FBB), (0x1FC8, 0x1FCB),
   (0x1FD8, 0x1FDB), (0x1FE8, 0x1FEC), (0x1FF8, 0x1FFB), (0x2102, 0x2102), (0x2107, 0x2107),
   (0x210B, 0x210D), (0x2110, 0x2112), (0x2115, 0x2115), (0x2119, 0x211D), (0x2124, 0x2124),
   (0x2126, 0x2126), (0x2128, 0x2128), (0x212A, 0x212D), (0x2130, 0x2133), (0x213E, 0x213F),
   (0x2145, 0x2145), (0x2183, 0x2183), (0x2C00, 0x2C2F), (0x2C60, 0x2C60), (0x2C62, 0x2C64),
   (0x2C67, 0x2C67), (0x2C69, 0x2C69), (0x2C6B, 0x2C6B), (0x2C6D, 0x2C70), (0x2C72, 0x2C72),
   (0x2C75, 0x2C75), (0x2C7E, 0x2C80), (0x2CEB, 0x2CEB), (0x2CED, 0x2CED), (0x2CF2, 0x2CF2),
   (0xA779, 0xA779), (0xA77B, 0xA77B), (0xA77D, 0xA77E), (0xA78B, 0xA78B), (0xA78D, 0xA78D),
   (0xA790, 0xA790), (0xA792, 0xA792), (0xA7AA, 0xA7AE), (0xA7B0, 0xA7B4), (0xA7C4, 0xA7C7),
   (0xA7C9, 0xA7C9), (0xA7CB, 0xA7CC), (0xA7D0, 0xA7D0), (0xA7F5, 0xA7F5), (0xFF21, 0xFF3A),
   (0x10400, 0x10427), (0x104B0, 0x104D3), (0x10570, 0x1057A), (0x1057C, 0x1058A),
   (0x1058C, 0x10592), (0x10594, 0x10595), (0x10C80, 0x10CB2), (0x10D50, 0x10D65),
   (0x118A0, 0x118BF), (0x16E40, 0x16E5F), (0x1D400, 0x1D419), (0x1D434, 0x1D44D),
   (0x1D468, 0x1D481), (0x1D49C, 0x1D49C), (0x1D49E, 0x1D49F), (0x1D4A2, 0x1D4A2),
   (0x1D4A5, 0x1D4A6), (0x1D4A9, 0x1D4AC), (0x1D4AE, 0x1D4B5), (0x1D4D0, 0x1D4E9),
   (0x1D504, 0x1D505), (0x1D507, 0x1D50A), (0x1D50D, 0x1D514), (0x1D516, 0x1D51C),
   (0x1D538, 0x1D539), (0x1D53B, 0x1D53E), (0x1D540, 0x1D544), (0x1D546, 0x1D546),
   (0x1D54A, 0x1D550), (0x1D56C, 0x1D585), (0x1D5A0, 0x1D5B9), (0x1D5D4, 0x1D5ED),
   (0x1D608, 0x1D621), (0x1D63C, 0x1D655), (0x1D670, 0x1D689), (0x1D6A8, 0x1D6C0),
   (0x1D6E2, 0x1D6FA), (0x1D71C, 0x1D734), (0x1D756, 0x1D76E), (0x1D790, 0x1D7A8),
   (0x1D7CA, 0x1D7CA), (0x1E900, 0x1E921)]

def uppercase : List (Nat × Nat) :=
  uppercaseSpans ++ uppercaseAlternations.flatMap fun (first, last) => alternating first last

/-- Title case letters. -/
def titlecase : List (Nat × Nat) :=
  [(0x1C5, 0x1C5), (0x1C8, 0x1C8), (0x1CB, 0x1CB), (0x1F2, 0x1F2), (0x1F88, 0x1F8F),
   (0x1F98, 0x1F9F), (0x1FA8, 0x1FAF), (0x1FBC, 0x1FBC), (0x1FCC, 0x1FCC), (0x1FFC, 0x1FFC)]

/-- Numbers that are letters. -/
def letterNumber : List (Nat × Nat) :=
  [(0x16EE, 0x16F0), (0x2160, 0x2182), (0x2185, 0x2188), (0x3007, 0x3007), (0x3021, 0x3029),
   (0x3038, 0x303A), (0xA6E6, 0xA6EF), (0x10140, 0x10174), (0x10341, 0x10341), (0x1034A, 0x1034A),
   (0x103D1, 0x103D5), (0x12400, 0x1246E)]

/-- Connector punctuation. -/
def connector : List (Nat × Nat) :=
  [(0x5F, 0x5F), (0x203F, 0x2040), (0x2054, 0x2054), (0xFE33, 0xFE34), (0xFE4D, 0xFE4F),
   (0xFF3F, 0xFF3F)]

/-- Controls. -/
def control : List (Nat × Nat) :=
  [(0x0, 0x1F), (0x7F, 0x9F)]

/-- The line separator. -/
def lineSeparator : List (Nat × Nat) :=
  [(0x2028, 0x2028)]

/-- The paragraph separator. -/
def paragraphSeparator : List (Nat × Nat) :=
  [(0x2029, 0x2029)]

/-- Spaces. -/
def spaceSeparator : List (Nat × Nat) :=
  [(0x20, 0x20), (0xA0, 0xA0), (0x1680, 0x1680), (0x2000, 0x200A), (0x202F, 0x202F),
   (0x205F, 0x205F), (0x3000, 0x3000)]

/-- Hexadecimal digits of ASCII. -/
def hexDigitAscii : List (Nat × Nat) :=
  [(0x30, 0x39), (0x41, 0x46), (0x61, 0x66)]

/-- Hexadecimal digits. -/
def hexDigit : List (Nat × Nat) :=
  [(0x30, 0x39), (0x41, 0x46), (0x61, 0x66), (0xFF10, 0xFF19), (0xFF21, 0xFF26), (0xFF41, 0xFF46)]

/-- Regional indicators. -/
def regionalIndicator : List (Nat × Nat) :=
  [(0x1F1E6, 0x1F1FF)]

/-- White space. -/
def whiteSpace : List (Nat × Nat) :=
  [(0x9, 0xD), (0x20, 0x20), (0x85, 0x85), (0xA0, 0xA0), (0x1680, 0x1680), (0x2000, 0x200A),
   (0x2028, 0x2029), (0x202F, 0x202F), (0x205F, 0x205F), (0x3000, 0x3000)]

/-- The Deseret script. -/
def deseret : List (Nat × Nat) :=
  [(0x10400, 0x1044F)]

/-- The Greek script. -/
def greek : List (Nat × Nat) :=
  [(0x370, 0x373), (0x375, 0x377), (0x37A, 0x37D), (0x37F, 0x37F), (0x384, 0x384), (0x386, 0x386),
   (0x388, 0x38A), (0x38C, 0x38C), (0x38E, 0x3A1), (0x3A3, 0x3E1), (0x3F0, 0x3FF),
   (0x1D26, 0x1D2A), (0x1D5D, 0x1D61), (0x1D66, 0x1D6A), (0x1DBF, 0x1DBF), (0x1F00, 0x1F15),
   (0x1F18, 0x1F1D), (0x1F20, 0x1F45), (0x1F48, 0x1F4D), (0x1F50, 0x1F57), (0x1F59, 0x1F59),
   (0x1F5B, 0x1F5B), (0x1F5D, 0x1F5D), (0x1F5F, 0x1F7D), (0x1F80, 0x1FB4), (0x1FB6, 0x1FC4),
   (0x1FC6, 0x1FD3), (0x1FD6, 0x1FDB), (0x1FDD, 0x1FEF), (0x1FF2, 0x1FF4), (0x1FF6, 0x1FFE),
   (0x2126, 0x2126), (0xAB65, 0xAB65), (0x10140, 0x1018E), (0x101A0, 0x101A0), (0x1D200, 0x1D245)]

/-- Characters used with the Greek script. -/
def greekExtensions : List (Nat × Nat) :=
  [(0xB7, 0xB7), (0x300, 0x301), (0x304, 0x304), (0x306, 0x306), (0x308, 0x308), (0x313, 0x313),
   (0x342, 0x342), (0x345, 0x345), (0x370, 0x377), (0x37A, 0x37D), (0x37F, 0x37F), (0x384, 0x384),
   (0x386, 0x386), (0x388, 0x38A), (0x38C, 0x38C), (0x38E, 0x3A1), (0x3A3, 0x3E1), (0x3F0, 0x3FF),
   (0x1D26, 0x1D2A), (0x1D5D, 0x1D61), (0x1D66, 0x1D6A), (0x1DBF, 0x1DC1), (0x1F00, 0x1F15),
   (0x1F18, 0x1F1D), (0x1F20, 0x1F45), (0x1F48, 0x1F4D), (0x1F50, 0x1F57), (0x1F59, 0x1F59),
   (0x1F5B, 0x1F5B), (0x1F5D, 0x1F5D), (0x1F5F, 0x1F7D), (0x1F80, 0x1FB4), (0x1FB6, 0x1FC4),
   (0x1FC6, 0x1FD3), (0x1FD6, 0x1FDB), (0x1FDD, 0x1FEF), (0x1FF2, 0x1FF4), (0x1FF6, 0x1FFE),
   (0x205D, 0x205D), (0x2126, 0x2126), (0xAB65, 0xAB65), (0x10140, 0x1018E), (0x101A0, 0x101A0),
   (0x1D200, 0x1D245)]

/-! ## Names -/

/-- The form under which a name is looked up. -/
def looseName (name : List Char) : List Char :=
  let letters (cs : List Char) : List Char :=
    (cs.filter fun c => c != '_' && c != ' ' && c != '-').map Char.toLower
  match name with
  | i :: s :: rest =>
    if i.toLower = 'i' && s.toLower = 's' then
      if letters rest = ['c'] then ['i', 's', 'c'] else letters rest
    else letters name
  | _ => letters name

/-- Look a loose name up in a table whose rows may have several names. -/
def lookup? (table : List (List String × List (Nat × Nat))) (name : List Char) :
    Option (List (Nat × Nat)) :=
  (table.find? fun row => row.1.any fun n => n.toList == name).map (·.2)

def binaryProperties : List (List String × List (Nat × Nat)) :=
  [(["ahex", "asciihexdigit"], hexDigitAscii),
   (["hex", "hexdigit"], hexDigit),
   (["ri", "regionalindicator"], regionalIndicator),
   (["whitespace", "space", "wspace"], whiteSpace)]

def categories : List (List String × List (Nat × Nat)) :=
  [(["any"], [(0, 0x10FFFF)]),
   (["ascii"], [(0, 0x7F)]),
   (["lu", "uppercaseletter"], uppercase),
   (["lt", "titlecaseletter"], titlecase),
   (["nl", "letternumber"], letterNumber),
   (["pc", "connectorpunctuation"], connector),
   (["cc", "control", "cntrl"], control),
   (["zl", "lineseparator"], lineSeparator),
   (["zp", "paragraphseparator"], paragraphSeparator),
   (["zs", "spaceseparator"], spaceSeparator)]

def scripts : List (List String × List (Nat × Nat)) :=
  [(["greek", "grek"], greek), (["deseret", "dsrt"], deseret)]

def scriptExtensions : List (List String × List (Nat × Nat)) :=
  [(["greek", "grek"], greekExtensions), (["deseret", "dsrt"], deseret)]

/-- The tables that a key selects. -/
def keys : List (List String × List (List String × List (Nat × Nat))) :=
  [(["gc", "generalcategory"], categories),
   (["sc", "script"], scripts),
   (["scx", "scriptextensions"], scriptExtensions)]

/-- The code points of a property; `none` if there is no table for it. -/
def property? (key : Option (List Char)) (value : List Char) : Option (List (Nat × Nat)) :=
  let name := looseName value
  match key with
  | some key => do
    let row ← keys.find? fun row => row.1.any fun n => n.toList == looseName key
    lookup? row.2 name
  | none => lookup? binaryProperties name <|> lookup? categories name <|> lookup? scripts name

end RegexAudit.Unicode
