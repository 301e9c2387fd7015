-- The characters with a visible form: letters, marks, numbers, punctuation and
-- symbols, as version 15.0 of the character standard classes them, and the blank.

namespace Quadlang.Text

/-- The visible characters above ASCII lie in these ranges, in ascending order, each with its first
character and its length. -/
def printableRanges : List (Nat × Nat) :=
  [(0xa1, 727), (0x37a, 6), (0x384, 467), (0x559, 50), (0x58d, 59), (0x5d0, 27), (0x5ef, 6),
   (0x606, 264), (0x710, 59), (0x74d, 101), (0x7c0, 59), (0x7fd, 49), (0x830, 44), (0x85e, 13),
   (0x870, 31), (0x898, 245), (0x98f, 2), (0x993, 32), (0x9b6, 4), (0x9bc, 9), (0x9c7, 2),
   (0x9cb, 4), (0x9d7, 1), (0x9dc, 8), (0x9e6, 25), (0xa01, 10), (0xa0f, 2), (0xa13, 39),
   (0xa3c, 7), (0xa47, 2), (0xa4b, 3), (0xa51, 1), (0xa59, 6), (0xa66, 17), (0xa81, 57),
   (0xabc, 18), (0xad0, 1), (0xae0, 4), (0xae6, 12), (0xaf9, 20), (0xb0f, 2), (0xb13, 39),
   (0xb3c, 9), (0xb47, 2), (0xb4b, 3), (0xb55, 3), (0xb5c, 8), (0xb66, 18), (0xb82, 9), (0xb8e, 8),
   (0xb99, 7), (0xba3, 2), (0xba8, 3), (0xbae, 12), (0xbbe, 5), (0xbc6, 8), (0xbd0, 1), (0xbd7, 1),
   (0xbe6, 21), (0xc00, 58), (0xc3c, 18), (0xc55, 6), (0xc5d, 1), (0xc60, 4), (0xc66, 10),
   (0xc77, 67), (0xcbc, 18), (0xcd5, 2), (0xcdd, 7), (0xce6, 14), (0xd00, 80), (0xd54, 16),
   (0xd66, 49), (0xd9a, 36), (0xdc0, 7), (0xdca, 1), (0xdcf, 17), (0xde6, 10), (0xdf2, 3),
   (0xe01, 58), (0xe3f, 29), (0xe81, 61), (0xec0, 26), (0xedc, 4), (0xf00, 109), (0xf71, 106),
   (0x1000, 200), (0x10cd, 1), (0x10d0, 382), (0x1250, 14), (0x1260, 46), (0x1290, 38),
   (0x12b8, 14), (0x12c8, 78), (0x1318, 67), (0x135d, 32), (0x1380, 26), (0x13a0, 86), (0x13f8, 6),
   (0x1400, 669), (0x16a0, 89), (0x1700, 22), (0x171f, 24), (0x1740, 20), (0x1760, 20),
   (0x1780, 94), (0x17e0, 10), (0x17f0, 10), (0x1800, 26), (0x1820, 89), (0x1880, 43), (0x18b0, 70),
   (0x1900, 44), (0x1930, 12), (0x1940, 1), (0x1944, 42), (0x1970, 5), (0x1980, 44), (0x19b0, 26),
   (0x19d0, 11), (0x19de, 62), (0x1a1e, 95), (0x1a7f, 11), (0x1a90, 10), (0x1aa0, 14), (0x1ab0, 31),
   (0x1b00, 77), (0x1b50, 164), (0x1bfc, 60), (0x1c3b, 15), (0x1c4d, 60), (0x1c90, 43),
   (0x1cbd, 11), (0x1cd0, 43), (0x1d00, 534), (0x1f18, 6), (0x1f20, 38), (0x1f48, 6), (0x1f50, 46),
   (0x1f80, 84), (0x1fd6, 26), (0x1ff2, 13), (0x2010, 24), (0x2030, 47), (0x2070, 2), (0x2074, 41),
   (0x20a0, 33), (0x20d0, 33), (0x2100, 140), (0x2190, 663), (0x2440, 11), (0x2460, 1812),
   (0x2b76, 382), (0x2cf9, 47), (0x2d2d, 1), (0x2d30, 56), (0x2d6f, 2), (0x2d7f, 24), (0x2da0, 190),
   (0x2e80, 116), (0x2f00, 214), (0x2ff0, 12), (0x3001, 150), (0x3099, 103), (0x3105, 223),
   (0x31f0, 29341), (0xa490, 55), (0xa4d0, 348), (0xa640, 184), (0xa700, 203), (0xa7d0, 10),
   (0xa7f2, 59), (0xa830, 10), (0xa840, 56), (0xa880, 70), (0xa8ce, 12), (0xa8e0, 116),
   (0xa95f, 30), (0xa980, 90), (0xa9de, 89), (0xaa40, 14), (0xaa50, 10), (0xaa5c, 103),
   (0xaadb, 28), (0xab01, 6), (0xab09, 6), (0xab11, 6), (0xab20, 76), (0xab70, 126), (0xabf0, 10),
   (0xac00, 11172), (0xd7b0, 23), (0xd7cb, 49), (0xf900, 366), (0xfa70, 106), (0xfb00, 7),
   (0xfb13, 5), (0xfb1d, 166), (0xfbd3, 445), (0xfd92, 54), (0xfdcf, 1), (0xfdf0, 42), (0xfe20, 76),
   (0xfe70, 141), (0xff01, 190), (0xffc2, 6), (0xffca, 6), (0xffd2, 6), (0xffda, 3), (0xffe0, 15),
   (0xfffc, 2), (0x10000, 78), (0x10050, 14), (0x10080, 123), (0x10100, 3), (0x10107, 45),
   (0x10137, 102), (0x101a0, 1), (0x101d0, 46), (0x10280, 29), (0x102a0, 49), (0x102e0, 28),
   (0x10300, 36), (0x1032d, 30), (0x10350, 43), (0x10380, 68), (0x103c8, 14), (0x10400, 158),
   (0x104a0, 10), (0x104b0, 36), (0x104d8, 36), (0x10500, 40), (0x10530, 52), (0x1056f, 78),
   (0x10600, 311), (0x10740, 22), (0x10760, 8), (0x10780, 59), (0x10800, 6), (0x10808, 49),
   (0x1083c, 1), (0x1083f, 96), (0x108a7, 9), (0x108e0, 22), (0x108fb, 33), (0x1091f, 27),
   (0x1093f, 1), (0x10980, 56), (0x109bc, 20), (0x109d2, 53), (0x10a0c, 42), (0x10a38, 3),
   (0x10a3f, 10), (0x10a50, 9), (0x10a60, 64), (0x10ac0, 39), (0x10aeb, 12), (0x10b00, 54),
   (0x10b39, 29), (0x10b58, 27), (0x10b78, 26), (0x10b99, 4), (0x10ba9, 7), (0x10c00, 73),
   (0x10c80, 51), (0x10cc0, 51), (0x10cfa, 46), (0x10d30, 10), (0x10e60, 78), (0x10eb0, 2),
   (0x10efd, 43), (0x10f30, 42), (0x10f70, 26), (0x10fb0, 28), (0x10fe0, 23), (0x11000, 78),
   (0x11052, 36), (0x1107f, 68), (0x110d0, 25), (0x110f0, 10), (0x11100, 72), (0x11150, 39),
   (0x11180, 117), (0x11200, 66), (0x11280, 42), (0x112b0, 59), (0x112f0, 10), (0x11300, 13),
   (0x1130f, 2), (0x11313, 50), (0x11347, 2), (0x1134b, 3), (0x11350, 1), (0x11357, 1),
   (0x1135d, 7), (0x11366, 7), (0x11370, 5), (0x11400, 98), (0x11480, 72), (0x114d0, 10),
   (0x11580, 54), (0x115b8, 38), (0x11600, 69), (0x11650, 10), (0x11660, 13), (0x11680, 58),
   (0x116c0, 10), (0x11700, 27), (0x1171d, 15), (0x11730, 23), (0x11800, 60), (0x118a0, 83),
   (0x118ff, 8), (0x11909, 1), (0x1190c, 45), (0x1193b, 12), (0x11950, 10), (0x119a0, 8),
   (0x119aa, 46), (0x119da, 11), (0x11a00, 72), (0x11a50, 83), (0x11ab0, 73), (0x11b00, 10),
   (0x11c00, 70), (0x11c50, 29), (0x11c70, 32), (0x11c92, 37), (0x11d00, 55), (0x11d3a, 14),
   (0x11d50, 10), (0x11d60, 57), (0x11da0, 10), (0x11ee0, 25), (0x11f00, 59), (0x11f3e, 28),
   (0x11fb0, 1), (0x11fc0, 50), (0x11fff, 923), (0x12400, 117), (0x12480, 196), (0x12f90, 99),
   (0x13000, 1072), (0x13440, 22), (0x14400, 583), (0x16800, 569), (0x16a40, 42), (0x16a6e, 92),
   (0x16ad0, 30), (0x16af0, 6), (0x16b00, 70), (0x16b50, 40), (0x16b7d, 19), (0x16e40, 91),
   (0x16f00, 75), (0x16f4f, 57), (0x16f8f, 17), (0x16fe0, 5), (0x16ff0, 2), (0x17000, 6136),
   (0x18800, 1238), (0x18d00, 9), (0x1aff0, 307), (0x1b132, 1), (0x1b150, 3), (0x1b155, 1),
   (0x1b164, 4), (0x1b170, 396), (0x1bc00, 107), (0x1bc70, 13), (0x1bc80, 9), (0x1bc90, 10),
   (0x1bc9c, 4), (0x1cf00, 46), (0x1cf30, 23), (0x1cf50, 116), (0x1d000, 246), (0x1d100, 39),
   (0x1d129, 74), (0x1d17b, 112), (0x1d200, 70), (0x1d2c0, 20), (0x1d2e0, 20), (0x1d300, 87),
   (0x1d360, 25), (0x1d400, 160), (0x1d4a2, 1), (0x1d4a5, 2), (0x1d4a9, 98), (0x1d50d, 58),
   (0x1d54a, 348), (0x1d6a8, 292), (0x1d7ce, 702), (0x1da9b, 21), (0x1df00, 31), (0x1df25, 6),
   (0x1e000, 25), (0x1e01b, 16), (0x1e030, 62), (0x1e08f, 1), (0x1e100, 45), (0x1e130, 14),
   (0x1e140, 10), (0x1e14e, 2), (0x1e290, 31), (0x1e2c0, 58), (0x1e2ff, 1), (0x1e4d0, 42),
   (0x1e7e0, 229), (0x1e8c7, 16), (0x1e900, 76), (0x1e950, 10), (0x1e95e, 2), (0x1ec71, 68),
   (0x1ed01, 61), (0x1ee00, 37), (0x1ee27, 21), (0x1ee42, 1), (0x1ee47, 14), (0x1ee57, 14),
   (0x1ee67, 53), (0x1eea1, 27), (0x1eef0, 2), (0x1f000, 44), (0x1f030, 100), (0x1f0a0, 15),
   (0x1f0b1, 69), (0x1f100, 174), (0x1f1e6, 29), (0x1f210, 44), (0x1f240, 9), (0x1f250, 2),
   (0x1f260, 6), (0x1f300, 984), (0x1f6dc, 17), (0x1f6f0, 13), (0x1f700, 119), (0x1f77b, 95),
   (0x1f7e0, 12), (0x1f7f0, 1), (0x1f800, 12), (0x1f810, 56), (0x1f850, 10), (0x1f860, 40),
   (0x1f890, 30), (0x1f8b0, 2), (0x1f900, 340), (0x1fa60, 14), (0x1fa70, 13), (0x1fa80, 9),
   (0x1fa90, 54), (0x1face, 14), (0x1fae0, 9), (0x1faf0, 9), (0x1fb00, 203), (0x1fbf0, 10),
   (0x20000, 42720), (0x2a700, 4154), (0x2b740, 222), (0x2b820, 5762), (0x2ceb0, 7473),
   (0x2f800, 542), (0x30000, 4939), (0x31350, 4192), (0xe0100, 240)]

/-- The characters inside the ranges that have no visible form, in ascending order. -/
def hiddenChars : List Nat :=
  [0xad, 0x38b, 0x38d, 0x3a2, 0x530, 0x590, 0x61c, 0x6dd, 0x83f, 0x85f, 0x8e2, 0x984, 0x9a9, 0x9b1,
   0x9de, 0xa04, 0xa29, 0xa31, 0xa34, 0xa37, 0xa3d, 0xa5d, 0xa84, 0xa8e, 0xa92, 0xaa9, 0xab1, 0xab4,
   0xac6, 0xaca, 0xb00, 0xb04, 0xb29, 0xb31, 0xb34, 0xb5e, 0xb84, 0xb91, 0xb9b, 0xb9d, 0xbc9, 0xc0d,
   0xc11, 0xc29, 0xc45, 0xc49, 0xc57, 0xc8d, 0xc91, 0xca9, 0xcb4, 0xcc5, 0xcc9, 0xcdf, 0xcf0, 0xd0d,
   0xd11, 0xd45, 0xd49, 0xd80, 0xd84, 0xdb2, 0xdbc, 0xdd5, 0xdd7, 0xe83, 0xe85, 0xe8b, 0xea4, 0xea6,
   0xec5, 0xec7, 0xecf, 0xf48, 0xf98, 0xfbd, 0xfcd, 0x10c6, 0x1249, 0x1257, 0x1259, 0x1289, 0x12b1,
   0x12bf, 0x12c1, 0x12d7, 0x1311, 0x1680, 0x176d, 0x1771, 0x180e, 0x191f, 0x1a5f, 0x1b7f, 0x1f58,
   0x1f5a, 0x1f5c, 0x1f5e, 0x1fb5, 0x1fc5, 0x1fdc, 0x1ff5, 0x208f, 0x2b96, 0x2d26, 0x2da7, 0x2daf,
   0x2db7, 0x2dbf, 0x2dc7, 0x2dcf, 0x2dd7, 0x2ddf, 0x2e9a, 0x3040, 0x3130, 0x318f, 0x321f, 0xa7d2,
   0xa7d4, 0xa9ce, 0xa9ff, 0xab27, 0xab2f, 0xfb37, 0xfb3d, 0xfb3f, 0xfb42, 0xfb45, 0xfe53, 0xfe67,
   0xfe75, 0xffe7, 0x1000c, 0x10027, 0x1003b, 0x1003e, 0x1018f, 0x1039e, 0x1057b, 0x1058b, 0x10593,
   0x10596, 0x105a2, 0x105b2, 0x105ba, 0x10786, 0x107b1, 0x10809, 0x10836, 0x10856, 0x108f3,
   0x10a04, 0x10a14, 0x10a18, 0x10e7f, 0x10eaa, 0x110bd, 0x11135, 0x111e0, 0x11212, 0x11287,
   0x11289, 0x1128e, 0x1129e, 0x11304, 0x11329, 0x11331, 0x11334, 0x1133a, 0x1145c, 0x11914,
   0x11917, 0x11936, 0x11c09, 0x11c37, 0x11ca8, 0x11d07, 0x11d0a, 0x11d3b, 0x11d3e, 0x11d66,
   0x11d69, 0x11d8f, 0x11d92, 0x11f11, 0x1246f, 0x16a5f, 0x16abf, 0x16b5a, 0x16b62, 0x1aff4,
   0x1affc, 0x1afff, 0x1d455, 0x1d49d, 0x1d4ad, 0x1d4ba, 0x1d4bc, 0x1d4c4, 0x1d506, 0x1d515,
   0x1d51d, 0x1d53a, 0x1d53f, 0x1d545, 0x1d551, 0x1daa0, 0x1e007, 0x1e022, 0x1e025, 0x1e7e7,
   0x1e7ec, 0x1e7ef, 0x1e7ff, 0x1ee04, 0x1ee20, 0x1ee23, 0x1ee28, 0x1ee33, 0x1ee38, 0x1ee3a,
   0x1ee48, 0x1ee4a, 0x1ee4c, 0x1ee50, 0x1ee53, 0x1ee58, 0x1ee5a, 0x1ee5c, 0x1ee5e, 0x1ee60,
   0x1ee63, 0x1ee6b, 0x1ee73, 0x1ee78, 0x1ee7d, 0x1ee7f, 0x1ee8a, 0x1eea4, 0x1eeaa, 0x1f0c0,
   0x1f0d0, 0x1fabe, 0x1fb93]

/-- Whether a character is written as itself inside quotes. -/
def isPrintable (n : Nat) : Bool :=
  if n < 0x7F then 0x20 ≤ n
  else printableRanges.any (fun (first, length) => first ≤ n && n < first + length) &&
    !hiddenChars.contains n

end Quadlang.Text
