import MfskCore.Fec.Ldpc

/-! The tables of the three LDPC codes (`fec/ldpc/tables.rs` and `fec/ldpc/osd.rs`,
`fec/ldpc240_101/tables.rs`, `fec/ldpc_128_90/tables.rs`), as the source has them. -/
namespace MfskCore.Fec

/-- The three checks of each bit. -/
def MN_174_91 : List (List Nat) :=
  [[15, 44, 72], [24, 50, 61], [32, 57, 77], [0, 43, 44], [1, 6, 60], [2, 5, 53], [3, 34, 47], [4, 12, 20],
   [7, 55, 78], [8, 63, 68], [9, 18, 65], [10, 35, 59], [11, 36, 57], [13, 31, 42], [14, 62, 79],
   [16, 27, 76], [17, 73, 82], [21, 52, 80], [22, 29, 33], [23, 30, 39], [25, 40, 75], [26, 56, 69],
   [28, 48, 64], [2, 37, 77], [4, 38, 81], [45, 49, 72], [50, 51, 73], [54, 70, 71], [43, 66, 71],
   [42, 67, 77], [0, 31, 58], [1, 5, 70], [3, 15, 53], [6, 64, 66], [7, 29, 41], [8, 21, 30], [9, 17, 75],
   [10, 22, 81], [11, 27, 60], [12, 51, 78], [13, 49, 50], [14, 80, 82], [16, 28, 59], [18, 32, 63],
   [19, 25, 72], [20, 33, 39], [23, 26, 76], [24, 54, 57], [34, 52, 65], [35, 47, 67], [36, 45, 74],
   [37, 44, 46], [38, 56, 68], [40, 55, 61], [19, 48, 52], [45, 51, 62], [44, 69, 74], [26, 34, 79],
   [0, 14, 29], [1, 67, 79], [2, 35, 50], [3, 27, 50], [4, 30, 55], [5, 19, 36], [6, 39, 81], [7, 59, 68],
   [8, 9, 48], [10, 43, 56], [11, 38, 58], [12, 23, 54], [13, 20, 64], [15, 70, 77], [16, 29, 75],
   [17, 24, 79], [18, 60, 82], [21, 37, 76], [22, 40, 49], [6, 25, 57], [28, 31, 80], [32, 39, 72],
   [17, 33, 47], [12, 41, 63], [4, 25, 42], [46, 68, 71], [53, 54, 69], [44, 61, 67], [9, 62, 66],
   [13, 65, 71], [21, 59, 73], [34, 38, 78], [0, 45, 63], [0, 23, 65], [1, 4, 69], [2, 30, 64], [3, 48, 57],
   [0, 3, 4], [5, 59, 66], [6, 31, 74], [7, 47, 81], [8, 34, 40], [9, 38, 61], [10, 13, 60], [11, 70, 73],
   [12, 22, 77], [10, 34, 54], [14, 15, 78], [6, 8, 15], [16, 53, 62], [17, 49, 56], [18, 29, 46],
   [19, 63, 79], [20, 27, 68], [21, 24, 42], [12, 21, 36], [1, 46, 50], [22, 53, 73], [25, 33, 71],
   [26, 35, 36], [20, 35, 62], [28, 39, 43], [18, 25, 56], [2, 45, 81], [13, 14, 57], [32, 51, 52],
   [29, 42, 51], [5, 8, 51], [26, 32, 64], [24, 68, 72], [37, 54, 82], [19, 38, 76], [17, 28, 55],
   [31, 47, 70], [41, 50, 58], [27, 43, 78], [33, 59, 61], [30, 44, 60], [45, 67, 76], [5, 23, 75],
   [7, 9, 77], [39, 40, 69], [16, 49, 52], [41, 65, 67], [3, 21, 71], [35, 63, 80], [12, 28, 46],
   [1, 7, 80], [55, 66, 72], [4, 37, 49], [11, 37, 63], [58, 71, 79], [2, 25, 78], [44, 75, 80],
   [0, 64, 73], [6, 17, 76], [10, 55, 58], [13, 38, 53], [15, 36, 65], [9, 27, 54], [14, 59, 69],
   [16, 24, 81], [19, 29, 30], [11, 66, 67], [22, 74, 79], [26, 31, 61], [23, 68, 74], [18, 20, 70],
   [33, 52, 60], [34, 45, 46], [32, 58, 75], [39, 42, 82], [40, 41, 62], [48, 74, 82], [19, 43, 47],
   [41, 48, 56]]

/-- The bits of each check, padded to the same length. -/
def NM_174_91 : List (List Nat) :=
  [[3, 30, 58, 90, 91, 95, 152], [4, 31, 59, 92, 114, 145, 255], [5, 23, 60, 93, 121, 150, 255],
   [6, 32, 61, 94, 95, 142, 255], [7, 24, 62, 82, 92, 95, 147], [5, 31, 63, 96, 125, 137, 255],
   [4, 33, 64, 77, 97, 106, 153], [8, 34, 65, 98, 138, 145, 255], [9, 35, 66, 99, 106, 125, 255],
   [10, 36, 66, 86, 100, 138, 157], [11, 37, 67, 101, 104, 154, 255], [12, 38, 68, 102, 148, 161, 255],
   [7, 39, 69, 81, 103, 113, 144], [13, 40, 70, 87, 101, 122, 155], [14, 41, 58, 105, 122, 158, 255],
   [0, 32, 71, 105, 106, 156, 255], [15, 42, 72, 107, 140, 159, 255], [16, 36, 73, 80, 108, 130, 153],
   [10, 43, 74, 109, 120, 165, 255], [44, 54, 63, 110, 129, 160, 172], [7, 45, 70, 111, 118, 165, 255],
   [17, 35, 75, 88, 112, 113, 142], [18, 37, 76, 103, 115, 162, 255], [19, 46, 69, 91, 137, 164, 255],
   [1, 47, 73, 112, 127, 159, 255], [20, 44, 77, 82, 116, 120, 150], [21, 46, 57, 117, 126, 163, 255],
   [15, 38, 61, 111, 133, 157, 255], [22, 42, 78, 119, 130, 144, 255], [18, 34, 58, 72, 109, 124, 160],
   [19, 35, 62, 93, 135, 160, 255], [13, 30, 78, 97, 131, 163, 255], [2, 43, 79, 123, 126, 168, 255],
   [18, 45, 80, 116, 134, 166, 255], [6, 48, 57, 89, 99, 104, 167], [11, 49, 60, 117, 118, 143, 255],
   [12, 50, 63, 113, 117, 156, 255], [23, 51, 75, 128, 147, 148, 255], [24, 52, 68, 89, 100, 129, 155],
   [19, 45, 64, 79, 119, 139, 169], [20, 53, 76, 99, 139, 170, 255], [34, 81, 132, 141, 170, 173, 255],
   [13, 29, 82, 112, 124, 169, 255], [3, 28, 67, 119, 133, 172, 255], [0, 3, 51, 56, 85, 135, 151],
   [25, 50, 55, 90, 121, 136, 167], [51, 83, 109, 114, 144, 167, 255], [6, 49, 80, 98, 131, 172, 255],
   [22, 54, 66, 94, 171, 173, 255], [25, 40, 76, 108, 140, 147, 255], [1, 26, 40, 60, 61, 114, 132],
   [26, 39, 55, 123, 124, 125, 255], [17, 48, 54, 123, 140, 166, 255], [5, 32, 84, 107, 115, 155, 255],
   [27, 47, 69, 84, 104, 128, 157], [8, 53, 62, 130, 146, 154, 255], [21, 52, 67, 108, 120, 173, 255],
   [2, 12, 47, 77, 94, 122, 255], [30, 68, 132, 149, 154, 168, 255], [11, 42, 65, 88, 96, 134, 158],
   [4, 38, 74, 101, 135, 166, 255], [1, 53, 85, 100, 134, 163, 255], [14, 55, 86, 107, 118, 170, 255],
   [9, 43, 81, 90, 110, 143, 148], [22, 33, 70, 93, 126, 152, 255], [10, 48, 87, 91, 141, 156, 255],
   [28, 33, 86, 96, 146, 161, 255], [29, 49, 59, 85, 136, 141, 161], [9, 52, 65, 83, 111, 127, 164],
   [21, 56, 84, 92, 139, 158, 255], [27, 31, 71, 102, 131, 165, 255], [27, 28, 83, 87, 116, 142, 149],
   [0, 25, 44, 79, 127, 146, 255], [16, 26, 88, 102, 115, 152, 255], [50, 56, 97, 162, 164, 171, 255],
   [20, 36, 72, 137, 151, 168, 255], [15, 46, 75, 129, 136, 153, 255], [2, 23, 29, 71, 103, 138, 255],
   [8, 39, 89, 105, 133, 150, 255], [14, 57, 59, 73, 110, 149, 162], [17, 41, 78, 143, 145, 151, 255],
   [24, 37, 64, 98, 121, 159, 255], [16, 41, 74, 128, 169, 171, 255]]

def NRW_174_91 : List Nat :=
  [7, 6, 6, 6, 7, 6, 7, 6, 6, 7, 6, 6, 7, 7, 6, 6, 6, 7, 6, 7, 6, 7, 6, 6, 6, 7, 6, 6, 6, 7, 6, 6, 6, 6, 7,
   6, 6, 6, 7, 7, 6, 6, 6, 6, 7, 7, 6, 6, 6, 6, 7, 6, 6, 6, 7, 6, 6, 6, 6, 7, 6, 6, 6, 7, 6, 6, 6, 7, 7, 6,
   6, 7, 6, 6, 6, 6, 6, 6, 6, 7, 6, 6, 6]

def GEN_PARITY_174_91 : List Nat :=
  [0b1000001100101001110011100001000110111111001100011110101011110101000010011111001001111111110,
   0b0111011000011100001001100100111000100101110000100101100100110011010101001001001100010011001,
   0b1101110000100110010110010000001011111011001001110111110001100100000100001010000110111101110,
   0b0001101100111111010000010111100001011000110011010010110111010011001111101100011111110110001,
   0b0000100111111101101001001111111011100000010000011001010111111101000000110100011110000011101,
   0b0000011101111100110011001100000100011011100010000111001111101101010111000011110101001000101,
   0b0010100110110110001010101111111000111100101000000011011011110100111111100001101010011101101,
   0b0110000001010100111110101111010111110011010111011001011011010011101100001100100011000011111,
   0b1110001000000111100110001110010000110001000011101110110100100111100010000100101011101001000,
   0b0111011101011100100111000000100011101000000011100010011011011101101011100101011000110001100,
   0b1011000010111000000100010000001010001100001010111111100110010111001000010011010010000111110,
   0b0001100010100000110010010010001100011111110001100000101011011111010111000101111010100011001,
   0b0111011001000111000111101000001100000010101000000111001000011110000000011011000100101011100,
   0b1111111110111100110010111000000011001010100000110100000111111010111110110100011110110010111,
   0b0110011010100111001010100001010110001111100100110010010110100010101111110110011100010111000,
   0b1100010000100100001101101000100111111110100001011011000111000101000100110110001110100001100,
   0b0000110111111111011100111001010000010100110100011010000110110011010010110001110000100111000,
   0b0001010110110100100010000011000001100011011011001000101110011001100010010100100101110010111,
   0b0010100110101000100111000000110100111101111010000001110101100110010101001000100110110000111,
   0b0100111100010010011011110011011111111010010100011100101111100110000110111101011010111001010,
   0b1001100111000100011100100011100111010000110110010111110100111100100001001110000010010100000,
   0b0001100100011001101101110101000100011001011101100101011000100001101110110100111100011110100,
   0b0000100111011011000100101101011100110001111110101110111000001011100001101101111101101011100,
   0b0100100010001111110000110011110111110100001111111011110111101110101001001110101011111011010,
   0b1000001001110100001000111110111001000000101101100111010111110111010101101110101101011111111,
   0b1010101111100001100101111100010010000100110010110111010001110101011100010100010010101001101,
   0b0010101101010000000011100100101111000000111011000101101001101101001010111101101111011101000,
   0b1100010001110100101010100101001111010111000000100001100001110110000101100110100100110110000,
   0b1000111010111010000110100001001111011011001100111001000010111101011001110001100011001110110,
   0b0111010100111000010001000110011100111010001001110111100000101100110001000010000000010010111,
   0b0000011011111111100000111010000101000101110000110111000000110101101001011100000100100110100,
   0b0011101100110111010000010111100001011000110011000010110111010011001111101100001111110110001,
   0b1001101001001010010110100010100011101110000101111100101010011100001100100100100001000010110,
   0b1011110000101001111101000110010100110000100111001001011101111110100010010110000100001010010,
   0b0010011001100011101011100110110111011111100010110101110011100010101110110010100101001000100,
   0b0100011011110010001100011110111111100100010101110000001101001100000110000001010001000001100,
   0b0011111110110010110011101000010110101011111010011011000011000111001011100000011011111011111,
   0b1101111010000111010010000001111100101000001011000001010100111001011100011010000010100010111,
   0b1111110011010111110011001111001000111100011010011111101010011001101110111010000101000001001,
   0b1111000000100110000101000100011111101001010010010000110010101000111001000111010011001110110,
   0b0100010000010000000100010101100000011000000110010110111110010101110011011101011100000001001,
   0b0000100010001111110000110001110111110100101111111011110111100010101001001110101011111011010,
   0b1011100011111110111100011011011000110000011101110010100111111011000010100000011110001100000,
   0b0101101011111110101001111010110011001100101101110111101110111100100111011001100110101001000,
   0b0100100110100111000000010110101011000110010100111111011001011110110011011100100100000111011,
   0b0001100101000100110100001000010110111110010011100111110110101000110101101100110001111101000,
   0b0010010100011111011000101010110111000100000000110010111100001110111001110001010000000000001,
   0b0101011001000111000111111000011100000010101000000111001000011110000000001011000100101011100,
   0b0010101110001110010010010010001111110010110111010101000111100010110101010011011111111010000,
   0b0110101101010101000010100100000010100110011011110100011101010101110111101001010111000010011,
   0b1010000110001010110100101000110101001110001001111111111010010010101001001111011011001000010,
   0b0001000011000010111001011000011000111000100011001011100000101010001111011000000001110101100,
   0b1110111100110100101001000001100000010111111011100000001000010011001111011011001011101011000,
   0b0111111010011100000011000101010000110010010110101001110000010101100000110110111000000000000,
   0b0011011010010011111001010111001011010001111111011110010011001101111100000111100111101000011,
   0b1011111110110010110011101100010110101011111000011011000011000111001011100000011111111011111,
   0b0111111011100001100000100011000011000101100000111100110011001100010101111101010010110000100,
   0b1010000001100110110010110010111111101101101011111100100111110101001001100110010000010010011,
   0b1011101100100011011100100101101010111100010001111100110001011111010011001100010011001101001,
   0b1101111011011001110110111010001110111110111001000000110001011001101101010110000010011011010,
   0b1101100110100111000000010110101011000110010100111110011011011110110011011100100100000011011,
   0b1001101011010100011010101110110101011111011100000111111100101000000010101011010111111100010,
   0b1110010110010010000111000111011110000010001001011000011100110001011011010111110100111100001,
   0b0100111100010100110110101000001001000010101010001011100001101101110010100111001100110101001,
   0b1000101110001011010100000111101011010100011001111101010001000100000111011111011101110000111,
   0b0010001010000011000111001001110011110001000101101001010001100111101011010000010010110110100,
   0b0010000100111011100000111000111111100010101011100101010011000011100011101110011100011000000,
   0b0101110110010010011010110110110111010111000111110000100001010001100000011010010011100001001,
   0b0110011010101011011110011101010010110010100111101110011011100110100101010000100111100101011,
   0b1001010110000001010010000110100000101101011101001000101000111000110111010110100010111010101,
   0b1011100011001110000000100000110011110000011010011100001100101010011100100011101010110001010,
   0b1111010000110011000111010110110101000110000101100000011111101001010101110101001001110100011,
   0b0110110110100010001110111010010000100100101110010101100101100001001100111100111110011100100,
   0b1010011000110110101111001011110001111011001100001100010111111011111010101110011001111111111,
   0b0101110010110000110110000110101000000111110111110110010101001010100100001000100110100010000,
   0b1111000100011111000100000110100001001000011110000000111111001001111011001101110110000000101,
   0b0001111110111011010100110110010011111011100011010010110010011101011100110000110101011011101,
   0b1111110010111000011010111100011100001010010100001100100111010000001010100101110100000011010,
   0b1010010100110100010000110011000000101001111010101100000101011111001100100010111000110100110,
   0b1100100110001001110110011100011111000011110100111011100011000101010111010111010100010011000,
   0b0111101110110011100010110010111100000001100001101101010001100110010000111010111010010110001,
   0b0010011001000100111010111010110111101011010001001011100101000110011111010001111101000010110,
   0b0110000010001100110010000101011101011001010010111111101110110101010111010110100101100000000]

/-- The LDPC(174, 91) code of FT8, FT4 and FT2. -/
def Ldpc174_91Params : LdpcParams where
  N := 174
  K := 91
  M := 83
  MAX_ROW := 7
  MN := MN_174_91
  NM := NM_174_91
  NRW := NRW_174_91
  GEN_PARITY := GEN_PARITY_174_91

/-- The three checks of each bit. -/
def MN_240_101 : List (List Nat) :=
  [[56, 99, 133], [55, 98, 135], [0, 11, 14], [1, 22, 71], [2, 132, 136], [3, 92, 124], [4, 67, 138],
   [5, 37, 54], [6, 39, 77], [7, 29, 83], [8, 16, 121], [9, 33, 94], [10, 35, 137], [12, 89, 131],
   [13, 49, 116], [15, 56, 82], [17, 21, 120], [18, 59, 88], [19, 97, 106], [20, 36, 60], [23, 25, 74],
   [24, 87, 114], [26, 48, 126], [27, 73, 118], [28, 110, 113], [30, 90, 128], [31, 95, 103], [29, 32, 129],
   [34, 64, 134], [40, 41, 86], [43, 107, 130], [44, 93, 100], [44, 45, 96], [46, 101, 133], [47, 63, 103],
   [18, 50, 115], [19, 51, 66], [52, 103, 112], [11, 53, 102], [57, 65, 87], [61, 79, 123], [62, 69, 70],
   [72, 113, 122], [75, 84, 127], [76, 105, 108], [45, 78, 125], [60, 80, 109], [81, 91, 119],
   [85, 104, 111], [65, 99, 117], [22, 50, 135], [0, 39, 52], [1, 72, 80], [2, 62, 129], [3, 67, 135],
   [4, 59, 77], [5, 71, 130], [6, 114, 123], [7, 88, 119], [8, 14, 43], [9, 21, 92], [10, 48, 99],
   [12, 54, 79], [13, 75, 94], [15, 53, 110], [16, 40, 109], [17, 68, 138], [20, 23, 115], [24, 38, 70],
   [25, 68, 89], [26, 100, 132], [27, 63, 125], [28, 93, 102], [30, 55, 56], [31, 90, 101], [32, 34, 128],
   [33, 46, 127], [35, 85, 116], [36, 73, 74], [37, 78, 105], [41, 81, 122], [42, 76, 98], [47, 69, 91],
   [49, 108, 117], [51, 111, 118], [57, 61, 107], [58, 83, 133], [56, 64, 121], [66, 96, 112],
   [82, 126, 134], [84, 120, 124], [86, 131, 136], [95, 97, 104], [72, 106, 137], [0, 82, 88], [1, 40, 69],
   [2, 34, 130], [3, 110, 127], [4, 28, 98], [5, 24, 30], [6, 18, 95], [0, 38, 109], [1, 6, 116],
   [2, 48, 108], [3, 80, 95], [4, 99, 107], [5, 50, 123], [1, 19, 131], [7, 79, 136], [8, 55, 66],
   [9, 62, 101], [10, 15, 100], [11, 114, 121], [12, 31, 127], [13, 14, 129], [13, 69, 98], [10, 50, 68],
   [16, 88, 104], [17, 82, 98], [18, 43, 78], [19, 105, 132], [9, 20, 122], [21, 22, 60], [15, 21, 59],
   [23, 37, 113], [24, 36, 41], [25, 42, 51], [26, 67, 70], [27, 64, 138], [28, 61, 68], [29, 91, 125],
   [30, 77, 122], [12, 43, 77], [32, 39, 119], [6, 33, 118], [3, 34, 76], [11, 35, 51], [24, 97, 135],
   [4, 23, 132], [0, 79, 90], [32, 95, 96], [33, 40, 90], [31, 36, 116], [25, 71, 124], [18, 64, 74],
   [44, 130, 135], [45, 54, 69], [46, 47, 49], [5, 47, 93], [2, 73, 78], [38, 49, 125], [22, 117, 126],
   [20, 35, 112], [52, 76, 133], [29, 53, 54], [16, 45, 134], [8, 91, 101], [56, 84, 86], [57, 124, 137],
   [58, 75, 92], [59, 65, 106], [46, 131, 137], [28, 84, 130], [42, 72, 107], [63, 74, 128], [27, 37, 52],
   [60, 105, 121], [55, 70, 113], [26, 56, 119], [61, 66, 129], [53, 103, 117], [7, 67, 114], [71, 85, 110],
   [72, 73, 93], [48, 104, 112], [41, 85, 120], [39, 58, 108], [34, 87, 94], [30, 106, 111], [57, 63, 86],
   [67, 78, 103], [0, 4, 120], [14, 81, 92], [17, 87, 115], [81, 83, 118], [6, 70, 102], [3, 79, 93],
   [62, 80, 83], [65, 75, 136], [82, 123, 128], [89, 111, 115], [88, 110, 133], [5, 20, 119], [2, 15, 24],
   [11, 27, 130], [44, 94, 109], [16, 92, 123], [96, 120, 126], [97, 102, 134], [7, 98, 137],
   [40, 100, 138], [12, 23, 104], [13, 52, 106], [9, 63, 97], [10, 34, 77], [89, 99, 102], [8, 71, 100],
   [17, 73, 91], [14, 72, 86], [1, 87, 112], [19, 54, 84], [18, 66, 109], [25, 26, 94], [21, 49, 113],
   [28, 48, 80], [31, 51, 82], [29, 36, 76], [38, 127, 134], [22, 127, 129], [35, 75, 125], [32, 131, 138],
   [33, 88, 117], [37, 57, 126], [30, 53, 124], [39, 69, 74], [40, 108, 115], [42, 59, 62], [43, 83, 85],
   [41, 46, 61], [44, 81, 89], [42, 45, 90], [47, 111, 121], [50, 101, 132], [58, 60, 107], [64, 116, 136],
   [55, 65, 95], [58, 68, 103], [38, 68, 118], [96, 114, 122], [105, 110, 128]]

/-- The bits of each check, padded to the same length. -/
def NM_240_101 : List (List Nat) :=
  [[2, 51, 94, 101, 139, 181], [3, 52, 95, 102, 107, 209], [4, 53, 96, 103, 149, 193],
   [5, 54, 97, 104, 135, 186], [6, 55, 98, 105, 138, 181], [7, 56, 99, 106, 148, 192],
   [8, 57, 100, 102, 134, 185], [9, 58, 108, 171, 199, 0], [10, 59, 109, 156, 206, 0],
   [11, 60, 110, 121, 203, 0], [12, 61, 111, 116, 204, 0], [2, 38, 112, 136, 194, 0],
   [13, 62, 113, 132, 201, 0], [14, 63, 114, 115, 202, 0], [2, 59, 114, 182, 208, 0],
   [15, 64, 111, 123, 193, 0], [10, 65, 117, 155, 196, 0], [16, 66, 118, 183, 207, 0],
   [17, 35, 100, 119, 144, 211], [18, 36, 107, 120, 210, 0], [19, 67, 121, 152, 192, 0],
   [16, 60, 122, 123, 213, 0], [3, 50, 122, 151, 218, 0], [20, 67, 124, 138, 201, 0],
   [21, 68, 99, 125, 137, 193], [20, 69, 126, 143, 212, 0], [22, 70, 127, 168, 212, 0],
   [23, 71, 128, 165, 194, 0], [24, 72, 98, 129, 162, 214], [9, 27, 130, 154, 216, 0],
   [25, 73, 99, 131, 178, 223], [26, 74, 113, 142, 215, 0], [27, 75, 133, 140, 220, 0],
   [11, 76, 134, 141, 221, 0], [28, 75, 96, 135, 177, 204], [12, 77, 136, 152, 219, 0],
   [19, 78, 125, 142, 216, 0], [7, 79, 124, 165, 222, 0], [68, 101, 150, 217, 237, 0],
   [8, 51, 133, 176, 224, 0], [29, 65, 95, 141, 200, 225], [29, 80, 125, 175, 228, 0],
   [81, 126, 163, 226, 230, 0], [30, 59, 119, 132, 227, 0], [31, 32, 145, 195, 229, 0],
   [32, 45, 146, 155, 230, 0], [33, 76, 147, 161, 228, 0], [34, 82, 147, 148, 231, 0],
   [22, 61, 103, 174, 214, 0], [14, 83, 147, 150, 213, 0], [35, 50, 106, 116, 232, 0],
   [36, 84, 126, 136, 215, 0], [37, 51, 153, 165, 202, 0], [38, 64, 154, 170, 223, 0],
   [7, 62, 146, 154, 210, 0], [1, 73, 109, 167, 235, 0], [0, 15, 73, 87, 157, 168],
   [39, 85, 158, 179, 222, 0], [86, 159, 176, 233, 236, 0], [17, 55, 123, 160, 226, 0],
   [19, 46, 122, 166, 233, 0], [40, 85, 129, 169, 228, 0], [41, 53, 110, 187, 226, 0],
   [34, 71, 164, 179, 203, 0], [28, 87, 128, 144, 234, 0], [39, 49, 160, 188, 235, 0],
   [36, 88, 109, 169, 211, 0], [6, 54, 127, 171, 180, 0], [66, 69, 116, 129, 236, 237],
   [41, 82, 95, 115, 146, 224], [41, 68, 127, 167, 185, 0], [3, 56, 143, 172, 206, 0],
   [42, 52, 93, 163, 173, 208], [23, 78, 149, 173, 207, 0], [20, 78, 144, 164, 224, 0],
   [43, 63, 159, 188, 219, 0], [44, 81, 135, 153, 216, 0], [8, 55, 131, 132, 204, 0],
   [45, 79, 119, 149, 180, 0], [40, 62, 108, 139, 186, 0], [46, 52, 104, 187, 214, 0],
   [47, 80, 182, 184, 229, 0], [15, 89, 94, 118, 189, 215], [9, 86, 184, 187, 227, 0],
   [43, 90, 157, 162, 210, 0], [48, 77, 172, 175, 227, 0], [29, 91, 157, 179, 208, 0],
   [21, 39, 177, 183, 209, 0], [17, 58, 94, 117, 191, 221], [13, 69, 190, 205, 229, 0],
   [25, 74, 139, 141, 230, 0], [47, 82, 130, 156, 207, 0], [5, 60, 159, 182, 196, 0],
   [31, 72, 148, 173, 186, 0], [11, 63, 177, 195, 212, 0], [26, 92, 100, 104, 140, 235],
   [32, 88, 140, 197, 238, 0], [18, 92, 137, 198, 203, 0], [1, 81, 98, 115, 118, 199],
   [0, 49, 61, 105, 205, 0], [31, 70, 111, 200, 206, 0], [33, 74, 110, 156, 232, 0],
   [38, 72, 185, 198, 205, 0], [26, 34, 37, 170, 180, 236], [48, 92, 117, 174, 201, 0],
   [44, 79, 120, 166, 239, 0], [18, 93, 160, 178, 202, 0], [30, 85, 105, 163, 233, 0],
   [44, 83, 103, 176, 225, 0], [46, 65, 101, 195, 211, 0], [24, 64, 97, 172, 191, 239],
   [48, 84, 178, 190, 231, 0], [37, 88, 152, 174, 209, 0], [24, 42, 124, 167, 213, 0],
   [21, 57, 112, 171, 238, 0], [35, 67, 183, 190, 225, 0], [14, 77, 102, 142, 234, 0],
   [49, 83, 151, 170, 221, 0], [23, 84, 134, 184, 237, 0], [47, 58, 133, 168, 192, 0],
   [16, 90, 175, 181, 197, 0], [10, 87, 112, 166, 231, 0], [42, 80, 121, 131, 238, 0],
   [40, 57, 106, 189, 196, 0], [5, 90, 143, 158, 223, 0], [45, 71, 130, 150, 219, 0],
   [22, 89, 151, 197, 222, 0], [43, 76, 97, 113, 217, 218], [25, 75, 164, 189, 239, 0],
   [27, 53, 114, 169, 218, 0], [30, 56, 96, 145, 162, 194], [13, 91, 107, 161, 220, 0],
   [4, 70, 120, 138, 232, 0], [0, 33, 86, 153, 191, 0], [28, 89, 155, 198, 217, 0],
   [1, 50, 54, 137, 145, 0], [4, 91, 108, 188, 234, 0], [12, 93, 158, 161, 199, 0],
   [6, 66, 128, 200, 220, 0]]

def NRW_240_101 : List Nat :=
  [6, 6, 6, 6, 6, 6, 6, 5, 5, 5, 5, 5, 5, 5, 5, 5, 5, 5, 6, 5, 5, 5, 5, 5, 6, 5, 5, 5, 6, 5, 6, 5, 5, 5, 6,
   5, 5, 5, 5, 5, 6, 5, 5, 5, 5, 5, 5, 5, 5, 5, 5, 5, 5, 5, 5, 5, 6, 5, 5, 5, 5, 5, 5, 5, 5, 5, 5, 5, 6, 6,
   5, 5, 6, 5, 5, 5, 5, 5, 5, 5, 5, 5, 6, 5, 5, 5, 5, 5, 6, 5, 5, 5, 5, 5, 5, 6, 5, 5, 6, 5, 5, 5, 5, 6, 5,
   5, 5, 5, 5, 5, 6, 5, 5, 5, 5, 5, 5, 5, 5, 5, 5, 5, 5, 5, 5, 5, 5, 6, 5, 5, 6, 5, 5, 5, 5, 5, 5, 5, 5]

def GEN_PARITY_240_101 : List Nat :=
  [0b11100010100011011111000100110011111011111011110001010101010010111100110100110000111010110001100000101,
   0b10110001101011011111100101110111100001111111100000011011010010101100000000101110000011001010111111111,
   0b11100111000011000100001110101101110011100101000000110110111110000100011110101111001101100111010101100,
   0b11000010011001100110001111110111111101111010110010101111110111110101101010111010110010110110111100110,
   0b11101011101010010011001000000100110111011111101000111011110011111001100101001010111010101000100110011,
   0b00010010011010110101000111100011001111000110101001110100000010101111101000001101010111001110100110010,
   0b10110100000110100001010101101001111001101111111011011110000111110010111101010011100101011100101101101,
   0b00011101001110101111000010111011010000111111110111011011110001100111000010100010100100011100110001110,
   0b11100000101011101011110110011001001000011110001011001001111000011101010001010011111111111100110010110,
   0b10001001011111010001001101110000111100001101111110010100101110001011001001111010010111100100111110111,
   0b01011110100101110101001110010011001110000000000000111011000100111111101010000001100110001010110100111,
   0b01110010011101101011100001111101101001001010010011010111011101111110001001110101001011111101110101001,
   0b10011000100110001000100010111101001110101000010110000011010111100010101111000110101001010110000011111,
   0b01111110110001001111010010100101011000011001100110101011000010101000110101101110000100000010010001111,
   0b00100000011100000000011101100110010100001001000000100101100001111000001011010001101100111000101010011,
   0b00011110101000011111011000011100110101111111000010110111111011101101011111011101001101000110101010111,
   0b00001000111100010101000010110010011111000111111100011000101000000010011101111000001111011110000011101,
   0b11010100001000110010010010100100111000100001101101100010110101010100100011010111100001100101100001011,
   0b00101110000000101001011001010110001001101001110101001111111001000110111000010110011111010010000111010,
   0b01111101100001001010110010110111011100110111101100001100101001101011011011110010111011110101111010110,
   0b01100110011101001100101000000100010100101000101011010100011110000010101111110101111000010101001001001,
   0b00010001100011001110100110000010010111110101011000111010111001001001011000111010111101111010000010110,
   0b11111011000001100010010010001100110010011000010111100011000101001011000110110011011011001100110100111,
   0b00011100010001111000101101111010010110101110110001111110000111001111110010011100001001001110101101110,
   0b00011000010110100000111100000110101010000100111101111111010011110100100001001100010001010101000000100,
   0b10011000101110000100000010100011101001110000011010001000110011010101100001011000100011100011111000110,
   0b11001111101101110111000110011101111010000011101000111011101011110101100000101110010110110010101010100,
   0b10011101100011001100011010110101101000000001111111011011111110100011000001111010011101101001000001001,
   0b11101101011101110110101001110010100011001010000101100010110101101111110011001000100110010110011101100,
   0b10001101001010110000011010000001001010001101111110110010111110001101001000101100011110011101101101010,
   0b10111101001010111010010100000000000001110111100010011111111110110111001100100100101010101001000110010,
   0b11111101100101010000000010001111111010001000100000010010000000100101111001111000000001100101011000010,
   0b00110000001001111000010010011011111010001110100110011111100111101111011010001110101011000001000000100,
   0b10001000010101110100111000011110101000111001110110000111010000010100101100010101111010000000001110101,
   0b10001001001101100101101100110011000011100111011011100110110111011110011101000000110111001110110100001,
   0b11001000001111110011011110111001000100111110110100001111011010111000000000101010101011110010000111011,
   0b10111101110010100111110000011001010110011100101010100111010010001000101101111110101100010011000000110,
   0b01111001010011100000101101001000100010001110000111101111010000101001100100100010100001111101110110011,
   0b01010010011010101100100001111111101110101010011110010000110001101100110101011000100001100100111000001,
   0b10010100000001010001100010111010000110100101000111000001110110100101010110111100100010110010110101110,
   0b01011001110001011110010100011110101111111011110100000010101010110011000011111111100000100010001101111,
   0b11001000000111111111111110000111100001100110111000000100111110001111001110010100100011000111111100010,
   0b01111001000100110101000100111111001111100010101000111100000011110111011010110110100111110110110101101,
   0b11100100001111001100000001001101101000011000100111000100010010000000001111000100111101110100000010100,
   0b11111101110010100111110000011001010110011100101010000101010010001000101101111110101100010011000000110,
   0b10010101101100000111111111001110100110110111101100011011111101001111000001010111110010100110000110111,
   0b11010111110110110100100010101000011001101001000110100000110000001100100100110000010110101010110010010,
   0b00001101010100001011111101111001101001011001010001100100010110010111110001000011101110101000000001011,
   0b01001010100111000011010010110010001111111101010111101010111111111000110010011101110000100001010111100,
   0b00111101010100110000010110100110111100000100001001111001001110001110111010111001110100011100000100011,
   0b01010101110110001011011010110101100000000011100111110111101000111010001011010101100100101010100100000,
   0b01111000010011110011010010011110110010110111010011000100101010111011110110111011000001110011101110010,
   0b01011001011100111011101110110010001000000101111110011101011010100101110010011010010101011100001000111,
   0b01011101001011101110011000010000000001101111111011001001010011110110100111110110101100001111010001100,
   0b10011110000111110101001011101111000111100110010110001001100110010000110111010000110011100000110011001,
   0b10000101101101111011010010001111010010110100010101110111010111001001111110001010001101101100110010010,
   0b10101110000111010110101000000001011100010001011010001111011011010111000010000000010010110111100111111,
   0b10100100011001111010101010011010101001101100110111000111000010010100011001110111110001110011000011011,
   0b11011100111100101111010101101100100110101110001000001111101101010111111010001001101110010001011011010,
   0b00111010111010011000110100100110101011101001011011101010011100010100110000011010010100010100011011010,
   0b00010000001111001000100101011000000101000100011010000000010110111000110001110001101100101110011000111,
   0b01100111100000111111001111011111111011001000001101011101110101001110100100100001001100011100110000100,
   0b01010010111110001000010000101000110001010000111100010010110001010101100001110110111101111101100010101,
   0b01010001111111001011000011100101011010100010001011111010001110110111000101000000101011101010101010000,
   0b00000111110001010100100001110001000101010101011000000011111001100101001100100101111101100110110011011,
   0b10101000110111010100111110101100010001111010000100010011111011100101011100000110111011101111000110000,
   0b11110110110011011100011011110100110011000001111110100111111001001101101100010101101111111000011011111,
   0b00101110000111000110101000000001011100010001011010001111011011010111000011000000010010100111100111111,
   0b00101010100100001010101110000010101111101111011001000010010011011011100110000001011101010010110111001,
   0b10000100010110100001110110110101100111000001100100110010010010011101100100110111111010001000100111010,
   0b10101001001010011101001101111001111100010111011010011100101101001011101010100100111001000001111010010,
   0b00001100001010100101100000101001010101001000110110000010001000100011110101101111010101100110110101001,
   0b01000010000000001000011110111100010111000100111000101111010110111100000100111001101011010000001000100,
   0b01101101111110001101100010000000101011100111001000001001111111100101001011000110100111101101111000000,
   0b11011111101111011100111011110010100110101001100001011111110101000000110100000101001011010001101010001,
   0b10000101011001111111110000110011001000110100001010110001111011011000010000001000111101011111101000000,
   0b11001001000010001111111010110100111000011000011001101010001001001100101000001100011100000010101000001,
   0b01100100010111110101111011100101100111111001111101100100111111010100001110100101111100101110110000110,
   0b10111110111001010110100110010001111010000111011110111010111100111110100111001111000100011011011101110,
   0b01100100100111101010001011100100000110010100110010100101000110111110001010001010101111110011010000110,
   0b10010000111001110011100101001100010101010001101111010101100011010000000001101000011011010101010000100,
   0b01001110001111001111011100110001111110001111100010011110100001000001010000100001010010101111101011110,
   0b11011100101111110001011010101010100000011000000010100111011100010010010101110001111010010100111110011,
   0b10011011010001010110110000000001010110011001100111000101001010110111111110111101000110101011001110010,
   0b00111001011110101011011101101001001001000110010110011100010010111000101100111011111001001010110001011,
   0b01001111010100000011100011000100111110011101101001001011000000101011110111111010000101111000001001111,
   0b01001000100100101111101011011010100101111000110010011000110111010100111111010011011000111100010001010,
   0b01101100100010101111011001001011010000100110101111000100011101000100001100011100000100010000110010011,
   0b10000100101001010101001110111110010111101111000011100101011100111001000010100101101011110000010110110,
   0b10111110110101001010100100110100011111001001101000100000011001001111011011010110001110101100000011111,
   0b11011001011100111011101110110010011000000101111110011101011010100101110010011010010101111100001000111,
   0b00011110001110111110111010011010100110011111111000010000110100111000011001001110111001100110100111011,
   0b10100101100100000111011100011111111100011000010111011000000001111100101100110010111101000110000000000,
   0b10011010010010011000111111000100101101010100100111011000000111000110001001011111100000001111110010010,
   0b00101000101100111110011100101000011110001010101011011110111001111110000011100010011000010111100101010,
   0b10010110110011100000001001011101011000100001101010010001001110010110101010101000111100111110110000100,
   0b01001111010110100111011110111110110011111000001110001010010110010000110101101101010000000110111010101,
   0b01010010110100111000010101101101111110111001111111100111100000000001001011110001000011100010010111000,
   0b10110100010100110010001111000010101100101000101101000111010100101100101000000110011101011101001011100,
   0b00111011101011100101101010000100010100101010011110000101101111101011001101011000010100011010110100011,
   0b01100101000010011000100000110010110100100000110110010001010111100111010110111110101000110011011011101,
   0b01011110101101101111001111000011001100010000100110001110100011000000111110111111101000111010111011100,
   0b11101111000110011101100101110100101000100101010101000000110010001001100110001111101111110001110111110,
   0b01000000001111101010010110001111111011111111000010001100111110010010110101011100101011001100011110000,
   0b01101011101010010011001000000100110111011111101001111011110010111001100101001010111010101000100110011,
   0b01100101001110010000100100010110011010101010011110111110101011010100101111011001110010010000000000100,
   0b00001000100111001011001000001110011000111001101111000101101001000100110110100110011011110001011111000,
   0b00010000111110000000001110010100100110010110000100110101100111101001100101001111010110101101111010001,
   0b00010101101101111110110000011110011000010000011011001101010101011110111101111101100110010110010110010,
   0b11001001100111101001100111011110100111011000010111010010101110011001100110100001011110101001010111011,
   0b11001010001111100001011000011011100101110001010010001011101011000110110111010010100010100110000101111,
   0b11100001101010110001100110011100100110010010110010110100110000100010101011101110000100010101001101011,
   0b11101010100010100100110100001110100101101101001111011001111110000010011110001001100110110110110110001,
   0b10001010111101001001100100101101011000000010001000111111000000100001010101101001101010001010101101100,
   0b01010000100001110111011100011010101111001110101110000111101001101101100001110010001010010001111111101,
   0b11010000010001011110000010000001001011100010000101111011101101111011101111011010110010010010111100110,
   0b11001100110011001101011110001010111001011111101001101110000110010001111100100001110000000110100100001,
   0b01010100010101000101111100110111110111110110111111101101010001110011010011101111011001010000100110110,
   0b10110000011110000000001100100111110110001001100111001011110000000011110110010101101010000001101001001,
   0b10100100001000101001110000110001111100101011100001011110010001001010001100100010001001110011110101010,
   0b11010001100000101010101100000000000111000010000010000101111010100111101111100010011010100010000011010,
   0b00011010100000101100001100001011010011111011101001111101111110101010111110111000110100101000011110101,
   0b11011001011101001111101110100101100110001110011111111011000001100011000011000001010110000111110110110,
   0b10110101110000000111100010101000110010111010101100111110011100110111001010000110010110011110101000100,
   0b01100010011010111011111110011110111011010001101010000111000101011100001110100111110100111000111101100,
   0b11000001111011111110100110101010011001110001001100001000011001011111110110101001001111011000101111101,
   0b11010011100101111001011011011011110011100001010101011101111101100011000001101110011110110111011111000,
   0b11000111111001111100000111110000001100101101011100100000100110110100010101001001111010000100101010101,
   0b11010101011110011001101100110000101000010110000001011011101011110110101110011100110100000100100101100,
   0b00001011101011110010110100100001000001010001101010010010011011011111110110000111000001000110110101110,
   0b11011010100010111111011111010001111000110000010111000100100110011011010101110011110000000010110011001,
   0b00001100110010101010011111111111111110111001101011100011111001000010110111010000011010001000001100101,
   0b10111001010100011011011000101110000110001111010100101001000010101100000100111100000110010101000100110,
   0b01111001101100000000011011110000000000011001011000011111101100100011001110111110100000001101000011101,
   0b01010110011000110111101101101101111011011111110101101110000001010000111100000110010000000100101001001,
   0b11100000110001001011111101110001101000010101010110010111010100100011101110111101010101111011110111100,
   0b00010011000100100010001100011111111110100000010001000010011010100011010010101000111110101011000000111,
   0b11011011010111110110111100000100010101011101001001001011100000110101100011010001110010111100001111011,
   0b11010101010110011110001100011011001101001101001000011111010010001110000111110101000000011010111100110]

/-- The LDPC(240, 101) code of FST4. -/
def Ldpc240_101Params : LdpcParams where
  N := 240
  K := 101
  M := 139
  MAX_ROW := 6
  MN := MN_240_101
  NM := NM_240_101
  NRW := NRW_240_101
  GEN_PARITY := GEN_PARITY_240_101

/-- The three checks of each bit. -/
def MN_128_90 : List (List Nat) :=
  [[20, 33, 35], [0, 7, 27], [1, 8, 36], [2, 6, 18], [3, 15, 31], [1, 4, 21], [5, 12, 24], [9, 30, 32],
   [10, 23, 26], [11, 14, 22], [13, 17, 25], [16, 19, 28], [16, 29, 33], [5, 33, 34], [0, 9, 29],
   [2, 17, 22], [3, 11, 24], [4, 27, 35], [6, 13, 20], [7, 14, 30], [8, 26, 31], [10, 18, 34], [12, 15, 36],
   [19, 23, 37], [20, 21, 25], [11, 28, 32], [0, 16, 34], [1, 27, 29], [2, 9, 31], [3, 7, 35], [4, 18, 28],
   [5, 19, 26], [6, 21, 36], [8, 10, 32], [12, 23, 25], [13, 30, 33], [14, 15, 24], [12, 17, 37],
   [7, 19, 22], [0, 31, 32], [1, 16, 18], [2, 23, 33], [3, 6, 37], [4, 10, 30], [5, 17, 20], [8, 14, 35],
   [9, 15, 27], [11, 25, 29], [13, 26, 28], [21, 24, 34], [22, 29, 31], [3, 10, 36], [0, 13, 22],
   [1, 7, 24], [2, 12, 26], [4, 9, 36], [5, 15, 30], [6, 14, 17], [8, 21, 23], [11, 18, 35], [16, 25, 37],
   [19, 20, 32], [19, 27, 34], [3, 28, 33], [0, 25, 35], [1, 22, 33], [2, 8, 37], [4, 5, 16], [6, 26, 34],
   [7, 13, 31], [9, 14, 21], [10, 17, 28], [11, 12, 27], [15, 18, 32], [20, 24, 30], [23, 29, 36],
   [0, 2, 20], [1, 17, 30], [3, 5, 8], [4, 7, 32], [6, 28, 31], [9, 12, 18], [10, 21, 22], [11, 26, 33],
   [13, 14, 29], [15, 26, 37], [16, 27, 36], [19, 24, 25], [4, 23, 34], [2, 5, 35], [0, 11, 30], [1, 3, 32],
   [2, 15, 29], [0, 1, 23], [4, 22, 26], [5, 27, 31], [6, 16, 35], [7, 21, 37], [8, 17, 19], [9, 20, 28],
   [10, 12, 33], [3, 13, 19], [10, 29, 37], [13, 34, 36], [14, 18, 25], [2, 27, 28], [6, 7, 8], [4, 17, 33],
   [12, 14, 16], [11, 15, 34], [9, 22, 24], [18, 20, 36], [16, 26, 30], [23, 24, 35], [0, 17, 18],
   [5, 25, 32], [21, 30, 31], [2, 19, 21], [3, 20, 26], [1, 12, 28], [5, 6, 11], [14, 23, 31], [8, 24, 29],
   [22, 36, 37], [4, 15, 25], [10, 13, 27], [32, 35, 37], [7, 9, 34]]

/-- The bits of each check, padded to the same length. -/
def NM_128_90 : List (List Nat) :=
  [[1, 14, 26, 39, 52, 64, 76, 90, 93, 114, 0], [2, 5, 27, 40, 53, 65, 77, 91, 93, 119, 0],
   [3, 15, 28, 41, 54, 66, 76, 89, 92, 105, 117], [4, 16, 29, 42, 51, 63, 78, 91, 101, 118, 0],
   [5, 17, 30, 43, 55, 67, 79, 88, 94, 107, 124], [6, 13, 31, 44, 56, 67, 78, 89, 95, 115, 120],
   [3, 18, 32, 42, 57, 68, 80, 96, 106, 120, 0], [1, 19, 29, 38, 53, 69, 79, 97, 106, 127, 0],
   [2, 20, 33, 45, 58, 66, 78, 98, 106, 122, 0], [7, 14, 28, 46, 55, 70, 81, 99, 110, 127, 0],
   [8, 21, 33, 43, 51, 71, 82, 100, 102, 125, 0], [9, 16, 25, 47, 59, 72, 83, 90, 109, 120, 0],
   [6, 22, 34, 37, 54, 72, 81, 100, 108, 119, 0], [10, 18, 35, 48, 52, 69, 84, 101, 103, 125, 0],
   [9, 19, 36, 45, 57, 70, 84, 104, 108, 121, 0], [4, 22, 36, 46, 56, 73, 85, 92, 109, 124, 0],
   [11, 12, 26, 40, 60, 67, 86, 96, 108, 112, 0], [10, 15, 37, 44, 57, 71, 77, 98, 107, 114, 0],
   [3, 21, 30, 40, 59, 73, 81, 104, 111, 114, 0], [11, 23, 31, 38, 61, 62, 87, 98, 101, 117, 0],
   [0, 18, 24, 44, 61, 74, 76, 99, 111, 118, 0], [5, 24, 32, 49, 58, 70, 82, 97, 116, 117, 0],
   [9, 15, 38, 50, 52, 65, 82, 94, 110, 123, 0], [8, 23, 34, 41, 58, 75, 88, 93, 113, 121, 0],
   [6, 16, 36, 49, 53, 74, 87, 110, 113, 122, 0], [10, 24, 34, 47, 60, 64, 87, 104, 115, 124, 0],
   [8, 20, 31, 48, 54, 68, 83, 85, 94, 112, 118], [1, 17, 27, 46, 62, 72, 86, 95, 105, 125, 0],
   [11, 25, 30, 48, 63, 71, 80, 99, 105, 119, 0], [12, 14, 27, 47, 50, 75, 84, 92, 102, 122, 0],
   [7, 19, 35, 43, 56, 74, 77, 90, 112, 116, 0], [4, 20, 28, 39, 50, 69, 80, 95, 116, 121, 0],
   [7, 25, 33, 39, 61, 73, 79, 91, 115, 126, 0], [0, 12, 13, 35, 41, 63, 65, 83, 100, 107, 0],
   [13, 21, 26, 49, 62, 68, 88, 103, 109, 127, 0], [0, 17, 29, 45, 59, 64, 89, 96, 113, 126, 0],
   [2, 22, 32, 51, 55, 75, 86, 103, 111, 123, 0], [23, 37, 42, 60, 66, 85, 97, 102, 123, 126, 0]]

def NRW_128_90 : List Nat :=
  [10, 10, 11, 10, 11, 11, 10, 10, 10, 10, 10, 10, 10, 10, 10, 10, 10, 10, 10, 10, 10, 10, 10, 10, 10, 10,
   11, 10, 10, 10, 10, 10, 10, 10, 10, 10, 10, 10]

def GEN_PARITY_128_90 : List Nat :=
  [0b101000001000111010101000000010000111100100000101000010100101111010010100110110101001100101,
   0b010110011111001110110100100000000100000011001010000010001001110010000001111011101000100000,
   0b111001000000011100000010011000101000000000101110001100011011011110110001011111010011110111,
   0b100101011100101111001011101011110000001100101101110000111101100101100000101110101100110010,
   0b110001001101011110011011010111011100110000100001000101100001101000100101010011111111101111,
   0b100100111111110111101001110011011011111100100110001000101010011100001000011010000100001001,
   0b111001110011101110001000100010111011000110110000000100010110011100110111100110111010001010,
   0b010001011010000011010000101000001111001110011010011110101101001001000011100110010100100111,
   0b011101011001101011001110111100011001010001000100101111001010110101111001110001001001011001,
   0b011100011110101101001101110111011111010011110101111011011001111000101110101000010111111000,
   0b100000001111000010101101011101101111101100100100011111010110101101001100101010001101001110,
   0b000110000100111111111111001110101010000110111000001011011100011001100110010000000001000001,
   0b110010100100111000110010000010111011001110000010111011010001010011001011101100010000100101,
   0b010100100101000101000100010001111011100100001110001001011011100111100100010110011110001010,
   0b110111010001000011000001011001100110111000000111000110010101011010111101000011011111001110,
   0b100110011100001100110010101000001011011110010010101000101101101010001110111100011011101010,
   0b011110111101100111110110100010001110011111101101010000000010111000100011000110101010101011,
   0b000000001111110010101101011101101110101101100100011111010110101000001100101010001100001110,
   0b011010101100100011010000010010011001110001000011101100000010111011101101011110001101011100,
   0b001011000010110001110110010010111010111101111001010110110100011110001000110110110000000100,
   0b000011101001000001111011111110011110001010000000110100100110001001001000001000111101110100,
   0b101110000101011110100110111000110001010110101111110110001100000111001001001001011110011001,
   0b100011011110101101011000111000100010110101110011101000010100000111001010111000110111011110,
   0b001000101101001111001011100000001101100100101101011010101100000100110010110111111110000010,
   0b011101010100011101100011100001110111101100101000110000011000011101110100011010000101010111,
   0b000111010001101110110111110011110110100101010011011100110010111000000100111010111100101001,
   0b001011000110010111100000111010100100010001100110101010111001111101011110000111011110111011,
   0b011011011100010100110000110010100011011111111100100100010110110100011111100001001000011100,
   0b010010011011110011001011101111101110000101010010001101010101101111100111101011001001100001,
   0b111010000011100001111111001111110100001101100111110011110100010110100001010100000100010010,
   0b100011001110001001011110000000111101011001111101010100010000100100011100100000011000100001,
   0b101101111001100000000001001011111111101001000000101010010011100001010010011101010010110010,
   0b001011100100001100110000011110010011001110101101111111001010001101111010110111000011110010,
   0b110010100000011011100000101001000010110010100001111011000111100000101101011011000000011011,
   0b110000000010101101110110001010010010011101010101011010100111000000111001111001100011100011,
   0b010010100011111010011011011111010000100010110110100000000111111110000110000110011111101011,
   0b010001011110100000000011000011110110100010011001011110111011011010000101010001000100001001,
   0b011111100111100100110110001011000001011001110111001111101111110001100100100000101110001100]

/-- The LDPC(128, 90) code of MSK144. -/
def Ldpc128_90Params : LdpcParams where
  N := 128
  K := 90
  M := 38
  MAX_ROW := 11
  MN := MN_128_90
  NM := NM_128_90
  NRW := NRW_128_90
  GEN_PARITY := GEN_PARITY_128_90

end MfskCore.Fec
