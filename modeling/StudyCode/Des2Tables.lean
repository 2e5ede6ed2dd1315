import Mathlib.Data.BitVec

/-!
# The tables of des2.c

The tables of DES as the code lays them out for words of 32 bits, and its table
of weak keys.
-/

namespace StudyCode.Des2

/-- uint32_t. -/
abbrev Word := BitVec 32

/-- Substitution box 1, with the permutation behind it and rotated by one bit. -/
def sbox1 : List Word := [
  0x01010400,0x00000000,0x00010000,0x01010404,0x01010004,0x00010404,0x00000004,0x00010000,
  0x00000400,0x01010400,0x01010404,0x00000400,0x01000404,0x01010004,0x01000000,0x00000004,
  0x00000404,0x01000400,0x01000400,0x00010400,0x00010400,0x01010000,0x01010000,0x01000404,
  0x00010004,0x01000004,0x01000004,0x00010004,0x00000000,0x00000404,0x00010404,0x01000000,
  0x00010000,0x01010404,0x00000004,0x01010000,0x01010400,0x01000000,0x01000000,0x00000400,
  0x01010004,0x00010000,0x00010400,0x01000004,0x00000400,0x00000004,0x01000404,0x00010404,
  0x01010404,0x00010004,0x01010000,0x01000404,0x01000004,0x00000404,0x00010404,0x01010400,
  0x00000404,0x01000400,0x01000400,0x00000000,0x00010004,0x00010400,0x00000000,0x01010004]

/-- Substitution box 2, with the permutation behind it and rotated by one bit. -/
def sbox2 : List Word := [
  0x80108020,0x80008000,0x00008000,0x00108020,0x00100000,0x00000020,0x80100020,0x80008020,
  0x80000020,0x80108020,0x80108000,0x80000000,0x80008000,0x00100000,0x00000020,0x80100020,
  0x00108000,0x00100020,0x80008020,0x00000000,0x80000000,0x00008000,0x00108020,0x80100000,
  0x00100020,0x80000020,0x00000000,0x00108000,0x00008020,0x80108000,0x80100000,0x00008020,
  0x00000000,0x00108020,0x80100020,0x00100000,0x80008020,0x80100000,0x80108000,0x00008000,
  0x80100000,0x80008000,0x00000020,0x80108020,0x00108020,0x00000020,0x00008000,0x80000000,
  0x00008020,0x80108000,0x00100000,0x80000020,0x00100020,0x80008020,0x80000020,0x00100020,
  0x00108000,0x00000000,0x80008000,0x00008020,0x80000000,0x80100020,0x80108020,0x00108000]

/-- Substitution box 3, with the permutation behind it and rotated by one bit. -/
def sbox3 : List Word := [
  0x00000208,0x08020200,0x00000000,0x08020008,0x08000200,0x00000000,0x00020208,0x08000200,
  0x00020008,0x08000008,0x08000008,0x00020000,0x08020208,0x00020008,0x08020000,0x00000208,
  0x08000000,0x00000008,0x08020200,0x00000200,0x00020200,0x08020000,0x08020008,0x00020208,
  0x08000208,0x00020200,0x00020000,0x08000208,0x00000008,0x08020208,0x00000200,0x08000000,
  0x08020200,0x08000000,0x00020008,0x00000208,0x00020000,0x08020200,0x08000200,0x00000000,
  0x00000200,0x00020008,0x08020208,0x08000200,0x08000008,0x00000200,0x00000000,0x08020008,
  0x08000208,0x00020000,0x08000000,0x08020208,0x00000008,0x00020208,0x00020200,0x08000008,
  0x08020000,0x08000208,0x00000208,0x08020000,0x00020208,0x00000008,0x08020008,0x00020200]

/-- Substitution box 4, with the permutation behind it and rotated by one bit. -/
def sbox4 : List Word := [
  0x00802001,0x00002081,0x00002081,0x00000080,0x00802080,0x00800081,0x00800001,0x00002001,
  0x00000000,0x00802000,0x00802000,0x00802081,0x00000081,0x00000000,0x00800080,0x00800001,
  0x00000001,0x00002000,0x00800000,0x00802001,0x00000080,0x00800000,0x00002001,0x00002080,
  0x00800081,0x00000001,0x00002080,0x00800080,0x00002000,0x00802080,0x00802081,0x00000081,
  0x00800080,0x00800001,0x00802000,0x00802081,0x00000081,0x00000000,0x00000000,0x00802000,
  0x00002080,0x00800080,0x00800081,0x00000001,0x00802001,0x00002081,0x00002081,0x00000080,
  0x00802081,0x00000081,0x00000001,0x00002000,0x00800001,0x00002001,0x00802080,0x00800081,
  0x00002001,0x00002080,0x00800000,0x00802001,0x00000080,0x00800000,0x00002000,0x00802080]

/-- Substitution box 5, with the permutation behind it and rotated by one bit. -/
def sbox5 : List Word := [
  0x00000100,0x02080100,0x02080000,0x42000100,0x00080000,0x00000100,0x40000000,0x02080000,
  0x40080100,0x00080000,0x02000100,0x40080100,0x42000100,0x42080000,0x00080100,0x40000000,
  0x02000000,0x40080000,0x40080000,0x00000000,0x40000100,0x42080100,0x42080100,0x02000100,
  0x42080000,0x40000100,0x00000000,0x42000000,0x02080100,0x02000000,0x42000000,0x00080100,
  0x00080000,0x42000100,0x00000100,0x02000000,0x40000000,0x02080000,0x42000100,0x40080100,
  0x02000100,0x40000000,0x42080000,0x02080100,0x40080100,0x00000100,0x02000000,0x42080000,
  0x42080100,0x00080100,0x42000000,0x42080100,0x02080000,0x00000000,0x40080000,0x42000000,
  0x00080100,0x02000100,0x40000100,0x00080000,0x00000000,0x40080000,0x02080100,0x40000100]

/-- Substitution box 6, with the permutation behind it and rotated by one bit. -/
def sbox6 : List Word := [
  0x20000010,0x20400000,0x00004000,0x20404010,0x20400000,0x00000010,0x20404010,0x00400000,
  0x20004000,0x00404010,0x00400000,0x20000010,0x00400010,0x20004000,0x20000000,0x00004010,
  0x00000000,0x00400010,0x20004010,0x00004000,0x00404000,0x20004010,0x00000010,0x20400010,
  0x20400010,0x00000000,0x00404010,0x20404000,0x00004010,0x00404000,0x20404000,0x20000000,
  0x20004000,0x00000010,0x20400010,0x00404000,0x20404010,0x00400000,0x00004010,0x20000010,
  0x00400000,0x20004000,0x20000000,0x00004010,0x20000010,0x20404010,0x00404000,0x20400000,
  0x00404010,0x20404000,0x00000000,0x20400010,0x00000010,0x00004000,0x20400000,0x00404010,
  0x00004000,0x00400010,0x20004010,0x00000000,0x20404000,0x20000000,0x00400010,0x20004010]

/-- Substitution box 7, with the permutation behind it and rotated by one bit. -/
def sbox7 : List Word := [
  0x00200000,0x04200002,0x04000802,0x00000000,0x00000800,0x04000802,0x00200802,0x04200800,
  0x04200802,0x00200000,0x00000000,0x04000002,0x00000002,0x04000000,0x04200002,0x00000802,
  0x04000800,0x00200802,0x00200002,0x04000800,0x04000002,0x04200000,0x04200800,0x00200002,
  0x04200000,0x00000800,0x00000802,0x04200802,0x00200800,0x00000002,0x04000000,0x00200800,
  0x04000000,0x00200800,0x00200000,0x04000802,0x04000802,0x04200002,0x04200002,0x00000002,
  0x00200002,0x04000000,0x04000800,0x00200000,0x04200800,0x00000802,0x00200802,0x04200800,
  0x00000802,0x04000002,0x04200802,0x04200000,0x00200800,0x00000000,0x00000002,0x04200802,
  0x00000000,0x00200802,0x04200000,0x00000800,0x04000002,0x04000800,0x00000800,0x00200002]

/-- Substitution box 8, with the permutation behind it and rotated by one bit. -/
def sbox8 : List Word := [
  0x10001040,0x00001000,0x00040000,0x10041040,0x10000000,0x10001040,0x00000040,0x10000000,
  0x00040040,0x10040000,0x10041040,0x00041000,0x10041000,0x00041040,0x00001000,0x00000040,
  0x10040000,0x10000040,0x10001000,0x00001040,0x00041000,0x00040040,0x10040040,0x10041000,
  0x00001040,0x00000000,0x00000000,0x10040040,0x10000040,0x10001000,0x00041040,0x00040000,
  0x00041040,0x00040000,0x10041000,0x00001000,0x00000040,0x10040040,0x00001000,0x00041040,
  0x10001000,0x00000040,0x10000040,0x10040000,0x10040040,0x10000000,0x00040000,0x10001040,
  0x00000000,0x10041040,0x00040040,0x10000040,0x10040000,0x10001000,0x10001040,0x00000000,
  0x10041040,0x00041000,0x00041000,0x00001040,0x00001040,0x00040040,0x10000000,0x10041000]

/-- A part of permuted choice 1 for the left word. -/
def leftkeySwap : List Word := [
  0x00000000,0x00000001,0x00000100,0x00000101,0x00010000,0x00010001,0x00010100,0x00010101,
  0x01000000,0x01000001,0x01000100,0x01000101,0x01010000,0x01010001,0x01010100,0x01010101]

/-- A part of permuted choice 1 for the right word. -/
def rightkeySwap : List Word := [
  0x00000000,0x01000000,0x00010000,0x01010000,0x00000100,0x01000100,0x00010100,0x01010100,
  0x00000001,0x01000001,0x00010001,0x01010001,0x00000101,0x01000101,0x00010101,0x01010101]

/-- Numbers of left shifts per round. -/
def encryptRotateTab : List ℕ := [1,1,2,2,2,2,2,2,1,2,2,2,2,2,2,1]

/-- Weak keys in ascending order, with their parity bits cleared. -/
def weakKeys : List (List (BitVec 8)) := [
  [0x00,0x00,0x00,0x00,0x00,0x00,0x00,0x00],[0x00,0x00,0x1e,0x1e,0x00,0x00,0x0e,0x0e],
  [0x00,0x00,0xe0,0xe0,0x00,0x00,0xf0,0xf0],[0x00,0x00,0xfe,0xfe,0x00,0x00,0xfe,0xfe],
  [0x00,0x1e,0x00,0x1e,0x00,0x0e,0x00,0x0e],[0x00,0x1e,0x1e,0x00,0x00,0x0e,0x0e,0x00],
  [0x00,0x1e,0xe0,0xfe,0x00,0x0e,0xf0,0xfe],[0x00,0x1e,0xfe,0xe0,0x00,0x0e,0xfe,0xf0],
  [0x00,0xe0,0x00,0xe0,0x00,0xf0,0x00,0xf0],[0x00,0xe0,0x1e,0xfe,0x00,0xf0,0x0e,0xfe],
  [0x00,0xe0,0xe0,0x00,0x00,0xf0,0xf0,0x00],[0x00,0xe0,0xfe,0x1e,0x00,0xf0,0xfe,0x0e],
  [0x00,0xfe,0x00,0xfe,0x00,0xfe,0x00,0xfe],[0x00,0xfe,0x1e,0xe0,0x00,0xfe,0x0e,0xf0],
  [0x00,0xfe,0xe0,0x1e,0x00,0xfe,0xf0,0x0e],[0x00,0xfe,0xfe,0x00,0x00,0xfe,0xfe,0x00],
  [0x1e,0x00,0x00,0x1e,0x0e,0x00,0x00,0x0e],[0x1e,0x00,0x1e,0x00,0x0e,0x00,0x0e,0x00],
  [0x1e,0x00,0xe0,0xfe,0x0e,0x00,0xf0,0xfe],[0x1e,0x00,0xfe,0xe0,0x0e,0x00,0xfe,0xf0],
  [0x1e,0x1e,0x00,0x00,0x0e,0x0e,0x00,0x00],[0x1e,0x1e,0x1e,0x1e,0x0e,0x0e,0x0e,0x0e],
  [0x1e,0x1e,0xe0,0xe0,0x0e,0x0e,0xf0,0xf0],[0x1e,0x1e,0xfe,0xfe,0x0e,0x0e,0xfe,0xfe],
  [0x1e,0xe0,0x00,0xfe,0x0e,0xf0,0x00,0xfe],[0x1e,0xe0,0x1e,0xe0,0x0e,0xf0,0x0e,0xf0],
  [0x1e,0xe0,0xe0,0x1e,0x0e,0xf0,0xf0,0x0e],[0x1e,0xe0,0xfe,0x00,0x0e,0xf0,0xfe,0x00],
  [0x1e,0xfe,0x00,0xe0,0x0e,0xfe,0x00,0xf0],[0x1e,0xfe,0x1e,0xfe,0x0e,0xfe,0x0e,0xfe],
  [0x1e,0xfe,0xe0,0x00,0x0e,0xfe,0xf0,0x00],[0x1e,0xfe,0xfe,0x1e,0x0e,0xfe,0xfe,0x0e],
  [0xe0,0x00,0x00,0xe0,0xf0,0x00,0x00,0xf0],[0xe0,0x00,0x1e,0xfe,0xf0,0x00,0x0e,0xfe],
  [0xe0,0x00,0xe0,0x00,0xf0,0x00,0xf0,0x00],[0xe0,0x00,0xfe,0x1e,0xf0,0x00,0xfe,0x0e],
  [0xe0,0x1e,0x00,0xfe,0xf0,0x0e,0x00,0xfe],[0xe0,0x1e,0x1e,0xe0,0xf0,0x0e,0x0e,0xf0],
  [0xe0,0x1e,0xe0,0x1e,0xf0,0x0e,0xf0,0x0e],[0xe0,0x1e,0xfe,0x00,0xf0,0x0e,0xfe,0x00],
  [0xe0,0xe0,0x00,0x00,0xf0,0xf0,0x00,0x00],[0xe0,0xe0,0x1e,0x1e,0xf0,0xf0,0x0e,0x0e],
  [0xe0,0xe0,0xe0,0xe0,0xf0,0xf0,0xf0,0xf0],[0xe0,0xe0,0xfe,0xfe,0xf0,0xf0,0xfe,0xfe],
  [0xe0,0xfe,0x00,0x1e,0xf0,0xfe,0x00,0x0e],[0xe0,0xfe,0x1e,0x00,0xf0,0xfe,0x0e,0x00],
  [0xe0,0xfe,0xe0,0xfe,0xf0,0xfe,0xf0,0xfe],[0xe0,0xfe,0xfe,0xe0,0xf0,0xfe,0xfe,0xf0],
  [0xfe,0x00,0x00,0xfe,0xfe,0x00,0x00,0xfe],[0xfe,0x00,0x1e,0xe0,0xfe,0x00,0x0e,0xf0],
  [0xfe,0x00,0xe0,0x1e,0xfe,0x00,0xf0,0x0e],[0xfe,0x00,0xfe,0x00,0xfe,0x00,0xfe,0x00],
  [0xfe,0x1e,0x00,0xe0,0xfe,0x0e,0x00,0xf0],[0xfe,0x1e,0x1e,0xfe,0xfe,0x0e,0x0e,0xfe],
  [0xfe,0x1e,0xe0,0x00,0xfe,0x0e,0xf0,0x00],[0xfe,0x1e,0xfe,0x1e,0xfe,0x0e,0xfe,0x0e],
  [0xfe,0xe0,0x00,0x1e,0xfe,0xf0,0x00,0x0e],[0xfe,0xe0,0x1e,0x00,0xfe,0xf0,0x0e,0x00],
  [0xfe,0xe0,0xe0,0xfe,0xfe,0xf0,0xf0,0xfe],[0xfe,0xe0,0xfe,0xe0,0xfe,0xf0,0xfe,0xf0],
  [0xfe,0xfe,0x00,0x00,0xfe,0xfe,0x00,0x00],[0xfe,0xfe,0x1e,0x1e,0xfe,0xfe,0x0e,0x0e],
  [0xfe,0xfe,0xe0,0xe0,0xfe,0xfe,0xf0,0xf0],[0xfe,0xfe,0xfe,0xfe,0xfe,0xfe,0xfe,0xfe]]

end StudyCode.Des2
