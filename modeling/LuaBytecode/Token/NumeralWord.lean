import LuaBytecode.Token.Cursor

namespace LuaBytecode

/-- A numeral as it is read: the parts of its text in order, and what follows. -/
structure NumeralWord where
  /-- `0x` or `0X` of a hexadecimal numeral. -/
  lead : List UInt8
  whole : List UInt8
  point : List UInt8
  fraction : List UInt8
  mark : List UInt8
  sign : List UInt8
  power : List UInt8
  /-- Letters, digits and points that run on without a gap, which no numeral has. -/
  glued : List UInt8
  rest : List UInt8

namespace NumeralWord

def text (w : NumeralWord) : List UInt8 :=
  w.lead ++ (w.whole ++ (w.point ++ (w.fraction ++ (w.mark ++ (w.sign ++ (w.power ++ w.glued))))))

/-- A digit in front of the exponent, a digit in an exponent, and nothing glued on. -/
def isWellFormed (w : NumeralWord) : Bool :=
  !(w.whole.isEmpty && w.fraction.isEmpty) && (w.mark.isEmpty || !w.power.isEmpty) && w.glued.isEmpty

def leadOf : List UInt8 → List UInt8 × List UInt8
  | 48 :: 120 :: rest => ([48, 120], rest)
  | 48 :: 88 :: rest => ([48, 88], rest)
  | rest => ([], rest)

def pointOf : List UInt8 → List UInt8 × List UInt8
  | 46 :: 46 :: rest => ([], 46 :: 46 :: rest)
  | 46 :: rest => ([46], rest)
  | rest => ([], rest)

def isMark (hex : Bool) (b : UInt8) : Bool := if hex then b == 112 || b == 80 else b == 101 || b == 69

def markOf (hex : Bool) : List UInt8 → List UInt8 × List UInt8
  | [] => ([], [])
  | b :: rest => if isMark hex b then ([b], rest) else ([], b :: rest)

def isSign (b : UInt8) : Bool := b == 43 || b == 45

def signOf (condition : Bool) : List UInt8 → List UInt8 × List UInt8
  | [] => ([], [])
  | b :: rest => if condition && isSign b then ([b], rest) else ([], b :: rest)

def runOf (condition : Bool) (p : UInt8 → Bool) (bytes : List UInt8) : List UInt8 × List UInt8 :=
  if condition then (bytes.takeWhile p, bytes.dropWhile p) else ([], bytes)

def gluedOf (bytes : List UInt8) : List UInt8 × List UInt8 :=
  runOf (bytes.head?.any Byte.isName) (fun b => Byte.isName b || b == 46) bytes

def read (bytes : List UInt8) : NumeralWord :=
  let (lead, rest) := leadOf bytes
  let hex := !lead.isEmpty
  let digit := if hex then Byte.isHexDigit else Byte.isDigit
  let (whole, rest) := runOf true digit rest
  let (point, rest) := pointOf rest
  let (fraction, rest) := runOf (!point.isEmpty) digit rest
  let (mark, rest) := markOf hex rest
  let (sign, rest) := signOf (!mark.isEmpty) rest
  let (power, rest) := runOf (!mark.isEmpty) Byte.isDigit rest
  let (glued, rest) := gluedOf rest
  { lead, whole, point, fraction, mark, sign, power, glued, rest }

theorem leadOf_append (bytes : List UInt8) : (leadOf bytes).1 ++ (leadOf bytes).2 = bytes := by
  unfold leadOf
  split <;> rfl

theorem pointOf_append (bytes : List UInt8) : (pointOf bytes).1 ++ (pointOf bytes).2 = bytes := by
  unfold pointOf
  split <;> rfl

theorem markOf_append (hex : Bool) (bytes : List UInt8) : (markOf hex bytes).1 ++ (markOf hex bytes).2 = bytes := by
  cases bytes with
  | nil => rfl
  | cons b rest =>
    simp only [markOf]
    split <;> rfl

theorem signOf_append (condition : Bool) (bytes : List UInt8) :
    (signOf condition bytes).1 ++ (signOf condition bytes).2 = bytes := by
  cases bytes with
  | nil => rfl
  | cons b rest =>
    simp only [signOf]
    split <;> rfl

theorem runOf_append (condition : Bool) (p : UInt8 → Bool) (bytes : List UInt8) :
    (runOf condition p bytes).1 ++ (runOf condition p bytes).2 = bytes := by
  unfold runOf
  split
  · exact List.takeWhile_append_dropWhile
  · rfl

theorem gluedOf_append (bytes : List UInt8) : (gluedOf bytes).1 ++ (gluedOf bytes).2 = bytes := runOf_append _ _ _

/-- Nothing is lost: the parts and the rest spell the bytes. -/
theorem text_append_rest (bytes : List UInt8) : (read bytes).text ++ (read bytes).rest = bytes := by
  simp only [read, text, List.append_assoc, gluedOf_append, runOf_append, signOf_append, markOf_append, pointOf_append,
    leadOf_append]

def startsNumeral : List UInt8 → Bool
  | [] => false
  | b :: rest => Byte.isDigit b || (b == 46 && rest.head?.any Byte.isDigit)

theorem rest_length {bytes : List UInt8} (h : (read bytes).isWellFormed = true) :
    (read bytes).rest.length < bytes.length := by
  have some_text : (read bytes).text ≠ [] := by
    intro empty
    simp only [text, List.append_eq_nil_iff] at empty
    simp [isWellFormed, empty] at h
  have whole := congrArg List.length (text_append_rest bytes)
  have positive := List.length_pos_iff.mpr some_text
  rw [List.length_append] at whole
  omega

end NumeralWord

end LuaBytecode
