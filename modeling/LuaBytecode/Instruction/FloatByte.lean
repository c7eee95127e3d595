namespace LuaBytecode.FloatByte

/-- Divides by 16, rounding up, until the size is below 128; the exponent counts the halvings. -/
def coarse (x exponent : Nat) : Nat × Nat :=
  if x < 128 then (x, exponent) else coarse ((x + 15) / 16) (exponent + 4)
termination_by x

def fine (x exponent : Nat) : Nat × Nat :=
  if x < 16 then (x, exponent) else fine ((x + 1) / 2) (exponent + 1)
termination_by x

/-- A size as one byte `eeeeexxx`: below 8 it stands for itself, otherwise it is `1xxx` times `2 ^ (eeeee - 1)`,
    rounded up. -/
def encode (size : Nat) : Nat :=
  if size < 8 then size
  else
    let (x, exponent) := coarse size 0
    let (x, exponent) := fine x exponent
    (exponent + 1) * 8 + (x - 8)

def decode (byte : Nat) : Nat :=
  if byte < 8 then byte else (byte % 8 + 8) * Nat.pow 2 (byte / 8 - 1) % Nat.pow 2 32

end LuaBytecode.FloatByte
