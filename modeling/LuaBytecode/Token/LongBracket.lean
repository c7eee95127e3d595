import LuaBytecode.Token.Cursor

namespace LuaBytecode.LongBracket

/-- The level of a complete opener `[=*[`, and the bytes after it. -/
def opener? : List UInt8 → Option (Nat × List UInt8)
  | 91 :: rest =>
    match rest.dropWhile (· == 61) with
    | 91 :: body => some ((rest.takeWhile (· == 61)).length, body)
    | _ => none
  | _ => none

def opener (level : Nat) : List UInt8 := 91 :: List.replicate level 61 ++ [91]

theorem takeWhile_equals (rest : List UInt8) :
    rest.takeWhile (· == 61) = List.replicate (rest.takeWhile (· == 61)).length 61 := by
  refine List.eq_replicate_iff.mpr ⟨rfl, fun b member => ?_⟩
  exact eq_of_beq (List.all_eq_true.mp List.all_takeWhile b member)

theorem opener?_eq_some {bytes body : List UInt8} {level : Nat} (h : opener? bytes = some (level, body)) :
    bytes = opener level ++ body := by
  unfold opener? at h
  split at h
  · rename_i rest
    split at h
    · rename_i behind stop
      cases h
      have whole := List.takeWhile_append_dropWhile (p := (· == 61)) (l := rest)
      rw [stop, takeWhile_equals] at whole
      generalize (rest.takeWhile (· == 61)).length = level at whole
      subst whole
      simp [opener]
    · cases h
  · cases h

theorem opener?_length {bytes body : List UInt8} {level : Nat} (h : opener? bytes = some (level, body)) :
    body.length < bytes.length := by
  simp only [opener?_eq_some h, opener, List.length_append, List.length_cons]
  omega

def closer (level : Nat) : List UInt8 := 93 :: List.replicate level 61 ++ [93]

/-- The contents up to the closer, with every line break as a line feed; `read` holds what is read, last byte first. -/
def contents (what : LongBracket) (closer : List UInt8) (c : Cursor) (read : List UInt8) :
    Scanned (List UInt8) :=
  match closer.isPrefixOf? c.rest with
  | some rest => .ok read.reverse ⟨rest, c.line⟩
  | none =>
    match h : c.step with
    | some (b, next) =>
      have _shorter := Cursor.step_length h
      contents what closer next ((if Byte.isBreak b then 10 else b) :: read)
    | none => .error (.unfinishedLongBracket what c.line) c
termination_by c.rest.length

theorem contents_length {what : LongBracket} {closer : List UInt8} {c next : Cursor} {read bytes : List UInt8}
    (h : contents what closer c read = .ok bytes next) : next.rest.length ≤ c.rest.length := by
  fun_induction contents what closer c read with
  | case1 c read rest hrest =>
    cases h
    rw [← append_of_isPrefixOf? hrest]
    simp
  | case2 c read _ b step hstep _ ih => exact Nat.le_of_lt (Nat.lt_of_le_of_lt (ih h) (Cursor.step_length hstep))
  | case3 => cases h

def body (what : LongBracket) (level : Nat) (rest : List UInt8) (line : Nat) :
    Scanned (List UInt8) :=
  contents what (closer level) (Cursor.skipBreak ⟨rest, line⟩) []

theorem body_length {what : LongBracket} {level line : Nat} {rest bytes : List UInt8} {next : Cursor}
    (h : body what level rest line = .ok bytes next) : next.rest.length ≤ rest.length :=
  Nat.le_trans (contents_length h) (Cursor.skipBreak_length ⟨rest, line⟩)

end LuaBytecode.LongBracket
