import LuaBytecode.Proofs.Token.Boundaries
import LuaBytecode.Token.Reader

namespace LuaBytecode

/-- The rest of the source starts on the line: one more than the line breaks in front of the rest, of which none goes on
    in it. -/
def StartsOnLine (source rest : List UInt8) (line : Nat) : Prop :=
  ∃ before, source = before ++ rest ∧ line = 1 + lineBreaks before ∧
    lineBreaks source = lineBreaks before + lineBreaks rest

/-- In the source the token stands right in front of `after`, and carries the line of its first byte. The end of the
    input stands behind the last byte. -/
def Token.Placed (source : List UInt8) (t : Token) (after : List UInt8) : Prop :=
  ∃ lexeme, StartsOnLine source (lexeme ++ after) t.line ∧
    (t.IsLexeme after lexeme ∨ t.kind = .eof ∧ lexeme ++ after = [])

namespace Cursor

variable {c next : Cursor} {source : String} {t : Token}

theorem Steps.startsOnLine (h : Steps (.start source) c) : StartsOnLine (utf8 source) c.rest c.line := h.lines

theorem lexeme_line (h : c.lexeme = .ok t next) : t.line = c.line := by
  cases lexeme_scans h with
  | name _ _ read =>
    cases read
    rfl
  | eof | numeral | longString | shortString | symbol => rfl

theorem token_placed (steps : Steps (.start source) c) (h : c.token = .ok t next) :
    t.Placed (utf8 source) next.rest := by
  obtain ⟨start, skipped, h⟩ := token_ok h
  have place := (steps.trans (skipGap_steps skipped)).startsOnLine
  rw [← lexeme_line h] at place
  obtain ⟨empty, last⟩ | ⟨lexeme, spelt, isLexeme⟩ := lexeme_eq_ok h
  · obtain ⟨text, passed, -⟩ := (lexeme_steps h).lines
    have nothing : text ++ next.rest = [] := passed.symm.trans empty
    rw [empty, ← nothing] at place
    exact ⟨text, place, .inr ⟨last, nothing⟩⟩
  · rw [spelt] at place
    exact ⟨lexeme, place, .inl isLexeme⟩

end Cursor

namespace Reader

inductive Request where
  | next
  | look
  | peek
  | expect (kind : TokenKind)
  | accept (kind : TokenKind)

def Request.run : Request → EStateM CompileError Reader (Option Token)
  | next => do return some (← Reader.next)
  | look => do return some (← Reader.look)
  | peek => do
    let _ ← Reader.peek
    return none
  | expect kind => do return some (← Reader.expect kind)
  | accept kind => do
    let _ ← Reader.accept kind
    return none

/-- The readers that requests lead to as long as every token can be read. A token of another kind than expected is no
    reason to stop. -/
inductive Reached (source : String) : Reader → Prop
  | start : Reached source (.ofSource source)
  | answered {r r' : Reader} {q : Request} {shown : Option Token} :
    Reached source r → q.run r = .ok shown r' → Reached source r'
  | refused {r r' : Reader} {q : Request} {e : SyntaxError} :
    Reached source r → q.run r = .error (.parse e) r' → Reached source r'

/-- The cursor has come by steps to where a character ends, and a token that is held is the one right in front of it. -/
structure Exact (source : String) (r : Reader) : Prop where
  steps : Cursor.Steps (.start source) r.cursor
  isText : IsText r.cursor.rest
  held : ∀ t ∈ r.held, t.Placed (utf8 source) r.cursor.rest

def Keeps {α : Type} (source : String) (m : EStateM CompileError Reader α) (r : Reader) (post : α → Reader → Prop) :
    Prop :=
  match m r with
  | .ok a r' => post a r'
  | .error (.lex _) _ => True
  | .error _ r' => Exact source r'

section Keeps

variable {α β : Type} {source : String} {m : EStateM CompileError Reader α} {r : Reader} {post : α → Reader → Prop}

theorem Keeps.bind {k : α → EStateM CompileError Reader β} {final : β → Reader → Prop} (h : Keeps source m r post)
    (rest : ∀ a r', post a r' → Keeps source (k a) r' final) : Keeps source (m >>= k) r final := by
  unfold Keeps at h
  simp only [Keeps, Bind.bind, EStateM.bind]
  cases run : m r with
  | ok a r' =>
    rw [run] at h
    exact rest a r' h
  | error e r' =>
    rw [run] at h
    cases e <;> exact h

theorem next_keeps (h : Exact source r) :
    Keeps source next r fun t r' => Exact source r' ∧ t.Placed (utf8 source) r'.cursor.rest := by
  unfold Keeps next
  cases held : r.held with
  | some t => exact ⟨⟨h.steps, h.isText, by simp⟩, h.held t held⟩
  | none =>
    dsimp only
    cases read : r.cursor.token with
    | ok t c =>
      have isText := Cursor.token_isText read h.isText
      exact ⟨⟨h.steps.trans (Cursor.token_steps read), isText, by simp⟩, Cursor.token_placed h.steps read⟩
    | error e c => trivial

theorem look_keeps (h : Exact source r) :
    Keeps source look r fun t r' => Exact source r' ∧ t.Placed (utf8 source) r'.cursor.rest := by
  refine (next_keeps h).bind fun t r' kept => ?_
  exact ⟨⟨kept.1.steps, kept.1.isText, by rintro _ ⟨⟩; exact kept.2⟩, kept.2⟩

theorem peek_keeps (h : Exact source r) : Keeps source peek r fun _ r' => Exact source r' :=
  (look_keeps h).bind fun _ _ kept => kept.1

theorem expect_keeps (kind : TokenKind) (h : Exact source r) :
    Keeps source (expect kind) r fun t r' => Exact source r' ∧ t.Placed (utf8 source) r'.cursor.rest := by
  refine (next_keeps h).bind fun t r' kept => ?_
  split
  · exact kept
  · exact kept.1

theorem accept_keeps (kind : TokenKind) (h : Exact source r) :
    Keeps source (accept kind) r fun _ r' => Exact source r' := by
  refine (peek_keeps h).bind fun found r' kept => ?_
  split
  · exact (next_keeps kept).bind fun _ _ kept => kept.1
  · exact kept

theorem Request.run_keeps (q : Request) (h : Exact source r) : Keeps source q.run r fun shown r' =>
    Exact source r' ∧ ∀ t ∈ shown, t.Placed (utf8 source) r'.cursor.rest := by
  cases q with
  | next => exact (next_keeps h).bind fun t r' kept => ⟨kept.1, by rintro _ ⟨⟩; exact kept.2⟩
  | look => exact (look_keeps h).bind fun t r' kept => ⟨kept.1, by rintro _ ⟨⟩; exact kept.2⟩
  | peek => exact (peek_keeps h).bind fun _ _ kept => ⟨kept, by simp⟩
  | expect kind => exact (expect_keeps kind h).bind fun t r' kept => ⟨kept.1, by rintro _ ⟨⟩; exact kept.2⟩
  | accept kind => exact (accept_keeps kind h).bind fun _ _ kept => ⟨kept, by simp⟩

end Keeps

theorem Reached.exact {source : String} {r : Reader} (h : Reached source r) : Exact source r := by
  induction h with
  | start => exact ⟨.refl _, ⟨source, rfl⟩, by simp [ofSource]⟩
  | @answered r r' q shown _ run ih =>
    have kept := q.run_keeps ih
    rw [Keeps, run] at kept
    exact kept.1
  | @refused r r' q e _ run ih =>
    have kept := q.run_keeps ih
    rw [Keeps, run] at kept
    exact kept

theorem reached_of_readFrom {source : String} {c : Cursor} {read : List Token} (reached : Reached source ⟨c, none⟩)
    (before : ∀ t ∈ read, ∃ r r', Reached source r ∧ Request.next.run r = .ok (some t) r') :
    ∀ t ∈ (TokenStream.readFrom c read).tokens, ∃ r r', Reached source r ∧ Request.next.run r = .ok (some t) r' := by
  fun_induction TokenStream.readFrom c read with
  | case1 => simpa using before
  | case2 => simpa using before
  | case3 c read t next found _ _ ih =>
    have run : Request.next.run ⟨c, none⟩ = .ok (some t) ⟨next, none⟩ := by
      simp only [Request.run, Bind.bind, EStateM.bind, Reader.next, found]
      rfl
    exact ih (.answered reached run) (List.forall_mem_cons.mpr ⟨⟨_, _, reached, run⟩, before⟩)

theorem exists_placed {source : String} {t : Token} (member : t ∈ (TokenStream.ofSource source).tokens) :
    ∃ after, t.Placed (utf8 source) after := by
  obtain ⟨r, r', reached, run⟩ := reached_of_readFrom .start (by simp) t member
  have kept := Request.next.run_keeps reached.exact
  rw [Keeps, run] at kept
  exact ⟨_, kept.2 t rfl⟩

/-- Lines are exact: whatever a reader is asked for, its line is the one where the cursor is, and every token that it
    shows carries the line of its first byte. The tokens of a source are among those that a reader shows. -/
theorem reached_lines (source : String) :
    (∀ r, Reached source r → StartsOnLine (utf8 source) r.cursor.rest r.line ∧
      ∀ (q : Request) t r', q.run r = .ok (some t) r' → t.Placed (utf8 source) r'.cursor.rest) ∧
    ∀ t ∈ (TokenStream.ofSource source).tokens, ∃ r r', Reached source r ∧ Request.next.run r = .ok (some t) r' := by
  refine ⟨fun r reached => ⟨reached.exact.steps.startsOnLine, fun q t r' run => ?_⟩, ?_⟩
  · have kept := q.run_keeps reached.exact
    rw [Keeps, run] at kept
    exact kept.2 t rfl
  · exact reached_of_readFrom .start (by simp)

theorem Request.exists_run (q : Request) (r : Reader) (check : Option Token → Reader → Bool)
    (h : (match q.run r with | .ok shown r' => check shown r' | .error _ _ => false) = true) :
    ∃ shown r', q.run r = .ok shown r' ∧ check shown r' = true := by
  cases run : q.run r with
  | ok shown r' =>
    rw [run] at h
    exact ⟨shown, r', rfl, h⟩
  | error e r' =>
    rw [run] at h
    cases h

theorem reached_lines_mixed : ∃ source, source = "--[[\r\n]]\n\r'\\z \r\n\\\n\r'--\r\rx" ∧
    (∃ r t r', Reached source r ∧ Request.look.run r = .ok (some t) r' ∧ r.line = 5 ∧
      t = ⟨.identifier, 7, some "x"⟩ ∧ r'.cursor.rest = [] ∧ StartsOnLine (utf8 source) r.cursor.rest r.line ∧
      t.Placed (utf8 source) r'.cursor.rest) ∧
    ∃ t ∈ (TokenStream.ofSource source).tokens, t.line = 3 ∧
      ∃ r r', Reached source r ∧ Request.next.run r = .ok (some t) r' := by
  refine ⟨_, rfl, ?_, ?_⟩
  · obtain ⟨shown, r, first, checked⟩ := Request.exists_run .next (.ofSource "--[[\r\n]]\n\r'\\z \r\n\\\n\r'--\r\rx")
      (fun _ r => decide (r.line = 5 ∧ (match Request.look.run r with
        | .ok shown r' => decide (shown = some ⟨.identifier, 7, some "x"⟩ ∧ r'.cursor.rest = [])
        | .error _ _ => false) = true)) (by decide +kernel)
    obtain ⟨line, checked⟩ := of_decide_eq_true checked
    obtain ⟨shown, r', second, checked⟩ := Request.exists_run .look r _ checked
    obtain ⟨rfl, done⟩ := of_decide_eq_true checked
    have reached := Reached.answered .start first
    have exact := (reached_lines _).1 r reached
    exact ⟨r, _, r', reached, second, line, rfl, done, exact.1, exact.2 .look _ r' second⟩
  · have third : ((TokenStream.ofSource "--[[\r\n]]\n\r'\\z \r\n\\\n\r'--\r\rx").tokens.any (·.line = 3)) = true := by
      decide +kernel
    obtain ⟨t, member, line⟩ := List.any_eq_true.mp third
    exact ⟨t, member, of_decide_eq_true line, (reached_lines _).2 t member⟩

end Reader

end LuaBytecode
