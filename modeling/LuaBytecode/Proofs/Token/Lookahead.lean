import LuaBytecode.Proofs.Token.Lines

namespace LuaBytecode

namespace Cursor

theorem token_eof {c next : Cursor} {t : Token} (h : c.token = .ok t next) (last : t.kind = .eof) :
    t = .eof t.line ∧ next.token = .ok t next := by
  obtain ⟨start, -, h⟩ := token_ok h
  obtain ⟨empty, -⟩ | ⟨lexeme, -, isLexeme⟩ := lexeme_eq_ok h
  · obtain ⟨rest, line⟩ := start
    subst empty
    cases h
    exact ⟨rfl, token_nil line⟩
  · exact absurd last isLexeme.kind_ne_eof

/-- The cursor gives the tokens one after another, and then the end of the input as often as it is asked for more. -/
def Yields (line : Nat) : List Token → Cursor → Prop
  | [], c => ∃ next, c.token = .ok (.eof line) next ∧ next.token = .ok (.eof line) next
  | t :: ts, c => ∃ next, c.token = .ok t next ∧ Yields line ts next

theorem Yields.token {line : Nat} {ts : List Token} {c : Cursor} (h : Yields line ts c) :
    ∃ next, c.token = .ok (ts.headD (.eof line)) next ∧ Yields line ts.tail next := by
  cases ts with
  | cons t ts => exact h
  | nil =>
    obtain ⟨next, last, again⟩ := h
    exact ⟨next, last, next, again, again⟩

theorem yields_of_readFrom {c : Cursor} {read : List Token} {line : Nat}
    (h : (TokenStream.readFrom c read).ending = .ok line) :
    ∃ ts, (TokenStream.readFrom c read).tokens = read.reverse ++ ts ∧ Yields line ts c := by
  fun_induction TokenStream.readFrom c read with
  | case1 => cases h
  | case2 c read t next found last =>
    cases h
    obtain ⟨same, again⟩ := token_eof found last
    rw [same] at found again
    exact ⟨[], by simp, next, found, again⟩
  | case3 c read t next found _ _ ih =>
    obtain ⟨ts, tokens, yields⟩ := ih h
    exact ⟨t :: ts, by simp [tokens], next, found, yields⟩

end Cursor

namespace Reader

/-- The tokens that a reader has not given yet: one that it holds comes first, those behind the cursor follow. -/
def Faces (line : Nat) (ts : List Token) (r : Reader) : Prop :=
  match r.held with
  | none => r.cursor.Yields line ts
  | some t => t = ts.headD (.eof line) ∧ r.cursor.Yields line ts.tail

inductive Answer where
  | token (t : Token)
  | kind (k : TokenKind)
  | found (yes : Bool)
  | failed (e : CompileError)

def Request.reply : Request → EStateM CompileError Reader Answer
  | next => do return .token (← Reader.next)
  | look => do return .token (← Reader.look)
  | peek => do return .kind (← Reader.peek)
  | expect kind => do return .token (← Reader.expect kind)
  | accept kind => do return .found (← Reader.accept kind)

/-- The answer, and the reader after it. A failure is an answer too, and does not keep a reader from further requests. -/
def Request.serve (q : Request) (r : Reader) : Answer × Reader :=
  match q.reply r with
  | .ok answer r' => (answer, r')
  | .error e r' => (.failed e, r')

def upcoming? (r : Reader) : Option Token :=
  match Reader.next r with
  | .ok t _ => some t
  | .error _ _ => none

def Request.taken (q : Request) (r : Reader) : Option Token :=
  match q with
  | next | expect _ => r.upcoming?
  | look | peek => none
  | accept kind =>
    match Reader.peek r with
    | .ok found r' => if found = kind then r'.upcoming? else none
    | .error _ _ => none

structure Event where
  request : Request
  answer : Answer
  taken : Option Token

def history : List Request → Reader → List Event
  | [], _ => []
  | q :: qs, r => ⟨q, (q.serve r).1, q.taken r⟩ :: history qs (q.serve r).2

def consumed (events : List Event) : List Token := events.filterMap (·.taken)

def Request.due (t : Token) : Request → Event
  | next => ⟨next, .token t, some t⟩
  | look => ⟨look, .token t, none⟩
  | peek => ⟨peek, .kind t.kind, none⟩
  | expect kind =>
    ⟨expect kind, if t.kind = kind then .token t else .failed (.parse ⟨t.line, t.shown, .expected kind⟩), some t⟩
  | accept kind => ⟨accept kind, .found (t.kind = kind), if t.kind = kind then some t else none⟩

variable {line : Nat} {ts : List Token} {r : Reader}

theorem bind_ok {α β : Type} {m : EStateM CompileError Reader α} {k : α → EStateM CompileError Reader β} {r' : Reader}
    {a : α} (h : m r = .ok a r') : (m >>= k) r = k a r' := by
  simp only [Bind.bind, EStateM.bind, h]

theorem next_of_faces (h : Faces line ts r) :
    ∃ c, next r = .ok (ts.headD (.eof line)) ⟨c, none⟩ ∧ c.Yields line ts.tail := by
  unfold Faces at h
  unfold next
  cases held : r.held with
  | some t =>
    rw [held] at h
    exact ⟨r.cursor, by rw [h.1], h.2⟩
  | none =>
    rw [held] at h
    obtain ⟨c, found, rest⟩ := h.token
    exact ⟨c, by rw [found], rest⟩

theorem upcoming?_of_faces (h : Faces line ts r) : r.upcoming? = some (ts.headD (.eof line)) := by
  obtain ⟨c, found, -⟩ := next_of_faces h
  rw [upcoming?, found]

theorem look_of_faces (h : Faces line ts r) : ∃ r', look r = .ok (ts.headD (.eof line)) r' ∧ Faces line ts r' := by
  obtain ⟨c, found, rest⟩ := next_of_faces h
  exact ⟨⟨c, some (ts.headD (.eof line))⟩, bind_ok found, rfl, rest⟩

theorem peek_of_faces (h : Faces line ts r) :
    ∃ r', peek r = .ok (ts.headD (.eof line)).kind r' ∧ Faces line ts r' := by
  obtain ⟨r', found, rest⟩ := look_of_faces h
  exact ⟨r', bind_ok found, rest⟩

/-- Each request is answered from the next token to be taken, and leaves that one and those behind it, or the latter if
    it takes it. -/
theorem Request.serve_of_faces (q : Request) (h : Faces line ts r) :
    ⟨q, (q.serve r).1, q.taken r⟩ = q.due (ts.headD (.eof line)) ∧
      Faces line (if (q.taken r).isSome then ts.tail else ts) (q.serve r).2 := by
  cases q with
  | next =>
    obtain ⟨c, found, rest⟩ := next_of_faces h
    have reply : Request.next.reply r = .ok (.token (ts.headD (.eof line))) ⟨c, none⟩ := bind_ok found
    have taken : Request.next.taken r = some (ts.headD (.eof line)) := upcoming?_of_faces h
    rw [serve, reply, taken]
    exact ⟨rfl, rest⟩
  | look =>
    obtain ⟨r', found, rest⟩ := look_of_faces h
    have reply : Request.look.reply r = .ok (.token (ts.headD (.eof line))) r' := bind_ok found
    rw [serve, reply]
    exact ⟨rfl, rest⟩
  | peek =>
    obtain ⟨r', found, rest⟩ := peek_of_faces h
    have reply : Request.peek.reply r = .ok (.kind (ts.headD (.eof line)).kind) r' := bind_ok found
    rw [serve, reply]
    exact ⟨rfl, rest⟩
  | expect kind =>
    obtain ⟨c, found, rest⟩ := next_of_faces h
    have taken : (Request.expect kind).taken r = some (ts.headD (.eof line)) := upcoming?_of_faces h
    by_cases same : (ts.headD (.eof line)).kind = kind
    · have reply : (Request.expect kind).reply r = .ok (.token (ts.headD (.eof line))) ⟨c, none⟩ := by
        rw [Request.reply, Reader.expect, bind_assoc, bind_ok found, if_pos same]
        rfl
      rw [serve, reply, taken, due, if_pos same]
      exact ⟨rfl, rest⟩
    · have reply : (Request.expect kind).reply r = .error (.parse ⟨(ts.headD (.eof line)).line,
          (ts.headD (.eof line)).shown, .expected kind⟩) ⟨c, none⟩ := by
        rw [Request.reply, Reader.expect, bind_assoc, bind_ok found, if_neg same]
        rfl
      rw [serve, reply, taken, due, if_neg same]
      exact ⟨rfl, rest⟩
  | accept kind =>
    obtain ⟨r', found, rest⟩ := peek_of_faces h
    obtain ⟨c, again, left⟩ := next_of_faces rest
    by_cases same : (ts.headD (.eof line)).kind = kind
    · have reply : (Request.accept kind).reply r = .ok (.found true) ⟨c, none⟩ := by
        rw [Request.reply, Reader.accept, bind_assoc, bind_ok found, if_pos same, bind_assoc, bind_ok again]
        rfl
      have taken : (Request.accept kind).taken r = some (ts.headD (.eof line)) := by
        simp only [Request.taken, found, if_pos same, upcoming?_of_faces rest]
      rw [serve, reply, taken, due, if_pos same, decide_eq_true same]
      exact ⟨rfl, left⟩
    · have reply : (Request.accept kind).reply r = .ok (.found false) r' := by
        rw [Request.reply, Reader.accept, bind_assoc, bind_ok found, if_neg same]
        rfl
      have taken : (Request.accept kind).taken r = none := by
        simp only [Request.taken, found, if_neg same]
      rw [serve, reply, taken, due, if_neg same, decide_eq_false same]
      exact ⟨rfl, rest⟩

theorem Request.taken_of_faces (q : Request) (h : Faces line ts r) :
    q.taken r = none ∨ q.taken r = some (ts.headD (.eof line)) := by
  have seen : q.taken r = (q.due (ts.headD (.eof line))).taken := congrArg Event.taken (q.serve_of_faces h).1
  rw [seen]
  cases q with
  | next | expect => exact .inr rfl
  | look | peek => exact .inl rfl
  | accept kind =>
    rw [due]
    split
    · exact .inr rfl
    · exact .inl rfl

theorem take_succ_append_replicate (t : Token) (ts : List Token) (n : Nat) :
    ts.take (n + 1) ++ List.replicate (n + 1 - ts.length) t =
      ts.headD t :: (ts.tail.take n ++ List.replicate (n - ts.tail.length) t) := by
  cases ts with
  | nil => simp [List.replicate_succ]
  | cons u ts => simp

theorem consumed_of_faces (qs : List Request) (h : Faces line ts r) :
    ∃ n, consumed (history qs r) = ts.take n ++ List.replicate (n - ts.length) (.eof line) := by
  induction qs generalizing ts r with
  | nil => exact ⟨0, by simp [history, consumed]⟩
  | cons q qs ih =>
    have rest := (q.serve_of_faces h).2
    obtain none | first := q.taken_of_faces h
    · rw [none] at rest
      obtain ⟨n, tokens⟩ := ih rest
      refine ⟨n, ?_⟩
      simpa [history, consumed, none] using tokens
    · rw [first] at rest
      obtain ⟨n, tokens⟩ := ih rest
      refine ⟨n + 1, ?_⟩
      rw [take_succ_append_replicate]
      simpa [history, consumed, first] using tokens

theorem history_append {qs : List Request} {before after : List Event} (h : Faces line ts r)
    (split : history qs r = before ++ after) :
    ∃ qs' r', after = history qs' r' ∧ Faces line (ts.drop (consumed before).length) r' := by
  induction before generalizing qs ts r with
  | nil => exact ⟨qs, r, split.symm, h⟩
  | cons e before ih =>
    cases qs with
    | nil => cases split
    | cons q qs =>
      obtain ⟨rfl, others⟩ := List.cons.inj split
      have rest := (q.serve_of_faces h).2
      obtain none | first := q.taken_of_faces h
      · rw [none] at rest
        obtain ⟨qs', r', last, faces⟩ := ih rest others
        refine ⟨qs', r', last, ?_⟩
        simpa [consumed, none] using faces
      · rw [first] at rest
        obtain ⟨qs', r', last, faces⟩ := ih rest others
        refine ⟨qs', r', last, ?_⟩
        simpa [consumed, first] using faces

theorem faces_ofSource {source : String} (h : Chunk.tokens source = .ok ts) :
    ∃ line, Faces line ts (.ofSource source) := by
  obtain ⟨rfl, line, ending⟩ := Chunk.tokens_ok h
  obtain ⟨ts, tokens, yields⟩ := Cursor.yields_of_readFrom ending
  rw [List.reverse_nil, List.nil_append] at tokens
  have same : (TokenStream.ofSource source).tokens = ts := tokens
  rw [same]
  exact ⟨line, yields⟩

/-- Looking ahead changes nothing: whatever a reader is asked for, the tokens taken out of it are those of the source in
    order, and then the end of the input for ever; and each answer is about the token that is taken next. -/
theorem history_transparent {source : String} (h : Chunk.tokens source = .ok ts) : ∃ line, ∀ qs : List Request,
    (∃ n, consumed (history qs (.ofSource source)) = ts.take n ++ List.replicate (n - ts.length) (.eof line)) ∧
      ∀ before e after, history qs (.ofSource source) = before ++ e :: after →
        ∃ t, t = ts.getD (consumed before).length (.eof line) ∧ (∀ u ∈ (consumed (e :: after)).head?, u = t) ∧
          e = e.request.due t := by
  obtain ⟨line, faces⟩ := faces_ofSource h
  refine ⟨line, fun qs => ⟨consumed_of_faces qs faces, fun before e after split => ?_⟩⟩
  obtain ⟨qs', r, rest, faces⟩ := history_append faces split
  have upcoming : (ts.drop (consumed before).length).headD (.eof line) = ts.getD (consumed before).length (.eof line) := by
    simp [List.headD_eq_head?_getD, List.getD_eq_getElem?_getD]
  refine ⟨_, rfl, fun u first => ?_, ?_⟩
  · rw [rest] at first
    obtain ⟨n, tokens⟩ := consumed_of_faces qs' faces
    rw [tokens] at first
    cases n with
    | zero => simp at first
    | succ n =>
      rw [take_succ_append_replicate, upcoming] at first
      exact (Option.some.inj first).symm
  · cases qs' with
    | nil => cases rest
    | cons q qs' =>
      obtain ⟨rfl, -⟩ := List.cons.inj rest
      rw [← upcoming]
      exact (q.serve_of_faces faces).1

theorem history_transparent_past_end : ∃ source qs ts line, source = "x = 1" ∧
    qs = [.look, .accept .comma, .accept .identifier, .expect .comma, .peek, .next, .next, .look, .accept .eof] ∧
    Chunk.tokens source = .ok ts ∧ ts.length = 3 ∧ (consumed (history qs (.ofSource source))).length = 5 ∧
    (∃ n, consumed (history qs (.ofSource source)) = ts.take n ++ List.replicate (n - ts.length) (.eof line)) ∧
    ∀ before e after, history qs (.ofSource source) = before ++ e :: after →
      ∃ t, t = ts.getD (consumed before).length (.eof line) ∧ (∀ u ∈ (consumed (e :: after)).head?, u = t) ∧
        e = e.request.due t := by
  obtain ⟨ts, read, three⟩ : ∃ ts, Chunk.tokens "x = 1" = .ok ts ∧ ts.length = 3 :=
    exists_ok (·.length == 3) (by decide +kernel) fun _ _ => beq_iff_eq.mp
  obtain ⟨line, whole⟩ := history_transparent read
  exact ⟨"x = 1", _, ts, line, rfl, rfl, read, three, by decide +kernel, whole _⟩

end Reader

end LuaBytecode
