import LuaBytecode.Proofs.Token.Steps
import LuaBytecode.Token.Reader

namespace LuaBytecode

namespace Parser

variable {α σ : Type} {fuel : Nat}

def Consumes (s s' : TokenStream) : Prop := ∃ ts, ts ≠ [] ∧ s = s'.prepend ts

def Advances (p : Parser α) : Prop := ∀ s a s', p s = .ok (a, s') → Consumes s s'

/-- The loop is made of turns. A turn ends it with a result, or it consumes a token and the loop goes on. -/
structure Loops (loop : Nat → σ → Parser α) (turn : Nat → σ → Parser (α ⊕ σ)) : Prop where
  unroll : ∀ fuel a, loop (fuel + 1) a = turn fuel a >>= Sum.elim pure (loop fuel)
  advances : ∀ fuel a s b s', turn fuel a s = .ok (.inr b, s') → Consumes s s'

def operatorTurn (limit fuel : Nat) (lhs : Exp) : Parser (Exp ⊕ Exp) := do
  match BinOp.ofKind? (← peek) with
  | some op =>
    if op.leftPower ≤ limit then return .inl lhs
    else
      let _ ← next
      return .inr (.binop op lhs (← exp fuel op.rightPower))
  | none => return .inl lhs

def suffixTurn (fuel : Nat) (e : Exp) : Parser (Exp ⊕ Exp) := do
  match ← peek with
  | .dot =>
    let _ ← next
    return .inr (.index e (.string (← name)))
  | .lbracket =>
    let _ ← next
    let key ← exp fuel 0
    let _ ← expect .rbracket
    return .inr (.index e key)
  | .colon =>
    let _ ← next
    let method ← name
    return .inr (.call (.index e (.string method)) (e :: (← args fuel)) true)
  | .lparen | .string | .lbrace => return .inr (.call e (← args fuel) false)
  | _ => return .inl e

def expListTurn (fuel : Nat) (exps : List Exp) : Parser (List Exp ⊕ List Exp) := do
  if ← accept .comma then return .inr ((← exp fuel 0) :: exps)
  else return .inl exps.reverse

def fieldTurn (fuel : Nat) (read : List (Option Exp) × List Exp) :
    Parser ((List (Option Exp) × List Exp) ⊕ (List (Option Exp) × List Exp)) := do
  if (← peek) = .rbrace then return .inl (read.1.reverse, read.2.reverse)
  else
    let (key, value) ← field fuel
    if ← acceptSeparator then return .inr (key :: read.1, value :: read.2)
    else return .inl ((key :: read.1).reverse, (value :: read.2).reverse)

def paramTurn (_ : Nat) (names : List String) : Parser ((List String × Bool) ⊕ List String) := do
  match ← peek with
  | .identifier =>
    let names := (← name) :: names
    if ← accept .comma then return .inr names
    else return .inl (names.reverse, false)
  | .vararg =>
    let _ ← next
    return .inl (names.reverse, true)
  | _ => complain .nameExpected

def statTurn (fuel : Nat) (stats : List Stat) : Parser (Block ⊕ List Stat) := do
  match ← peek with
  | .kwReturn => return .inl ((← returnStat fuel) :: stats).reverse
  | kind =>
    if endsBlock kind then return .inl stats.reverse
    else return .inr ((← stat fuel) :: stats)

theorem operators_unroll (limit : Nat) (lhs : Exp) :
    operators (fuel + 1) limit lhs = operatorTurn limit fuel lhs >>= Sum.elim pure (operators fuel limit) := by
  rw [operators, operatorTurn, bind_assoc]
  congr 1; funext kind
  cases BinOp.ofKind? kind with
  | none => simp
  | some op =>
    simp only
    split <;> simp

theorem suffixes_unroll (e : Exp) :
    suffixes (fuel + 1) e = suffixTurn fuel e >>= Sum.elim pure (suffixes fuel) := by
  rw [suffixes, suffixTurn, bind_assoc]
  congr 1; funext kind
  split <;> simp

theorem moreExps_unroll (exps : List Exp) :
    moreExps (fuel + 1) exps = expListTurn fuel exps >>= Sum.elim pure (moreExps fuel) := by
  rw [moreExps, expListTurn, bind_assoc]
  congr 1; funext kind
  split <;> simp

theorem fields_unroll (keys : List (Option Exp)) (values : List Exp) :
    fields (fuel + 1) keys values =
      fieldTurn fuel (keys, values) >>= Sum.elim pure fun read => fields fuel read.1 read.2 := by
  rw [fields, fieldTurn, bind_assoc]
  congr 1; funext kind
  split
  · simp
  · simp only [bind_assoc]
    congr 1; funext r
    congr 1; funext more
    split <;> simp

theorem complain_bind {β : Type} (c : Complaint) (k : α → Parser β) : complain c >>= k = complain c := by
  rw [complain, bind_assoc]
  rfl

theorem params_unroll (names : List String) :
    params (fuel + 1) names = paramTurn fuel names >>= Sum.elim pure (params fuel) := by
  rw [params, paramTurn, bind_assoc]
  congr 1; funext kind
  split
  · simp only [bind_assoc]
    congr 1; funext x
    congr 1; funext more
    split <;> simp
  · simp
  · simp [complain_bind]

theorem block_unroll (stats : List Stat) :
    block (fuel + 1) stats = statTurn fuel stats >>= Sum.elim pure (block fuel) := by
  rw [block, statTurn, bind_assoc]
  congr 1; funext kind
  by_cases returns : kind = .kwReturn
  · simp [returns]
  · by_cases ends : endsBlock kind = true <;> simp [ends]

abbrev Turns (p : Parser (α ⊕ σ)) (s : TokenStream) : Prop := Takes False p s fun r ts _ => r.isRight = true → ts ≠ []

theorem operatorTurn_turns (limit : Nat) (lhs : Exp) (s : TokenStream) : Turns (operatorTurn limit fuel lhs) s := by
  apply peek_takes
  split
  · rename_i op found
    split
    · exact Takes.pure (by simp)
    · refine next_takes rfl (beq_false_of_ne fun ended => by simp [ended, BinOp.ofKind?] at found) fun t t' _ _ _ => ?_
      exact (spells fuel).exp.andPure False.elim (by simp)
  · exact Takes.pure (by simp)

theorem suffixTurn_turns (e : Exp) (s : TokenStream) : Turns (suffixTurn fuel e) s := by
  have called (s : TokenStream) : Takes False (args fuel) s fun _ ts _ => ts ≠ [] :=
    (spells fuel).args.weaken False.elim fun _ _ _ h => List.length_pos_iff.mp (h.length_pos rfl)
  apply peek_takes
  split
  · rename_i found
    refine next_takes found rfl fun t t' _ _ _ => name_takes fun x t'' _ _ => ?_
    exact Takes.pure (by simp)
  · rename_i found
    refine next_takes found rfl fun t t' _ _ _ => (spells fuel).exp.andExpect False.elim rfl fun key ts r u _ _ _ => ?_
    exact Takes.pure (by simp)
  · rename_i found
    refine next_takes found rfl fun t t' _ _ _ => name_takes fun x t'' _ _ => ?_
    exact (called _).andPure id (by simp)
  · exact (called s).andPure id fun _ _ _ some_token _ => some_token
  · exact (called s).andPure id fun _ _ _ some_token _ => some_token
  · exact (called s).andPure id fun _ _ _ some_token _ => some_token
  · exact Takes.pure (by simp)

theorem expListTurn_turns (exps : List Exp) (s : TokenStream) : Turns (expListTurn fuel exps) s := by
  exact acceptThen_takes rfl (fun c t _ _ => (spells fuel).exp.andPure False.elim (by simp)) fun _ => Takes.pure (by simp)

theorem fieldTurn_turns (read : List (Option Exp) × List Exp) (s : TokenStream) : Turns (fieldTurn fuel read) s := by
  apply peek_takes
  split
  · exact Takes.pure (by simp)
  · refine (spells fuel).field.andThen False.elim fun r ts m t _ _ first => ?_
    have some_token := List.length_pos_iff.mp (first.length_pos rfl)
    exact acceptSeparator_takes (fun c t' _ _ => Takes.pure (by simp)) fun _ _ => Takes.pure (by simp)

theorem paramTurn_turns (names : List String) (s : TokenStream) : Turns (paramTurn fuel names) s := by
  apply peek_takes
  split
  · apply name_takes
    intro x t _ _
    exact acceptThen_takes rfl (fun c t' _ _ => Takes.pure (by simp)) fun _ => Takes.pure (by simp)
  · rename_i dots
    exact next_takes dots rfl fun t t' _ _ _ => Takes.pure (by simp)
  · exact complain_takes

theorem statTurn_turns (stats : List Stat) (s : TokenStream) : Turns (statTurn fuel stats) s := by
  apply peek_takes
  split
  · exact (spells fuel).returnStat.andPure False.elim (by simp)
  · split
    · exact Takes.pure (by simp)
    · exact (spells fuel).stat.andPure False.elim fun _ _ _ h _ => List.length_pos_iff.mp (h.length_pos rfl)

theorem Turns.advances {turn : Parser (α ⊕ σ)} {s s' : TokenStream} {b : σ} (h : Turns turn s)
    (run : turn s = .ok (.inr b, s')) : Consumes s s' := by
  obtain ⟨ts, split, some_token⟩ := h.ok _ _ run
  exact ⟨ts, some_token rfl, split⟩

theorem advances_of_derives {enough : TokenStream → Prop} {p : Parser α} {phrase : α → Phrase} {kinds : List TokenKind}
    (h : ∀ {s}, Takes (enough s) p s fun a => Derives (phrase a)) (first : ∀ a, (phrase a).firsts = some kinds) :
    Advances p := by
  intro s a s' run
  obtain ⟨ts, split, derived⟩ := h.ok a s' run
  exact ⟨ts, List.length_pos_iff.mp (derived.length_pos (first a)), split⟩

end Parser

namespace Reader

def unread (r : Reader) : Nat := r.cursor.rest.length + (r.held.toList.filter (·.kind ≠ .eof)).length

def stream (r : Reader) : TokenStream :=
  (TokenStream.readFrom r.cursor []).prepend (r.held.toList.filter (·.kind ≠ .eof))

theorem next_unread {r r' : Reader} {t : Token} (h : next r = .ok t r') :
    r'.held = none ∧ r'.unread + (if t.kind = .eof then 0 else 1) ≤ r.unread := by
  unfold next at h
  split at h
  · rename_i held
    cases h
    refine ⟨rfl, ?_⟩
    simp only [unread, held, Option.toList_some, Option.toList_none, List.filter_singleton]
    split <;> simp_all
  · rename_i held
    split at h
    · rename_i c read
      cases h
      refine ⟨rfl, ?_⟩
      have after : c.rest.length + (if t.kind = .eof then 0 else 1) ≤ r.cursor.rest.length := by
        split
        · obtain ⟨text, passed, -⟩ := (Cursor.token_steps read).lines
          simp [passed]
        · rename_i real
          exact Cursor.token_length read real
      simpa [unread, held] using after
    · cases h

theorem look_unread {r r' : Reader} {t : Token} (h : look r = .ok t r') : r'.unread ≤ r.unread := by
  cases run : next r with
  | error e r'' =>
    simp only [look, Bind.bind, EStateM.bind, run] at h
    cases h
  | ok u r'' =>
    simp only [look, Bind.bind, EStateM.bind, run] at h
    cases h
    obtain ⟨none, bound⟩ := next_unread run
    simp only [unread, none, Option.toList_some, Option.toList_none, List.filter_singleton] at bound ⊢
    split at bound <;> simp_all

end Reader

theorem TokenStream.readFrom_left (c : Cursor) (read : List Token) :
    Parser.left (readFrom c read) ≤ read.length + c.rest.length := by
  fun_induction readFrom c read with
  | case1 => simp [Parser.left]
  | case2 => simp [Parser.left]
  | case3 c read t next _ _ shorter ih =>
    rw [List.length_cons] at ih
    omega

theorem Reader.left_stream (r : Reader) : Parser.left r.stream ≤ r.unread := by
  have bound := TokenStream.readFrom_left r.cursor []
  rw [stream, Parser.left_prepend, unread, Nat.add_comm]
  simpa using bound

namespace Parser

structure Progress (fuel : Nat) : Prop where
  stat : Advances (stat fuel)
  exp : ∀ limit, Advances (exp fuel limit)
  simpleExp : Advances (simpleExp fuel)
  primaryExp : Advances (primaryExp fuel)
  field : Advances (field fuel)
  args : Advances (args fuel)
  funcBody : ∀ line, Advances (funcBody fuel line)
  returnStat : Advances (returnStat fuel)

structure LoopProgress : Prop where
  block : Loops block statTurn
  operators : ∀ limit, Loops (fun fuel => operators fuel limit) (operatorTurn limit)
  suffixes : Loops suffixes suffixTurn
  moreExps : Loops moreExps expListTurn
  fields : Loops (fun fuel read => fields fuel read.1 read.2) fieldTurn
  params : Loops params paramTurn

theorem progress (fuel : Nat) : Progress fuel where
  stat := advances_of_derives (spells fuel).stat fun _ => rfl
  exp _ := advances_of_derives (spells fuel).exp fun _ => rfl
  simpleExp := advances_of_derives (spells fuel).simpleExp fun _ => rfl
  primaryExp := advances_of_derives (spells fuel).primaryExp fun _ => rfl
  field := advances_of_derives (spells fuel).field fun _ => rfl
  args := advances_of_derives (spells fuel).args fun _ => rfl
  funcBody _ := advances_of_derives (spells fuel).funcBody fun _ => rfl
  returnStat := advances_of_derives (spells fuel).returnStat fun _ => rfl

theorem loopProgress : LoopProgress where
  block := ⟨fun _ => block_unroll, fun _ _ _ _ _ => (statTurn_turns _ _).advances⟩
  operators limit := ⟨fun _ => operators_unroll limit, fun _ _ _ _ _ => (operatorTurn_turns _ _ _).advances⟩
  suffixes := ⟨fun _ => suffixes_unroll, fun _ _ _ _ _ => (suffixTurn_turns _ _).advances⟩
  moreExps := ⟨fun _ => moreExps_unroll, fun _ _ _ _ _ => (expListTurn_turns _ _).advances⟩
  fields := ⟨fun _ _ => fields_unroll _ _, fun _ _ _ _ _ => (fieldTurn_turns _ _).advances⟩
  params := ⟨fun _ => params_unroll, fun fuel _ _ _ _ => (paramTurn_turns _ _ : Turns (paramTurn fuel _) _).advances⟩

end Parser

/-- Reading tokens and reading trees goes forward. A token other than the end of the input takes a byte from the cursor,
    or from what is unread where one is held; every phrase and every turn of a loop takes a token. So tokens run out with
    the bytes, and ten calls for each of them are enough. -/
theorem reading_progress :
    (∀ (c next : Cursor) t, c.token = .ok t next → t.kind ≠ .eof → ∃ bytes, bytes ≠ [] ∧ c.rest = bytes ++ next.rest) ∧
    (∀ (r r' : Reader) t, Reader.next r = .ok t r' → t.kind ≠ .eof → r'.unread < r.unread) ∧
    (∀ (r r' : Reader) t, Reader.look r = .ok t r' → r'.unread ≤ r.unread) ∧
    (∀ fuel, Parser.Progress fuel) ∧ Parser.LoopProgress ∧
    ∀ r : Reader, Parser.left r.stream ≤ r.unread ∧ ∀ fuel stats, 10 * r.unread + 4 ≤ fuel →
      Parser.block fuel stats r.stream ≠ .error .outOfFuel := by
  refine ⟨fun c next t read real => ?_, fun r r' t run real => ?_, fun r r' t => Reader.look_unread, Parser.progress,
    Parser.loopProgress, fun r => ⟨r.left_stream, fun fuel stats enough failed => ?_⟩⟩
  · obtain ⟨bytes, passed, -⟩ := (Cursor.token_steps read).lines
    refine ⟨bytes, fun empty => ?_, passed⟩
    have shorter := Cursor.token_length read real
    simp [passed, empty] at shorter
  · have bound := (Reader.next_unread run).2
    rw [if_neg real] at bound
    exact bound
  · have bound := r.left_stream
    exact ((Parser.spells fuel).block.error _ failed).fuel (by omega) rfl

theorem reading_progress_semicolon : ∃ t : Token, t.kind = .semi ∧
    Reader.next ⟨⟨[], 1⟩, some t⟩ = .ok t ⟨⟨[], 1⟩, none⟩ ∧ Reader.unread ⟨⟨[], 1⟩, none⟩ < Reader.unread ⟨⟨[], 1⟩, some t⟩ ∧
    Parser.stat 1 ⟨[t], .ok 1⟩ = .ok (.mk 1 .empty, ⟨[], .ok 1⟩) ∧ Parser.Consumes ⟨[t], .ok 1⟩ ⟨[], .ok 1⟩ := by
  have run : Parser.stat 1 ⟨[⟨.semi, 1, some ";"⟩], .ok 1⟩ = .ok (.mk 1 .empty, ⟨[], .ok 1⟩) := by
    rw [Parser.stat]
    rfl
  obtain ⟨-, next, -, advances, -⟩ := reading_progress
  exact ⟨⟨.semi, 1, some ";"⟩, rfl, rfl, next _ _ _ rfl (by decide), run, (advances 1).stat _ _ _ run⟩

end LuaBytecode
