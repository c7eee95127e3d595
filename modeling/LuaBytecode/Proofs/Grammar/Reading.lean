import LuaBytecode.Proofs.Grammar.Derives

namespace LuaBytecode

def TokenStream.prepend (s : TokenStream) (ts : List Token) : TokenStream := { s with tokens := ts ++ s.tokens }

theorem TokenStream.prepend_append (s : TokenStream) (ts us : List Token) :
    s.prepend (ts ++ us) = (s.prepend us).prepend ts := by
  simp [prepend]

namespace Parser

variable {e : LexError}

def upcoming (s : TokenStream) : TokenKind := (s.tokens.head?.map (·.kind)).getD .eof

theorem upcoming_prepend (s : TokenStream) (ts : List Token) : upcoming (s.prepend ts) = ahead ts (upcoming s) := by
  cases ts with
  | nil => rfl
  | cons t ts => rfl

def left (s : TokenStream) : Nat := s.tokens.length

theorem left_prepend (s : TokenStream) (ts : List Token) : left (s.prepend ts) = ts.length + left s :=
  List.length_append

/-- Fuel enough to read the tokens: ten for each of them, and one for each call before the next of them is read. -/
abbrev Enough (calls fuel : Nat) (s : TokenStream) : Prop := 10 * left s + calls ≤ fuel

/-- Why a stream has a lexical error: its tokens end with the error, or one of them is no numeral. -/
def Faulty (s : TokenStream) (e : LexError) : Prop :=
  s.ending = .error e ∨
    ∃ t ∈ s.tokens, t.kind = .number ∧ Numeral.read? t.text = none ∧ e = .malformedNumber t.text t.line

theorem Faulty.prepend {s : TokenStream} (h : Faulty s e) (ts : List Token) : Faulty (s.prepend ts) e := by
  obtain ending | ⟨t, member, number⟩ := h
  · exact .inl ending
  · exact .inr ⟨t, List.mem_append_right ts member, number⟩

/-- The fault lies in the text of the source, or in the fuel if there is not enough. -/
structure Blames (enough : Prop) (s : TokenStream) (e : CompileError) : Prop where
  parsing : ∀ c, e ≠ .code c
  fuel : enough → e ≠ .outOfFuel
  lexical : ∀ l, e = .lex l → Faulty s l

theorem Blames.prepend {enough : Prop} {s : TokenStream} {e : CompileError} (h : Blames enough s e) (ts : List Token) :
    Blames enough (s.prepend ts) e where
  parsing := h.parsing
  fuel := h.fuel
  lexical l same := (h.lexical l same).prepend ts

theorem Blames.ending {enough : Prop} {s : TokenStream} (h : s.ending = .error e) : Blames enough s (.lex e) where
  parsing := by simp
  fuel := by simp
  lexical l same := by
    cases same
    exact .inl h

theorem Blames.parse {enough : Prop} {s : TokenStream} (e : SyntaxError) : Blames enough s (.parse e) :=
  ⟨by simp, by simp, by simp⟩

/-- If the reader succeeds, it has consumed tokens as the condition says, which also sees the kind of what comes
    behind them. It fails for want of fuel only if there is not enough. -/
structure Takes {α : Type} (enough : Prop) (p : Parser α) (s : TokenStream)
    (post : α → List Token → TokenKind → Prop) : Prop where
  ok : ∀ a s', p s = .ok (a, s') → ∃ ts, s = s'.prepend ts ∧ post a ts (upcoming s')
  error : ∀ e, p s = .error e → Blames enough s e

namespace Takes

variable {α β : Type} {enough more : Prop} {p : Parser α} {s : TokenStream} {post : α → List Token → TokenKind → Prop}
  {k : α → Parser β} {post' : β → List Token → TokenKind → Prop}

theorem pure {a : α} (h : post a [] (upcoming s)) : Takes enough (pure a) s post where
  ok b s' run := by
    cases run
    exact ⟨[], rfl, h⟩
  error e run := by cases run

theorem weaken {post' : α → List Token → TokenKind → Prop} (h : Takes enough p s post)
    (within : more → enough) (weaker : ∀ a ts n, post a ts n → post' a ts n) : Takes more p s post' where
  ok a s' run := by
    obtain ⟨ts, split, final⟩ := h.ok a s' run
    exact ⟨ts, split, weaker a ts _ final⟩
  error e run := { h.error e run with fuel := fun given => (h.error e run).fuel (within given) }

theorem andThen (h : Takes enough p s post) (within : more → enough)
    (rest : ∀ a ts m t, m = upcoming t → left s = ts.length + left t → post a ts m →
      Takes more (k a) t fun b us n => m = ahead us n → post' b (ts ++ us) n) : Takes more (p >>= k) s post' := by
  have whole : (p >>= k) s = (p s).bind fun r => k r.1 r.2 := rfl
  cases hp : p s with
  | error e =>
    have failed : (p >>= k) s = .error e := by rw [whole, hp]; rfl
    refine ⟨fun b s' run => ?_, fun e' run => ?_⟩
    · cases failed.symm.trans run
    · cases failed.symm.trans run
      exact (h.weaken within fun _ _ _ => id).error e hp
  | ok r =>
    have goesOn : (p >>= k) s = k r.1 r.2 := by rw [whole, hp]; rfl
    obtain ⟨ts, rfl, first⟩ := h.ok r.1 r.2 hp
    have rest := rest r.1 ts _ r.2 rfl (left_prepend r.2 ts) first
    refine ⟨fun b s' run => ?_, fun e run => (rest.error e (goesOn.symm.trans run)).prepend ts⟩
    obtain ⟨us, split, final⟩ := rest.ok b s' (goesOn.symm.trans run)
    refine ⟨ts ++ us, ?_, final ?_⟩
    · rw [split, TokenStream.prepend_append]
    · rw [split, upcoming_prepend]

theorem done {b : β} {m : TokenKind} (at_s : m = upcoming s) (h : post' b [] m) :
    Takes enough (Pure.pure b) s fun b us n => m = ahead us n → post' b us n :=
  pure fun _ => at_s ▸ h

theorem andPure {f : α → β} (h : Takes enough p s post) (within : more → enough)
    (last : ∀ a ts n, post a ts n → post' (f a) ts n) : Takes more (p >>= fun a => Pure.pure (f a)) s post' := by
  refine h.andThen within fun a ts m _ at_t _ first => done at_t ?_
  rw [List.append_nil]
  exact last a ts m first

theorem throw {e : CompileError} (blames : Blames enough s e) : Takes enough (throw e) s post where
  ok a s' run := by cases run
  error e' run := by
    cases run
    exact blames

theorem stuck (h : Takes enough p s fun _ _ _ => False) : Takes enough (p >>= k) s post' :=
  h.andThen id fun _ _ _ _ _ _ never => never.elim

theorem outOfFuel (short : ¬ enough) : Takes enough outOfFuel s post :=
  throw ⟨by simp, fun given => absurd given short, by simp⟩

theorem first (h : Takes enough p s post) :
    Takes enough p s fun a ts n => post a ts n ∧ ∀ t ∈ ts.head?, s.tokens.head? = some t where
  ok a s' run := by
    obtain ⟨ts, rfl, final⟩ := h.ok a s' run
    refine ⟨ts, rfl, final, fun t head => ?_⟩
    cases ts with
    | nil => cases head
    | cons t' ts => exact head
  error := h.error

end Takes

variable {α β : Type} {enough : Prop} {s : TokenStream} {kind : TokenKind} {post : β → List Token → TokenKind → Prop}
  {k : Token → Parser β} {p q : Parser β} {opener : TokenKind} {line : Nat}

theorem look_takes (rest : ∀ t, (∀ u ∈ s.tokens.head?, u = t) → t.kind = upcoming s → Takes enough (k t) s post) :
    Takes enough (look >>= k) s post := by
  obtain ⟨tokens, ending⟩ := s
  cases tokens with
  | cons t ts => exact ⟨(rest t (by simp) rfl).ok, (rest t (by simp) rfl).error⟩
  | nil =>
    cases ending with
    | ok line => exact ⟨(rest (.eof line) (by simp) rfl).ok, (rest (.eof line) (by simp) rfl).error⟩
    | error e =>
      refine ⟨fun b s' run => ?_, fun e' run => ?_⟩ <;> cases run
      exact Blames.ending rfl

theorem peek_takes {k : TokenKind → Parser β} (rest : Takes enough (k (upcoming s)) s post) :
    Takes enough (peek >>= k) s post := by
  rw [peek, bind_assoc]
  apply look_takes
  intro t _ kind
  rw [pure_bind, kind]
  exact rest

theorem complain_takes {c : Complaint} : Takes enough (complain c) s post := by
  apply look_takes
  intro t _ _
  exact Takes.throw (.parse _)

theorem next_or_end (ended : ∀ line, s = ⟨[], .ok line⟩ → Takes enough (k (.eof line)) s post)
    (rest : ∀ t t', left t' < left s → s.tokens.head? = some t → t.kind = upcoming s →
      Takes enough (k t) t' fun b us n => post b (t :: us) n) :
    Takes enough (next >>= k) s post := by
  obtain ⟨tokens, ending⟩ := s
  cases tokens with
  | nil =>
    cases ending with
    | ok line => exact ⟨(ended line rfl).ok, (ended line rfl).error⟩
    | error e =>
      refine ⟨fun b s' run => ?_, fun e' run => ?_⟩ <;> cases run
      exact Blames.ending rfl
  | cons t ts =>
    have rest := rest t ⟨ts, ending⟩ (Nat.lt_succ_self _) rfl rfl
    refine ⟨fun b s' run => ?_, fun e run => (rest.error e run).prepend [t]⟩
    obtain ⟨us, split, final⟩ := rest.ok b s' run
    refine ⟨t :: us, ?_, final⟩
    have tail : ts = us ++ s'.tokens := congrArg TokenStream.tokens split
    have same : ending = s'.ending := congrArg TokenStream.ending split
    rw [tail, same]
    rfl

theorem next_takes (found : upcoming s = kind) (real : (kind == .eof) = false)
    (rest : ∀ t t', left t' < left s → s.tokens.head? = some t → t.kind = kind →
      Takes enough (k t) t' fun b us n => post b (t :: us) n) :
    Takes enough (next >>= k) s post :=
  next_or_end (fun _ last => absurd (by rw [← found, last]; rfl) (ne_of_beq_false real)) fun t t' fewer front same =>
    rest t t' fewer front (same.trans found)

theorem seen_takes {t : Token} (seen : ∀ u ∈ s.tokens.head?, u = t) (found : upcoming s = kind)
    (real : (kind == .eof) = false)
    (rest : ∀ t', left t' < left s → t.kind = kind → Takes enough (k t) t' fun b us n => post b (t :: us) n) :
    Takes enough (next >>= k) s post := by
  refine next_takes found real fun u t' fewer front same => ?_
  obtain rfl : u = t := seen u front
  exact rest t' fewer same

theorem numeral_takes {post : Exp → List Token → TokenKind → Prop} (found : upcoming s = .number)
    (last : ∀ t n next, t.kind = .number → Numeral.read? t.text = some n → post (.ofNumber n) [t] next) :
    Takes enough (next >>= numeral) s post := by
  obtain ⟨tokens, ending⟩ := s
  cases tokens with
  | nil => cases found
  | cons t ts =>
    have whole : (next >>= numeral) ⟨t :: ts, ending⟩ = numeral t ⟨ts, ending⟩ := rfl
    cases value : Numeral.read? t.text with
    | some n =>
      have done : numeral t ⟨ts, ending⟩ = .ok (.ofNumber n, ⟨ts, ending⟩) := by rw [numeral, value]; rfl
      refine ⟨fun e s' run => ?_, fun e run => ?_⟩ <;> cases (whole.trans done).symm.trans run
      exact ⟨[t], rfl, last t n _ found value⟩
    | none =>
      have failed : numeral t ⟨ts, ending⟩ = .error (.lex (.malformedNumber t.text t.line)) := by rw [numeral, value]; rfl
      refine ⟨fun e s' run => ?_, fun e run => ?_⟩ <;> cases (whole.trans failed).symm.trans run
      refine ⟨by simp, by simp, fun l same => ?_⟩
      cases same
      exact .inr ⟨t, .head _, found, value, rfl⟩

theorem expect_takes (real : (kind == .eof) = false)
    (rest : ∀ t t', left t' < left s → upcoming s = kind → t.kind = kind →
      Takes enough (k t) t' fun b us n => post b (t :: us) n) :
    Takes enough (expect kind >>= k) s post := by
  rw [expect, bind_assoc]
  apply next_or_end
  · intro line _
    have other : ¬ (Token.eof line).kind = kind := (ne_of_beq_false real).symm
    rw [if_neg other]
    exact Takes.stuck (Takes.throw (.parse _))
  · intro t t' fewer _ front
    split
    · rename_i same
      rw [pure_bind]
      exact rest t t' fewer (front.symm.trans same) same
    · exact Takes.stuck (Takes.throw (.parse _))

theorem name_takes {k : String → Parser β}
    (rest : ∀ x t', left t' < left s → x.kind = .identifier →
      Takes enough (k x.text) t' fun b us n => post b (x :: us) n) : Takes enough (name >>= k) s post := by
  rw [name, bind_assoc]
  refine expect_takes rfl fun x t' fewer _ kind => ?_
  rw [pure_bind]
  exact rest x t' fewer kind

theorem accept_takes {k : Bool → Parser β} (real : (kind == .eof) = false)
    (yes : ∀ t t', left t' < left s → upcoming s = kind → t.kind = kind →
      Takes enough (k true) t' fun b us n => post b (t :: us) n)
    (no : upcoming s ≠ kind → Takes enough (k false) s post) :
    Takes enough (accept kind >>= k) s post := by
  rw [accept, bind_assoc]
  apply peek_takes
  split
  · rename_i found
    rw [bind_assoc]
    refine next_takes found real fun t t' fewer _ same => ?_
    rw [pure_bind]
    exact yes t t' fewer found same
  · rename_i other
    rw [pure_bind]
    exact no other

theorem acceptThen_takes (real : (kind == .eof) = false)
    (yes : ∀ t t', left t' < left s → t.kind = kind → Takes enough p t' fun b us n => post b (t :: us) n)
    (no : upcoming s ≠ kind → Takes enough q s post) :
    Takes enough (do if ← accept kind then p else q) s post :=
  accept_takes real (fun t t' fewer _ => yes t t' fewer) no

theorem acceptSeparator_takes
    (yes : ∀ t t', left t' < left s → t.kind = .comma ∨ t.kind = .semi → Takes enough p t' fun b us n => post b (t :: us) n)
    (no : upcoming s ≠ .comma → upcoming s ≠ .semi → Takes enough q s post) :
    Takes enough (do if ← acceptSeparator then p else q) s post := by
  rw [acceptSeparator, bind_assoc]
  refine accept_takes rfl (fun t t' fewer _ comma => yes t t' fewer (.inl comma)) fun notComma => ?_
  exact acceptThen_takes rfl (fun t t' fewer semi => yes t t' fewer (.inr semi)) (no notComma)

theorem close_takes {k : Unit → Parser β} (real : (kind == .eof) = false)
    (rest : ∀ t t', left t' < left s → upcoming s = kind → t.kind = kind →
      Takes enough (k ()) t' fun b us n => post b (t :: us) n) :
    Takes enough (close kind opener line >>= k) s post := by
  rw [close, bind_assoc]
  refine accept_takes real rest fun _ => ?_
  rw [if_neg (by decide), bind_assoc]
  apply look_takes
  intro t _ _
  split <;> exact Takes.stuck complain_takes

section Closed

variable {more : Prop} {p : Parser α} {phrase : α → List Token → TokenKind → Prop}

theorem Takes.andExpect {k : α → Token → Parser β} (h : Takes enough p s phrase)
    (within : more → enough) (real : (kind == .eof) = false)
    (rest : ∀ a ts c t, ts.length + left t < left s → phrase a ts kind → c.kind = kind →
      Takes more (k a c) t fun b us n => post b (ts ++ c :: us) n) :
    Takes more (p >>= fun a => expect kind >>= k a) s post := by
  refine h.andThen within fun a ts m t at_t length first => expect_takes real fun c u fewer found same => ?_
  rw [at_t, found] at first
  exact (rest a ts c u (by omega) first same).weaken id fun b us n final _ => final

theorem Takes.andClose {k : α → Unit → Parser β} {opener : TokenKind} {line : Nat} (h : Takes enough p s phrase)
    (within : more → enough) (real : (kind == .eof) = false)
    (rest : ∀ a ts c t, ts.length + left t < left s → phrase a ts kind → c.kind = kind →
      Takes more (k a ()) t fun b us n => post b (ts ++ c :: us) n) :
    Takes more (p >>= fun a => close kind opener line >>= k a) s post := by
  refine h.andThen within fun a ts m t at_t length first => close_takes real fun c u fewer found same => ?_
  rw [at_t, found] at first
  exact (rest a ts c u (by omega) first same).weaken id fun b us n final _ => final

end Closed

/-- The reader succeeds on the tokens, and consumes just these, where a token of kind `next` or the end of the input
    comes behind them. -/
def Reads {α : Type} (p : Parser α) (ts : List Token) (a : α) (next : TokenKind) : Prop :=
  ∀ s : TokenStream, (∃ line, s.ending = .ok line) → upcoming s = next → p (s.prepend ts) = .ok (a, s)

variable {a : α} {b : β} {ts us : List Token} {t : Token} {n : TokenKind}
namespace Reads

theorem pure : Reads (Pure.pure a) [] a n := fun _ _ _ => rfl

theorem bind {p : Parser α} {k : α → Parser β} (h : Reads p ts a (ahead us n)) (rest : Reads (k a) us b n) :
    Reads (p >>= k) (ts ++ us) b n := by
  intro s ended at_s
  have first := h (s.prepend us) ended (by rw [upcoming_prepend, at_s])
  have whole : (p >>= k) (s.prepend (ts ++ us)) = (p (s.prepend (ts ++ us))).bind fun r => k r.1 r.2 := rfl
  rw [whole, TokenStream.prepend_append, first]
  exact rest s ended at_s

theorem andPure {p : Parser α} {f : α → β} (h : Reads p ts a n) : Reads (p >>= fun a => Pure.pure (f a)) ts (f a) n := by
  rw [← List.append_nil ts]
  exact bind h pure

end Reads

theorem look_reads (rest : Reads (k t) (t :: ts) b n) : Reads (look >>= k) (t :: ts) b n := rest

theorem peek_reads {k : TokenKind → Parser β} (rest : Reads (k (ahead ts n)) ts b n) : Reads (peek >>= k) ts b n := by
  intro s ended at_s
  cases ts with
  | cons t ts => exact rest s ended at_s
  | nil =>
    obtain ⟨tokens, ending⟩ := s
    obtain ⟨line, rfl⟩ := ended
    subst at_s
    cases tokens with
    | cons t tokens => exact rest _ ⟨line, rfl⟩ rfl
    | nil => exact rest _ ⟨line, rfl⟩ rfl

theorem next_reads (rest : Reads (k t) ts b n) : Reads (next >>= k) (t :: ts) b n := rest

theorem peek_next_reads {k : TokenKind → Parser β} {k' : Token → Parser β} (same : t.kind = kind)
    (branch : k kind = next >>= k') (rest : Reads (k' t) ts b n) : Reads (peek >>= k) (t :: ts) b n := by
  apply peek_reads
  rw [ahead_cons, same, branch]
  exact rest

theorem expect_reads (same : t.kind = kind) (rest : Reads (k t) ts b n) : Reads (expect kind >>= k) (t :: ts) b n := by
  rw [expect, bind_assoc]
  apply next_reads
  rw [if_pos same, pure_bind]
  exact rest

theorem name_reads {k : String → Parser β} (identifier : t.kind = .identifier) (rest : Reads (k t.text) ts b n) :
    Reads (name >>= k) (t :: ts) b n := by
  rw [name, bind_assoc]
  apply expect_reads identifier
  rw [pure_bind]
  exact rest

theorem accept_reads {k : Bool → Parser β} (same : t.kind = kind) (rest : Reads (k true) ts b n) :
    Reads (accept kind >>= k) (t :: ts) b n := by
  rw [accept, bind_assoc]
  apply peek_reads
  rw [if_pos (show ahead (t :: ts) n = kind from same), bind_assoc]
  apply next_reads
  rw [pure_bind]
  exact rest

theorem accept_passes {k : Bool → Parser β} (other : ahead ts n ≠ kind) (rest : Reads (k false) ts b n) :
    Reads (accept kind >>= k) ts b n := by
  rw [accept, bind_assoc]
  apply peek_reads
  rw [if_neg other, pure_bind]
  exact rest

theorem acceptThen_reads (same : t.kind = kind) (rest : Reads p ts b n) :
    Reads (do if ← accept kind then p else q) (t :: ts) b n := by
  apply accept_reads same
  rw [if_pos rfl]
  exact rest

theorem acceptThen_passes (other : ahead ts n ≠ kind) (rest : Reads q ts b n) :
    Reads (do if ← accept kind then p else q) ts b n := by
  apply accept_passes other
  rw [if_neg (by decide)]
  exact rest

theorem acceptSeparator_reads (same : t.kind = .comma ∨ t.kind = .semi) (rest : Reads p ts b n) :
    Reads (do if ← acceptSeparator then p else q) (t :: ts) b n := by
  rw [acceptSeparator, bind_assoc]
  obtain comma | semi := same
  · apply accept_reads comma
    rw [if_pos rfl, pure_bind, if_pos rfl]
    exact rest
  · apply accept_passes (by simp [semi])
    rw [if_neg (by decide)]
    exact acceptThen_reads semi rest

theorem acceptSeparator_passes (notComma : ahead ts n ≠ .comma) (notSemi : ahead ts n ≠ .semi) (rest : Reads q ts b n) :
    Reads (do if ← acceptSeparator then p else q) ts b n := by
  rw [acceptSeparator, bind_assoc]
  apply accept_passes notComma
  rw [if_neg (by decide)]
  exact acceptThen_passes notSemi rest

theorem close_reads {k : Unit → Parser β} (same : t.kind = kind) (rest : Reads (k ()) ts b n) :
    Reads (close kind opener line >>= k) (t :: ts) b n := by
  rw [close, bind_assoc]
  apply accept_reads same
  rw [if_pos rfl, pure_bind]
  exact rest

theorem Reads.andExpect {p : Parser α} {k : α → Token → Parser β} (h : Reads p ts a kind) (same : t.kind = kind)
    (rest : Reads (k a t) us b n) : Reads (p >>= fun a => expect kind >>= k a) (ts ++ t :: us) b n :=
  bind (by rw [ahead_cons, same]; exact h) (expect_reads same rest)

theorem Reads.andClose {p : Parser α} {k : α → Unit → Parser β} (h : Reads p ts a kind) (same : t.kind = kind)
    (rest : Reads (k a ()) us b n) : Reads (p >>= fun a => close kind opener line >>= k a) (ts ++ t :: us) b n :=
  bind (by rw [ahead_cons, same]; exact h) (close_reads same rest)

end Parser

end LuaBytecode
