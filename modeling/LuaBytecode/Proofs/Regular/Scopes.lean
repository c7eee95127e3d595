import LuaBytecode.Proofs.Regular.Expressions

namespace LuaBytecode

open Lowering

section Levels

variable {f : Frame}

theorem Frame.closeLevel_fits (limit : f.peak < 255) (depth : Nat) : f.closeLevel depth ≤ 255 := by
  rw [Frame.closeLevel_eq]
  split
  · have := (Frame.foldl_min_le ((f.leaving depth).filter fun b => !Frame.isHidden b.name) f.peak).1
    omega
  · exact Nat.zero_le _

theorem Frame.lowerLevel_fits {a b : Nat} (ha : a ≤ 255) (hb : b ≤ 255) : Frame.lowerLevel a b ≤ 255 := by
  unfold Frame.lowerLevel
  split <;> omega

end Levels

theorem Chain.withFrame {f f' : Frame} {outer : List Frame} (h : Chain f outer) (inner : outer ≠ [])
    (upvalues : f'.upvalues = f.upvalues) : Chain f' outer := by
  cases outer with
  | nil => exact absurd rfl inner
  | cons parent outer =>
    obtain ⟨⟨distinct, few, names, records⟩, rest⟩ := h
    exact ⟨⟨upvalues ▸ distinct, upvalues ▸ few, upvalues ▸ names, records⟩, rest⟩

theorem Frame.Regular.started_withLocal {f : Frame} {registers startPc : Nat} {name : String}
    {pending : List Nat} (regular : f.Regular registers pending) (settled : f.Settled) :
    ∀ b ∈ (f.withLocal name startPc).live, ∀ v ∈ (f.withLocal name startPc).locals[b.record]?,
      v.startPc ≤ f.pc ∨ b.register = f.used ∧ v.startPc = startPc := by
  intro b member v there
  rw [Frame.withLocal, Array.getElem?_push] at there
  rcases List.mem_cons.mp member with rfl | old
  · rw [if_pos rfl] at there
    cases there
    exact .inr ⟨rfl, rfl⟩
  · rw [if_neg (Nat.ne_of_lt (regular.recorded.stack.record_lt old))] at there
    exact .inl (settled.2 b old v there)

/-- All registers in use belong to variables, some of which may start with the next instruction. -/
structure Lowering.Pauses (slack : Nat) (pending : List Nat) (s : Lowering) : Prop extends Regular slack 0 pending s where
  alone : s.frame.Alone
  balanced : s.frame.used = s.frame.live.length
  opened : s.frame.scopes ≠ []

/-- Between statements, all registers in use belong to variables, which have started. -/
structure Lowering.Rests (slack : Nat) (pending : List Nat) (s : Lowering) : Prop extends
  Poised slack pending s, Pauses slack pending s

structure Lowering.Brings (slack : Nat) (pending : List Nat) (s t : Lowering) : Prop extends Pauses slack pending t where
  grown : s.frame.Grown t.frame
  around : List.Forall₂ Frame.Touched s.enclosing t.enclosing

structure Lowering.Does (slack : Nat) (pending : List Nat) (s t : Lowering) : Prop extends Rests slack pending t where
  grown : s.frame.Grown t.frame
  around : List.Forall₂ Frame.Touched s.enclosing t.enclosing

def Lowering.Carries {α : Type} (slack : Nat) (pending : List Nat) (m : LowerM α) (s : Lowering)
    (post : α → Lowering → Prop) : Prop := Gives m s fun a t => post a t ∧ Does slack pending s t

abbrev Lowering.Stays {α : Type} (slack : Nat) (pending : List Nat) (m : LowerM α) (s : Lowering) : Prop :=
  Carries slack pending m s fun _ t => t.frame.depth = s.frame.depth

def StatRegular (slack : Nat) (m : LowerM Unit) : Prop :=
  ∀ ⦃pending : List Nat⦄ ⦃s : Lowering⦄, s.Rests slack pending → Stays slack pending m s

namespace Lowering

variable {slack : Nat} {pending pending' : List Nat} {s t u : Lowering}

theorem Does.trans (first : Does slack pending' s t) (second : Does slack pending t u) : Does slack pending s u :=
  ⟨second.toRests, first.grown.trans second.grown, touched_trans first.around second.around⟩

namespace Carries

variable {α β : Type} {m : LowerM α} {k : α → LowerM β} {post post' : α → Lowering → Prop} {final : β → Lowering → Prop}

theorem weaken (h : Carries slack pending m s post) (weaker : ∀ a t, post a t → post' a t) :
    Carries slack pending m s post' := Gives.weaken h fun a t given => ⟨weaker a t given.1, given.2⟩

theorem bind (h : Carries slack pending' m s post)
    (next : ∀ a t, post a t → Does slack pending' s t → Carries slack pending (k a) t final) :
    Carries slack pending (m >>= k) s final := by
  refine Gives.bind (Gives.weaken h ?_)
  rintro a t ⟨given, first⟩
  refine Gives.weaken (next a t given first) ?_
  rintro b u ⟨done, second⟩
  exact ⟨done, first.trans second⟩

theorem after (h : Gives m s fun a t => post a t ∧ Brings slack pending' s t)
    (next : ∀ a t, post a t → Brings slack pending' s t → Carries slack pending (k a) t final) :
    Carries slack pending (m >>= k) s final := by
  refine Gives.bind (h.weaken ?_)
  rintro a t ⟨given, brings⟩
  refine Gives.weaken (next a t given brings) ?_
  rintro b u ⟨done, does⟩
  exact ⟨done, does.toRests, brings.grown.trans does.grown, touched_trans brings.around does.around⟩

theorem pure {a : α} (h : s.Rests slack pending) (given : post a s) : Carries slack pending (Pure.pure a) s post :=
  ⟨given, h, .refl _, touched_refl _⟩

theorem done {post : Lowering → Prop} (h : Carries slack pending m s fun _ => post) :
    Carries slack pending (do let _ ← m) s fun _ => post := h.bind fun _ _ given does => .pure does.toRests given

theorem used {k : Nat → LowerM β} (h : Carries slack pending (k s.frame.used) s final) :
    Carries slack pending (Lowering.used >>= k) s final := h

theorem pc {k : Nat → LowerM β} (h : Carries slack pending (k s.frame.pc) s final) :
    Carries slack pending (Lowering.pc >>= k) s final := h

theorem difference {a b : Nat} {k : Nat → LowerM β} (fits : b ≤ a) (h : Carries slack pending (k (a - b)) s final) :
    Carries slack pending (liftM (Frame.difference a b) >>= k) s final := Gives.bind (difference_gives fits h)

end Carries

theorem scopes_ne_nil {f g : Frame} (opened : f.scopes ≠ []) (depth : g.depth = f.depth) : g.scopes ≠ [] := by
  have positive : 0 < f.depth := List.length_pos_iff.mpr opened
  rw [← depth] at positive
  exact List.length_pos_iff.mp positive

section

variable (h : s.Pauses slack pending)

include h

theorem Pauses.does (leads : Leads slack pending s t) (used : t.frame.used = s.frame.used) : Does slack pending s t where
  toRests := ⟨leads.toPoised, leads.settled.1, by rw [used, leads.live, h.balanced], scopes_ne_nil h.opened leads.depth⟩
  grown := leads.grown
  around := leads.around

theorem Pauses.carries {α : Type} {m : LowerM α} {post : α → Lowering → Prop} (inner : Lowers slack pending m s post)
    (keeps : ∀ a t, post a t → t.frame.used = s.frame.used) :
    Carries slack pending m s fun a t => post a t ∧ t.frame.depth = s.frame.depth :=
  Gives.weaken inner fun a t given => ⟨⟨given.1, given.2.depth⟩, h.does given.2 (keeps a t given.1)⟩

theorem Pauses.stays {α : Type} {m : LowerM α} (inner : Restores slack pending m s) :
    Stays slack pending m s := (h.carries inner fun _ _ => id).weaken fun _ _ given => given.2

theorem Pauses.depth_pos : 0 < s.frame.depth := List.length_pos_iff.mpr h.opened

end

theorem Rests.withFrame (h : s.Regular slack 0 pending) {f : Frame}
    (regular : f.Regular (max (f.peak + slack) 0) pending') (upvalues : f.upvalues = s.frame.upvalues)
    (functions : f.functions = s.frame.functions) (settled : f.Settled) (balanced : f.used = f.live.length)
    (opened : f.scopes ≠ []) : Rests slack pending' ⟨f, s.enclosing⟩ where
  frame := regular
  chain := h.chain.withFrame h.nested upvalues
  nested := h.nested
  functions p member := h.functions p (functions ▸ member)
  settled := settled
  alone := settled.1
  balanced := balanced
  opened := opened

theorem Does.ofFrame (h : s.Regular slack 0 pending) {f : Frame}
    (regular : f.Regular (max (f.peak + slack) 0) pending') (grown : s.frame.Grown f)
    (upvalues : f.upvalues = s.frame.upvalues) (functions : f.functions = s.frame.functions) (settled : f.Settled)
    (balanced : f.used = f.live.length) (opened : f.scopes ≠ []) : Does slack pending' s ⟨f, s.enclosing⟩ :=
  ⟨.withFrame h regular upvalues functions settled balanced opened, grown, touched_refl _⟩

section Enter

theorem Rests.enterScope (h : s.Rests slack pending) (isLoop : Bool) :
    Carries slack pending (Frame.enterScope isLoop : LowerM Unit) s fun _ t =>
      t.frame.depth = s.frame.depth + 1 := by
  refine .lift ⟨rfl, ?_⟩
  exact .ofFrame h.toRegular (f := s.frame.enter isLoop) (h.frame.enter isLoop)
    ⟨Nat.le.refl, Nat.le.refl, List.prefix_rfl, (Frame.Grown.refl s.frame).code, rfl⟩ rfl rfl h.settled h.balanced
    (List.cons_ne_nil _ _)

theorem Pauses.addLocal (h : s.Pauses slack pending) (name : String) {startPc : Nat} (least : s.frame.pc ≤ startPc)
    (most : startPc ≤ s.frame.pc + 1) :
    Gives (Frame.addLocal name startPc : LowerM Nat) s fun r t =>
      (r = s.frame.used ∧ t = ⟨s.frame.withLocal name startPc, s.enclosing⟩) ∧ Brings slack pending s t := by
  refine .lift (.bind ?_)
  unfold Gives Frame.alloc
  by_cases room : s.frame.used + 1 < Frame.registerLimit
  · rw [if_pos room]
    have more : s.frame.peak ≤ max s.frame.peak (s.frame.used + 1) := Nat.le_max_left ..
    have regular : (s.frame.withLocal name startPc).Regular (max (max s.frame.peak (s.frame.used + 1) + slack) 0) pending :=
      (h.frame.withLocal h.opened h.balanced room least most).mono (by omega)
    refine ⟨⟨rfl, rfl⟩, ⟨⟨regular, h.chain.withFrame h.nested rfl, h.nested, h.functions⟩, h.alone, ?_, h.opened⟩, ?_,
      touched_refl _⟩
    · simp [h.balanced]
    · exact ⟨more, Nat.le.refl, List.prefix_rfl, (Frame.Grown.refl s.frame).code, rfl⟩
  · rw [if_neg room]
    trivial

theorem declare_gives (h : s.Pauses slack pending) (names : List String) {startPc : Nat} (least : s.frame.pc ≤ startPc)
    (most : startPc ≤ s.frame.pc + 1) : Gives (declare names startPc) s fun _ t =>
      (t.frame.used = s.frame.used + names.length ∧ t.frame.depth = s.frame.depth ∧
        (startPc ≤ s.frame.pc → s.frame.Settled → t.frame.Settled)) ∧ Brings slack pending s t := by
  induction names generalizing s with
  | nil => exact .pure ⟨⟨rfl, rfl, fun _ => id⟩, h, .refl _, touched_refl _⟩
  | cons name names ih =>
    refine .bind (.bind ((h.addLocal name least most).weaken ?_))
    rintro _ _ ⟨⟨rfl, rfl⟩, first⟩
    refine .pure ((ih first.toPauses least most).weaken ?_)
    rintro _ u ⟨⟨used, depth, settles⟩, second⟩
    refine ⟨⟨?_, depth, fun early settled => settles early ⟨settled.1, fun b member v there => ?_⟩⟩, second.toPauses,
      first.grown.trans second.grown, touched_trans first.around second.around⟩
    · rw [used, List.length_cons]
      show s.frame.used + 1 + names.length = _
      omega
    · rcases h.frame.started_withLocal settled b member v there with old | ⟨_, rfl⟩
      · exact old
      · exact early

theorem declare_carries (h : s.Rests slack pending) (names : List String) :
    Carries slack pending (declare names s.frame.pc) s fun _ t =>
      t.frame.used = s.frame.used + names.length ∧ t.frame.depth = s.frame.depth := by
  refine (declare_gives h.toPauses names Nat.le.refl (Nat.le_succ _)).weaken ?_
  rintro _ t ⟨⟨used, depth, settles⟩, brings⟩
  exact ⟨⟨used, depth⟩, ⟨⟨brings.toRegular, settles Nat.le.refl h.settled⟩, brings.alone, brings.balanced, brings.opened⟩,
    brings.grown, brings.around⟩

end Enter

section Exit

variable {f : Frame} {registers level : Nat}

theorem Rests.closeCaptured (h : s.Rests slack pending) : Stays slack pending (Frame.closeCaptured : LowerM Unit) s := by
  have fits : s.frame.scopeLevel ≤ 255 := Frame.closeLevel_fits h.limit _
  refine .lift (.bind (.get ?_))
  show Gives (if s.frame.scopeLevel > 0 then _ else _) s.frame _
  split
  · refine .bind ((Gives.ofLift (emitJmp_lowers h.toRegular (.inl h.settled.1) (.inl rfl) fits)).weaken ?_)
    rintro _ f ⟨⟨_, i, _, same⟩, leads⟩
    exact .pure ⟨leads.depth, h.does leads (congrArg (·.frame.used) same)⟩
  · exact .pure ⟨rfl, h, .refl _, touched_refl _⟩

theorem landBreak_gives {pc : Nat} {i : Instruction} {scopes : List (Option (Array Nat))}
    (regular : f.Regular registers pending) (settled : f.Settled) (fits : level ≤ 255) (there : f.code[pc]? = some i)
    (hop : i.opcode? = some .jmp) :
    Gives (Frame.landBreak level pc) { f with scopes := scopes } fun _ g => ∃ j, j.opcode? = some .jmp ∧
      g = { f.replace pc j with scopes := scopes } ∧ (f.replace pc j).Regular registers pending ∧
        (f.replace pc j).Settled := by
  have inside := lt_of_getElem? there
  refine .bind (Frame.amend_gives (f := { f with scopes := scopes }) there hop
    (fun i => Frame.lowerLevel i.a level) (Frame.lowerLevel_fits i.a_le fits) fun j hop' _ _ => ?_)
  have there' : (Frame.replace { f with scopes := scopes } pc j).code[pc]? = some j := Frame.replace_self inside
  refine Frame.patchHere_gives there' hop' fun k hopk _ hsbx => ⟨k, hopk, ?_, ?_, ?_⟩
  · simp only [Frame.replace, Array.setIfInBounds_setIfInBounds]
  all_goals
    have redirects : i.Redirects k := ⟨by rw [Instruction.isJump, hop]; rfl, hopk.trans hop.symm, .inr hop⟩
  · refine regular.replace there redirects ⟨f.pc, ?_, settled.landing⟩ ?_ ?_
    · rw [hsbx, Frame.replace_pc, Frame.jumpOffset]
      show (f.pc : Int) = pc + 1 + (f.pc - (pc + 1))
      omega
    · intro prep
      cases hop.symm.trans prep
    · intro loop
      cases hop.symm.trans loop
  · exact settled.replace redirects

theorem landBreaks_gives {pcs : List Nat} (scopes : List (Option (Array Nat))) (regular : f.Regular registers pending)
    (settled : f.Settled) (fits : level ≤ 255) (jumps : ∀ pc ∈ pcs, ∃ i, f.code[pc]? = some i ∧ i.opcode? = some .jmp) :
    Gives (pcs.forM (Frame.landBreak level)) { f with scopes := scopes } fun _ g => ∃ f', g = { f' with scopes := scopes } ∧
      f' = { f with code := f'.code } ∧ f'.Regular registers pending ∧ f'.Settled ∧ f.Grown f' := by
  induction pcs generalizing f with
  | nil => exact .pure ⟨f, rfl, rfl, regular, settled, .refl f⟩
  | cons pc pcs ih =>
    obtain ⟨i, there, hop⟩ := jumps pc (.head _)
    refine .bind ((landBreak_gives regular settled fits there hop).weaken ?_)
    rintro _ _ ⟨j, hopj, rfl, regular', settled'⟩
    have grown : f.Grown (f.replace pc j) := (Frame.Grown.refl f).replace there (hopj.trans hop.symm) (.inl hop)
    refine (ih regular' settled' ?_).weaken ?_
    · intro pc' member
      obtain ⟨k, there', hopk⟩ := jumps pc' (.tail _ member)
      obtain ⟨l, there'', same, _⟩ := grown.code pc' k there'
      exact ⟨l, there'', same.trans hopk⟩
    · rintro _ g ⟨f', rfl, same, regular'', settled'', grown'⟩
      refine ⟨f', rfl, ?_, regular'', settled'', grown.trans grown'⟩
      rw [same]
      rfl

theorem retire_gives (regular : f.Regular registers pending) (opened : f.scopes ≠ []) :
    Gives (do (← get).retiring.forM Frame.retire : FrameM Unit) { f with scopes := f.scopes.tail } fun _ g => ∃ used,
      used + f.live.length = f.used + (f.live.filter fun b => b.depth < f.depth).length ∧ g = f.outside used f.code := by
  let h : Frame := { f with scopes := none :: f.scopes.tail }
  let g : Frame := { f with scopes := f.scopes.tail }
  have depth : h.depth = f.depth := List.length_tail_add_one _ (List.length_pos_iff.mpr opened)
  obtain ⟨f', retired⟩ := Frame.forM_retire_room g.retiring (f := g) regular.room fun _ => regular.recorded.stack.record_lt
  -- It is what leaving a scope without jumps does.
  have exits : Frame.exitScope h = .ok () f' := by
    unfold Frame.exitScope
    refine (bind_run (m := MonadState.get) (a := h) (t := h) rfl).trans ?_
    refine (bind_run (m := Frame.popScope) (a := #[]) (t := g) rfl).trans ?_
    refine (bind_run (a := PUnit.unit) (t := g) rfl).trans ?_
    exact (bind_run (m := MonadState.get) (a := g) (t := g) rfl).trans retired
  have stack : Stack h.depth f.locals.size h.live := depth ▸ regular.recorded.stack
  obtain ⟨same, used, _, untouched, _⟩ := Frame.exitScope_ok (f := h) (List.cons_ne_nil _ _) stack
    (fun pc member => by simp [Frame.breaks, h] at member) exits
  have code : f'.code = f.code := by
    apply Array.ext_getElem?
    intro pc
    exact untouched pc (by simp [Frame.breaks, h])
  have run : (do (← get).retiring.forM Frame.retire : FrameM Unit) g = .ok () f' :=
    (bind_run (m := MonadState.get) (a := g) (t := g) rfl).trans retired
  unfold Gives
  rw [run]
  have live : f'.live = f.live.filter fun b => b.depth < f.depth := by rw [same, Frame.outside, depth]
  refine ⟨f'.used, ?_, ?_⟩
  · rw [← live]
    have : h.used = f.used := rfl
    have : h.live.length = f.live.length := rfl
    omega
  · rw [same, code, Frame.outside, depth]
    rfl

theorem exitScope_gives (h : s.Rests slack pending) : Gives (Frame.exitScope : LowerM Unit) s fun _ t =>
    t.Poised slack pending ∧ s.frame.Grown t.frame ∧ t.enclosing = s.enclosing ∧
      t.frame.scopes = s.frame.scopes.tail ∧ t.frame.used = t.frame.live.length ∧
      t.frame.live = s.frame.live.filter fun b => b.depth < s.frame.depth := by
  have fits : s.frame.scopeLevel ≤ 255 := Frame.closeLevel_fits h.limit _
  have jumps : ∀ pc ∈ s.frame.breaks, ∃ i, s.frame.code[pc]? = some i ∧ i.opcode? = some .jmp := by
    intro pc member
    obtain ⟨pcs, outer, scopes, listed⟩ := Frame.exists_of_mem_breaks member
    exact h.frame.breaks pcs (scopes ▸ List.mem_cons_self) pc listed
  have lands := landBreaks_gives s.frame.scopes.tail h.frame h.settled fits jumps
  rw [← List.forM_toArray, Frame.breaks, Array.toArray_toList] at lands
  refine .lift (.bind (.get (.bind ?_)))
  show Gives (Array.forM _ _ >>= _) { s.frame with scopes := s.frame.scopes.tail } _
  refine .bind (lands.weaken ?_)
  rintro _ _ ⟨f, rfl, same, regular, settled, grown⟩
  have scopes : s.frame.scopes = f.scopes := by rw [same]
  have live : f.live = s.frame.live := by rw [same]
  have depth : f.depth = s.frame.depth := by rw [same]; rfl
  have total : f.used = s.frame.used := by rw [same]
  have peak : f.peak = s.frame.peak := by rw [same]
  rw [scopes]
  refine (retire_gives regular (scopes ▸ h.opened)).weaken ?_
  rintro _ _ ⟨used, count, rfl⟩
  have balanced := h.balanced
  have kept := List.length_filter_le (fun b : Binding => decide (b.depth < f.depth)) f.live
  rw [← live, ← total] at balanced
  have fits := regular.used
  refine ⟨⟨⟨?_, ?_, h.nested, ?_⟩, settled.1, ?_⟩, ?_, rfl, rfl, ?_, ?_⟩
  · rw [← peak] at regular
    exact regular.retire used (scopes ▸ h.opened) (by omega) (by omega)
  · exact h.chain.withFrame h.nested (by rw [same])
  · intro p member
    refine h.functions p ?_
    rw [same] at member
    exact member
  · intro b member v there
    rw [Frame.getElem?_endLocals] at there
    obtain ⟨w, found, rfl⟩ := Option.map_eq_some_iff.mp there
    have started := settled.2 b (List.mem_of_mem_filter member) w found
    split <;> exact started
  · exact ⟨grown.peak, grown.constants, grown.upvalues, grown.code, grown.params⟩
  · show used = (f.live.filter fun b => b.depth < f.depth).length
    omega
  · show (f.live.filter fun b => b.depth < f.depth) = _
    rw [live, depth]

theorem Rests.exitInner (h : s.Rests slack pending) (inner : 1 < s.frame.depth) :
    Carries slack pending (Frame.exitScope : LowerM Unit) s fun _ t => t.frame.depth + 1 = s.frame.depth := by
  refine (exitScope_gives h).weaken ?_
  rintro _ t ⟨poised, grown, around, scopes, balanced, _⟩
  have below : t.frame.depth + 1 = s.frame.depth := by
    unfold Frame.depth at inner ⊢
    rw [scopes, List.length_tail]
    omega
  refine ⟨below, ⟨poised, poised.settled.1, balanced, ?_⟩, grown, around ▸ touched_refl _⟩
  exact List.length_pos_iff.mp (by unfold Frame.depth at below inner; omega)

theorem Rests.scopeFoot (h : s.Rests slack pending) (inner : 1 < s.frame.depth) :
    Carries slack pending (do
      Frame.closeCaptured
      Frame.exitScope : LowerM Unit) s fun _ t => t.frame.depth + 1 = s.frame.depth := by
  refine h.closeCaptured.bind fun _ t depth does => ?_
  rw [← depth] at inner ⊢
  exact does.exitInner inner

theorem inScope_regular {body : LowerM Unit} (hb : StatRegular slack body) : StatRegular slack (inScope body) := by
  intro pending s h
  have := h.depth_pos
  refine (h.enterScope false).bind fun _ t depth does => ?_
  refine (hb does.toRests).bind fun _ u depth' does' => ?_
  refine (does'.scopeFoot (by omega)).weaken ?_
  intro _ v depth''
  omega

end Exit

end Lowering

end LuaBytecode
