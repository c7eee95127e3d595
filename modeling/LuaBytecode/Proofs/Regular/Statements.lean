import LuaBytecode.Proofs.Logic.Statements
import LuaBytecode.Proofs.Regular.Functions
import LuaBytecode.Proofs.Regular.Operators

namespace LuaBytecode

open Lowering ExpCode

variable {slack : Nat} {pending : List Nat} {s t : Lowering} {guard callee : ExpCode} {exps args : List ExpCode}
  {body : LowerM Unit}

section Breaks

theorem emitBreak_regular : StatRegular slack emitBreak := by
  intro pending s h
  refine (emitJmp_lowers h.toRegular (.inl h.settled.1) (.inl rfl) (Nat.zero_le _)).before ?_
  rintro _ _ ⟨rfl, i, hop, rfl⟩ leads
  have there : (s.push i).frame.code[s.frame.pc]? = some i := Frame.push_last
  have fits := Frame.closeLevel_fits leads.limit
  refine .lift (.bind (.get ?_))
  split
  · exact .throw trivial
  · rename_i depth _
    refine .bind (Frame.amend_gives there hop _ (fits (depth + 1)) fun j hop' ha hsbx => ?_)
    have redirects : i.Redirects j := ⟨by rw [Instruction.isJump, hop]; rfl, hop'.trans hop.symm, .inr hop⟩
    -- The jump still lands behind itself.
    have lands : ∃ t : Nat, (t : Int) = s.frame.pc + 1 + j.sbx ∧ Landing (s.push i).frame.code t := by
      obtain ⟨t, target, landing⟩ := leads.frame.flow.lands _ _ there (by rw [Instruction.isJump, hop]; rfl)
      exact ⟨t, by rw [hsbx]; exact target, landing⟩
    have regular := leads.frame.replace there redirects lands (fun prep => by cases hop.symm.trans prep)
      (fun loop => by cases hop.symm.trans loop)
    have there' : ((s.push i).frame.replace s.frame.pc j).code[s.frame.pc]? = some j :=
      Frame.replace_self (by rw [push_frame, Frame.push_pc]; omega)
    have grown := ((Frame.Grown.refl s.frame).trans .ofPush).replace there redirects.opcode (.inl hop)
    have broken := regular.withBreak there' hop'
    have depth' : (((s.push i).frame.replace s.frame.pc j).withBreak s.frame.pc).depth = s.frame.depth :=
      Frame.withBreak_depth _ _
    exact ⟨depth', .ofFrame h.toRegular (f := ((s.push i).frame.replace s.frame.pc j).withBreak s.frame.pc) broken
      ⟨grown.peak, grown.constants, grown.upvalues, grown.code, grown.params⟩ rfl rfl (leads.settled.replace redirects)
      h.balanced (scopes_ne_nil h.opened depth')⟩

end Breaks

section Guards

def Frame.Jumps (f : Frame) (pc : Nat) : Prop := ∃ i, f.code[pc]? = some i ∧ i.opcode? = some .jmp

theorem Frame.Jumps.grow {f g : Frame} {pc : Nat} (h : f.Jumps pc) (grown : f.Grown g) : g.Jumps pc := by
  obtain ⟨i, there, hop⟩ := h
  obtain ⟨j, there', same, _⟩ := grown.code pc i there
  exact ⟨j, there', same.trans hop⟩

theorem Lowering.Rests.land (h : s.Rests slack pending) {pc : Nat} (jumps : s.frame.Jumps pc) :
    Stays slack pending (Frame.patchHere pc : LowerM Unit) s := by
  obtain ⟨i, there, hop⟩ := jumps
  exact h.stays (h.patchHere there hop)

theorem emitTestOf_gives {α : Type} {k : LowerM α} {post : α → Lowering → Prop} (hg : guard.Regular slack)
    (poised : s.Poised slack pending)
    (next : ∀ t, t.frame.Tests → Evals slack 0 pending s.frame.used s t → Gives k t post) :
    Gives (do
      let a ← scratch guard.toRegister
      let _ ← Frame.emitAbc .test a 0 0
      k) s post := by
  refine (register_of_operand hg poised).before ?_
  rintro a t ⟨inside, used⟩ leads
  have := leads.bounds
  refine .bind ((emitTest_gives leads.toPoised ?_ False.elim rfl rfl (by omega)).weaken ?_)
  · rintro r rfl
    exact inside
  · rintro _ u ⟨tests, evals⟩
    exact next u tests ((leads.before evals).cast used)

theorem emitGuard_lowers (hg : guard.Regular slack) (poised : s.Poised slack pending) :
    Lowers slack pending (emitGuard guard) s fun leave t => t.frame.Jumps leave ∧ t.frame.used = s.frame.used := by
  refine emitTestOf_gives hg poised fun t tests evals => ?_
  refine Gives.weaken (emitJmp_lowers evals.regular (.inr tests) (.inl rfl) (Nat.zero_le _)) ?_
  rintro _ _ ⟨⟨rfl, i, hop, rfl⟩, leads⟩
  exact ⟨⟨⟨i, Frame.push_last, hop⟩, evals.used⟩, leads.toPoised, evals.toExpands.trans leads.toExpands⟩

theorem emitBack_lowers (h : s.Regular slack 0 pending) (ready : s.frame.Alone ∨ s.frame.Tests) {level start : Nat}
    (landing : Landing s.frame.code start) (fits : level ≤ 255) :
    Restores slack pending (Frame.emitJmp level (Frame.jumpOffset s.frame.pc start) : LowerM Nat) s := by
  refine (emitJmp_lowers h ready (.inr ⟨start, ?_, landing⟩) fits).weaken ?_
  · rw [Frame.jumpOffset]
    omega
  · rintro _ _ ⟨_, _, _, rfl⟩
    rfl

theorem emitWhile_regular (hg : guard.Regular slack) (hb : StatRegular slack body) :
    StatRegular slack (emitWhile guard body) := by
  intro pending s h
  have := h.depth_pos
  refine .pc ((h.carries (emitGuard_lowers hg h.toPoised) fun _ _ given => given.2).bind ?_)
  rintro leave t ⟨⟨jumps, _⟩, depth⟩ does
  refine (does.enterScope true).bind fun _ u depth₁ does₁ => ?_
  refine (hb does₁.toRests).bind fun _ v depth₂ does₂ => ?_
  refine does₂.closeCaptured.bind fun _ w depth₃ does₃ => ?_
  have landing := (((does.trans does₁).trans does₂).trans does₃).grown.landing h.settled.landing
  have back := emitBack_lowers does₃.toRegular (.inl does₃.settled.1) landing (Nat.zero_le _)
  refine .pc ((does₃.stays back).bind fun _ x depth₄ does₄ => ?_)
  refine (does₄.exitInner (by omega)).bind fun _ y depth₅ does₅ => ?_
  have later := (((does₁.trans does₂).trans does₃).trans does₄).trans does₅
  refine (does₅.land (jumps.grow later.grown)).weaken ?_
  intro _ z depth₆
  omega

theorem emitRepeat_regular (hg : guard.Regular slack) (hb : StatRegular slack body) :
    StatRegular slack (emitRepeat body guard) := by
  intro pending s h
  have := h.depth_pos
  refine (h.enterScope true).bind fun _ t depth does => .pc ?_
  refine (hb does.toRests).bind fun _ u depth₁ does₁ => ?_
  refine emitTestOf_gives hg does₁.toPoised fun v tests evals => ?_
  have fits : v.frame.scopeLevel ≤ 255 := Frame.closeLevel_fits evals.regular.limit _
  have landing := (does₁.grown.trans evals.grown).landing does.settled.landing
  refine .bind (.get (.bind (.bind (.get (.pure ?_)))))
  refine (emitBack_lowers evals.regular (.inr tests) landing fits).before fun _ w used leads => ?_
  have does₂ := does₁.does ⟨leads.toPoised, evals.toExpands.trans leads.toExpands⟩ (used.trans evals.used)
  have depth₂ := leads.depth.trans evals.depth
  refine Gives.weaken (does₂.scopeFoot (by omega)) ?_
  rintro _ x ⟨depth₃, does₃⟩
  exact ⟨by omega, does₂.trans does₃⟩

end Guards

section Conditionals

variable {guards : List ExpCode} {bodies : List (LowerM Unit)}

theorem landAll_stays (h : s.Rests slack pending) (pcs : List Nat) (jumps : ∀ pc ∈ pcs, s.frame.Jumps pc) :
    Stays slack pending (pcs.forM fun pc => (Frame.patchHere pc : LowerM Unit)) s := by
  induction pcs generalizing s with
  | nil => exact .pure h rfl
  | cons pc pcs ih =>
    refine (h.land (jumps pc (.head _))).bind fun _ t depth does => ?_
    rw [← depth]
    exact ih does.toRests fun pc member => (jumps pc (.tail _ member)).grow does.grown

theorem emitSkip_carries (hg : guard.Regular slack) (h : s.Rests slack pending) :
    Carries slack pending (emitSkip guard) s fun skip? t =>
      (∀ pc, skip? = some pc → t.frame.Jumps pc) ∧ t.frame.depth = s.frame.depth := by
  unfold emitSkip
  split
  · exact .pure h ⟨by rintro _ ⟨⟩, rfl⟩
  · refine .map (Gives.weaken (h.carries (emitGuard_lowers hg h.toPoised) fun _ _ given => given.2) ?_)
    rintro pc t ⟨⟨⟨jumps, _⟩, depth⟩, does⟩
    exact ⟨⟨by rintro _ ⟨⟩; exact jumps, depth⟩, does⟩

theorem landSkip_stays (h : s.Rests slack pending) {skip? : Option Nat}
    (jumps : ∀ pc, skip? = some pc → s.frame.Jumps pc) :
    Stays slack pending (skip?.forM fun pc => (Frame.patchHere pc : LowerM Unit)) s := by
  cases skip? with
  | none => exact .pure h rfl
  | some pc => exact h.land (jumps pc rfl)

theorem emitArms_carries (hg : ∀ g ∈ guards, g.Regular slack) (hb : ∀ b ∈ bodies, StatRegular slack b)
    (h : s.Rests slack pending) {skip? : Option Nat} {ends : Array Nat}
    (jumps : ∀ pc, skip? = some pc → s.frame.Jumps pc) (left : ∀ pc ∈ ends, s.frame.Jumps pc) :
    Carries slack pending (emitArms guards bodies skip? ends) s fun ends t =>
      (∀ pc ∈ ends, t.frame.Jumps pc) ∧ t.frame.depth = s.frame.depth := by
  induction guards generalizing s bodies skip? ends with
  | nil => exact .pure h ⟨left, rfl⟩
  | cons guard guards ih =>
    cases bodies with
    | nil => exact .pure h ⟨left, rfl⟩
    | cons body bodies =>
      rw [emitArms_cons]
      refine (landSkip_stays h jumps).bind fun _ t depth does => ?_
      refine (emitSkip_carries (hg guard (.head _)) does.toRests).bind ?_
      rintro skip? u ⟨jumps', depth₁⟩ does₁
      refine (inScope_regular (hb body (.head _)) does₁.toRests).bind fun _ v depth₂ does₂ => ?_
      have grown := ((does.trans does₁).trans does₂).grown
      have left' : ∀ pc ∈ ends, v.frame.Jumps pc := fun pc member => (left pc member).grow grown
      have jumps'' : ∀ pc, skip? = some pc → v.frame.Jumps pc := fun pc same => (jumps' pc same).grow does₂.grown
      rw [← depth, ← depth₁, ← depth₂]
      split
      · refine .pure does₂.toRests ⟨?_, rfl⟩
        cases skip? with
        | none => exact left'
        | some pc =>
          intro pc' member
          rcases Array.mem_push.mp member with old | rfl
          · exact left' pc' old
          · exact jumps'' pc' rfl
      · refine (emitJmp_lowers does₂.toRegular (.inl does₂.settled.1) (.inl rfl) (Nat.zero_le _)).before ?_
        rintro _ _ ⟨rfl, i, hop, rfl⟩ leads
        have does₃ := does₂.does leads rfl
        refine Gives.weaken (ih (fun g member => hg g (.tail _ member))
          (fun b member => hb b (.tail _ member)) does₃.toRests ?_ ?_) ?_
        · exact fun pc same => (jumps'' pc same).grow does₃.grown
        · intro pc member
          rcases Array.mem_push.mp member with old | rfl
          · exact (left' pc old).grow does₃.grown
          · exact ⟨i, Frame.push_last, hop⟩
        · rintro ends' x ⟨given, does₄⟩
          exact ⟨given, does₃.trans does₄⟩

theorem emitIf_regular (hg : ∀ g ∈ guards, g.Regular slack) (hb : ∀ b ∈ bodies, StatRegular slack b) :
    StatRegular slack (emitIf guards bodies) := by
  intro pending s h
  refine (emitArms_carries hg hb h (by rintro _ ⟨⟩) (fun _ => (Array.not_mem_empty _).elim)).bind ?_
  rintro ends t ⟨jumps, depth⟩ does
  have lands := landAll_stays does.toRests ends.toList fun pc member => jumps pc (by simpa using member)
  rw [← List.forM_toArray, Array.toArray_toList] at lands
  exact depth ▸ lands

end Conditionals

section Locals

theorem mem_dropNils {e : ExpCode} (member : e ∈ dropNils exps) : e ∈ exps := by
  induction exps with
  | nil => exact member
  | cons first before ih =>
    unfold dropNils at member
    split at member
    · exact .tail _ (ih member)
    · exact member

theorem mem_trimNils {e : ExpCode} (member : e ∈ trimNils exps) : e ∈ exps := by
  rw [trimNils, List.mem_reverse] at member
  exact List.mem_reverse.mp (mem_dropNils member)

theorem emitLocals_carries (he : ∀ e ∈ exps, e.Regular slack) (names : List String) (h : s.Rests slack pending) :
    Carries slack pending (emitLocals names exps) s fun _ t => t.frame.used = s.frame.used + names.length ∧
      t.frame.depth = s.frame.depth := by
  have values := loadValues_lowers (fun e member => he e (mem_trimNils member)) names.length h.toPoised
  refine (h.carries (Restores.scratch h.toPoised (values.weaken fun _ _ _ => trivial)) fun _ _ => id).bind ?_
  rintro _ t ⟨used, depth⟩ does
  rw [← used, ← depth]
  exact .pc (declare_carries does.toRests names)

theorem emitLocals_regular (he : ∀ e ∈ exps, e.Regular slack) (names : List String) :
    StatRegular slack (emitLocals names exps) :=
  fun _ _ h => (emitLocals_carries he names h).weaken fun _ _ given => given.2

end Locals

section Assignments

theorem resolveTargets_lowers (he : ∀ e ∈ exps, e.Regular slack) (poised : s.Poised slack pending)
    {resolved : Array Target} (fits : ∀ target ∈ resolved, target.Fits s.frame) :
    Lowers slack pending (resolveTargets exps resolved) s fun targets t => ∀ target ∈ targets, target.Fits t.frame := by
  induction exps generalizing s resolved with
  | nil => exact .pure poised fits
  | cons e rest ih =>
    refine ((he e (.head _)).target poised).bind fun target t fits' leads => ?_
    refine ih (fun e member => he e (.tail _ member)) leads.toPoised ?_
    intro target' member
    rcases Array.mem_push.mp member with old | rfl
    · exact (fits target' old).grow leads.grown
    · exact fits'

theorem emitStores_lowers {v : Nat} {targets : List Target} (fits : ∀ target ∈ targets, target.Fits s.frame)
    (inside : v + targets.length ≤ s.frame.peak) (poised : s.Poised slack pending) :
    Lowers slack pending (emitStores v targets) s fun _ _ => True := by
  induction targets generalizing s v with
  | nil => exact .pure poised trivial
  | cons target rest ih =>
    rw [List.length_cons] at inside
    refine (emitStore_lowers poised (v := v) (by omega) (fits target (.head _))).bind fun _ t _ leads => ?_
    have := leads.bounds
    exact ih (fun target member => (fits target (.tail _ member)).grow leads.grown) (by omega)
      leads.toPoised

theorem emitAssign_regular {targets : List ExpCode} (ht : ∀ e ∈ targets, e.Regular slack)
    (he : ∀ e ∈ exps, e.Regular slack) : StatRegular slack (emitAssign targets exps) := by
  intro pending s h
  refine h.stays (.scratch h.toPoised ?_)
  refine (resolveTargets_lowers ht h.toPoised (fun _ => (Array.not_mem_empty _).elim)).bind ?_
  refine fun resolved t fits leads => .used ?_
  refine (loadValues_lowers (fun e member => he e (mem_trimNils member)) resolved.size leads.toPoised).bind ?_
  intro _ u used leads'
  have := leads'.bounds
  refine emitStores_lowers ?_ ?_ leads'.toPoised
  · intro target member
    exact (fits target (by simpa using member)).grow leads'.grown
  · rw [Array.length_toList]
    omega

end Assignments

section Calls

theorem emitCallStatement_regular (hc : callee.Regular slack) (ha : ∀ e ∈ args, e.Regular slack) (isMethod : Bool) :
    StatRegular slack (emitCallStatement callee args isMethod) := by
  intro pending s h
  have := h.bounds
  refine h.stays (h.alloc.bind ?_)
  rintro _ t ⟨rfl, used⟩ leads
  have := leads.bounds
  refine .after (emitCall_gives hc ha isMethod leads.toPoised (n := 0) (by omega) (by omega)) ?_
  intro _ u leaves evals
  have used' := evals.used
  have live := evals.live
  have most := evals.regular.used_le
  have poised : u.Poised slack pending := ⟨evals.regular.settle (by simp only [Int.toNat_zero]; omega), leaves⟩
  refine (poised.free (by omega)).weaken ?_
  intro _ v used''
  omega

theorem emitReturnValues_regular (some : exps ≠ []) (he : ∀ e ∈ exps, e.Regular slack) :
    StatRegular slack (emitReturnValues exps) := by
  intro pending s h
  have positive := List.length_pos_iff.mpr some
  have := h.bounds
  refine h.stays (.after (loadOpen_gives he h.toPoised) fun _ t leaves evals => ?_)
  have used := evals.used
  have live := evals.live
  have most := evals.regular.used_le
  refine .after (freeN_gives evals.regular (by omega)) fun _ u same evals' => .used ?_
  have used' := evals'.used
  have peak := evals'.grown.peak
  have limit := evals'.regular.limit
  have back : s.frame.used = u.frame.used := by omega
  have small : u.frame.used ≤ 255 := by omega
  have supplied : (Frame.countOperand (countOf exps) ≠ 0 ∧ u.frame.Settled ∨ Frame.countOperand (countOf exps) = 0 ∧
      ∃ r, u.frame.Opened r ∧ u.frame.used ≤ r) ∧ Frame.countOperand (countOf exps) ≤ exps.length + 1 := by
    unfold countOf
    split
    · rename_i openValues
      rw [if_pos openValues] at leaves
      exact ⟨.inr ⟨rfl, _, leaves.recounted same, by omega⟩, Nat.zero_le _⟩
    · rename_i closed
      rw [if_neg closed] at leaves
      rw [Frame.countOperand_natCast (by omega)]
      exact ⟨.inl ⟨by omega, leaves.recounted same⟩, Nat.le.refl⟩
  rw [back]
  refine .done (emitReturn_lowers evals'.regular small supplied.1 ?_)
  rintro r (⟨_, rfl⟩ | ⟨_, below⟩) <;> omega

theorem emitTailReturn_stays {prepare : Nat → LowerM Int} (h : s.Rests slack pending)
    (hp : ∀ ⦃pending : List Nat⦄ ⦃s : Lowering⦄ ⦃a : Nat⦄, s.Poised slack pending →
      a < s.frame.used → Gives (prepare a) s fun count t =>
        t.frame.Prepared a count ∧ Evals slack 0 pending s.frame.used s t) :
    Stays slack pending (do
      let r ← Frame.alloc
      let count ← prepare r
      let _ ← Frame.emitTailCall r count
      Frame.free
      let _ ← Frame.emitReturn r (-1) : LowerM Unit) s := by
  have := h.bounds
  refine h.stays (h.alloc.bind ?_)
  rintro _ t ⟨rfl, used⟩ leads
  refine .after (hp leads.toPoised (by omega)) fun count u prepared evals => ?_
  have := leads.bounds
  have used₁ := evals.used
  have limit := evals.regular.limit
  have most := evals.regular.used_le
  obtain ⟨supplied, below⟩ := supplied_of_prepared prepared limit
  refine .after (emitTaker_gives evals.regular (.inr (.inl rfl)) (by omega) (by simpa using supplied) ?_) ?_
  · rintro r (rfl | ⟨least, most'⟩)
    · omega
    · have := below r least most'
      omega
  rintro _ _ ⟨i, hop, ha, _, _, rfl⟩ evals₂
  have used₂ := evals₂.used
  have live := (evals.trans evals₂).live
  have opened : (u.push i).frame.Opened s.frame.used :=
    ha ▸ .ofPush (by simp [Instruction.isOpen, hop])
  refine .after (free_gives evals₂.regular (by omega)) fun _ w same evals₃ => ?_
  have used₃ := evals₃.used
  have peak := (evals₂.trans evals₃).grown.peak
  have limit₃ := evals₃.regular.limit
  have zero : Frame.countOperand (-1) = 0 := rfl
  rw [show s.frame.used = w.frame.used by omega] at opened ⊢
  refine .done (emitReturn_lowers evals₃.regular (by omega) (.inr ⟨rfl, _, opened.recounted same, Nat.le.refl⟩) ?_)
  rintro r (⟨_, rfl⟩ | ⟨_, below'⟩) <;> omega

theorem emitReturn_regular (he : ∀ e ∈ exps, e.Regular slack) : StatRegular slack (emitReturn exps) := by
  intro pending s h
  cases exps with
  | nil =>
    refine h.stays (.done (emitReturn_lowers h.toRegular (Nat.zero_le _) (.inl ⟨by decide, h.settled⟩) ?_))
    have one : Frame.countOperand 0 = 1 := rfl
    rintro r (⟨many, _⟩ | ⟨_, below⟩)
    · exact absurd one many
    · rw [one] at below
      omega
  | cons value rest =>
    cases rest with
    | cons next rest => exact emitReturnValues_regular (List.cons_ne_nil _ _) he h
    | nil =>
      have hv := he value (.head _)
      refine (hv.register h.toPoised).before ?_
      rintro r? _ ⟨rfl, inside⟩ _
      cases r? with
      | some r =>
        have := h.bounds
        have inside := inside r rfl
        have two : Frame.countOperand 1 = 2 := rfl
        refine h.stays (.done (emitReturn_lowers h.toRegular (by omega) (.inl ⟨by decide, h.settled⟩) ?_))
        rw [two]
        rintro r' (⟨_, rfl⟩ | ⟨_, below⟩) <;> omega
      | none =>
        cases prepared : value.prepare? with
        | some prepare => exact emitTailReturn_stays h (hv.prepare prepare prepared)
        | none => exact emitReturnValues_regular (List.cons_ne_nil _ _) he h

end Calls

end LuaBytecode
