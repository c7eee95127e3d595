import LuaBytecode.Proofs.Ast.Paired
import LuaBytecode.Proofs.Regular.Loops
import LuaBytecode.Proofs.Regular.Tables

namespace LuaBytecode

open Lowering ExpCode

variable {slack : Nat} {P : List String → Prop}

theorem paren_regular {code : ExpCode} {inner : Exp} (h : code.Regular slack) :
    (plain (.paren inner) fun a _ => code.emit a 1).Regular slack := plain_regular _ _ rfl h.emits

theorem setLine_regular {m : LowerM Unit} (hm : StatRegular slack m) (line : Nat) :
    StatRegular slack (do Frame.setLine line; m) := by
  intro pending s h
  have moved : Stays slack pending (Frame.setLine line : LowerM Unit) s :=
    .lift ⟨rfl, .ofFrame h.toRegular (f := { s.frame with line := line }) (h.frame.withLine line)
      ⟨Nat.le.refl, Nat.le.refl, List.prefix_rfl, (Frame.Grown.refl s.frame).code, rfl⟩ rfl rfl h.settled h.balanced
      h.opened⟩
  exact moved.bind fun _ t depth does => depth ▸ hm does.toRests

/-- There is a register for the control of a loop over an iterator. -/
abbrev HasControl (P : List String → Prop) (slack : Nat) : Prop := ∀ names, P names → 0 < names.length + slack

mutual

theorem Exp.code_regular (spare : HasControl P slack) : (e : Exp) → e.Paired P → e.code.Regular slack
  | .nil, _ => ofNil_regular
  | .bool value, _ => ofBool_regular value
  | .integer _, _ | .float _, _ | .string _, _ => ofConstant_regular rfl _
  | .vararg, _ => ofVararg_regular
  | .name name, _ => ofName_regular name
  | .index object key, ⟨ho, hk⟩ => ofIndex_regular rfl (Exp.code_regular spare object ho) (Exp.code_regular spare key hk)
  | .call callee args isMethod, ⟨hc, ha⟩ =>
    ofCall_regular rfl (Exp.code_regular spare callee hc) (Exp.codes_regular spare args ha) isMethod
  | .function params isVararg body, hb => ofFunction_regular rfl (Block.code_regular spare body hb) params isVararg
  | .table keys values, ⟨paired, hk, hv⟩ =>
    plain_regular _ _ rfl (emitTable_lowers (Exp.keyCodes_regular spare keys hk) (Exp.codes_regular spare values hv) (by
      simpa [Exp.keyCodes_eq, Exp.codes_eq] using paired))
  | .paren inner, hi => paren_regular (Exp.code_regular spare inner hi)
  | .unop op operand, ho => ofUnop_regular op rfl (Exp.code_regular spare operand ho)
  | .binop op lhs rhs, ⟨hl, hr⟩ =>
    ofBinop_regular op rfl (Exp.code_regular spare lhs hl) (Exp.code_regular spare rhs hr)

theorem Exp.codes_regular (spare : HasControl P slack) : (exps : List Exp) → Exp.AllPaired P exps →
    ∀ e ∈ Exp.codes exps [], e.Regular slack
  | [], _ => nofun
  | e :: rest, ⟨head, tail⟩ => by
    have first := Exp.code_regular spare e head
    have others := Exp.codes_regular spare rest tail
    rw [Exp.codes_eq] at others ⊢
    exact List.forall_mem_cons.mpr ⟨first, others⟩

theorem Exp.code?_regular (spare : HasControl P slack) : (e? : Option Exp) → Exp.Paired? P e? →
    ∀ e, Exp.code? e? = some e → e.Regular slack
  | none, _ => nofun
  | some e, h => fun _ same => Option.some.inj same ▸ Exp.code_regular spare e h

theorem Exp.keyCodes_regular (spare : HasControl P slack) :
    (keys : List (Option Exp)) → Exp.KeysPaired P keys → ∀ e, some e ∈ Exp.keyCodes keys [] → e.Regular slack
  | [], _ => nofun
  | key :: rest, ⟨head, tail⟩ => by
    have first := Exp.code?_regular spare key head
    have others := Exp.keyCodes_regular spare rest tail
    rw [Exp.keyCodes_eq] at others ⊢
    intro e member
    rcases List.mem_cons.mp member with same | later
    · refine first e ?_
      rw [same]
      cases key <;> rfl
    · exact others e later

theorem StatKind.code_regular (spare : HasControl P slack) : (kind : StatKind) → kind.Paired P → StatRegular slack kind.code
  | .empty, _ | .label _, _ => fun _ _ h => .pure h rfl
  | .goto _, _ => fun _ _ _ => Gives.bind (.get (.throw trivial))
  | .breakLoop, _ => emitBreak_regular
  | .doBlock body, hb => inScope_regular (Block.code_regular spare body hb)
  | .whileDo guard body, ⟨hg, hb⟩ =>
    emitWhile_regular (Exp.code_regular spare guard hg) (Block.code_regular spare body hb)
  | .repeatUntil body guard, ⟨hb, hg⟩ =>
    emitRepeat_regular (Exp.code_regular spare guard hg) (Block.code_regular spare body hb)
  | .ifThen guards blocks, ⟨hg, hb⟩ => emitIf_regular (Exp.codes_regular spare guards hg)
    (Block.codes_regular spare blocks hb)
  | .numericFor var init limit step body, ⟨hi, hl, hs, hb⟩ =>
    emitNumericFor_regular (Exp.code_regular spare init hi) (Exp.code_regular spare limit hl)
      (Exp.code?_regular spare step hs) (Block.code_regular spare body hb) var
  | .genericFor names exps body, ⟨named, he, hb⟩ =>
    emitGenericFor_regular (Exp.codes_regular spare exps he) (Block.code_regular spare body hb) (spare names named)
  | .localDecl names exps, he => emitLocals_regular (Exp.codes_regular spare exps he) names
  | .localFunction name params isVararg body, hb =>
    emitLocalFunction_regular (Block.code_regular spare body hb) name params isVararg
  | .assign targets values, ⟨ht, hv⟩ =>
    emitAssign_regular (Exp.codes_regular spare targets ht) (Exp.codes_regular spare values hv)
  | .call callee args isMethod, ⟨hc, ha⟩ =>
    emitCallStatement_regular (Exp.code_regular spare callee hc) (Exp.codes_regular spare args ha) isMethod
  | .ret exps, he => emitReturn_regular (Exp.codes_regular spare exps he)

theorem Block.code_regular (spare : HasControl P slack) : (block : List Stat) → Block.Paired P block →
    StatRegular slack (Block.code block)
  | [], _ => fun _ _ h => .pure h rfl
  | .mk line kind :: rest, ⟨hk, hr⟩ => by
    intro pending s h
    refine (setLine_regular (StatKind.code_regular spare kind hk) line h).bind fun _ t depth does => ?_
    exact depth ▸ Block.code_regular spare rest hr does.toRests

theorem Block.codes_regular (spare : HasControl P slack) :
    (blocks : List (List Stat)) → Block.AllPaired P blocks → ∀ m ∈ Block.codes blocks [], StatRegular slack m
  | [], _ => nofun
  | b :: rest, ⟨head, tail⟩ => by
    have first := Block.code_regular spare b head
    have others := Block.codes_regular spare rest tail
    rw [Block.codes_eq] at others ⊢
    exact List.forall_mem_cons.mpr ⟨first, others⟩

end

end LuaBytecode
