import LuaBytecode.Proofs.Logic.Steps

namespace LuaBytecode

open Lowering

variable {G : Type} [Monoid G] {w : Weights G} {L : Logic w}

theorem Exp.isNil_eq (e : Exp) : e.isNil = decide (e.literal? = some .nil) := by
  cases e <;> simp [Exp.isNil, Exp.literal?]

theorem Exp.isTrue_eq (e : Exp) : Lowering.isTrue e = decide (e.literal? = some (.bool true)) := by
  cases e with
  | bool value => cases value <;> rfl
  | _ => simp [Lowering.isTrue, Exp.literal?]

theorem Exp.weigh_of_literal {e : Exp} (h : e.literal?.isSome = true) : e.weigh w = 1 := by
  cases e with
  | nil | bool | integer | float | string => rfl
  | _ => cases h

namespace ExpCode

/-- The logic holds of each use of `e`, with `e'` in its place. -/
structure Walks (L : Logic w) (e e' : ExpCode) : Prop where
  literal : e'.exp.literal? = e.exp.literal?
  multi : e'.isMulti = e.isMulti
  emit : ∀ a n, L.Holds (e.exp.weigh w) Kept (e.emit a n) (e'.emit a n)
  operands : L.Holds (e.exp.weigh w) (RaisedBy e.operands.length) (loadOperands e.operands) (loadOperands e'.operands)
  operandCount : e'.operands.length = e.operands.length
  prepare? : Option.Rel (fun prepare prepare' => ∀ a, L.Holds (e.exp.weigh w) Kept (prepare a) (prepare' a))
    e.prepare? e'.prepare?
  method? : Option.Rel (fun load load' => ∀ a, L.Holds (e.exp.weigh w) (RaisedBy 1) (load a) (load' a))
    e.method? e'.method?
  isIndex : e.method?.isSome = e.exp.isIndex
  target : L.Holds (e.exp.weigh w * if e.exp.isVar then 1 else w.noTarget) Raised e.target e'.target
  register? : L.Spares (e.exp.weigh w) e.register? e'.register?
  place? : L.Spares (e.exp.weigh w) e.place? e'.place?

def weighAll (w : Weights G) (es : List ExpCode) : G := (es.map (·.exp.weigh w)).prod

@[simp] theorem weighAll_nil : weighAll w [] = 1 := rfl

@[simp] theorem weighAll_cons (e : ExpCode) (es : List ExpCode) :
    weighAll w (e :: es) = e.exp.weigh w * weighAll w es := List.prod_cons

variable {e e' : ExpCode} {es es' : List ExpCode}

namespace Walks

variable (h : Walks L e e')

include h

theorem isNil : e'.isNil = e.isNil := by
  rw [ExpCode.isNil, ExpCode.isNil, Exp.isNil_eq, Exp.isNil_eq, h.literal]

theorem toNewRegister : L.Holds (e.exp.weigh w) (RaisedBy 1) e.toNewRegister e'.toNewRegister := by
  refine L.before L.alloc fun r => L.weaken (L.finish (h.emit r 1) fun _ => L.pure r) ?_
  intro _ _ same _ taken
  omega

theorem toRegister : L.Holds (e.exp.weigh w) Raised e.toRegister e'.toRegister := by
  refine h.register?.elim (fun r => ?_) ?_
  · exact L.weaken (L.pure r) fun _ _ _ => by omega
  · exact L.weaken h.toNewRegister fun _ _ _ => by omega

theorem constantRk? : L.Spares (e.exp.weigh w) e.constantRk? e'.constantRk? := by
  unfold ExpCode.constantRk?
  rw [h.literal]
  cases literal : e.exp.literal? with
  | none => exact .inl ⟨rfl, rfl⟩
  | some k =>
    refine .inr ⟨Exp.weigh_of_literal (by rw [literal]; rfl), ?_⟩
    exact L.pass (L.lift (.constantIndex k)) fun _ => L.pure _

theorem toRk : L.Holds (e.exp.weigh w) Raised e.toRk e'.toRk :=
  h.constantRk?.elim (fun rk => L.weaken (L.pure rk) fun _ _ _ => by omega) h.toRegister

theorem toTable : L.Holds (e.exp.weigh w) Raised e.toTable e'.toTable := by
  refine h.place?.elim (fun place => ?_) ?_
  · exact L.weaken (L.pure place) fun _ _ _ => by omega
  · exact L.weaken (L.finish h.toNewRegister fun _ => L.pure _) fun _ _ _ => by omega

end Walks

theorem padNils_holds (n : Nat) : L.Holds 1 (RaisedBy n) (padNils n) (padNils n) := by
  cases n with
  | zero => exact L.pure ()
  | succ n =>
    refine L.before (L.lift (.allocN (n + 1))) fun a => L.weaken (L.emitAbc (by decide) (by decide)) ?_
    intro _ _ same _ taken
    omega

theorem loadValues_holds (h : List.Forall₂ (Walks L) es es') (want : Nat) :
    L.Holds (weighAll w es) Raised (loadValues es want) (loadValues es' want) := by
  induction h generalizing want with
  | nil => exact L.weaken (padNils_holds want) fun _ _ _ => by omega
  | @cons e e' rest rest' head tail ih =>
    rw [weighAll_cons]
    cases tail with
    | nil =>
      refine Logic.congr (L.before L.alloc fun a => ?_) (mul_one _).symm
      rw [head.multi]
      split
      · refine L.after (head.emit a want) fun _ => L.weaken (L.finish (L.lift (.allocN _)) fun _ => L.pure _) ?_
        intro _ _ _ _ _ _ _
        omega
      · refine L.after (head.emit a 1) fun _ => L.weaken (padNils_holds _) ?_
        intro _ _ _ _ _ _ _
        omega
    | cons =>
      refine L.before L.alloc fun a => L.weaken (L.andThen (head.emit a 1) fun _ => ih (want - 1)) ?_
      intro _ _ _ _ _
      omega

theorem loadOpen_holds (h : List.Forall₂ (Walks L) es es') :
    L.Holds (weighAll w es) (RaisedBy es.length) (loadOpen es) (loadOpen es') := by
  induction h with
  | nil => exact L.pure ()
  | @cons e e' rest rest' head tail ih =>
    rw [weighAll_cons]
    cases tail with
    | nil =>
      refine Logic.congr (L.before L.alloc fun a => ?_) (mul_one _).symm
      rw [head.multi]
      refine L.weaken (head.emit a _) fun _ _ _ _ _ => ?_
      simp only [List.length_singleton]
      omega
    | cons =>
      refine L.before L.alloc fun a => L.weaken (L.andThen (head.emit a 1) fun _ => ih) fun _ _ _ _ _ => ?_
      simp only [List.length_cons] at *
      omega

theorem weighAll_dropNils (es : List ExpCode) : weighAll w (dropNils es).reverse = weighAll w es.reverse := by
  fun_induction dropNils es with
  | case1 => rfl
  | case2 e before nil ih =>
    have literal : e.exp.literal? = some .nil := by
      rw [Bool.and_eq_true_iff, ExpCode.isNil, Exp.isNil_eq, decide_eq_true_eq] at nil
      exact nil.1
    rw [ih]
    simp [weighAll, Exp.weigh_of_literal (w := w) (by rw [literal]; rfl : e.exp.literal?.isSome = true)]
  | case3 => rfl

theorem loadTrimmed_holds (h : List.Forall₂ (Walks L) es es') (want : Nat) :
    L.Holds (weighAll w es) Raised (loadValues (trimNils es) want) (loadValues (trimNils es') want) := by
  refine Logic.congr (loadValues_holds (trimNils_of (fun _ _ h => h.multi) (fun _ _ h => h.isNil) h) want) ?_
  rw [trimNils, weighAll_dropNils, List.reverse_reverse]

section Plain

variable {exp exp' : Exp} {emit emit' : Nat → Int → LowerM Unit} {g : G}

theorem loadOperands_single (h : ∀ a n, L.Holds g Kept (emit a n) (emit' a n)) :
    L.Holds g (RaisedBy 1) (loadOperands [emit]) (loadOperands [emit']) := by
  refine L.before L.alloc fun a => L.weaken (L.finish (h a 1) fun _ => L.pure ()) ?_
  intro _ _ _ _ _
  omega

structure Resembles (exp exp' : Exp) : Prop where
  literal : exp'.literal? = exp.literal?
  multi : exp'.isMulti = exp.isMulti

theorem plain_walks (alike : Resembles exp exp') (h : ∀ a n, L.Holds (exp.weigh w) Kept (emit a n) (emit' a n))
    (other : exp.isVar = false) : Walks L (plain exp emit) (plain exp' emit') where
  literal := alike.literal
  multi := alike.multi
  emit := h
  operands := loadOperands_single h
  operandCount := rfl
  prepare? := .none
  method? := .none
  isIndex := by
    cases exp with
    | index => cases other
    | _ => rfl
  target := by
    show L.Holds (exp.weigh w * if exp.isVar then 1 else w.noTarget) _ _ _
    rw [if_neg (by rw [other]; exact Bool.false_ne_true)]
    exact L.noTarget ..
  register? := .inl ⟨rfl, rfl⟩
  place? := .inl ⟨rfl, rfl⟩

theorem ofNil_walks : Walks L ofNil ofNil :=
  plain_walks ⟨rfl, rfl⟩ (fun _ _ => L.emitAbc (by decide) (by decide)) rfl

theorem ofBool_walks (value : Bool) : Walks L (ofBool value) (ofBool value) :=
  plain_walks ⟨rfl, rfl⟩ (fun _ _ => L.emitAbc (by decide) (by decide)) rfl

theorem ofConstant_walks {k : Constant} (literal : exp.literal?.isSome = true) (other : exp.isVar = false) :
    Walks L (ofConstant exp k) (ofConstant exp k) := by
  refine plain_walks ⟨rfl, rfl⟩ (fun a _ => ?_) other
  rw [Exp.weigh_of_literal literal]
  exact L.pass (L.lift (.emitLoadK a k)) fun _ => L.pure ()

theorem ofVararg_walks : Walks L ofVararg ofVararg := plain_walks ⟨rfl, rfl⟩ L.vararg rfl

theorem ofName_walks {x : String} (known : L.Holds 1 Kept (resolve x) (resolve x)) : Walks L (ofName x) (ofName x) where
  literal := rfl
  multi := rfl
  emit a _ := Logic.emitName known a
  operands := loadOperands_single fun a _ => Logic.emitName known a
  operandCount := rfl
  prepare? := .none
  method? := .none
  isIndex := rfl
  target := Logic.congr (Logic.nameTarget known) (mul_one 1).symm
  register? := .inr ⟨rfl, L.observe (·.register? x) fun _ => rfl⟩
  place? := .inr ⟨rfl, known⟩

end Plain

theorem ofIndex_walks {object object' key key' : ExpCode} {exp exp' : Exp} (alike : Resembles exp exp')
    (ho : Walks L object object') (hk : Walks L key key') (parts : exp.weigh w = object.exp.weigh w * key.exp.weigh w)
    (isIndex : exp.isIndex = true) : Walks L (ofIndex exp object key) (ofIndex exp' object' key') := by
  have read : ∀ a n, L.Holds (exp.weigh w) Kept ((ofIndex exp object key).emit a n)
      ((ofIndex exp' object' key').emit a n) := by
    intro a n
    rw [parts]
    refine L.finish (L.scratch (P := Raised) ?_) fun r => L.emitGetField a r.1 r.2
    refine L.bind ho.toTable fun table => L.weaken (L.finish hk.toRk fun _ => L.pure _) ?_
    intro _ _ _ _ _
    omega
  have isVar : exp.isVar = true := by
    cases exp with
    | index => rfl
    | _ => cases isIndex
  refine
    { literal := alike.literal
      multi := alike.multi
      emit := read
      operands := loadOperands_single read
      operandCount := rfl
      prepare? := .none
      method? := .some fun a => ?_
      isIndex := isIndex.symm
      target := ?_
      register? := .inl ⟨rfl, rfl⟩
      place? := .inl ⟨rfl, rfl⟩ }
  · show L.Holds (exp.weigh w) _ _ _
    rw [parts]
    refine L.andThen (ho.emit a 1) fun _ => L.before L.alloc fun _ => ?_
    refine L.weaken (L.finish (L.scratch hk.toRk) fun _ => L.emitAbc (by decide) (by decide)) ?_
    intro _ _ _ _ _
    omega
  · show L.Holds (exp.weigh w * if exp.isVar then 1 else w.noTarget) _ _ _
    rw [if_pos isVar, mul_one, parts]
    refine L.bind ho.toNewRegister fun table => hk.constantRk?.elim (fun rk => ?_) ?_
    · exact L.weaken (L.pure _) fun _ _ _ _ _ => by omega
    · exact L.weaken (L.finish hk.toNewRegister fun _ => L.pure _) fun _ _ _ _ _ => by omega

section Call

variable {callee callee' : ExpCode} {args args' : List ExpCode} {isMethod : Bool}

def weighCall (w : Weights G) (callee : ExpCode) (args : List ExpCode) (isMethod : Bool) : G :=
  callee.exp.weigh w * weighAll w (args.drop (isMethod && callee.exp.isIndex).toNat)

theorem prepareCall_holds (hc : Walks L callee callee') (ha : List.Forall₂ (Walks L) args args') (a : Nat) :
    L.Holds (weighCall w callee args isMethod) Kept (prepareCall callee args isMethod a)
      (prepareCall callee' args' isMethod a) := by
  have multi : ∀ e e', Walks L e e' → e'.isMulti = e.isMulti := fun _ _ h => h.multi
  have plainly : L.Holds (callee.exp.weigh w * weighAll w args) Kept
      (do callee.emit a 1; loadOpen args; Frame.freeN args.length; return countOf args : LowerM Int)
      (do callee'.emit a 1; loadOpen args'; Frame.freeN args'.length; return countOf args' : LowerM Int) := by
    rw [countOf_of multi ha, ← ha.length_eq]
    refine L.andThen (hc.emit a 1) fun _ => L.after (loadOpen_holds ha) fun _ => ?_
    exact L.weaken (L.finish (L.lift (.freeN _)) fun _ => L.pure _) fun _ _ _ _ _ => by omega
  unfold prepareCall weighCall
  rw [← hc.isIndex]
  cases isMethod with
  | false => exact plainly
  | true =>
    have methods := hc.method?
    revert methods
    generalize callee.method? = load?, callee'.method? = load?'
    intro methods
    cases methods with
    | none => exact plainly
    | some load =>
      have rest := List.forall₂_drop 1 ha
      have loads := loadOpen_holds rest
      simp only
      rw [isOpen_of multi rest, ← rest.length_eq]
      refine L.bind (load a) fun _ => L.after loads fun _ => ?_
      refine L.before (L.lift (.freeN _)) fun _ => L.weaken (L.finish (L.lift .free) fun _ => L.pure _) ?_
      intro _ _ _ _ _ _ _ _ _
      omega

theorem emitCall_holds (hc : Walks L callee callee') (ha : List.Forall₂ (Walks L) args args') (a : Nat) (n : Int) :
    L.Holds (weighCall w callee args isMethod) Kept (emitCall callee args isMethod a n)
      (emitCall callee' args' isMethod a n) :=
  L.finish (prepareCall_holds hc ha a) fun _ => L.emitAbc (by decide) (by decide)

theorem ofCall_walks {exp exp' : Exp} (alike : Resembles exp exp') (hc : Walks L callee callee')
    (ha : List.Forall₂ (Walks L) args args') (parts : exp.weigh w = weighCall w callee args isMethod)
    (other : exp.isVar = false) : Walks L (ofCall exp callee args isMethod) (ofCall exp' callee' args' isMethod) :=
  { plain_walks alike (fun a n => Logic.congr (emitCall_holds hc ha a n) parts.symm) other with
    prepare? := .some fun a => Logic.congr (prepareCall_holds hc ha a) parts.symm }

end Call

section Table

variable {stored positional : Nat}

def waiting (positional stored : Nat) : Nat := if stored = positional then 0 else stored % batchSize

theorem waiting_succ (before : stored < positional) (goes : ¬((stored + 1) % batchSize = 0 ∨ stored + 1 = positional)) :
    waiting positional (stored + 1) = waiting positional stored + 1 := by
  rw [not_or] at goes
  rw [waiting, waiting, if_neg goes.2, if_neg (by omega)]
  simp only [batchSize] at goes ⊢
  omega

theorem waiting_flush (before : stored < positional) (ends : (stored + 1) % batchSize = 0 ∨ stored + 1 = positional) :
    waiting positional stored + 1 =
      (if (stored + 1) % batchSize = 0 then batchSize else (stored + 1) % batchSize) +
        waiting positional (stored + 1) := by
  rw [waiting, waiting, if_neg (by omega)]
  by_cases full : (stored + 1) % batchSize = 0
  · rw [if_pos full, full, ite_self]
    simp only [batchSize] at full ⊢
    omega
  · rw [if_neg full, if_pos (ends.resolve_left full)]
    simp only [batchSize] at full ⊢
    omega

theorem flushFields_holds (a index : Nat) (toTop : Bool) :
    L.Holds 1 (LoweredBy (if index % batchSize = 0 then batchSize else index % batchSize)) (flushFields a index toTop)
      (flushFields a index toTop) :=
  L.finish (L.lift (.freeN _)) fun _ => L.pass (L.lift (.emitSetList _ _ _)) fun _ => L.pure ()

def weighFields (w : Weights G) (keys : List (Option ExpCode)) (values : List ExpCode) : G :=
  (List.zipWith (· * ·) (keys.map (·.elim 1 (·.exp.weigh w))) (values.map (·.exp.weigh w))).prod

variable {keys keys' : List (Option ExpCode)} {values values' : List ExpCode}

theorem emitFields_holds (hk : List.Forall₂ (Option.Rel (Walks L)) keys keys')
    (hv : List.Forall₂ (Walks L) values values') (paired : L.Counts → keys.length ≤ values.length) (a positional : Nat)
    (last : Bool) (rest : stored + keys.countP (·.isNone) = positional) :
    L.Holds (weighFields w keys values) (LoweredBy (waiting positional stored))
      (emitFields a positional last stored keys values) (emitFields a positional last stored keys' values') := by
  induction hk generalizing values values' stored with
  | nil =>
    rw [List.countP_nil] at rest
    unfold emitFields
    rw [waiting, if_pos (by omega)]
    exact L.pure ()
  | @cons _ _ keys keys' key others ih =>
    cases hv with
    | nil =>
      have loose := Classical.not_not.mp fun counts => nomatch paired counts
      cases key <;> exact loose _ _ _ _ _ _ (L.pure ())
    | @cons v v' values values' value more =>
      have enough := fun counts => Nat.le_of_succ_le_succ (paired counts)
      cases key with
      | @some k _ key =>
        have fields : weighFields w (some k :: keys) (v :: values) =
            k.exp.weigh w * v.exp.weigh w * weighFields w keys values := List.prod_cons
        rw [fields]
        refine L.andThen (L.scratch (P := Raised) (L.bind key.toRk fun b => ?_)) fun r => ?_
        · exact L.weaken (L.finish value.toRk fun _ => L.pure _) fun _ _ _ _ _ => by omega
        · exact L.pass (L.lift (.emitAbc (by decide) (by decide))) fun _ => ih more enough (by simpa using rest)
      | none =>
        have fields : weighFields w (none :: keys) (v :: values) = v.exp.weigh w * weighFields w keys values := by
          simp [weighFields]
        rw [List.countP_cons_of_pos rfl] at rest
        have left : (stored + 1) + keys.countP (·.isNone) = positional := by omega
        have next := ih more enough left
        rw [fields]
        unfold emitFields
        simp only [isEmpty_of more]
        refine L.before L.alloc fun r => L.andThen (value.emit r _) fun _ => ?_
        split
        · rename_i ends
          have flush := waiting_flush (by omega) ends
          refine L.before (flushFields_holds a (stored + 1) _) fun _ => L.weaken next ?_
          intro _ _ _ _ _ _ _
          omega
        · rename_i goes
          have wait := waiting_succ (by omega) goes
          exact L.weaken next fun _ _ _ _ _ => by omega

theorem emitTable_holds (hk : List.Forall₂ (Option.Rel (Walks L)) keys keys')
    (hv : List.Forall₂ (Walks L) values values') (paired : L.Counts → keys.length ≤ values.length) (a : Nat) :
    L.Holds (weighFields w keys values) Kept (emitTable keys values a) (emitTable keys' values' a) := by
  unfold emitTable
  simp only [countP_isNone_of hk, getLast_isNone_of hk, isOpen_of (fun _ _ h => h.multi) hv, ← hv.length_eq]
  refine L.pass (L.lift (.difference _ _)) fun _ => L.pass (L.lift (.emitAbc (by decide) (by decide))) fun _ => ?_
  refine L.weaken (emitFields_holds hk hv paired a _ _ (Nat.zero_add _)) fun u v given => ?_
  rwa [LoweredBy, waiting, Nat.zero_mod, ite_self] at given

end Table

section Operators

variable {operand operand' lhs lhs' rhs rhs' : ExpCode}

theorem emitUnop_holds (op : UnOp) (h : Walks L operand operand') (a : Nat) :
    L.Holds (operand.exp.weigh w) Kept (emitUnop op operand a) (emitUnop op operand' a) := by
  refine L.finish (L.scratch h.toRegister) fun _ => ?_
  cases op <;> exact L.emitAbc (by decide) (by decide)

theorem emitComparison_holds {opcode : Opcode} (jump : opcode ≠ .jmp) (closure : opcode ≠ .closure)
    (expect x y a : Nat) : L.Holds 1 Kept (emitComparison opcode expect x y a) (emitComparison opcode expect x y a) :=
  L.pass (L.lift (.emitAbc jump closure)) fun _ => L.pass (L.lift (.emitJmp 1)) fun _ =>
    L.pass (L.lift (.emitAbc (by decide) (by decide))) fun _ => L.emitAbc (by decide) (by decide)

variable (hl : Walks L lhs lhs') (hr : Walks L rhs rhs')

include hl hr

theorem loadBoth_holds : L.Holds (lhs.exp.weigh w * rhs.exp.weigh w) (RaisedBy (lhs.operands ++ rhs.operands).length)
    (loadOperands (lhs.operands ++ rhs.operands)) (loadOperands (lhs'.operands ++ rhs'.operands)) := by
  rw [loadOperands_append, loadOperands_append, List.length_append]
  exact L.bind hl.operands fun _ => L.weaken hr.operands fun _ _ _ _ _ => by omega

theorem operandCounts : (lhs'.operands ++ rhs'.operands).length = (lhs.operands ++ rhs.operands).length := by
  rw [List.length_append, List.length_append, hl.operandCount, hr.operandCount]

theorem emitConcat_holds (a : Nat) : L.Holds (lhs.exp.weigh w * rhs.exp.weigh w) Kept
    (emitConcat (lhs.operands ++ rhs.operands) a) (emitConcat (lhs'.operands ++ rhs'.operands) a) := by
  unfold emitConcat
  rw [operandCounts hl hr]
  refine L.pass L.used fun first => L.after (loadBoth_holds hl hr) fun _ => ?_
  refine L.pass (L.lift (.difference _ _)) fun _ => ?_
  exact L.weaken (L.finish (L.lift (.freeN _)) fun _ => L.emitAbc (by decide) (by decide)) fun _ _ _ _ _ => by omega

theorem toRks_holds : L.Holds (lhs.exp.weigh w * rhs.exp.weigh w) Kept (toRks lhs rhs) (toRks lhs' rhs') := by
  refine L.scratch (P := Raised) (L.bind hl.toRk fun _ => ?_)
  exact L.weaken (L.finish hr.toRk fun _ => L.pure _) fun _ _ _ _ _ => by omega

theorem emitBinop_holds (op : BinOp) (a : Nat) :
    L.Holds (lhs.exp.weigh w * rhs.exp.weigh w) Kept (emitBinop op lhs rhs a) (emitBinop op lhs' rhs' a) := by
  have arith : ∀ opcode : Opcode, opcode ≠ .jmp → opcode ≠ .closure → L.Holds (lhs.exp.weigh w * rhs.exp.weigh w) Kept
      (do let r ← toRks lhs rhs; let _ ← Frame.emitAbc opcode a r.1 r.2 : LowerM Unit)
      (do let r ← toRks lhs' rhs'; let _ ← Frame.emitAbc opcode a r.1 r.2) := fun opcode jump closure =>
    L.finish (toRks_holds hl hr) fun _ => L.emitAbc jump closure
  have compare : ∀ (opcode : Opcode) (expect : Nat) (swap : Bool), opcode ≠ .jmp → opcode ≠ .closure →
      L.Holds (lhs.exp.weigh w * rhs.exp.weigh w) Kept
        (do
          let r ← toRks lhs rhs
          if swap then emitComparison opcode expect r.2 r.1 a else emitComparison opcode expect r.1 r.2 a)
        (do
          let r ← toRks lhs' rhs'
          if swap then emitComparison opcode expect r.2 r.1 a else emitComparison opcode expect r.1 r.2 a) := by
    intro opcode expect swap jump closure
    refine L.finish (toRks_holds hl hr) fun r => ?_
    cases swap <;> exact emitComparison_holds jump closure expect _ _ a
  cases op with
  | and => exact L.logical a _ (L.scratch hl.toRegister) (L.scratch hr.toRegister)
  | or => exact L.logical a _ (L.scratch hl.toRegister) (L.scratch hr.toRegister)
  | concat => exact emitConcat_holds hl hr a
  | eq => exact compare .eq 1 false (by decide) (by decide)
  | notEq => exact compare .eq 0 false (by decide) (by decide)
  | lt => exact compare .lt 1 false (by decide) (by decide)
  | gt => exact compare .lt 1 true (by decide) (by decide)
  | ltEq => exact compare .le 1 false (by decide) (by decide)
  | gtEq => exact compare .le 1 true (by decide) (by decide)
  | _ => exact arith _ (by decide) (by decide)

theorem ofBinop_walks {exp exp' : Exp} (alike : Resembles exp exp') (op : BinOp)
    (parts : exp.weigh w = lhs.exp.weigh w * rhs.exp.weigh w) (other : exp.isVar = false) :
    Walks L (ofBinop exp op lhs rhs) (ofBinop exp' op lhs' rhs') := by
  have emits : ∀ a, L.Holds (exp.weigh w) Kept (emitBinop op lhs rhs a) (emitBinop op lhs' rhs' a) := fun a =>
    Logic.congr (emitBinop_holds hl hr op a) parts.symm
  refine { plain_walks alike (fun a _ => emits a) other with operands := ?_, operandCount := ?_ }
  · by_cases chain : op = .concat
    · simp only [ofBinop, chain, if_true]
      exact Logic.congr (loadBoth_holds hl hr) parts.symm
    · simp only [ofBinop, chain, if_false]
      exact loadOperands_single fun a _ => emits a
  · by_cases chain : op = .concat
    · simp only [ofBinop, chain, if_true, operandCounts hl hr]
    · simp only [ofBinop, chain, if_false, List.length_singleton]

end Operators

end ExpCode

end LuaBytecode
