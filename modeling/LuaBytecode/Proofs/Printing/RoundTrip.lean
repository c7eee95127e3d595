import LuaBytecode.Proofs.Grammar.Shape
import LuaBytecode.Proofs.Printing.Derivation
import LuaBytecode.Proofs.Token.Spaced

namespace LuaBytecode

open Token

variable {tss : List (List Token)}

def Spellable (ts : List Token) : Prop := ∀ t ∈ ts, Lexes t

namespace Spellable

@[simp] theorem nil : Spellable [] := nofun

@[simp] theorem cons {t : Token} {ts : List Token} : Spellable (t :: ts) ↔ Lexes t ∧ Spellable ts :=
  List.forall_mem_cons

@[simp] theorem append {ts us : List Token} : Spellable (ts ++ us) ↔ Spellable ts ∧ Spellable us :=
  List.forall_mem_append

theorem flatten (h : ∀ ts ∈ tss, Spellable ts) : Spellable tss.flatten := by
  intro t member
  obtain ⟨ts, listed, inside⟩ := List.mem_flatten.mp member
  exact h ts listed t inside

theorem zipWith {α β : Type} {f : α → β → List Token} {as : List α} {bs : List β}
    (h : ∀ a ∈ as, ∀ b ∈ bs, Spellable (f a b)) : ∀ ts ∈ List.zipWith f as bs, Spellable ts := by
  intro ts listed
  have paired : List.zipWith f as bs = (as.zip bs).map fun p => f p.1 p.2 := by rw [List.zip, List.map_zipWith]
  rw [paired] at listed
  obtain ⟨⟨a, b⟩, pair, rfl⟩ := List.mem_map.mp listed
  exact h a (List.of_mem_zip pair).1 b (List.of_mem_zip pair).2

theorem commas (h : ∀ ts ∈ tss, Spellable ts) : Spellable (commas tss) := by
  cases tss with
  | nil => exact nil
  | cons ts rest =>
    rw [List.forall_mem_cons] at h
    refine append.mpr ⟨h.1, ?_⟩
    rw [List.flatMap_def]
    refine flatten fun us listed => ?_
    obtain ⟨vs, member, rfl⟩ := List.mem_map.mp listed
    exact cons.mpr ⟨lexes_kind (by decide), h.2 vs member⟩

variable {ts : List Token}

theorem names {xs : List String} (h : ∀ x ∈ xs, IsIdentifier x) : Spellable (names xs) := by
  refine commas fun us listed => ?_
  obtain ⟨x, member, rfl⟩ := List.mem_map.mp listed
  exact cons.mpr ⟨lexes_name (h x member), nil⟩

theorem field {key : Option (List Token)} (hk : ∀ us ∈ key, Spellable us) (hv : Spellable ts) :
    Spellable (ofField key ts) := by
  cases key with
  | none => exact hv
  | some us =>
    simp only [ofField, cons, append]
    exact ⟨lexes_kind (by decide), hk us rfl, lexes_kind (by decide), lexes_kind (by decide), hv⟩

theorem function {params : List String} {isVararg : Bool} (named : ∀ x ∈ params, IsIdentifier x) (body : Spellable ts) :
    Spellable (ofFunction params isVararg ts) := by
  have listed : Spellable (ofParams params isVararg) := by
    refine commas (List.forall_mem_append.mpr ⟨fun us listed => ?_, ?_⟩)
    · obtain ⟨x, member, rfl⟩ := List.mem_map.mp listed
      exact cons.mpr ⟨lexes_name (named x member), nil⟩
    · cases isVararg with
      | true => exact List.forall_mem_singleton.mpr (cons.mpr ⟨lexes_kind (by decide), nil⟩)
      | false => exact nofun
  simp only [ofFunction, cons, append]
  exact ⟨lexes_kind (by decide), listed, lexes_kind (by decide), body, lexes_kind (by decide), nil⟩

theorem args (h : ∀ us ∈ tss, Spellable us) : Spellable (ofArgs tss) := by
  simp only [ofArgs, cons, append]
  exact ⟨lexes_kind (by decide), commas h, lexes_kind (by decide), nil⟩

theorem loopBody (body : Spellable ts) : Spellable (ofLoopBody ts) := by
  simp only [ofLoopBody, cons, append]
  exact ⟨lexes_kind (by decide), body, lexes_kind (by decide), nil⟩

theorem step {step : Option (List Token)} (h : ∀ us ∈ step, Spellable us) : Spellable (ofStep step) := by
  cases step with
  | none => exact nil
  | some us => exact cons.mpr ⟨lexes_kind (by decide), h us rfl⟩

theorem locals {xs : List String} (named : ∀ x ∈ xs, IsIdentifier x) (h : ∀ us ∈ tss, Spellable us) :
    Spellable (ofLocals xs tss) := by
  cases tss with
  | nil => exact names named
  | cons us rest => exact append.mpr ⟨names named, cons.mpr ⟨lexes_kind (by decide), commas h⟩⟩

theorem conditional {guards blocks : List (List Token)} (hg : ∀ us ∈ guards, Spellable us)
    (hb : ∀ us ∈ blocks, Spellable us) : Spellable (ofConditional guards blocks) := by
  cases guards with
  | nil => exact nil
  | cons guard guards =>
    cases blocks with
    | nil => exact nil
    | cons body blocks =>
      rw [List.forall_mem_cons] at hg hb
      have arms : Spellable (ofArms guards blocks) := by
        refine flatten (zipWith fun g inGuards b inBlocks => ?_)
        simp only [cons, append]
        exact ⟨lexes_kind (by decide), hg.2 g inGuards, lexes_kind (by decide), hb.2 b inBlocks⟩
      simp only [ofConditional, cons, append]
      exact ⟨lexes_kind (by decide), hg.1, lexes_kind (by decide), hb.1, arms, lexes_kind (by decide), nil⟩

end Spellable

section Lists

theorem Exp.wordLists_spellable {exps : List Exp} (h : ∀ e ∈ exps, Spellable e.words) :
    ∀ ts ∈ Exp.wordLists exps, Spellable ts := by
  induction exps with
  | nil => simp [Exp.wordLists]
  | cons e rest ih => exact List.forall_mem_cons.mpr ((List.forall_mem_cons.mp h).imp id ih)

theorem Exp.words?_spellable : {e? : Option Exp} → (∀ e ∈ e?, Spellable e.words) → ∀ ts ∈ Exp.words? e?, Spellable ts
  | none, _ => nofun
  | some e, h => by simpa [Exp.words?] using h e rfl

theorem Exp.keyWords_spellable {keys : List (Option Exp)} (h : ∀ k, some k ∈ keys → Spellable k.words) :
    ∀ key ∈ Exp.keyWords keys, ∀ ts ∈ key, Spellable ts := by
  induction keys with
  | nil => simp [Exp.keyWords]
  | cons key rest ih =>
    exact List.forall_mem_cons.mpr ⟨Exp.words?_spellable fun e same => h e (same ▸ List.mem_cons_self),
      ih fun k member => h k (.tail _ member)⟩

theorem Block.wordLists_spellable {blocks : List Block} (h : ∀ b ∈ blocks, Spellable (Block.words b)) :
    ∀ ts ∈ Block.wordLists blocks, Spellable ts := by
  induction blocks with
  | nil => simp [Block.wordLists]
  | cons b rest ih => exact List.forall_mem_cons.mpr ((List.forall_mem_cons.mp h).imp id ih)

end Lists

section

variable {D : FunctionDef → Prop}

mutual

theorem Exp.Shaped.spellable {e : Exp} : e.Shaped D → Spellable e.words
  | .nil | .vararg => by simpa [Exp.words] using lexes_kind (by decide)
  | .bool value => by cases value <;> simpa [Exp.words] using lexes_kind (by decide)
  | .integer value => by simpa [Exp.words] using lexes_integer value
  | .float _ => by simp [Exp.words]
  | .string value => by simpa [Exp.words] using lexes_string value
  | .name named => by simpa [Exp.words] using lexes_name named
  | .index _ ho hk => by
    simp only [Exp.words, Spellable.cons, Spellable.append]
    exact ⟨ho.spellable, lexes_kind (by decide), hk.spellable, lexes_kind (by decide), .nil⟩
  | .call _ hc ha => by
    rw [Exp.words]
    exact Spellable.append.mpr ⟨hc.spellable, .args (Exp.wordLists_spellable fun e member => (ha e member).spellable)⟩
  | .method _ ho named ha => by
    simp only [Exp.words, ofCall, if_true, Exp.methodWords, Spellable.append, Spellable.cons]
    exact ⟨⟨ho.spellable, lexes_kind (by decide), lexes_name named, .nil⟩,
      .args (Exp.wordLists_spellable fun e member => (ha e member).spellable)⟩
  | .function _ named hb => by
    rw [Exp.words, Spellable.cons]
    exact ⟨lexes_kind (by decide), .function named hb.spellable⟩
  | .table _ hk hv => by
    have keys := Exp.keyWords_spellable fun k member => (hk k member).spellable
    have values := Exp.wordLists_spellable fun v member => (hv v member).spellable
    simp only [Exp.words, Spellable.cons, Spellable.append]
    exact ⟨lexes_kind (by decide), .commas (.zipWith fun key inKeys value inValues =>
      .field (keys key inKeys) (values value inValues)), lexes_kind (by decide), .nil⟩
  | .paren hi => by
    simp only [Exp.words, Spellable.cons, Spellable.append]
    exact ⟨lexes_kind (by decide), hi.spellable, lexes_kind (by decide), .nil⟩
  | .unop ho => by
    rw [Exp.words, Spellable.cons]
    exact ⟨lexes_kind (by rename_i op _; cases op <;> decide), ho.spellable⟩
  | .binop _ hl hr => by
    simp only [Exp.words, Spellable.cons, Spellable.append]
    exact ⟨hl.spellable, lexes_kind (by rename_i op _ _ _; cases op <;> decide), hr.spellable⟩

theorem StatKind.Shaped.spellable {kind : StatKind} : kind.Shaped D → Spellable kind.words
  | .empty | .breakLoop => by simpa [StatKind.words] using lexes_kind (by decide)
  | .label named => by
    simp only [StatKind.words, Spellable.cons]
    exact ⟨lexes_kind (by decide), lexes_name named, lexes_kind (by decide), .nil⟩
  | .goto named => by
    simp only [StatKind.words, Spellable.cons]
    exact ⟨lexes_kind (by decide), lexes_name named, .nil⟩
  | .doBlock hb => .loopBody hb.spellable
  | .whileDo hg hb => by
    simp only [StatKind.words, Spellable.cons, Spellable.append]
    exact ⟨lexes_kind (by decide), hg.spellable, .loopBody hb.spellable⟩
  | .repeatUntil hb hg => by
    simp only [StatKind.words, Spellable.cons, Spellable.append]
    exact ⟨lexes_kind (by decide), hb.spellable, lexes_kind (by decide), hg.spellable⟩
  | .ifThen _ _ hg hb =>
    .conditional (Exp.wordLists_spellable fun g member => (hg g member).spellable)
      (Block.wordLists_spellable fun b member => (hb b member).spellable)
  | .numericFor named hi hl hs hb => by
    have step := Exp.words?_spellable fun e member => (hs e member).spellable
    simp only [StatKind.words, Spellable.cons, Spellable.append]
    exact ⟨lexes_kind (by decide), lexes_name named, lexes_kind (by decide), hi.spellable, lexes_kind (by decide),
      hl.spellable, .step step, .loopBody hb.spellable⟩
  | .genericFor _ named _ he hb => by
    have exps := Exp.wordLists_spellable fun e member => (he e member).spellable
    simp only [StatKind.words, Spellable.cons, Spellable.append]
    exact ⟨lexes_kind (by decide), .names named, lexes_kind (by decide), .commas exps, .loopBody hb.spellable⟩
  | .localDecl _ named he => by
    rw [StatKind.words, Spellable.cons]
    exact ⟨lexes_kind (by decide), .locals named (Exp.wordLists_spellable fun e member => (he e member).spellable)⟩
  | .localFunction named _ params hb => by
    simp only [StatKind.words, Spellable.cons]
    exact ⟨lexes_kind (by decide), lexes_kind (by decide), lexes_name named, .function params hb.spellable⟩
  | .assign _ _ ht _ hv => by
    have targets := Exp.wordLists_spellable fun t member => (ht t member).spellable
    have values := Exp.wordLists_spellable fun v member => (hv v member).spellable
    simp only [StatKind.words, Spellable.cons, Spellable.append]
    exact ⟨.commas targets, lexes_kind (by decide), .commas values⟩
  | .call shaped => shaped.spellable
  | .ret he => by
    rw [StatKind.words, Spellable.cons]
    exact ⟨lexes_kind (by decide), .commas (Exp.wordLists_spellable fun e member => (he e member).spellable)⟩

theorem Block.Shaped.spellable {block : Block} : Block.Shaped D block → Spellable (Block.words block)
  | .nil => .nil
  | .cons hk _ hr => Spellable.append.mpr ⟨hk.spellable, hr.spellable⟩

end

end

/-- Printing a block and reading it again gives the block, with all its statements on the one line of the text. -/
theorem Chunk.parse_print {source : String} {block : Block} (parsed : Chunk.parse source = .ok block)
    (plain : Block.hasFloat block = false) : Chunk.parse (Block.print block) = .ok (Block.atLine 1 block) := by
  have spelt := (Block.parse_spelt (TokenStream.ofSource_kind source) parsed).2
  have printed := spelt.block_words plain
  have tokens := ofSource_spaced (Chunk.parse_grammatical parsed).spellable
  rw [Chunk.parse, Block.print, tokens]
  exact Block.parse_of_derives printed

theorem Chunk.parse_print_conditional :
    ∃ block, Chunk.parse "if f then return -f.n ^ 2, f:get'\\n'; else f = \x7b...; [1] = (f)\x7d end" = .ok block ∧
      Block.hasFloat block = false ∧ Block.print block =
        "if f then return - f [ \"\\110\" ] ^ 0x2 , f : get ( \"\\010\" ) elseif true then f = \x7b ... , [ 0x1 ] = ( f ) \x7d end" ∧
      Chunk.parse (Block.print block) = .ok (Block.atLine 1 block) := by
  refine exists_ok (fun block => !Block.hasFloat block && decide (Block.print block =
      "if f then return - f [ \"\\110\" ] ^ 0x2 , f : get ( \"\\010\" ) elseif true then f = \x7b ... , [ 0x1 ] = ( f ) \x7d end"))
    (by decide +kernel) fun block parsed checked => ?_
  simp only [Bool.and_eq_true, Bool.not_eq_true', decide_eq_true_eq] at checked
  exact ⟨checked.1, checked.2, Chunk.parse_print parsed checked.1⟩

end LuaBytecode
