import LuaBytecode.Proofs.Frame.Operations

namespace LuaBytecode

namespace Frame

section Levels

variable (E E' : NameOrder)

theorem walk_perm (f : Frame) : (E.walk f).Perm (E'.walk f) := (E.perm f).trans (E'.perm f).symm

theorem perm_leaving (f : Frame) (d : Nat) : (@leaving E f d).Perm (@leaving E' f d) :=
  (walk_perm E E' f).flatMap_right _

theorem closeLevelOver_perm {names names' : List String} (perm : names.Perm names') (f : Frame) (d : Nat) :
    f.closeLevelOver names d = f.closeLevelOver names' d := by
  have left := perm.flatMap_right fun x => (f.chain x).takeWhile fun b => d ≤ b.depth
  have least := (left.filter fun b => !isHidden b.name).foldl_eq' (f := fun least b => min least b.register)
    (fun b _ c _ least => by omega) f.peak
  simp only [closeLevelOver, left.any_eq, least]

theorem closeLevel_order : @closeLevel E = @closeLevel E' := by
  funext f d
  exact closeLevelOver_perm (walk_perm E E' f) f d

theorem scopeLevel_order : @scopeLevel E = @scopeLevel E' := by
  unfold scopeLevel
  rw [closeLevel_order E E']

theorem closeCaptured_order : @closeCaptured E = @closeCaptured E' := by
  unfold closeCaptured
  rw [scopeLevel_order E E']

theorem addBreak_order : @addBreak E = @addBreak E' := by
  unfold addBreak
  rw [closeLevel_order E E']

end Levels

section Retiring

variable {f g : Frame} {e : CodeError} {x : String} {names : List String} {depth size top : Nat}

theorem endLocal_error {b : Binding} (known : b.record < f.locals.size) (h : endLocal b f = .error e g) :
    e = .registerUnderflow f.line := by
  rcases bind_error h with h | ⟨_, k, freed, h⟩
  · unfold free at h
    split at h
    · cases h
      rfl
    · cases h
  · obtain ⟨_, same⟩ := free_ok freed
    have known : b.record < k.locals.size := by rwa [same]
    rw [endRecord, if_pos known] at h
    cases h

theorem forM_endLocal_error {bindings : List Binding} (known : ∀ b ∈ bindings, b.record < f.locals.size)
    (h : bindings.forM endLocal f = .error e g) : e = .registerUnderflow f.line := by
  induction bindings generalizing f with
  | nil => cases h
  | cons b rest ih =>
    obtain ⟨here, others⟩ := List.forall_mem_cons.mp known
    rcases bind_error h with h | ⟨_, k, first, h⟩
    · exact endLocal_error here h
    · obtain ⟨_, same⟩ := endLocal_ok first
      have line : k.line = f.line := by rw [same]
      rw [← line]
      refine ih (fun c member => ?_) h
      rw [same, Array.size_modify]
      exact others c member

theorem retire_error (known : ∀ b ∈ f.live, b.record < f.locals.size) (h : retire x f = .error e g) :
    e = .registerUnderflow f.line := by
  rcases bind_error h with h | ⟨_, _, got, h⟩
  · cases h
  · cases got
    rcases bind_error h with h | ⟨_, _, _, h⟩
    · exact forM_endLocal_error (fun b member => known b ((f.innermost_sublist x).subset member)) h
    · cases h

theorem forM_retire_error (known : ∀ b ∈ f.live, b.record < f.locals.size) (h : names.forM retire f = .error e g) :
    e = .registerUnderflow f.line := by
  induction names generalizing f with
  | nil => cases h
  | cons x names ih =>
    rcases bind_error h with h | ⟨_, k, first, h⟩
    · exact retire_error known h
    · obtain ⟨_, same⟩ := retire_ok first
      have line : k.line = f.line := by rw [same]
      rw [← line]
      refine ih (fun b member => ?_) h
      rw [same] at member ⊢
      rw [endLocals_size]
      exact known b (List.mem_of_mem_filter member)

theorem innermost_name {b : Binding} (member : b ∈ f.innermost x) : b.name = x := by
  have mine : b ∈ f.chain x := by
    unfold innermost at member
    split at member
    · cases member
    · rename_i newest older shape
      rw [shape]
      exact ((List.takeWhile_sublist _).cons_cons newest).subset member
  simpa using (List.mem_filter.mp mine).2

theorem innermost_retire {y : String} (layered : Layered depth size top f.live)
    (live : g.live = f.live.filter fun b => (f.innermost x).all (·.record != b.record)) (other : y ≠ x) :
    g.innermost y = f.innermost y := by
  have chain : g.chain y = f.chain y := by
    rw [Frame.chain, Frame.chain, live, List.filter_filter]
    apply List.filter_congr
    intro b member
    by_cases name : b.name = y
    · have kept : (f.innermost x).all (·.record != b.record) = true := by
        rw [List.all_eq_true]
        intro c gone
        rw [bne_iff_ne]
        intro same
        obtain rfl := layered.eq_of_record ((f.innermost_sublist x).subset gone) member same
        exact other (name.symm.trans (innermost_name gone))
      rw [kept, Bool.and_true]
    · simp [name]
  rw [innermost, innermost, chain]

theorem forM_retire_succeeds_iff (nodup : names.Nodup) (layered : Layered depth f.locals.size top f.live) :
    (∃ g, names.forM retire f = .ok () g) ↔ (names.flatMap f.innermost).length ≤ f.used := by
  induction names generalizing f with
  | nil => exact iff_of_true ⟨f, rfl⟩ (Nat.zero_le _)
  | cons x names ih =>
    obtain ⟨absent, nodup⟩ := List.nodup_cons.mp nodup
    have later : ∀ {k}, retire x f = .ok () k →
        ((∃ g, names.forM retire k = .ok () g) ↔ (names.flatMap f.innermost).length ≤ k.used) := by
      intro k first
      obtain ⟨_, same⟩ := retire_ok first
      have live : k.live = f.live.filter fun b => (f.innermost x).all (·.record != b.record) := by rw [same]
      have fewer : Layered depth k.locals.size top k.live := by
        rw [live, same, endLocals_size]
        exact layered.ofSublist List.filter_sublist
      have others : names.flatMap k.innermost = names.flatMap f.innermost :=
        List.flatMap_congr fun y member => innermost_retire layered live fun same => absent (same ▸ member)
      rw [ih nodup fewer, others]
    rw [List.flatMap_cons, List.length_append]
    constructor
    · rintro ⟨g, run⟩
      obtain ⟨_, k, first, rest⟩ := bind_ok run
      have := (later first).mp ⟨g, rest⟩
      have := (retire_ok first).1
      omega
    · intro room
      obtain ⟨k, first⟩ := retire_succeeds (fun b member => (layered.inside b member).2.1)
        (show (f.innermost x).length ≤ f.used by omega)
      have := (retire_ok first).1
      obtain ⟨g, rest⟩ := (later first).mpr (by omega)
      exact ⟨g, (bind_run first).trans rest⟩

end Retiring

section Exit

variable (E E' : NameOrder) {f : Frame} {top : Nat}

theorem forM_retiring_order (layered : Layered (f.depth + 1) f.locals.size top f.live) :
    SameResult ((@retiring E f).forM retire f) ((@retiring E' f).forM retire f) := by
  have perm : (@retiring E f).Perm (@retiring E' f) := (walk_perm E E' f).filter _
  have nodup : (@retiring E f).Nodup := (@nodup_walk E f).filter _
  have both : (∃ g, (@retiring E f).forM retire f = .ok () g) ↔ ∃ g, (@retiring E' f).forM retire f = .ok () g := by
    rw [forM_retire_succeeds_iff nodup layered, forM_retire_succeeds_iff (perm.nodup_iff.mp nodup) layered,
      (perm.flatMap_right _).length_eq]
  cases run : (@retiring E f).forM retire f with
  | ok u g =>
    obtain ⟨g', run'⟩ := both.mp ⟨g, run⟩
    obtain ⟨used, same⟩ := @forM_retiring_ok f g u _ top E layered run
    obtain ⟨used', same'⟩ := @forM_retiring_ok f g' () _ top E' layered run'
    have live : g.live = g'.live := by rw [same, same']
    have count : g.used = g'.used := by
      rw [live] at used
      omega
    rw [run']
    refine congrArg (EStateM.Result.ok ()) ?_
    rw [same, same', endLocals_congr fun b => (perm_leaving E E' f _).mem_iff, count]
  | error e g =>
    cases run' : (@retiring E' f).forM retire f with
    | ok u g' =>
      obtain ⟨_, run''⟩ := both.mpr ⟨g', run'⟩
      cases run.symm.trans run''
    | error e' g' =>
      have known : ∀ b ∈ f.live, b.record < f.locals.size := fun b member => (layered.inside b member).2.1
      rw [forM_retire_error known run, forM_retire_error known run']
      exact ⟨g', rfl⟩

theorem exitScope_sameResult (layered : Layered f.depth f.locals.size top f.live) :
    SameResult (@Frame.exitScope E f) (@Frame.exitScope E' f) := by
  rw [@exitScope_eq E, @exitScope_eq E', scopeLevel_order E E']
  refine .bind (.refl _) fun _ g landing => ?_
  obtain ⟨same, _⟩ := forM_landBreak_code landing
  have live : g.live = f.live := by rw [same]
  have locals : g.locals = f.locals := by rw [same]
  have depth : f.depth ≤ g.depth + 1 := by
    have tail : g.depth = f.scopes.length - 1 := by
      rw [same]
      exact List.length_tail
    have : f.depth = f.scopes.length := rfl
    omega
  apply forM_retiring_order E E'
  rw [live, locals]
  exact layered.mono depth Nat.le.refl Nat.le.refl

end Exit

end Frame

end LuaBytecode
