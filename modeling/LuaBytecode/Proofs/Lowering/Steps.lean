import LuaBytecode.Lowering.Tree

namespace LuaBytecode

section Monad

variable {ε σ α β : Type} {m m' : EStateM ε σ α} {k k' : α → EStateM ε σ β} {f : α → β} {s s' t : σ} {a b : α}
  {r r' r'' : EStateM.Result ε σ α}

theorem bind_ok {b : β} (h : (m >>= k) s = .ok b s') :
    ∃ a t, m s = .ok a t ∧ k a t = .ok b s' := by
  simp only [Bind.bind, EStateM.bind] at h
  cases hm : m s with
  | ok a t =>
    rw [hm] at h
    exact ⟨a, t, rfl, h⟩
  | error e t =>
    rw [hm] at h
    cases h

theorem bind_run (h : m s = .ok a t) : (m >>= k) s = k a t := by
  simp only [Bind.bind, EStateM.bind, h]

theorem bind_error {e : ε} (h : (m >>= k) s = .error e t) :
    m s = .error e t ∨ ∃ a s', m s = .ok a s' ∧ k a s' = .error e t := by
  simp only [Bind.bind, EStateM.bind] at h
  cases hm : m s with
  | ok a s' =>
    rw [hm] at h
    exact .inr ⟨a, s', rfl, h⟩
  | error e' s' =>
    rw [hm] at h
    cases h
    exact .inl rfl

theorem pure_ok (h : (pure a : EStateM ε σ α) s = .ok b s') : b = a ∧ s' = s := by
  cases h
  exact ⟨rfl, rfl⟩

theorem bind_pure_ok {b : β} (h : (do let a ← m; pure (f a) : EStateM ε σ β) s = .ok b s') :
    ∃ a, m s = .ok a s' ∧ b = f a := by
  obtain ⟨a, t, run, done⟩ := bind_ok h
  obtain ⟨rfl, rfl⟩ := pure_ok done
  exact ⟨a, run, rfl⟩

theorem bind_get_ok {k : σ → EStateM ε σ β} {b : β} (h : (get >>= k) s = .ok b s') : k s s = .ok b s' := h

theorem map_ok {b : β} (h : (f <$> m) s = .ok b s') : ∃ a, m s = .ok a s' ∧ b = f a := by
  simp only [Functor.map, EStateM.map] at h
  cases hm : m s with
  | ok a t =>
    rw [hm] at h
    cases h
    exact ⟨a, rfl, rfl⟩
  | error e t =>
    rw [hm] at h
    cases h

theorem map_run (h : m s = .ok a s') : (f <$> m) s = .ok (f a) s' := by
  simp only [Functor.map, EStateM.map, h]

def succeeds : EStateM.Result ε σ α → Bool
  | .ok .. => true
  | .error .. => false

theorem exists_of_succeeds (h : succeeds r = true) : ∃ a s, r = .ok a s := by
  cases r with
  | ok a s => exact ⟨a, s, rfl⟩
  | error e s => cases h

/-- The same value and state, or the same error. What was done before an error is not looked at. -/
def SameResult : EStateM.Result ε σ α → EStateM.Result ε σ α → Prop
  | .ok a s, r => r = .ok a s
  | .error e _, r => ∃ s, r = .error e s

theorem SameResult.refl (r : EStateM.Result ε σ α) : SameResult r r := by
  cases r with
  | ok => rfl
  | error e s => exact ⟨s, rfl⟩

theorem SameResult.symm (h : SameResult r r') : SameResult r' r := by
  cases r with
  | ok a s =>
    cases h
    rfl
  | error e s =>
    obtain ⟨_, rfl⟩ := h
    exact ⟨s, rfl⟩

theorem SameResult.trans (first : SameResult r r') (second : SameResult r' r'') :
    SameResult r r'' := by
  cases r with
  | ok a s =>
    cases first
    exact second
  | error e s =>
    obtain ⟨_, rfl⟩ := first
    exact second

theorem SameResult.ok (h : SameResult r r') (run : r = .ok a s) : r' = .ok a s := by
  rw [run] at h
  exact h

theorem SameResult.bind (first : SameResult (m s) (m' s))
    (next : ∀ a t, m s = .ok a t → SameResult (k a t) (k' a t)) : SameResult ((m >>= k) s) ((m' >>= k') s) := by
  cases run : m s with
  | ok a t =>
    rw [run] at first
    rw [bind_run run, bind_run first]
    exact next a t run
  | error e t =>
    rw [run] at first
    obtain ⟨t', run'⟩ := first
    simp only [Bind.bind, EStateM.bind, run, run']
    exact ⟨t', rfl⟩

theorem SameResult.andThen {k : α → EStateM ε σ α} (h : ∀ a t, m s = .ok a t → k a t = .ok a t) :
    SameResult (m s) ((m >>= k) s) := by
  have same := SameResult.bind (.refl (m s)) (k := pure) fun a t run => h a t run
  rwa [bind_pure] at same

end Monad

section Lift

variable {α : Type} {m m' : FrameM α} {s s' : Lowering} {a : α} {β : Type} {b : β} {k : Nat → LowerM β} {n : Nat}

theorem lift_ok (h : (liftM m : LowerM α) s = .ok a s') :
    ∃ f, m s.frame = .ok a f ∧ s' = ⟨f, s.enclosing⟩ := by
  have step : Lowering.step m s = .ok a s' := h
  simp only [Lowering.step] at step
  cases hm : m s.frame with
  | ok b f =>
    rw [hm] at step
    cases step
    exact ⟨f, rfl, rfl⟩
  | error e f =>
    rw [hm] at step
    cases step

theorem bind_lift_ok {k : α → LowerM β} (h : (liftM m >>= k) s = .ok b s') :
    ∃ a f, m s.frame = .ok a f ∧ k a ⟨f, s.enclosing⟩ = .ok b s' := by
  obtain ⟨a, t, run, rest⟩ := bind_ok h
  obtain ⟨f, stepped, rfl⟩ := lift_ok run
  exact ⟨a, f, stepped, rest⟩

theorem lift_run {f : Frame} (h : m s.frame = .ok a f) :
    (liftM m : LowerM α) s = .ok a ⟨f, s.enclosing⟩ := by
  have step : Lowering.step m s = .ok a ⟨f, s.enclosing⟩ := by
    simp only [Lowering.step, h]
  exact step

theorem SameResult.lift (h : SameResult (m s.frame) (m' s.frame)) :
    SameResult ((liftM m : LowerM α) s) ((liftM m' : LowerM α) s) := by
  show SameResult (Lowering.step m s) (Lowering.step m' s)
  simp only [Lowering.step]
  cases run : m s.frame with
  | ok a f =>
    rw [run] at h
    rw [show m' s.frame = _ from h]
    rfl
  | error e f =>
    rw [run] at h
    obtain ⟨g, run'⟩ := h
    rw [run']
    exact ⟨_, rfl⟩

theorem bind_used_ok (h : (Lowering.used >>= k) s = .ok b s') : k s.frame.used s = .ok b s' := h

theorem bind_pc_ok (h : (Lowering.pc >>= k) s = .ok b s') : k s.frame.pc s = .ok b s' := h

theorem used_ok (h : Lowering.used s = .ok n s') : n = s.frame.used ∧ s = s' := by
  cases h
  exact ⟨rfl, rfl⟩

theorem pc_ok (h : Lowering.pc s = .ok n s') : n = s.frame.pc ∧ s = s' := by
  cases h
  exact ⟨rfl, rfl⟩

end Lift

/-- `m'` does from `s` whatever `m` does there if it succeeds, and the outcome is as `post` says. -/
def Lockstep {α : Type} (m m' : LowerM α) (s : Lowering) (post : α → Lowering → Prop) : Prop :=
  ∀ a s', m s = .ok a s' → m' s = .ok a s' ∧ post a s'

namespace Lockstep

variable {α β : Type} {m m' : LowerM α} {s : Lowering} {post : α → Lowering → Prop}

theorem bind {k k' : α → LowerM β} {post : β → Lowering → Prop}
    (h : Lockstep m m' s fun a t => Lockstep (k a) (k' a) t post) : Lockstep (m >>= k) (m' >>= k') s post := by
  intro b s' run
  obtain ⟨a, t, first, rest⟩ := bind_ok run
  obtain ⟨first', next⟩ := h a t first
  obtain ⟨rest', final⟩ := next b s' rest
  exact ⟨(bind_run first').trans rest', final⟩

theorem pure {a : α} (h : post a s) : Lockstep (pure a) (pure a) s post := by
  intro b s' run
  obtain ⟨rfl, rfl⟩ := pure_ok run
  exact ⟨run, h⟩

theorem map {f : α → β} {post : β → Lowering → Prop} (h : Lockstep m m' s fun a t => post (f a) t) :
    Lockstep (f <$> m) (f <$> m') s post := by
  intro b s' run
  obtain ⟨a, inner, rfl⟩ := map_ok run
  obtain ⟨inner', final⟩ := h a s' inner
  exact ⟨map_run inner', final⟩

theorem weaken {post' : α → Lowering → Prop} (h : Lockstep m m' s post)
    (weaker : ∀ a t, post a t → post' a t) : Lockstep m m' s post' := by
  intro a s' run
  obtain ⟨run', final⟩ := h a s' run
  exact ⟨run', weaker a s' final⟩

theorem withRun (h : Lockstep m m' s post) :
    Lockstep m m' s fun a t => m s = .ok a t ∧ post a t := by
  intro a s' run
  obtain ⟨run', final⟩ := h a s' run
  exact ⟨run', run, final⟩

theorem self (h : ∀ a t, m s = .ok a t → post a t) : Lockstep m m s post :=
  fun a s' run => ⟨run, h a s' run⟩

theorem lift {m : FrameM α}
    (h : ∀ a f, m s.frame = .ok a f → post a ⟨f, s.enclosing⟩) :
    Lockstep (liftM m : LowerM α) (liftM m : LowerM α) s post := by
  apply self
  intro a t run
  obtain ⟨f, inner, rfl⟩ := lift_ok run
  exact h a f inner

theorem get {post : Lowering → Lowering → Prop} (h : post s s) :
    Lockstep (MonadState.get : LowerM Lowering) (MonadState.get : LowerM Lowering) s post := by
  apply self
  intro a t run
  cases run
  exact h

end Lockstep

/-- `m'` comes to the same from `s` as `m` does, and if that is no error, the outcome is as `post` says. -/
structure Agrees {α : Type} (m m' : LowerM α) (s : Lowering) (post : α → Lowering → Prop) : Prop where
  same : SameResult (m s) (m' s)
  post : ∀ a t, m s = .ok a t → post a t

namespace Agrees

variable {α β : Type} {m m' : LowerM α} {s : Lowering} {post : α → Lowering → Prop}

theorem bind {k k' : α → LowerM β} {post : β → Lowering → Prop}
    (h : Agrees m m' s fun a t => Agrees (k a) (k' a) t post) : Agrees (m >>= k) (m' >>= k') s post where
  same := h.same.bind fun a t run => (h.post a t run).same
  post b u run := by
    obtain ⟨a, t, first, rest⟩ := bind_ok run
    exact (h.post a t first).post b u rest

theorem weaken {post' : α → Lowering → Prop} (h : Agrees m m' s post) (weaker : ∀ a t, post a t → post' a t) :
    Agrees m m' s post' := ⟨h.same, fun a t run => weaker a t (h.post a t run)⟩

theorem self (h : ∀ a t, m s = .ok a t → post a t) : Agrees m m s post := ⟨.refl _, h⟩

theorem pure {a : α} (h : post a s) : Agrees (pure a) (pure a) s post := by
  apply self
  rintro _ _ ⟨⟩
  exact h

theorem map {f : α → β} {post : β → Lowering → Prop} (h : Agrees m m' s fun a t => post (f a) t) :
    Agrees (f <$> m) (f <$> m') s post := by
  rw [map_eq_pure_bind, map_eq_pure_bind]
  exact bind (h.weaken fun _ _ holds => pure holds)

theorem lift {m : FrameM α} (h : ∀ a f, m s.frame = .ok a f → post a ⟨f, s.enclosing⟩) :
    Agrees (liftM m : LowerM α) (liftM m : LowerM α) s post := by
  apply self
  intro a t run
  obtain ⟨f, inner, rfl⟩ := lift_ok run
  exact h a f inner

theorem get {post : Lowering → Lowering → Prop} (h : post s s) :
    Agrees (MonadState.get : LowerM Lowering) (MonadState.get : LowerM Lowering) s post := by
  apply self
  rintro _ _ ⟨⟩
  exact h

end Agrees

end LuaBytecode
