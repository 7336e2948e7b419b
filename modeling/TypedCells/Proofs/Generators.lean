import TypedCells.Gen.Basic
import TypedCells.Proofs.Machine

/-!
# What generated code does

A generator that succeeds has made code, and the height it gives for the stack is the true one
(`Gen.Runs`, or `Gen.RunsIf` if that is only known of code that does not trap). Code in a row is
the code of generators in a row, so `Gen.Runs.bind` is all that is needed to follow it; the
generators that only move entries are described here once for all. Where code may trap or jump, its
outcome on a stack is what is known of it (`Gen.Ends`).
-/

namespace TypedCells

namespace Gen

variable {α β : Type} {frame : Option Frame} {d : Nat}

/-! ### Generators that succeed -/

theorem bind_ok {x : Gen α} {f : α → Gen β} {g : Generated β} :
    (x >>= f) frame d = .ok g ↔ ∃ r r', x frame d = .ok r ∧ f r.value frame r.depth = .ok r' ∧
      g = ⟨r'.value, r.code ++ r'.code, r'.depth⟩ := by
  change (x frame d >>= fun r => f r.value frame r.depth >>= fun r' =>
    Except.ok (Generated.mk r'.value (r.code ++ r'.code) r'.depth)) = .ok g ↔ _
  simp only [bind_eq_ok, Except.ok.injEq]
  constructor
  · rintro ⟨r, h, r', h', rfl⟩
    exact ⟨r, r', h, h', rfl⟩
  · rintro ⟨r, r', h, h', rfl⟩
    exact ⟨r, h, r', h', rfl⟩

theorem ite_bind_ok {c : Prop} [Decidable c] {x : Gen Unit} {f : Unit → Gen β} {g : Generated β}
    (h : (if c then x >>= f else f ()) frame d = .ok g) :
    ∃ d' g', f () frame d' = .ok g' := by
  split at h
  · obtain ⟨_, g', -, h, -⟩ := bind_ok.1 h
    exact ⟨_, g', h⟩
  · exact ⟨d, g, h⟩

theorem pure_ok {a : α} {g : Generated α} :
    (pure a : Gen α) frame d = .ok g ↔ g = ⟨a, [], d⟩ := by
  change Except.ok _ = _ ↔ _
  rw [Except.ok.injEq, eq_comm]

theorem fail_ok {e : GenError} {g : Generated α} : ¬ (fail e : Gen α) frame d = .ok g := nofun

theorem ofExcept_ok {x : Except GenError α} {g : Generated α} :
    ofExcept x frame d = .ok g ↔ ∃ a, x = .ok a ∧ g = ⟨a, [], d⟩ := by
  rcases x with e | a
  · simp [ofExcept, fail_ok]
  · simp [ofExcept, pure_ok]

theorem depth_ok {g : Generated Nat} : depth frame d = .ok g ↔ g = ⟨d, [], d⟩ := by
  change Except.ok _ = _ ↔ _
  rw [Except.ok.injEq, eq_comm]

theorem instr_ok {i : Instr} {g : Generated Unit} :
    instr i frame d = .ok g ↔
      i.effect.pops ≤ d ∧ g = ⟨(), [i], d - i.effect.pops + i.effect.pushes⟩ := by
  unfold instr
  split
  · next h => exact ⟨nofun, fun hg => absurd hg.1 (by omega)⟩
  · next h =>
    rw [Except.ok.injEq, eq_comm]
    exact ⟨fun hg => ⟨by omega, hg⟩, And.right⟩

theorem require_ok {n : Nat} {context : String} {g : Generated Unit} :
    require n context frame d = .ok g ↔ n ≤ d ∧ g = ⟨(), [], d⟩ := by
  simp only [require, bind_ok, depth_ok]
  constructor
  · rintro ⟨_, r, rfl, h, rfl⟩
    split at h
    · exact absurd h fail_ok
    · rw [pure_ok] at h
      subst h
      exact ⟨by simp_all, rfl⟩
  · rintro ⟨h, rfl⟩
    exact ⟨_, ⟨(), [], d⟩, rfl, by rw [if_neg (by simp; omega), pure_ok], rfl⟩

theorem ensureDepth_ok {n : Nat} {context : String} {g : Generated Unit} :
    ensureDepth n context frame d = .ok g ↔ d = n ∧ g = ⟨(), [], d⟩ := by
  simp only [ensureDepth, bind_ok, depth_ok]
  constructor
  · rintro ⟨_, r, rfl, h, rfl⟩
    split at h
    · exact absurd h fail_ok
    · rw [pure_ok] at h
      subst h
      exact ⟨by simp_all, rfl⟩
  · rintro ⟨h, rfl⟩
    exact ⟨_, ⟨(), [], d⟩, rfl, by rw [if_neg (by simp [h]), pure_ok], rfl⟩

theorem operand_ok {n : Nat} {g : Generated Unit} :
    operand n frame d = .ok g ↔ n ≤ 255 ∧ g = ⟨(), [], d⟩ := by
  unfold operand
  split
  · simp only [fail_ok, false_iff]; omega
  · rw [pure_ok]
    exact ⟨fun h => ⟨by omega, h⟩, fun h => h.2⟩

/-! ### Code and the stack -/

/-- If the generator succeeds at height `d`, and its code does not trap on the stack `s` or `safe`
holds, then the code turns this stack into one that goes with the result, and the height that the
generator gives is the true one. -/
def RunsIf (safe : Prop) (x : Gen α) (d : Nat) (s : Stack) (post : α → Stack → Prop) : Prop :=
  ∀ ⦃frame : Option Frame⦄ ⦃g : Generated α⦄, x frame d = .ok g →
    (safe ∨ ∃ r, Instr.runAll g.code s = .ok r) →
    ∃ s', Instr.runAll g.code s = .ok (.next, s') ∧ g.depth + s.length = d + s'.length ∧
      post g.value s'

/-- If the generator succeeds at height `d`, then its code turns the stack `s` into one that goes
with its result, and the height it gives is the true one. -/
def Runs (x : Gen α) (d : Nat) (s : Stack) (post : α → Stack → Prop) : Prop :=
  ∀ ⦃frame : Option Frame⦄ ⦃g : Generated α⦄, x frame d = .ok g →
    ∃ s', Instr.runAll g.code s = .ok (.next, s') ∧ g.depth + s.length = d + s'.length ∧
      post g.value s'

/-- The code turns the stack `s` into `s'`, at any height. -/
def Turns (x : Gen α) (s s' : Stack) : Prop := ∀ d, x.Runs d s fun _ t => t = s'

variable {safe : Prop} {s s' : Stack} {x : Gen α} {f : α → Gen β} {post : β → Stack → Prop}

theorem Runs.runsIf {post : α → Stack → Prop} (h : x.Runs d s post) : x.RunsIf safe d s post :=
  fun _ _ hg _ => h hg

theorem RunsIf.runs {post : α → Stack → Prop} (h : x.RunsIf True d s post) : x.Runs d s post :=
  fun _ _ hg => h hg (.inl trivial)

theorem RunsIf.bind {mid : α → Stack → Prop} (hx : x.RunsIf safe d s mid)
    (hf : ∀ a t d', mid a t → d' + s.length = d + t.length → (f a).RunsIf safe d' t post) :
    (x >>= f).RunsIf safe d s post := by
  intro frame g h hrun
  obtain ⟨r, r', h1, h2, rfl⟩ := bind_ok.1 h
  have hrun1 : safe ∨ ∃ q, Instr.runAll r.code s = .ok q := hrun.imp_right fun ⟨q, hq⟩ => by
    rw [Instr.runAll_append] at hq
    obtain ⟨q', hq', -⟩ := bind_eq_ok.1 hq
    exact ⟨q', hq'⟩
  obtain ⟨t, ht, hd, hm⟩ := hx h1 hrun1
  rw [Instr.runAll_append_of_ok ht] at hrun ⊢
  obtain ⟨t', ht', hd', hp⟩ := hf _ _ _ hm hd h2 hrun
  exact ⟨t', ht', by simp only; omega, hp⟩

theorem RunsIf.mono {post' : β → Stack → Prop} {y : Gen β} (h : y.RunsIf safe d s post)
    (hp : ∀ b t, post b t → post' b t) : y.RunsIf safe d s post' := by
  intro frame g hg hrun
  obtain ⟨t, ht, hd, hb⟩ := h hg hrun
  exact ⟨t, ht, hd, hp _ _ hb⟩

/-- A generator after either of two. -/
theorem RunsIf.ite_bind {c : Prop} [Decidable c] {y : Gen α} {mid : α → Stack → Prop}
    (h : (if c then x else y).RunsIf safe d s mid)
    (hf : ∀ a t d', mid a t → d' + s.length = d + t.length → (f a).RunsIf safe d' t post) :
    (if c then x >>= f else y >>= f).RunsIf safe d s post := by
  split at h
  · next hc =>
    rw [if_pos hc]
    exact h.bind hf
  · next hc =>
    rw [if_neg hc]
    exact h.bind hf

theorem RunsIf.pure {b : β} (h : post b s) : (pure b : Gen β).RunsIf safe d s post := by
  intro frame g hg _
  obtain rfl := pure_ok.1 hg
  exact ⟨s, Instr.runAll_nil s, rfl, h⟩

theorem RunsIf.pure_bind {a : α} (h : (f a).RunsIf safe d s post) :
    (Pure.pure a >>= f).RunsIf safe d s post := by
  intro frame g hg hrun
  obtain ⟨r, r', h1, h2, rfl⟩ := bind_ok.1 hg
  obtain rfl := pure_ok.1 h1
  exact h h2 hrun

theorem RunsIf.depth_bind {f : Nat → Gen β} (h : (f d).RunsIf safe d s post) :
    (Gen.depth >>= f).RunsIf safe d s post := by
  intro frame g hg hrun
  obtain ⟨r, r', h1, h2, rfl⟩ := bind_ok.1 hg
  obtain rfl := depth_ok.1 h1
  exact h h2 hrun

/-- The generator gives no code. -/
def Fails (x : Gen α) : Prop := ∀ ⦃frame : Option Frame⦄ ⦃d : Nat⦄ ⦃g : Generated α⦄,
  x frame d ≠ .ok g

theorem Fails.fail (e : GenError) : (Gen.fail e : Gen α).Fails := fun _ _ _ h => fail_ok h

theorem Fails.bind (hx : x.Fails) : (x >>= f).Fails := fun _ _ _ h => by
  obtain ⟨_, _, h, -⟩ := bind_ok.1 h
  exact hx h

theorem Fails.of_bind (hf : ∀ a, (f a).Fails) : (x >>= f).Fails := fun _ _ _ h => by
  obtain ⟨_, _, -, h, -⟩ := bind_ok.1 h
  exact hf _ h

theorem Fails.runsIf {y : Gen β} (h : y.Fails) : y.RunsIf safe d s post :=
  fun _ _ hg => absurd hg (h (g := _))

theorem RunsIf.op {o : Op} {post : Unit → Stack → Prop} (hq : o.isQuiet = false)
    (h : (safe ∨ ∃ t, o.run s = .ok t) → ∃ t, o.run s = .ok t ∧ post () t) :
    (op o).RunsIf safe d s post := by
  intro frame g hg hrun
  obtain ⟨hd, rfl⟩ := instr_ok.1 hg
  obtain ⟨t, ht, hp⟩ := h <| hrun.imp_right fun ⟨r, hr⟩ => by
    rw [Instr.runAll_op] at hr
    obtain ⟨t, ht, -⟩ := bind_eq_ok.1 hr
    exact ⟨t, ht⟩
  have hl := Op.run_effect hq ht
  refine ⟨t, by simp [ht], ?_, hp⟩
  simp only [Instr.effect] at hd ⊢
  omega

theorem Runs.bind {mid : α → Stack → Prop} (hx : x.Runs d s mid)
    (hf : ∀ a t d', mid a t → d' + s.length = d + t.length → (f a).Runs d' t post) :
    (x >>= f).Runs d s post :=
  (hx.runsIf.bind fun a t d' hm hd => (hf a t d' hm hd).runsIf).runs

theorem Runs.mono {post' : β → Stack → Prop} {y : Gen β} (h : y.Runs d s post)
    (hp : ∀ b t, post b t → post' b t) : y.Runs d s post' :=
  (h.runsIf.mono hp).runs

theorem Runs.pure {b : β} (h : post b s) : (pure b : Gen β).Runs d s post :=
  (RunsIf.pure h).runs

theorem Runs.depth_bind {f : Nat → Gen β} (h : (f d).Runs d s post) :
    (Gen.depth >>= f).Runs d s post :=
  h.runsIf.depth_bind.runs

theorem Runs.fail {e : GenError} : (fail e : Gen β).Runs d s post := fun _ _ h => absurd h fail_ok

theorem Runs.depth {post : Nat → Stack → Prop} (h : post d s) : depth.Runs d s post := by
  intro frame g hg
  obtain rfl := depth_ok.1 hg
  exact ⟨s, Instr.runAll_nil s, rfl, h⟩

theorem Runs.ensureDepth {n : Nat} {context : String} {post : Unit → Stack → Prop}
    (h : d = n → post () s) : (ensureDepth n context).Runs d s post := by
  intro frame g hg
  obtain ⟨hn, rfl⟩ := ensureDepth_ok.1 hg
  exact ⟨s, Instr.runAll_nil s, rfl, h hn⟩

theorem Runs.require {n : Nat} {context : String} {post : Unit → Stack → Prop}
    (h : n ≤ d → post () s) : (require n context).Runs d s post := by
  intro frame g hg
  obtain ⟨hn, rfl⟩ := require_ok.1 hg
  exact ⟨s, Instr.runAll_nil s, rfl, h hn⟩

/-- A generator after one that only turns one stack into another. -/
theorem Turns.bindIf {t : Stack} (hx : x.Turns s t)
    (hf : ∀ a d', d' + s.length = d + t.length → (f a).RunsIf safe d' t post) :
    (x >>= f).RunsIf safe d s post :=
  (hx d).runsIf.bind fun a t' d' ht hd => by
    subst ht
    exact hf a d' hd

theorem Turns.bind {t : Stack} (hx : x.Turns s t)
    (hf : ∀ a d', d' + s.length = d + t.length → (f a).Runs d' t post) :
    (x >>= f).Runs d s post :=
  (hx.bindIf fun a d' hd => (hf a d' hd).runsIf).runs

theorem Turns.trans {t : Stack} (hx : x.Turns s t) (hf : ∀ a, (f a).Turns t s') :
    (x >>= f).Turns s s' :=
  fun _ => hx.bind fun a d' _ => hf a d'

theorem Turns.pure (a : α) (s : Stack) : (Pure.pure a : Gen α).Turns s s :=
  fun _ => Runs.pure rfl

theorem Turns.op {o : Op} (hq : o.isQuiet = false) (h : o.run s = .ok s') : (op o).Turns s s' := by
  intro d frame g hg
  obtain ⟨hd, rfl⟩ := instr_ok.1 hg
  have hl := Op.run_effect hq h
  refine ⟨s', by simp [h], ?_, rfl⟩
  simp only [Instr.effect] at hd ⊢
  omega

theorem Turns.operand (n : Nat) (s : Stack) : (operand n).Turns s s := by
  intro d frame g hg
  obtain ⟨-, rfl⟩ := operand_ok.1 hg
  exact ⟨s, Instr.runAll_nil s, rfl, rfl⟩

theorem Turns.ensureDepth (n : Nat) (context : String) (s : Stack) :
    (ensureDepth n context).Turns s s := fun _ => Runs.ensureDepth fun _ => rfl

theorem Turns.require (n : Nat) (context : String) (s : Stack) :
    (require n context).Turns s s := fun _ => Runs.require fun _ => rfl

theorem Turns.depth (s : Stack) : Gen.depth.Turns s s := fun _ => Runs.depth rfl

/-- The code ends on the stack `s` with the outcome `r`, which may be a trap or a jump. -/
def Ends (x : Gen α) (s : Stack) (r : Except Trap (Flow × Stack)) : Prop :=
  ∀ ⦃frame : Option Frame⦄ ⦃d : Nat⦄ ⦃g : Generated α⦄, x frame d = .ok g →
    Instr.runAll g.code s = r

variable {r : Except Trap (Flow × Stack)}

theorem Turns.ends (hx : x.Turns s s') : x.Ends s (.ok (.next, s')) := by
  intro frame d g h
  obtain ⟨t, ht, -, rfl⟩ := hx d h
  exact ht

theorem Ends.bind_next (hx : x.Ends s (.ok (.next, s'))) (hf : ∀ a, (f a).Ends s' r) :
    (x >>= f).Ends s r := by
  intro frame d g h
  obtain ⟨r1, r2, h1, h2, rfl⟩ := bind_ok.1 h
  rw [Instr.runAll_append_of_ok (hx h1)]
  exact hf _ h2

theorem Turns.bind_ends (hx : x.Turns s s') (hf : ∀ a, (f a).Ends s' r) : (x >>= f).Ends s r :=
  hx.ends.bind_next hf

/-- What follows a trap is not run. -/
theorem Ends.bind_error {e : Trap} (hx : x.Ends s (.error e)) : (x >>= f).Ends s (.error e) := by
  intro frame d g h
  obtain ⟨r1, r2, h1, h2, rfl⟩ := bind_ok.1 h
  rw [Instr.runAll_append, hx h1]
  rfl

theorem Ends.op_error {o : Op} {e : Trap} (h : o.run s = .error e) : (op o).Ends s (.error e) := by
  intro frame d g hg
  obtain ⟨-, rfl⟩ := instr_ok.1 hg
  simp [h]

/-- An instruction that leaves on the stack what a computation gives. -/
theorem Ends.op {o : Op} {γ : Type} {m : Except Trap γ} {view : γ → Stack} (hq : o.isQuiet = false)
    (h : o.run s = do return view (← m)) : (op o).Ends s (do return (.next, view (← m))) := by
  rcases m with e | c
  · exact .op_error h
  · exact (Turns.op hq h).ends

/-- What follows a jump that is taken is not run. -/
theorem Ends.bind_exit (hx : x.Ends s (.ok (.exit, s'))) : (x >>= f).Ends s (.ok (.exit, s')) := by
  intro frame d g h
  obtain ⟨r1, r2, h1, h2, rfl⟩ := bind_ok.1 h
  rw [Instr.runAll_append, hx h1]
  rfl

/-- The code made at height `d` ends on the stack `s` with the outcome `r`. -/
def EndsAt (x : Gen α) (d : Nat) (s : Stack) (r : Except Trap (Flow × Stack)) : Prop :=
  ∀ ⦃frame : Option Frame⦄ ⦃g : Generated α⦄, x frame d = .ok g → Instr.runAll g.code s = r

theorem Ends.endsAt (h : x.Ends s r) (d : Nat) : x.EndsAt d s r := fun _ _ hg => h hg

theorem Runs.bind_endsAt {mid : α → Stack → Prop} (hx : x.Runs d s mid)
    (hf : ∀ a t d', mid a t → d' + s.length = d + t.length → (f a).EndsAt d' t r) :
    (x >>= f).EndsAt d s r := by
  intro frame g h
  obtain ⟨r1, r2, h1, h2, rfl⟩ := bind_ok.1 h
  obtain ⟨t, ht, hd, hm⟩ := hx h1
  rw [Instr.runAll_append_of_ok ht]
  exact hf _ _ _ hm hd h2

theorem Turns.bind_endsAt {t : Stack} (hx : x.Turns s t)
    (hf : ∀ a d', d' + s.length = d + t.length → (f a).EndsAt d' t r) : (x >>= f).EndsAt d s r :=
  (hx d).bind_endsAt fun a t' d' ht hd => by
    subst ht
    exact hf a d' hd

theorem EndsAt.depth_bind {f : Nat → Gen β} (h : (f d).EndsAt d s r) :
    (Gen.depth >>= f).EndsAt d s r := by
  intro frame g hg
  obtain ⟨r1, r2, h1, h2, rfl⟩ := bind_ok.1 hg
  obtain rfl := depth_ok.1 h1
  exact h h2

theorem EndsAt.ofExcept_bind {y : Except GenError α} {a : α} (hy : y = .ok a)
    (h : (f a).EndsAt d s r) : (ofExcept y >>= f).EndsAt d s r := by
  intro frame g hg
  obtain ⟨r1, r2, h1, h2, rfl⟩ := bind_ok.1 hg
  obtain ⟨a', ha, rfl⟩ := ofExcept_ok.1 h1
  obtain rfl := Except.ok.inj (hy.symm.trans ha)
  exact h h2

/-- A generator after one that may be left out, where it makes no difference. -/
theorem EndsAt.ite_bind {c : Prop} [Decidable c] {t : Stack} {x : Gen Unit} {f : Unit → Gen β}
    (hx : c → x.Turns s t) (hs : ¬ c → s = t)
    (hf : ∀ d', d' + s.length = d + t.length → (f ()).EndsAt d' t r) :
    (if c then x >>= f else f ()).EndsAt d s r := by
  split
  · next hc => exact (hx hc).bind_endsAt fun _ d' hd => hf d' hd
  · next hc =>
    obtain rfl := hs hc
    exact hf d rfl

theorem EndsAt.bind_error {e : Trap} (hx : x.EndsAt d s (.error e)) :
    (x >>= f).EndsAt d s (.error e) := by
  intro frame g h
  obtain ⟨r1, r2, h1, h2, rfl⟩ := bind_ok.1 h
  rw [Instr.runAll_append, hx h1]
  rfl

/-- Code after code that leaves on the stack what a computation gives. -/
theorem EndsAt.bind {γ : Type} {m : Except Trap γ} {view : γ → Stack}
    {k : γ → Except Trap (Flow × Stack)} (hx : x.EndsAt d s (do return (.next, view (← m))))
    (hf : ∀ a c, (f a).Ends (view c) (k c)) : (x >>= f).EndsAt d s (m >>= k) := by
  intro frame g h
  obtain ⟨r1, r2, h1, h2, rfl⟩ := bind_ok.1 h
  rw [Instr.runAll_append, hx h1]
  rcases m with e | c
  · rfl
  · exact hf _ c h2

theorem Ends.bind {γ : Type} {m : Except Trap γ} {view : γ → Stack}
    {k : γ → Except Trap (Flow × Stack)} (hx : x.Ends s (do return (.next, view (← m))))
    (hf : ∀ a c, (f a).Ends (view c) (k c)) : (x >>= f).Ends s (m >>= k) :=
  fun _ d _ h => (hx.endsAt d).bind hf h

/-! ### Programs in instructions -/

theorem ifElse_ok {y : α → Gen β} {g : Generated β} (h : ifElse x y frame d = .ok g) :
    1 ≤ d ∧ ∃ a b, x frame (d - 1) = .ok a ∧ y a.value frame (d - 1) = .ok b ∧ b.depth = a.depth ∧
      g = ⟨b.value, [.ifElse a.code b.code], b.depth⟩ := by
  rcases Nat.lt_or_ge d 1 with hd | hd
  · simp [ifElse, hd] at h
  · simp only [ifElse, Nat.not_lt.2 hd, if_false, bind_eq_ok] at h
    obtain ⟨a, ha, b, hb, h⟩ := h
    split at h
    · simp at h
    · next hab => exact ⟨hd, a, b, ha, hb, Decidable.not_not.1 hab, (Except.ok.inj h).symm⟩

theorem call_ok {args rets : Nat} {g : Generated α} (h : call args rets x frame d = .ok g) :
    args ≤ d ∧ ∃ b, x (some ⟨d - args, rets⟩) d = .ok b ∧ b.depth = d - args + rets ∧
      g = ⟨b.value, [.call b.code args rets], b.depth⟩ := by
  rcases Nat.lt_or_ge d args with hd | hd
  · simp [call, hd] at h
  · simp only [call, Nat.not_lt.2 hd, if_false, bind_eq_ok] at h
    obtain ⟨b, hb, h⟩ := h
    split at h
    · simp at h
    · next hbd =>
      simp only [bind_eq_ok, pure_eq_ok, Except.ok.injEq] at h
      obtain ⟨_, -, _, -, rfl⟩ := h
      exact ⟨hd, b, hb, Decidable.not_not.1 hbd, rfl⟩

/-! ### Jumps -/

theorem jump_ok {name : String} {mk : List Instr → Instr} {entry : Nat → Nat} {body : Gen α}
    {g : Generated α} (h : jump name mk entry body frame d = .ok g) :
    1 ≤ d ∧ ∃ b fr, body frame (entry (d - 1)) = .ok b ∧ frame = some fr ∧
      b.depth = fr.base + fr.rets ∧ g = ⟨b.value, [mk b.code], d - 1⟩ := by
  rcases Nat.lt_or_ge d 1 with hd | hd
  · rcases frame with _ | fr <;> simp [jump, hd] at h
  · rcases frame with _ | fr
    · simp [jump, Nat.not_lt.2 hd] at h
    · simp only [jump, Nat.not_lt.2 hd, if_false, bind_eq_ok] at h
      obtain ⟨b, hb, h⟩ := h
      split at h
      · simp at h
      · next hbd => exact ⟨hd, b, fr, hb, rfl, Decidable.not_not.1 hbd, (Except.ok.inj h).symm⟩

/-- A jump with a flag against it. -/
theorem jump_skips {name : String} {mk : List Instr → Instr} {entry : Nat → Nat} {body : Gen α}
    {flag : Bool} (hmk : ∀ code s, (mk code).run (.ofBool flag :: s) = .ok (.next, s)) :
    (jump name mk entry body).Turns (.ofBool flag :: s) s := by
  intro d frame g h
  obtain ⟨hd, b, _, -, -, -, rfl⟩ := jump_ok h
  refine ⟨s, by simp [Instr.runAll_cons, hmk], ?_, rfl⟩
  simp only [List.length_cons]
  omega

/-- A jump with a flag for it. -/
theorem jump_leaves {name : String} {mk : List Instr → Instr} {entry : Nat → Nat} {body : Gen α}
    {flag : Bool} (hb : body.Turns s s')
    (hmk : ∀ code, Instr.runAll code s = .ok (.next, s') →
      (mk code).run (.ofBool flag :: s) = .ok (.exit, s')) :
    (jump name mk entry body).Ends (.ofBool flag :: s) (.ok (.exit, s')) := by
  intro frame d g h
  obtain ⟨-, b, _, h1, -, -, rfl⟩ := jump_ok h
  simp [Instr.runAll_cons, hmk b.code (hb.ends h1)]

theorem popBool_ofBool (flag : Bool) (s : Stack) :
    Stack.popBool (.ofBool flag :: s) = .ok (flag, s) := by
  cases flag <;> rfl

theorem jumpIf_skips {body : Gen α} : (jumpIf body).Turns (.ofBool false :: s) s :=
  jump_skips fun code s => by simp [Instr.run, popBool_ofBool]

theorem jumpIf_leaves {body : Gen α} (hb : body.Turns s s') :
    (jumpIf body).Ends (.ofBool true :: s) (.ok (.exit, s')) :=
  jump_leaves hb fun code hc => by simp [Instr.run, popBool_ofBool, hc]

theorem jumpUnless_skips {body : Gen α} : (jumpUnless body).Turns (.ofBool true :: s) s :=
  jump_skips fun code s => by simp [Instr.run, popBool_ofBool]

theorem jumpUnless_leaves {body : Gen α} (hb : body.Turns s s') :
    (jumpUnless body).Ends (.ofBool false :: s) (.ok (.exit, s')) :=
  jump_leaves hb fun code hc => by simp [Instr.run, popBool_ofBool, hc]

theorem jumpUnlessAt_skips {entry : Nat} {body : Gen α} :
    (jumpUnlessAt entry body).Turns (.ofBool true :: s) s :=
  jump_skips fun code s => by simp [Instr.run, popBool_ofBool]

theorem jumpUnlessAt_leaves {entry : Nat} {body : Gen α} (hb : body.Turns s s') :
    (jumpUnlessAt entry body).Ends (.ofBool false :: s) (.ok (.exit, s')) :=
  jump_leaves hb fun code hc => by simp [Instr.run, popBool_ofBool, hc]

/-! ### Moving entries -/

variable {xs ys : List Value} {i j n m : Nat}

theorem Turns.push {v : Value} (h : s[i]? = some v) : (push i).Turns s (v :: s) :=
  (Turns.operand i s).trans fun _ => .op rfl (by simp [Op.run, h])

theorem Turns.xchg (v w : Value) (s : Stack) : (xchg 1).Turns (v :: w :: s) (w :: v :: s) :=
  (Turns.operand 1 _).trans fun _ => .op rfl rfl

theorem Turns.blkSwap (xs ys : List Value) (hx : xs.length = j) (hy : ys.length = i) :
    (blkSwap i j).Turns (xs ++ ys ++ s) (ys ++ xs ++ s) := by
  unfold Gen.blkSwap
  split
  · next h =>
    have he : xs ++ ys = ys ++ xs := by
      rcases h with h | h
      · obtain rfl := List.length_eq_zero_iff.1 (hy.trans h)
        simp
      · obtain rfl := List.length_eq_zero_iff.1 (hx.trans h)
        simp
    rw [he]
    exact .pure _ _
  · exact (Turns.operand i _).trans fun _ => (Turns.operand j _).trans fun _ =>
      .op rfl (Op.run_blkSwap hx hy)

theorem reverse_short : ∀ {ys : List Value}, ys.length < 2 → ys.reverse = ys
  | [], _ | [_], _ => rfl
  | _ :: _ :: _, h => absurd h (by simp)

theorem Turns.reverse (xs ys : List Value) (hx : xs.length = j) (hy : ys.length = n) :
    (reverse n j).Turns (xs ++ ys ++ s) (xs ++ ys.reverse ++ s) := by
  unfold Gen.reverse
  split
  · next h =>
    rw [reverse_short (by omega)]
    exact .pure _ _
  · exact (Turns.operand n _).trans fun _ => (Turns.operand j _).trans fun _ =>
      .op rfl (Op.run_reverse hx hy)

theorem Turns.drop : ∀ (xs : List Value) {n : Nat}, xs.length = n → (drop n).Turns (xs ++ s) s
  | [], 0, _ => .pure _ _
  | _ :: xs, _ + 1, h =>
    Turns.trans (t := xs ++ s) (.op rfl rfl) fun _ => Turns.drop xs (Nat.succ.inj h)

theorem Turns.dropUnder (xs ys : List Value) (hx : xs.length = m) (hy : ys.length = n) :
    (dropUnder n m).Turns (xs ++ ys ++ s) (xs ++ s) := by
  unfold Gen.dropUnder
  split
  · next h =>
    obtain rfl := List.length_eq_zero_iff.1 (hy.trans h)
    rw [List.append_nil]
    exact .pure _ _
  · split
    · next h =>
      obtain rfl := List.length_eq_zero_iff.1 (hx.trans h)
      exact Turns.drop ys hy
    · exact (Turns.operand n _).trans fun _ => (Turns.operand m _).trans fun _ =>
        .op rfl (Op.run_blkDrop hx hy)

theorem Turns.tuple (xs : List Value) (hx : xs.length = n) :
    (tuple n).Turns (xs.reverse ++ s) (.tuple xs :: s) := by
  have h : xs.reverse.length = n := by simpa using hx
  refine (Turns.operand n _).trans fun _ => .op rfl ?_
  rw [Op.run_tuple h, List.reverse_reverse]

theorem Turns.untuple (hx : xs.length = n) :
    (untuple n).Turns (.tuple xs :: s) (xs.reverse ++ s) :=
  (Turns.operand n _).trans fun _ => .op rfl (Op.run_untuple hx)

end Gen

end TypedCells
