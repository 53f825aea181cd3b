import Sandflea.Lib.Program

/-!
# Programs that may stop

A command may end the program that issues it: its meaning on a state is then what the program ends with. Facts about the
runs of a program come from an account of its commands on something simpler than the states: a `Domain` says which
commands are allowed there, and what may come of them. `Wp` is what a program must meet so that none of its runs leaves
the account, and that its value is as wanted. `exec_lockstep` compares the runs of one program under two meanings that
agree up to a point.
-/

namespace Prog

variable {Op : Type} {Resp : Op → Type} {σ ε A α β : Type}

/-- The meaning of the commands on a state: a response and the next state, or what the program ends with. -/
abbrev Stepper (Op : Type) (Resp : Op → Type) (σ ε : Type) := (op : Op) → σ → Except ε (Resp op × σ)

/-- The run of a program: its value and final state, or what it ended with. -/
def exec (h : Stepper Op Resp σ ε) : Prog Op Resp α → σ → Except ε (α × σ)
  | ret a, s => .ok (a, s)
  | call op k, s =>
    match h op s with
    | .error e => .error e
    | .ok r => (k r.1).exec h r.2

theorem exec_of_error {h : Stepper Op Resp σ ε} {op : Op} {k : Resp op → Prog Op Resp α} {s : σ} {e : ε}
    (hop : h op s = .error e) : (call op k).exec h s = .error e := by
  rw [exec, hop]

theorem exec_of_ok {h : Stepper Op Resp σ ε} {op : Op} {k : Resp op → Prog Op Resp α} {s : σ} {r : Resp op × σ}
    (hop : h op s = .ok r) : (call op k).exec h s = (k r.1).exec h r.2 := by
  rw [exec, hop]

/-- The state that a run ends in -/
def final (state : ε → σ) : Except ε (α × σ) → σ
  | .error e => state e
  | .ok r => r.2

/-- What every command keeps is kept by every run. -/
theorem exec_invariant {h : Stepper Op Resp σ ε} {state : ε → σ} {I : σ → Prop}
    (hI : ∀ op s, I s → I (final state (h op s))) (p : Prog Op Resp α) {s : σ} (hs : I s) :
    I (final state (p.exec h s)) := by
  induction p generalizing s with
  | ret x => exact hs
  | call op k ih =>
    have hnext := hI op s hs
    rw [exec]
    cases hop : h op s with
    | error e =>
      rw [hop] at hnext
      exact hnext
    | ok r =>
      rw [hop] at hnext
      exact ih r.1 hnext

/-! ## An account of the commands -/

/-- Which commands are allowed, and what may come of them -/
structure Domain (Op : Type) (Resp : Op → Type) (A : Type) where
  pre : Op → A → Prop
  next : (op : Op) → A → Resp op → A → Prop

variable {D : Domain Op Resp A}

/-- Every command of the program is allowed where it is issued, whatever came of those before it, and the value is as
wanted. -/
def Wp (D : Domain Op Resp A) : Prog Op Resp α → A → (α → A → Prop) → Prop
  | ret x, a, Q => Q x a
  | call op k, a, Q => D.pre op a ∧ ∀ r a', D.next op a r a' → (k r).Wp D a' Q

theorem Wp.mono {p : Prog Op Resp α} {a : A} {Q Q' : α → A → Prop} (hp : p.Wp D a Q)
    (hQ : ∀ x a', Q x a' → Q' x a') : p.Wp D a Q' := by
  induction p generalizing a with
  | ret x => exact hQ x a hp
  | call op k ih => exact ⟨hp.1, fun r a' hr => ih r (hp.2 r a' hr)⟩

/-- The second part of a composition goes on from what the first may come to. -/
theorem Wp.bind {p : Prog Op Resp α} {f : α → Prog Op Resp β} {a : A} {Q : α → A → Prop} {R : β → A → Prop}
    (hp : p.Wp D a Q) (hf : ∀ x a', Q x a' → (f x).Wp D a' R) : (p >>= f).Wp D a R := by
  induction p generalizing a with
  | ret x => exact hf x a hp
  | call op k ih => exact ⟨hp.1, fun r a' hr => ih r (hp.2 r a' hr)⟩

theorem Wp.issue {op : Op} {a : A} {Q : Resp op → A → Prop} (hpre : D.pre op a)
    (hQ : ∀ r a', D.next op a r a' → Q r a') : (issue op : Prog Op Resp (Resp op)).Wp D a Q :=
  ⟨hpre, hQ⟩

/-- What an outcome is like, where the program ended early and where it returned a value -/
def Ends (E : ε → Prop) (R : α → σ → Prop) : Except ε (α × σ) → Prop
  | .error e => E e
  | .ok r => R r.1 r.2

/-- A run stays within the account if each of its commands does. -/
theorem Wp.exec {h : Stepper Op Resp σ ε} {γ : A → σ → Prop} {E : ε → Prop}
    (hD : ∀ op a s, γ a s → D.pre op a → Ends E (fun r s' => ∃ a', D.next op a r a' ∧ γ a' s') (h op s))
    {p : Prog Op Resp α} {a : A} {s : σ} {Q : α → A → Prop} (hp : p.Wp D a Q) (hs : γ a s) :
    Ends E (fun x s' => ∃ a', Q x a' ∧ γ a' s') (p.exec h s) := by
  induction p generalizing a s with
  | ret x => exact ⟨a, hp, hs⟩
  | call op k ih =>
    have hop := hD op a s hs hp.1
    rw [Prog.exec]
    cases hstep : h op s with
    | error e =>
      rw [hstep] at hop
      exact hop
    | ok r =>
      rw [hstep] at hop
      obtain ⟨a', hnext, hs'⟩ := hop
      exact ih r.1 (hp.2 r.1 a' hnext) hs'

/-! ## Two meanings that agree up to a point -/

/-- Two meanings agree on the commands up to a point. Then they agree on the runs that do not pass it; and a run that
passes it ends there under the one meaning, if what the point is like under the other one allows it. -/
theorem exec_lockstep (h h' : Stepper Op Resp σ ε) (state : ε → σ) (good late allowed : σ → Prop) (E : ε → Prop)
    (hgood : ∀ op s, good s → ∀ r, h' op s = .ok r → good r.2)
    (hstay : ∀ op s, good s → late s → late (final state (h' op s)) ∧ (allowed (final state (h' op s)) → allowed s))
    (hagree : ∀ op s, good s → ¬ late s → ¬ late (final state (h' op s)) → h op s = h' op s)
    (hpass : ∀ op s, good s → ¬ late s → late (final state (h' op s)) → allowed (final state (h' op s)) →
      ∃ e, h op s = .error e ∧ E e)
    (p : Prog Op Resp α) {s : σ} (hs : good s) (hbefore : ¬ late s) :
    (¬ late (final state (p.exec h' s)) ∧ p.exec h s = p.exec h' s) ∨
      (late (final state (p.exec h' s)) ∧
        (allowed (final state (p.exec h' s)) → ∃ e, p.exec h s = .error e ∧ E e)) := by
  have hlate : ∀ (p : Prog Op Resp α) (s : σ), good s → late s →
      late (final state (p.exec h' s)) ∧ (allowed (final state (p.exec h' s)) → allowed s) := by
    intro p
    induction p with
    | ret x => exact fun s _ hs => ⟨hs, id⟩
    | call op k ih =>
      intro s hs hpast
      obtain ⟨hnext, hback⟩ := hstay op s hs hpast
      have hkeep := hgood op s hs
      rw [Prog.exec]
      cases hstep : h' op s with
      | error e =>
        rw [hstep] at hnext hback
        exact ⟨hnext, hback⟩
      | ok r =>
        rw [hstep] at hnext hback
        obtain ⟨hend, hendback⟩ := ih r.1 r.2 (hkeep r hstep) hnext
        exact ⟨hend, fun hallowed => hback (hendback hallowed)⟩
  induction p generalizing s with
  | ret x => exact .inl ⟨hbefore, rfl⟩
  | call op k ih =>
    have hnext := hgood op s hs
    rw [Prog.exec, Prog.exec]
    by_cases hpoint : late (final state (h' op s))
    · right
      have hstep := hpass op s hs hbefore hpoint
      cases hop : h' op s with
      | error e =>
        rw [hop] at hpoint hstep
        refine ⟨hpoint, fun hallowed => ?_⟩
        obtain ⟨e', he', hE⟩ := hstep hallowed
        rw [he']
        exact ⟨e', rfl, hE⟩
      | ok r =>
        rw [hop] at hpoint hstep
        obtain ⟨hend, hback⟩ := hlate (k r.1) r.2 (hnext r hop) hpoint
        refine ⟨hend, fun hallowed => ?_⟩
        obtain ⟨e', he', hE⟩ := hstep (hback hallowed)
        rw [he']
        exact ⟨e', rfl, hE⟩
    · have hstep := hagree op s hs hbefore hpoint
      rw [hstep]
      cases hop : h' op s with
      | error e =>
        rw [hop] at hpoint
        exact .inl ⟨hpoint, rfl⟩
      | ok r =>
        rw [hop] at hpoint
        exact ih r.1 (hnext r hop) hpoint

end Prog
