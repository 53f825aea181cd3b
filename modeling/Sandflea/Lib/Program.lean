import Mathlib

/-!
# Programs over commands

A `Prog Op Resp α` is a sequential program that issues commands of `Op`, receives the responses of
`Resp`, and returns an `α`. A `Handler` gives the commands a meaning on a state; a command that has
no meaning in a state (an access out of bounds) makes the run fault. One program therefore has a
meaning over every state type with a handler, which is how an implementation of the commands is
compared with their specification: `run_sim` shows once, for every program, that a relation the
commands preserve is preserved by runs.

Facts about every command of a run are of two kinds. `All` speaks of the commands that the text of
a program can issue; `Along` of the commands that one run does issue, with the state in which it
issues each. `All.along` gives the second from the first. `Meets` is the rule for values: what a program
guarantees of its value and of its commands, if the responses are as it relies on.
-/

/-- A program that issues commands and returns a value. -/
inductive Prog (Op : Type) (Resp : Op → Type) (α : Type) : Type
  /-- Return a value. -/
  | ret (a : α)
  /-- Issue a command and continue with its response. -/
  | call (op : Op) (k : Resp op → Prog Op Resp α)

/-- The meaning of the commands on a state: the response and the next state, or a fault. -/
abbrev Handler (Op : Type) (Resp : Op → Type) (σ : Type) := (op : Op) → σ → Option (Resp op × σ)

namespace Prog

variable {Op : Type} {Resp : Op → Type} {σ τ α β γ : Type}

/-- Sequential composition. -/
protected def bind : Prog Op Resp α → (α → Prog Op Resp β) → Prog Op Resp β
  | ret a, f => f a
  | call op k, f => call op fun r => (k r).bind f

instance : Monad (Prog Op Resp) where
  pure := ret
  bind := Prog.bind

/-- The program that issues one command and returns its response. -/
def issue (op : Op) : Prog Op Resp (Resp op) := call op ret

theorem pure_eq (a : α) : (pure a : Prog Op Resp α) = ret a := rfl

@[simp] theorem ret_bind (a : α) (f : α → Prog Op Resp β) : ret a >>= f = f a := rfl

@[simp] theorem call_bind (op : Op) (k : Resp op → Prog Op Resp α) (f : α → Prog Op Resp β) :
    call op k >>= f = call op fun r => k r >>= f := rfl

theorem bind_ret (p : Prog Op Resp α) : p >>= ret = p := by
  induction p with
  | ret a => rfl
  | call op k ih => simp only [call_bind, ih]

theorem bind_assoc' (p : Prog Op Resp α) (f : α → Prog Op Resp β) (g : β → Prog Op Resp γ) :
    p >>= f >>= g = p >>= fun a => f a >>= g := by
  induction p with
  | ret a => rfl
  | call op k ih => simp only [call_bind, ih]

instance : LawfulMonad (Prog Op Resp) :=
  LawfulMonad.mk' _ bind_ret (fun _ _ => rfl) bind_assoc'

theorem ite_bind {c : Prop} [Decidable c] (p q : Prog Op Resp α) (f : α → Prog Op Resp β) :
    (if c then p else q) >>= f = if c then p >>= f else q >>= f := by
  split <;> rfl

/-! ## Runs -/

/-- The run of a program: its value and final state, or a fault. -/
def run (h : Handler Op Resp σ) : Prog Op Resp α → σ → Option (α × σ)
  | ret a, s => some (a, s)
  | call op k, s => (h op s).bind fun r => (k r.1).run h r.2

variable (h : Handler Op Resp σ)

@[simp] theorem run_ret (a : α) (s : σ) : (ret a).run h s = some (a, s) := rfl

@[simp] theorem run_pure (a : α) (s : σ) : run h (pure a) s = some (a, s) := rfl

theorem run_call (op : Op) (k : Resp op → Prog Op Resp α) (s : σ) :
    (call op k).run h s = (h op s).bind fun r => (k r.1).run h r.2 := rfl

@[simp] theorem run_issue (op : Op) (s : σ) : (issue op).run h s = h op s := by
  cases hr : h op s with
  | none => simp [issue, run_call, hr]
  | some r => simp [issue, run_call, hr]

/-- A run of a composition is a run of the first part, then of the second. -/
@[simp] theorem run_bind (p : Prog Op Resp α) (f : α → Prog Op Resp β) (s : σ) :
    (p >>= f).run h s = (p.run h s).bind fun r => (f r.1).run h r.2 := by
  induction p generalizing s with
  | ret a => rfl
  | call op k ih =>
    simp only [call_bind, run_call, ih, Option.bind_assoc]

/-! ## Facts about the commands of a program -/

/-- Every command in the text of the program satisfies `P`. -/
def All (P : Op → Prop) : Prog Op Resp α → Prop
  | ret _ => True
  | call op k => P op ∧ ∀ r, (k r).All P

/-- Every command that the run from `s` issues satisfies `P` in the state that issues it. -/
def Along (P : Op → σ → Prop) : Prog Op Resp α → σ → Prop
  | ret _, _ => True
  | call op k, s => P op s ∧ ∀ r ∈ h op s, (k r.1).Along P r.2

theorem All.ret {P : Op → Prop} (a : α) : (ret a : Prog Op Resp α).All P := trivial

@[simp] theorem All.pure {P : Op → Prop} (a : α) : (pure a : Prog Op Resp α).All P := trivial

theorem All.issue {P : Op → Prop} {op : Op} (hp : P op) : (issue op : Prog Op Resp (Resp op)).All P :=
  ⟨hp, fun _ => trivial⟩

@[simp] theorem all_issue_iff {P : Op → Prop} {op : Op} :
    (issue op : Prog Op Resp (Resp op)).All P ↔ P op :=
  ⟨fun h => h.1, All.issue⟩

/-- The values that the text of a program can return. -/
def Returns : Prog Op Resp α → α → Prop
  | ret a, b => b = a
  | call _ k, b => ∃ r, (k r).Returns b

/-- The commands of a composition are those of its parts. -/
@[simp] theorem all_bind_iff {P : Op → Prop} {p : Prog Op Resp α} {f : α → Prog Op Resp β} :
    (p >>= f).All P ↔ p.All P ∧ ∀ a, p.Returns a → (f a).All P := by
  induction p with
  | ret a => exact ⟨fun h => ⟨trivial, fun b hb => hb ▸ h⟩, fun h => h.2 a rfl⟩
  | call op k ih =>
    constructor
    · rintro ⟨hop, hk⟩
      refine ⟨⟨hop, fun r => ((ih r).mp (hk r)).1⟩, ?_⟩
      rintro a ⟨r, hr⟩
      exact ((ih r).mp (hk r)).2 a hr
    · rintro ⟨⟨hop, hk⟩, hf⟩
      exact ⟨hop, fun r => (ih r).mpr ⟨hk r, fun a ha => hf a ⟨r, ha⟩⟩⟩

theorem All.bind {P : Op → Prop} {p : Prog Op Resp α} {f : α → Prog Op Resp β} (hp : p.All P)
    (hf : ∀ a, (f a).All P) : (p >>= f).All P :=
  all_bind_iff.mpr ⟨hp, fun a _ => hf a⟩

@[simp] theorem all_map_iff {P : Op → Prop} {p : Prog Op Resp α} {f : α → β} :
    (f <$> p).All P ↔ p.All P := by
  rw [map_eq_pure_bind, all_bind_iff]
  exact and_iff_left fun _ _ => trivial

@[simp] theorem all_ite_iff {P : Op → Prop} {c : Prop} [Decidable c] {p q : Prog Op Resp α} :
    (if c then p else q).All P ↔ (c → p.All P) ∧ (¬ c → q.All P) := by
  split <;> simp [*]

theorem All.ite {P : Op → Prop} {c : Prop} [Decidable c] {p q : Prog Op Resp α}
    (hp : p.All P) (hq : q.All P) : (if c then p else q).All P := by
  split
  · exact hp
  · exact hq

theorem All.mono {P Q : Op → Prop} (hPQ : ∀ op, P op → Q op) {p : Prog Op Resp α} (hp : p.All P) :
    p.All Q := by
  induction p with
  | ret a => trivial
  | call op k ih => exact ⟨hPQ op hp.1, fun r => ih r (hp.2 r)⟩

/-- What the commands in the text of a program preserve is true of every command that its run
issues, and of the state it ends in. -/
theorem All.along {P : Op → Prop} {Q : Op → σ → Prop} {I : σ → Prop}
    (hI : ∀ op s, I s → P op → Q op s ∧ ∀ r ∈ h op s, I r.2) {p : Prog Op Resp α} (hp : p.All P) {s : σ}
    (hs : I s) : p.Along h Q s ∧ ∀ r ∈ p.run h s, I r.2 := by
  induction p generalizing s with
  | ret a =>
    refine ⟨trivial, ?_⟩
    rintro r hr
    simp only [run_ret, Option.mem_def, Option.some.injEq] at hr
    exact hr ▸ hs
  | call op k ih =>
    obtain ⟨hq, hnext⟩ := hI op s hs hp.1
    refine ⟨⟨hq, fun r hr => (ih r.1 (hp.2 r.1) (hnext r hr)).1⟩, ?_⟩
    intro r hr
    rw [run_call, Option.mem_def, Option.bind_eq_some_iff] at hr
    obtain ⟨r', hr', hrun⟩ := hr
    exact (ih r'.1 (hp.2 r'.1) (hnext r' hr')).2 r hrun

/-- A run that does not fault issues only commands that do not. -/
theorem along_of_run {p : Prog Op Resp α} {s : σ} {r : α × σ} (hr : p.run h s = some r) :
    p.Along h (fun op s => (h op s).isSome) s := by
  induction p generalizing s with
  | ret a => trivial
  | call op k ih =>
    rw [run_call, Option.bind_eq_some_iff] at hr
    obtain ⟨r', hr', hrun⟩ := hr
    refine ⟨Option.isSome_iff_exists.mpr ⟨r', hr'⟩, fun r'' hr'' => ?_⟩
    obtain rfl : r' = r'' := Option.some.inj (hr'.symm.trans hr'')
    exact ih r'.1 hrun

theorem Along.mono {P Q : Op → σ → Prop} (hPQ : ∀ op s, P op s → Q op s) {p : Prog Op Resp α}
    {s : σ} (hp : p.Along h P s) : p.Along h Q s := by
  induction p generalizing s with
  | ret a => trivial
  | call op k ih => exact ⟨hPQ op s hp.1, fun r hr => ih r.1 (hp.2 r hr)⟩

/-- An invariant of the commands in the text of a program is an invariant of its runs. -/
theorem All.run_invariant {P : Op → Prop} {I : σ → Prop}
    (hI : ∀ op s, I s → P op → ∀ r ∈ h op s, I r.2) {p : Prog Op Resp α} (hp : p.All P) {s : σ}
    (hs : I s) : ∀ r ∈ p.run h s, I r.2 :=
  (hp.along h (Q := fun _ _ => True) (fun op s hs hop => ⟨trivial, hI op s hs hop⟩) hs).2

/-! ## What a program relies on and guarantees -/

/-- If every response satisfies `G`, every command satisfies `P` and the value satisfies `Q`. -/
def Meets (G : (op : Op) → Resp op → Prop) (P : Op → Prop) (Q : α → Prop) : Prog Op Resp α → Prop
  | ret a => Q a
  | call op k => P op ∧ ∀ r, G op r → (k r).Meets G P Q

section

variable {G : (op : Op) → Resp op → Prop} {P : Op → Prop} {Q Q' : α → Prop} {R : β → Prop}

theorem Meets.pure {a : α} (hq : Q a) : (pure a : Prog Op Resp α).Meets G P Q := hq

theorem Meets.issue {op : Op} {Q : Resp op → Prop} (hp : P op) (hq : ∀ r, G op r → Q r) :
    (issue op : Prog Op Resp (Resp op)).Meets G P Q :=
  ⟨hp, hq⟩

/-- The second part of a composition relies on what the first guarantees. -/
theorem Meets.bind {p : Prog Op Resp α} {f : α → Prog Op Resp β} (hp : p.Meets G P Q)
    (hf : ∀ a, Q a → (f a).Meets G P R) : (p >>= f).Meets G P R := by
  induction p with
  | ret a => exact hf a hp
  | call op k ih => exact ⟨hp.1, fun r hr => ih r (hp.2 r hr)⟩

theorem Meets.ite {c : Prop} [Decidable c] {p q : Prog Op Resp α} (hp : c → p.Meets G P Q)
    (hq : ¬ c → q.Meets G P Q) : (if c then p else q).Meets G P Q := by
  split
  next hc => exact hp hc
  next hc => exact hq hc

/-- A program of which only the commands are known guarantees nothing of its value. -/
theorem All.meets {p : Prog Op Resp α} (hp : p.All P) : p.Meets G P fun _ => True := by
  induction p with
  | ret a => trivial
  | call op k ih => exact ⟨hp.1, fun r _ => ih r (hp.2 r)⟩

/-- What the commands keep, and the responses that it allows, hold along a run: the value is as
guaranteed. -/
theorem Meets.run {I : σ → Prop} (hI : ∀ op s, I s → P op → ∀ r ∈ h op s, G op r.1 ∧ I r.2)
    {p : Prog Op Resp α} (hp : p.Meets G P Q) {s : σ} (hs : I s) :
    ∀ r ∈ p.run h s, Q r.1 ∧ I r.2 := by
  induction p generalizing s with
  | ret a =>
    intro r hr
    rw [run_ret, Option.mem_def, Option.some.injEq] at hr
    subst hr
    exact ⟨hp, hs⟩
  | call op k ih =>
    intro r hr
    rw [run_call, Option.mem_def, Option.bind_eq_some_iff] at hr
    obtain ⟨r', hr', hrun⟩ := hr
    obtain ⟨hg, hs'⟩ := hI op s hs hp.1 r' hr'
    exact ih r'.1 (hp.2 r'.1 hg) hs' r hrun

end

/-! ## Simulation -/

/-- The two outcomes of a command or a run agree: both fault, or both return the same value in
related states. -/
def Agree (R : σ → τ → Prop) : Option (α × σ) → Option (α × τ) → Prop
  | none, none => True
  | some r, some r' => r.1 = r'.1 ∧ R r.2 r'.2
  | _, _ => False

/-- When related states give every command the same response and related next states, they give
every program the same value. The commands need to agree only where `P` holds, if every command of
the run satisfies `P`. -/
theorem run_sim {h : Handler Op Resp σ} {h' : Handler Op Resp τ} {R : σ → τ → Prop}
    {P : Op → σ → Prop} (hR : ∀ op s t, R s t → P op s → Agree R (h op s) (h' op t))
    {p : Prog Op Resp α} {s : σ} {t : τ} (hst : R s t) (hp : p.Along h P s) :
    Agree R (p.run h s) (p.run h' t) := by
  induction p generalizing s t with
  | ret a => exact ⟨rfl, hst⟩
  | call op k ih =>
    have hop := hR op s t hst hp.1
    rw [run_call, run_call]
    cases hs : h op s with
    | none =>
      cases ht : h' op t with
      | none => trivial
      | some r' => simp [hs, ht, Agree] at hop
    | some r =>
      cases ht : h' op t with
      | none => simp [hs, ht, Agree] at hop
      | some r' =>
        rw [hs, ht] at hop
        obtain ⟨hval, hrel⟩ := hop
        have hk := ih r.1 hrel (hp.2 r hs)
        simpa only [Option.bind_some, hval] using hk

end Prog
