import Mathlib.Logic.Basic

namespace Lsmdb.Effect

/-!
# Programs over fallible steps

A program is a tree of steps on some device: each step is asked for once, and the program
goes on with the answer, or with nothing when the step has failed.  One program has three
readings here.

* `Prog.run` — every step is carried out.
* `Prog.Crash` — the program is stopped between two steps, or in the middle of one.
* `Prog.Fails` — one step fails and the program goes on from there.

The bind rules let each reading be worked out procedure by procedure.  A program of which only
the kind of steps matters is described by a `Contract`: what it asks for, and what it may expect
of the answers.  `Keeps.run`, `Keeps.crash` and `Keeps.fails` carry an invariant of the device
through all three readings.
-/

/-- A program over steps `ι`.  Step `i` answers with a value of `ρ i`, or fails. -/
inductive Prog (ι : Type) (ρ : ι → Type) (α : Type) where
  | ret (a : α)
  | step (i : ι) (next : Option (ρ i) → Prog ι ρ α)

/-- What the steps do to a state.  `cut i s t` says that a step `i` which is interrupted, or
    fails half-way, may leave `t`; a step may always be stopped before it does anything. -/
structure Device (ι : Type) (ρ : ι → Type) (σ : Type) where
  perform : (i : ι) → σ → σ × Option (ρ i)
  cut : ι → σ → σ → Prop

namespace Prog

variable {ι σ α β : Type} {ρ : ι → Type}

def bind : Prog ι ρ α → (α → Prog ι ρ β) → Prog ι ρ β
  | .ret a, f => f a
  | .step i next, f => .step i fun r => (next r).bind f

@[simp] theorem ret_bind (a : α) (f : α → Prog ι ρ β) : (Prog.ret a).bind f = f a := rfl

/-- Step `i`, and `failed` if it does not go through. -/
def attempt (i : ι) (failed : Prog ι ρ α) (next : ρ i → Prog ι ρ α) : Prog ι ρ α :=
  .step i fun
    | none => failed
    | some r => next r

/-- Step `i`, whatever becomes of it. -/
def ignore (i : ι) (next : Prog ι ρ α) : Prog ι ρ α := .step i fun _ => next

variable (d : Device ι ρ σ)

/-! ### All steps carried out -/

/-- The final state and the result, when every step is carried out. -/
def run : Prog ι ρ α → σ → σ × α
  | .ret a, s => (s, a)
  | .step i next, s => (next (d.perform i s).2).run (d.perform i s).1

@[simp] theorem run_ret (a : α) (s : σ) : (Prog.ret a : Prog ι ρ α).run d s = (s, a) := rfl

theorem run_bind (p : Prog ι ρ α) (f : α → Prog ι ρ β) (s : σ) :
    (p.bind f).run d s = (f (p.run d s).2).run d (p.run d s).1 := by
  induction p generalizing s with
  | ret a => rfl
  | step i next ih => exact ih _ _

theorem run_attempt_some {i : ι} {failed : Prog ι ρ α} {next : ρ i → Prog ι ρ α} {s s' : σ}
    {r : ρ i} (h : d.perform i s = (s', some r)) :
    (attempt i failed next).run d s = (next r).run d s' := by
  simp only [attempt, run, h]

/-! ### Stopped at some point -/

/-- `p`, started in `s`, may be stopped with the device in state `t`. -/
def Crash : Prog ι ρ α → σ → σ → Prop
  | .ret _, s, t => t = s
  | .step i next, s, t =>
      t = s ∨ d.cut i s t ∨ (next (d.perform i s).2).Crash (d.perform i s).1 t

@[simp] theorem crash_ret (a : α) (s t : σ) :
    (Prog.ret a : Prog ι ρ α).Crash d s t ↔ t = s := Iff.rfl

theorem crash_start (p : Prog ι ρ α) (s : σ) : p.Crash d s s := by
  cases p with
  | ret a => exact rfl
  | step i next => exact Or.inl rfl

theorem crash_bind (p : Prog ι ρ α) (f : α → Prog ι ρ β) (s t : σ) :
    (p.bind f).Crash d s t
      ↔ p.Crash d s t ∨ (f (p.run d s).2).Crash d (p.run d s).1 t := by
  induction p generalizing s with
  | ret a =>
    constructor
    · intro h
      exact Or.inr h
    · rintro (h | h)
      · rw [crash_ret] at h
        subst h
        exact crash_start d (f a) t
      · exact h
  | step i next ih =>
    show (t = s ∨ d.cut i s t ∨ ((next _).bind f).Crash d _ t)
      ↔ ((t = s ∨ d.cut i s t ∨ (next _).Crash d _ t) ∨ _)
    rw [ih, or_assoc, or_assoc]
    rfl

theorem crash_attempt_some {i : ι} {failed : Prog ι ρ α} {next : ρ i → Prog ι ρ α} {s s' : σ}
    {r : ρ i} (h : d.perform i s = (s', some r)) (t : σ) :
    (attempt i failed next).Crash d s t ↔ t = s ∨ d.cut i s t ∨ (next r).Crash d s' t := by
  simp only [attempt, Crash, h]

/-! ### One step failing -/

/-- What a failed step `i` may leave. -/
def Left (i : ι) (s t : σ) : Prop := t = s ∨ d.cut i s t

/-- Step `i` of `p` fails with the device in state `mid`, and the program ends in state `t`
    with result `a`; all other steps are carried out. -/
def Fails : Prog ι ρ α → σ → ι → σ → σ × α → Prop
  | .ret _, _, _, _, _ => False
  | .step j next, s, i, mid, out =>
      (i = j ∧ mid = s ∧ ∃ c, Left d j s c ∧ (next none).run d c = out)
        ∨ (next (d.perform j s).2).Fails (d.perform j s).1 i mid out

@[simp] theorem fails_ret (a : α) (s : σ) (i : ι) (mid : σ) (out : σ × α) :
    ¬(Prog.ret a : Prog ι ρ α).Fails d s i mid out := fun h => h

theorem fails_bind (p : Prog ι ρ α) (f : α → Prog ι ρ β) (s : σ) (i : ι) (mid : σ)
    (out : σ × β) :
    (p.bind f).Fails d s i mid out
      ↔ (∃ o, p.Fails d s i mid o ∧ (f o.2).run d o.1 = out)
        ∨ (f (p.run d s).2).Fails d (p.run d s).1 i mid out := by
  induction p generalizing s with
  | ret a => simp [bind, run]
  | step j next ih =>
    show (_ ∨ ((next _).bind f).Fails d _ i mid out) ↔ _
    rw [ih]
    constructor
    · rintro (⟨hi, hm, c, hc, hrun⟩ | ⟨o, ho, hrun⟩ | h)
      · refine Or.inl ⟨(next none).run d c, Or.inl ⟨hi, hm, c, hc, rfl⟩, ?_⟩
        rw [← hrun]
        exact (run_bind d (next none) f c).symm
      · exact Or.inl ⟨o, Or.inr ho, hrun⟩
      · exact Or.inr h
    · rintro (⟨o, ⟨hi, hm, c, hc, hrun⟩ | ho, hout⟩ | h)
      · refine Or.inl ⟨hi, hm, c, hc, ?_⟩
        rw [← hout, ← hrun]
        exact run_bind d (next none) f c
      · exact Or.inr (Or.inl ⟨o, ho, hout⟩)
      · exact Or.inr (Or.inr h)

end Prog

/-! ### Contracts -/

variable {ι σ α β : Type} {ρ : ι → Type}

/-- The steps a program may ask for, and what it may expect of their answers. -/
structure Contract (ι : Type) (ρ : ι → Type) where
  asks : ι → Prop
  answers : (i : ι) → ρ i → Prop

/-- The device answers as `K` says while it is in a state with `Inv`, and stays in one. -/
structure Contract.Upheld (K : Contract ι ρ) (d : Device ι ρ σ) (Inv : σ → Prop) : Prop where
  perform : ∀ i s, K.asks i → Inv s → Inv (d.perform i s).1
  answer : ∀ i s r, K.asks i → Inv s → (d.perform i s).2 = some r → K.answers i r
  cut : ∀ i s t, K.asks i → Inv s → d.cut i s t → Inv t

namespace Prog

variable {K K' : Contract ι ρ} {Q Q' : α → Prop} {d : Device ι ρ σ} {Inv : σ → Prop}

/-- The program keeps to `K`, and its result has `Q`, whichever steps fail. -/
inductive Keeps (K : Contract ι ρ) (Q : α → Prop) : Prog ι ρ α → Prop where
  | ret {a : α} (ha : Q a) : Keeps K Q (.ret a)
  | step {i : ι} {next : Option (ρ i) → Prog ι ρ α} (hi : K.asks i)
      (hfailed : Keeps K Q (next none)) (hnext : ∀ r, K.answers i r → Keeps K Q (next (some r))) :
      Keeps K Q (.step i next)

theorem Keeps.attempt {i : ι} {failed : Prog ι ρ α} {next : ρ i → Prog ι ρ α} (hi : K.asks i)
    (hfailed : failed.Keeps K Q) (hnext : ∀ r, K.answers i r → (next r).Keeps K Q) :
    (Prog.attempt i failed next).Keeps K Q := .step hi hfailed hnext

theorem Keeps.ignore {i : ι} {next : Prog ι ρ α} (hi : K.asks i) (hnext : next.Keeps K Q) :
    (Prog.ignore i next).Keeps K Q := .step hi hnext fun _ _ => hnext

theorem Keeps.bind {p : Prog ι ρ α} {f : α → Prog ι ρ β} {R : β → Prop} (hp : p.Keeps K Q)
    (hf : ∀ a, Q a → (f a).Keeps K R) : (p.bind f).Keeps K R := by
  induction hp with
  | ret ha => exact hf _ ha
  | step hi _ _ ihfailed ihnext => exact .step hi ihfailed ihnext

/-- A program that asks for less and expects less keeps to the wider contract. -/
theorem Keeps.mono {p : Prog ι ρ α} (hp : p.Keeps K Q) (hasks : ∀ i, K.asks i → K'.asks i)
    (hanswers : ∀ i r, K'.answers i r → K.answers i r) (hQ : ∀ a, Q a → Q' a) :
    p.Keeps K' Q' := by
  induction hp with
  | ret ha => exact .ret (hQ _ ha)
  | step hi _ _ ihfailed ihnext =>
    exact .step (hasks _ hi) ihfailed fun r hr => ihnext r (hanswers _ r hr)

theorem Keeps.run {p : Prog ι ρ α} (hK : K.Upheld d Inv) (hp : p.Keeps K Q) {s : σ}
    (hs : Inv s) : Inv (p.run d s).1 ∧ Q (p.run d s).2 := by
  induction hp generalizing s with
  | ret ha => exact ⟨hs, ha⟩
  | @step i next hi _ _ ihfailed ihnext =>
    have hs' := hK.perform i s hi hs
    rw [Prog.run]
    cases hr : (d.perform i s).2 with
    | none => exact ihfailed hs'
    | some r => exact ihnext r (hK.answer i s r hi hs hr) hs'

theorem Keeps.crash {p : Prog ι ρ α} (hK : K.Upheld d Inv) (hp : p.Keeps K Q) {s t : σ}
    (hs : Inv s) (h : p.Crash d s t) : Inv t := by
  induction hp generalizing s with
  | ret _ =>
    rw [crash_ret] at h
    exact h ▸ hs
  | @step i next hi _ _ ihfailed ihnext =>
    rcases h with rfl | h | h
    · exact hs
    · exact hK.cut i s t hi hs h
    · have hs' := hK.perform i s hi hs
      cases hr : (d.perform i s).2 with
      | none => exact ihfailed hs' (hr ▸ h)
      | some r => exact ihnext r (hK.answer i s r hi hs hr) hs' (hr ▸ h)

theorem Keeps.fails {p : Prog ι ρ α} (hK : K.Upheld d Inv) (hp : p.Keeps K Q) {s mid : σ} {j : ι}
    {out : σ × α} (hs : Inv s) (h : p.Fails d s j mid out) : Inv out.1 ∧ Q out.2 := by
  induction hp generalizing s with
  | @ret a _ => exact absurd h (fails_ret d a s j mid out)
  | @step i next hi hfailed _ ihfailed ihnext =>
    rcases h with ⟨-, -, c, hc | hc, rfl⟩ | h
    · exact hfailed.run hK (hc ▸ hs)
    · exact hfailed.run hK (hK.cut i s c hi hs hc)
    · have hs' := hK.perform i s hi hs
      cases hr : (d.perform i s).2 with
      | none => exact ihfailed hs' (hr ▸ h)
      | some r => exact ihnext r (hK.answer i s r hi hs hr) hs' (hr ▸ h)

end Prog

end Lsmdb.Effect
