/-
# `LineCalc.Proofs.Walk` — computations that leave notes

A walk is a computation together with the notes it leaves on its way, and it ends with a
value or stops short.  What it may stop at is an error, which is an answer, or a breach: a
step that whoever wrote the computation held to be impossible.  `Walk.Keeps` says at once
what holds of all notes, of every stop and of the value.
-/

namespace LineCalc

/-- How a computation stops short: with an error that it reports, or at a step that it cannot
take. -/
inductive Stop (ε β : Type) where
  | error (e : ε)
  | breach (b : β)
deriving DecidableEq, Repr

/-- The result of a computation that knows no breach. -/
def unbroken {ε α : Type} (β : Type) (x : Except ε α) : Except (Stop ε β) α :=
  x.mapError Stop.error

theorem unbroken_ne_breach {ε α β : Type} (x : Except ε α) (b : β) :
    unbroken β x ≠ .error (.breach b) := by
  cases x <;> exact nofun

theorem unbroken_bind {ε α α' β : Type} {x : Except ε α} {f : α → Except (Stop ε β) α'}
    {g : α → Except ε α'} (h : ∀ a, f a = unbroken β (g a)) :
    (unbroken β x >>= f) = unbroken β (x >>= g) := by
  cases x with
  | error e => rfl
  | ok a => exact h a

theorem unbroken_map {ε α α' β : Type} (x : Except ε α) (f : α → α') :
    (unbroken β x).map f = unbroken β (x.map f) := by
  cases x <;> rfl

/-- `FailsAs x stop`: a computation may stop so, which is at an error, and `x` fails with it. -/
def FailsAs {ε α β : Type} (x : Except ε α) : Stop ε β → Prop
  | .error e => x = .error e
  | .breach _ => False

/-- A computation: the notes it leaves, from the first to the last, and its result. -/
structure Walk (ω ε α : Type) where
  notes : List ω
  result : Except ε α

namespace Walk

variable {ω ε α β : Type}

def note (x : ω) : Walk ω ε Unit := ⟨[x], .ok ()⟩

def stop (e : ε) : Walk ω ε α := ⟨[], .error e⟩

/-- Goes on with the value of a walk, if it has one. -/
def andThen (w : Walk ω ε α) (f : α → Walk ω ε β) : Walk ω ε β :=
  match w.result with
  | .ok a => ⟨w.notes ++ (f a).notes, (f a).result⟩
  | .error e => ⟨w.notes, .error e⟩

instance : Monad (Walk ω ε) where
  pure a := ⟨[], .ok a⟩
  bind := andThen

theorem pure_bind (a : α) (f : α → Walk ω ε β) : (pure a >>= f) = f a := rfl

theorem result_bind (w : Walk ω ε α) (f : α → Walk ω ε β) :
    (w >>= f).result = w.result.bind fun a => (f a).result := by
  show (w.andThen f).result = _
  unfold andThen
  cases w.result <;> rfl

theorem result_bind_congr (w : Walk ω ε α) {f g : α → Walk ω ε β}
    (h : ∀ a, (f a).result = (g a).result) : (w >>= f).result = (w >>= g).result := by
  rw [result_bind, result_bind]
  exact congrArg w.result.bind (funext h)

theorem bind_of_ok {w : Walk ω ε α} {a : α} (h : w.result = .ok a) (f : α → Walk ω ε β) :
    w >>= f = ⟨w.notes ++ (f a).notes, (f a).result⟩ := by
  show w.andThen f = _
  unfold andThen
  rw [h]

theorem bind_of_error {w : Walk ω ε α} {e : ε} (h : w.result = .error e) (f : α → Walk ω ε β) :
    w >>= f = ⟨w.notes, .error e⟩ := by
  show w.andThen f = _
  unfold andThen
  rw [h]

/-- `w.Keeps P E Q`: all notes of the walk satisfy `P`, it stops only as `E` allows, and its value
satisfies `Q`. -/
structure Keeps (P : ω → Prop) (E : ε → Prop) (Q : α → Prop) (w : Walk ω ε α) : Prop where
  notes : ∀ x ∈ w.notes, P x
  stop : ∀ e, w.result = .error e → E e
  value : ∀ a, w.result = .ok a → Q a

variable {P : ω → Prop} {E : ε → Prop} {Q : α → Prop}

theorem keeps_pure {a : α} (h : Q a) : (pure a : Walk ω ε α).Keeps P E Q := by
  refine ⟨nofun, nofun, fun b hb => ?_⟩
  cases hb
  exact h

theorem keeps_stop {e : ε} (h : E e) : (Walk.stop e : Walk ω ε α).Keeps P E Q := by
  refine ⟨nofun, fun e' he' => ?_, nofun⟩
  cases he'
  exact h

theorem keeps_note {x : ω} (h : P x) {Q : Unit → Prop} (hQ : Q ()) :
    (note x : Walk ω ε Unit).Keeps P E Q := by
  refine ⟨fun y hy => ?_, nofun, fun b _ => hQ⟩
  rw [List.mem_singleton.mp hy]
  exact h

theorem Keeps.mono {E' : ε → Prop} {Q' : α → Prop} {w : Walk ω ε α} (h : w.Keeps P E Q)
    (hE : ∀ e, E e → E' e) (hQ : ∀ a, Q a → Q' a) : w.Keeps P E' Q' :=
  ⟨h.notes, fun e he => hE e (h.stop e he), fun a ha => hQ a (h.value a ha)⟩

theorem Keeps.bind {R : β → Prop} {w : Walk ω ε α} {f : α → Walk ω ε β} (h : w.Keeps P E Q)
    (hf : ∀ a, Q a → (f a).Keeps P E R) : (w >>= f).Keeps P E R := by
  cases hw : w.result with
  | error e =>
      rw [bind_of_error hw]
      refine ⟨h.notes, fun e' he' => ?_, nofun⟩
      cases he'
      exact h.stop e hw
  | ok a =>
      rw [bind_of_ok hw]
      have hrest := hf a (h.value a hw)
      refine ⟨fun x hx => ?_, hrest.stop, hrest.value⟩
      rcases List.mem_append.mp hx with hx | hx
      · exact h.notes x hx
      · exact hrest.notes x hx

/-- A walk that stops as `x` fails, and otherwise has the value of `x`, comes to `x`. -/
theorem Keeps.result_eq {w : Walk ω (Stop ε β) α} {x : Except ε α}
    (h : w.Keeps P (FailsAs x) fun a => x = .ok a) : w.result = unbroken β x := by
  cases hw : w.result with
  | ok a => rw [h.value a hw]; rfl
  | error stop =>
      have hstop := h.stop stop hw
      cases stop with
      | error e => rw [show x = .error e from hstop]; rfl
      | breach b => exact hstop.elim

end Walk

end LineCalc
